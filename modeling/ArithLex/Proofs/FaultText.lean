import Mathlib
import ArithLex.Fault

/-!
# What the text of a fault tells

The messages of faults begin differently for each constructor, so that a message tells the
constructor, whatever the names and texts are that it quotes (`Fault.variant_eq_of_message_eq`). The
message of an illegal byte also tells the byte and the line (`Fault.message_illegalByte_inj`): the
byte is read back from its quoted form (`Byte.quoted_escaped_append`), and the line from its number.

The main result is `Fault.message_tells`.
-/

namespace ArithLex

/-! ## Quoted bytes -/

/-- Whether a character is printable ASCII. A line feed is not, but the space is. -/
def isPrintable (c : Char) : Bool :=
  0x20 ≤ c.toNat && c.toNat ≤ 0x7e

namespace Byte

/-- The number that a lower-case hexadecimal digit stands for. -/
def hexValue (c : Char) : Nat :=
  if c.toNat < 0x57 then c.toNat - 0x30 else c.toNat - 0x57

theorem hexValue_hexDigit : ∀ n < 16, hexValue (hexDigit n) = n := by
  decide

theorem isPrintable_hexDigit : ∀ n < 16, isPrintable (hexDigit n) = true := by
  decide

/-- The byte that is quoted at the start of a text. -/
def quoted : List Char → Byte
  | '\\' :: 't' :: _ => 0x09
  | '\\' :: 'n' :: _ => 0x0a
  | '\\' :: 'r' :: _ => 0x0d
  | '\\' :: 'x' :: high :: low :: _ => UInt8.ofNat (16 * hexValue high + hexValue low)
  | '\\' :: c :: _ => UInt8.ofNat c.toNat
  | c :: _ => UInt8.ofNat c.toNat
  | [] => 0

theorem quoted_cons {c : Char} (h : c ≠ '\\') (rest : List Char) :
    quoted (c :: rest) = UInt8.ofNat c.toNat := by
  unfold quoted
  split <;> simp_all

theorem toNat_ofNat_toNat (b : Byte) : (Char.ofNat b.toNat).toNat = b.toNat := by
  have hlt := b.toNat_lt
  rw [Char.toNat_ofNat, if_pos (.inl (by omega))]

/-- A byte is read back from its quoted form, whatever follows. -/
theorem quoted_escaped_append (b : Byte) (rest : List Char) : quoted (b.escaped ++ rest) = b := by
  have hlt := b.toNat_lt
  unfold escaped
  split_ifs with htab hfeed hreturn hquote hprintable
  · rw [beq_iff_eq.1 htab]
    rfl
  · rw [beq_iff_eq.1 hfeed]
    rfl
  · rw [beq_iff_eq.1 hreturn]
    rfl
  · simp only [Bool.or_eq_true, beq_iff_eq, or_assoc] at hquote
    rcases hquote with rfl | rfl | rfl <;> rfl
  · -- the byte stands for itself, and it is no backslash
    have hne : Char.ofNat b.toNat ≠ '\\' := by
      intro h
      have hnat := congrArg Char.toNat h
      rw [toNat_ofNat_toNat] at hnat
      have hb : b = 0x5c := UInt8.toNat_inj.1 hnat
      rw [hb] at hquote
      exact hquote rfl
    rw [List.singleton_append, quoted_cons hne, toNat_ofNat_toNat, UInt8.ofNat_toNat]
  · have hhigh := hexValue_hexDigit (b.toNat / 16) (by omega)
    have hlow := hexValue_hexDigit (b.toNat % 16) (by omega)
    simp only [List.cons_append, List.nil_append, quoted, hhigh, hlow, Nat.div_add_mod,
      UInt8.ofNat_toNat]

theorem all_isPrintable_escaped (b : Byte) : b.escaped.all isPrintable = true := by
  have hlt := b.toNat_lt
  unfold escaped
  split_ifs with htab hfeed hreturn hquote hprintable
  · rfl
  · rfl
  · rfl
  · simp only [Bool.or_eq_true, beq_iff_eq, or_assoc] at hquote
    rcases hquote with rfl | rfl | rfl <;> rfl
  · simpa [isPrintable, toNat_ofNat_toNat, UInt8.le_iff_toNat_le] using hprintable
  · have hhigh := isPrintable_hexDigit (b.toNat / 16) (by omega)
    have hlow := isPrintable_hexDigit (b.toNat % 16) (by omega)
    simp only [List.all_cons, hhigh, hlow]
    rfl

end Byte

namespace Fault

/-! ## Constructors -/

/-- The constructors of faults. -/
inductive Variant where
  | illegalByte
  | cannotOpen
  | cannotRead
  | cannotWrite
deriving DecidableEq, Repr

/-- The constructor of a fault. -/
def variant : Fault → Variant
  | illegalByte _ _ => .illegalByte
  | cannotOpen _ _ => .cannotOpen
  | cannotRead _ _ => .cannotRead
  | cannotWrite _ => .cannotWrite

/-- What the messages of a constructor begin with. -/
def Variant.head : Variant → String
  | illegalByte => "unrecognised character '"
  | cannotOpen => "unable to open file "
  | cannotRead => "error reading "
  | cannotWrite => "error writing tokens: "

theorem exists_message_eq (f : Fault) : ∃ rest, f.message = f.variant.head ++ rest := by
  cases f with
  | illegalByte b place =>
    exact ⟨String.ofList b.escaped ++ "'" ++ placeText (some place), by
      simp only [← String.append_assoc]; rfl⟩
  | cannotOpen path cause =>
    exact ⟨path ++ ": " ++ cause.text ++ "", by simp only [← String.append_assoc]; rfl⟩
  | cannotRead name cause =>
    exact ⟨name ++ ": " ++ cause.text ++ "", by simp only [← String.append_assoc]; rfl⟩
  | cannotWrite cause => exact ⟨cause.text ++ "", by simp only [← String.append_assoc]; rfl⟩

/-- The first seven characters of a message tell the constructor. -/
theorem take_toList_message (f : Fault) :
    f.message.toList.take 7 = f.variant.head.toList.take 7 := by
  have hlength : 7 ≤ f.variant.head.toList.length := by
    cases f.variant <;> decide
  obtain ⟨rest, hrest⟩ := f.exists_message_eq
  rw [hrest, String.toList_append, List.take_append_of_le_length hlength]

/-- Faults with one message have one constructor. -/
theorem variant_eq_of_message_eq {f g : Fault} (h : f.message = g.message) :
    f.variant = g.variant := by
  have hhead : f.variant.head.toList.take 7 = g.variant.head.toList.take 7 := by
    rw [← take_toList_message, h, take_toList_message]
  generalize f.variant = v at hhead
  generalize g.variant = w at hhead
  cases v <;> cases w <;> first | rfl | exact absurd hhead (by decide)

theorem category_eq_of_variant_eq {f g : Fault} (h : f.variant = g.variant) :
    f.category = g.category := by
  cases f <;> cases g <;> first | rfl | contradiction

/-! ## Illegal bytes -/

/-- The message of an illegal byte: the byte is quoted, and the line is in decimal. -/
theorem toList_message_illegalByte (b : Byte) (place : Position) :
    (illegalByte b place).message.toList = "unrecognised character '".toList ++
      (b.escaped ++ ("' on line ".toList ++ place.line.toNat.repr.toList)) := by
  have hmessage : (illegalByte b place).message =
      "unrecognised character '" ++ String.ofList b.escaped ++ "'" ++
        (" on line " ++ place.line.toNat.repr) := rfl
  have hseam : "' on line ".toList = "'".toList ++ " on line ".toList := by decide
  rw [hmessage, hseam]
  simp only [String.toList_append, String.toList_ofList, List.append_assoc]

/-- The message of an illegal byte tells the byte and the line, and nothing else. -/
theorem message_illegalByte_inj {b c : Byte} {p q : Position} :
    (illegalByte b p).message = (illegalByte c q).message ↔ b = c ∧ p.line = q.line := by
  rw [← String.toList_inj, toList_message_illegalByte, toList_message_illegalByte,
    List.append_cancel_left_eq]
  constructor
  · intro h
    have hbyte : b = c := by
      rw [← b.quoted_escaped_append, h, Byte.quoted_escaped_append]
    rw [hbyte, List.append_cancel_left_eq, List.append_cancel_left_eq] at h
    exact ⟨hbyte, UInt32.toNat_inj.1 (Nat.repr_injective (String.toList_inj.1 h))⟩
  · rintro ⟨rfl, hline⟩
    rw [hline]

theorem all_isPrintable_repr (n : Nat) : n.repr.toList.all isPrintable = true := by
  rw [Nat.toList_repr, List.all_eq_true]
  intro c hc
  have hdigit := Char.isDigit_iff_toNat.1 (Nat.isDigit_of_mem_toDigits (by decide) (by decide) hc)
  have hzero : '0'.toNat = 0x30 := rfl
  have hnine : '9'.toNat = 0x39 := rfl
  simp only [isPrintable, Bool.and_eq_true, decide_eq_true_eq]
  omega

/-- The message of an illegal byte is printable, whatever the byte. -/
theorem all_isPrintable_message (b : Byte) (place : Position) :
    (illegalByte b place).message.toList.all isPrintable = true := by
  have hhead : "unrecognised character '".toList.all isPrintable = true := by decide
  have hseam : "' on line ".toList.all isPrintable = true := by decide
  rw [toList_message_illegalByte, List.all_append, List.all_append, List.all_append, hhead,
    b.all_isPrintable_escaped, hseam, all_isPrintable_repr]
  rfl

/-! ## Lines -/

/-- Lexical faults are those that have a position. -/
theorem isSome_position?_iff (f : Fault) :
    f.position?.isSome = true ↔ f.category.name = "LexError" := by
  have hname (k : Category) : k.name = "LexError" ↔ k = .lexical := by
    cases k <;> decide
  rw [hname]
  cases f <;> simp [position?, category]

/-- Without a position there is nothing behind the summary. -/
theorem message_eq_summary {f : Fault} (h : f.position? = none) : f.message = f.summary := by
  rw [message, h]
  exact String.append_empty

/-- A message names a line exactly if the fault has a position, and then it is the line of the
position. -/
theorem message_eq_summary_append_iff (f : Fault) (line : Nat) :
    f.message = f.summary ++ " on line " ++ toString line ↔
      ∃ place, f.position? = some place ∧ place.line.toNat = line := by
  rw [String.append_assoc, message, String.append_right_inj]
  rcases f.position? with _ | place
  · -- without a position there is nothing behind the summary
    refine iff_of_false (fun h => ?_) (by simp)
    have hlength := congrArg String.length h
    rw [String.length_append] at hlength
    change 0 = 9 + _ at hlength
    omega
  · change " on line " ++ place.line.toNat.repr = " on line " ++ line.repr ↔ _
    rw [String.append_right_inj, Nat.repr_inj]
    simp

/-- What the message of a fault tells. Two faults with one message have one constructor, and so one
category, and if they are illegal bytes, these are the same and lie on lines of one number. The
message of an illegal byte is printable ASCII, without a line feed. Every message is the first text
of the trail, and the line stands behind it exactly if the fault has a position, as the lexical
faults do and no others. -/
theorem message_tells (f g : Fault) :
    (f.message = g.message → f.variant = g.variant ∧ f.category.name = g.category.name) ∧
    (∀ b c p q, (illegalByte b p).message = (illegalByte c q).message ↔
      b = c ∧ p.line = q.line) ∧
    (∀ b place, (illegalByte b place).message.toList.all isPrintable = true) ∧
    (∃ first behind, f.trail = first :: behind ∧
      (∀ line, f.message = first ++ " on line " ++ toString line ↔
        ∃ place, f.position? = some place ∧ place.line.toNat = line) ∧
      (f.position? = none → f.message = first)) ∧
    (f.position?.isSome = true ↔ f.category.name = "LexError") := by
  refine ⟨?_, fun _ _ _ _ => message_illegalByte_inj, all_isPrintable_message, ?_, ?_⟩
  · intro h
    have hvariant := variant_eq_of_message_eq h
    exact ⟨hvariant, congrArg Category.name (category_eq_of_variant_eq hvariant)⟩
  · exact ⟨f.summary, _, rfl, f.message_eq_summary_append_iff, message_eq_summary⟩
  · exact f.isSome_position?_iff

-- A quote is told apart from the quotes around it.
example : (illegalByte 0x27 ⟨3, "input"⟩).message = "unrecognised character '\\'' on line 3" := by
  decide

end Fault

end ArithLex
