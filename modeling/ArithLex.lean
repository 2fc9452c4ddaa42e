import ArithLex.CommandLine
import ArithLex.Grammar
import ArithLex.Main
import ArithLex.Program
import ArithLex.Proofs.Scan
import ArithLex.Proofs.Run
import ArithLex.Proofs.Rendering
import ArithLex.Proofs.View
import ArithLex.Proofs.Shift
import ArithLex.Proofs.WholeText
import ArithLex.Proofs.Items
import ArithLex.Proofs.Segments
import ArithLex.Proofs.Lines
import ArithLex.Proofs.ListingOutcome
import ArithLex.Proofs.NormalForm
import ArithLex.Proofs.Indistinguishable
import ArithLex.Proofs.Drivers
import ArithLex.Proofs.Handover
import ArithLex.Proofs.SilentRun
import ArithLex.Proofs.Delivery
import ArithLex.Proofs.OneScan
import ArithLex.Proofs.Concatenation
import ArithLex.Proofs.LineCounter
import ArithLex.Proofs.LiveLog
import ArithLex.Proofs.Restart
import ArithLex.Proofs.TraceLog
import ArithLex.Proofs.PendingByte
import ArithLex.Proofs.Progress
import ArithLex.Proofs.CurrentToken
import ArithLex.Proofs.PrefixCode
import ArithLex.Proofs.ReadBack
import ArithLex.Proofs.FaultText
