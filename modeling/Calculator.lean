import Calculator.Main
import Calculator.Proofs.Command.Interactive
import Calculator.Proofs.Line.Printing
import Calculator.Proofs.Session.Assignment
import Calculator.Proofs.Session.Fault
import Calculator.Proofs.Session.Interleaving
import Calculator.Proofs.Session.Sign
import Calculator.Proofs.Session.Spacing
import Calculator.Proofs.Line.Finality
import Calculator.Proofs.Line.Closing
import Calculator.Proofs.Evaluation.Balance
import Calculator.Proofs.Evaluation.Segment
import Calculator.Proofs.Evaluation.Cursor
import Calculator.Proofs.Number.Exact
import Calculator.Proofs.Number.Rounding
import Calculator.Proofs.Line.Literal
import Calculator.Proofs.Line.State
