import Formula.Main
import Formula.Proofs.CommandLine.Operators
import Formula.Proofs.Grammar.Bound
import Formula.Proofs.Grammar.OperatorOrder
import Formula.Proofs.Grammar.RoundTrip
import Formula.Proofs.Lowering.Meaning
import Formula.Proofs.Lowering.Parameters
import Formula.Proofs.Lowering.StaticCheck
import Formula.Proofs.Operator.Entry
import Formula.Proofs.Session.Batch
import Formula.Proofs.Session.Causes
import Formula.Proofs.Session.Rendering
import Formula.Proofs.Session.Splitting
import Formula.Proofs.Session.Turns
import Formula.Proofs.Ssa.LeastSuffix
import Formula.Proofs.Token.LongestDecimal
import Formula.Proofs.Token.Lookahead
import Formula.Proofs.Token.Spacing
