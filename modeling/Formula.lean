import Formula.Main
import Formula.Proofs.Agreement
import Formula.Proofs.Broadcast
import Formula.Proofs.Building
import Formula.Proofs.Checked.Run
import Formula.Proofs.CommandLine
import Formula.Proofs.Display
import Formula.Proofs.Evaluate
import Formula.Proofs.Expr.Semantics
import Formula.Proofs.Log
import Formula.Proofs.Names
import Formula.Proofs.Places
import Formula.Proofs.Slices
import Formula.Proofs.Stacks.Matching
import Formula.Proofs.Stacks.Order
import Formula.Proofs.Stacks.Parentheses
import Formula.Proofs.Stacks.Plus
import Formula.Proofs.Text.Pointing
import Formula.Proofs.Token.Layout
import Formula.Proofs.Token.Leftmost
import Formula.Proofs.Token.Numbers
