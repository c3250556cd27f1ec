import Cutpoint.Command.Basic
import Cutpoint.Command.Run
import Cutpoint.Condition.Context
import Cutpoint.Condition.Termination
import Cutpoint.Condition.Weakest
import Cutpoint.Expr.Basic
import Cutpoint.Expr.Eval
import Cutpoint.Expr.Typing
import Cutpoint.Expr.Subst
import Cutpoint.Expr.Json
import Cutpoint.Expr.Printer
import Cutpoint.Files.Basic
import Cutpoint.Flow.Basic
import Cutpoint.Flow.Builder
import Cutpoint.Flow.Fault
import Cutpoint.Flow.Json
import Cutpoint.Flow.Validate
import Cutpoint.Json.Basic
import Cutpoint.Json.Decode
import Cutpoint.Json.Printer
import Cutpoint.Json.Reader
import Cutpoint.Main
import Cutpoint.Obligation
import Cutpoint.Path.Basic
import Cutpoint.Path.Search
import Cutpoint.Proofs.Condition.Context
import Cutpoint.Proofs.Condition.Decrease
import Cutpoint.Proofs.Condition.Lex
import Cutpoint.Proofs.Condition.Naming
import Cutpoint.Proofs.Condition.Partial
import Cutpoint.Proofs.Condition.Weakest
import Cutpoint.Proofs.Expr.Free
import Cutpoint.Proofs.Expr.Fresh
import Cutpoint.Proofs.Expr.Subst
import Cutpoint.Proofs.Flow.Run
import Cutpoint.Proofs.Flow.WellFormed
import Cutpoint.Proofs.Meaning.Basic
import Cutpoint.Proofs.Meaning.Subst
import Cutpoint.Proofs.Obligation
import Cutpoint.Proofs.Path.Segment
import Cutpoint.Proofs.Soundness.Partial
import Cutpoint.Proofs.Soundness.Termination
import Cutpoint.Proofs.Soundness.Track
import Cutpoint.SExp
import Cutpoint.Settings
import Cutpoint.Smt.Encode
import Cutpoint.Smt.Script
import Cutpoint.Solver.Basic
import Cutpoint.Solver.Bounded
import Cutpoint.Solver.External
import Cutpoint.Solver.Reply
import Cutpoint.Basic
import Cutpoint.Toml.Basic
import Cutpoint.Toml.Number
import Cutpoint.Toml.Printer
import Cutpoint.Toml.Reader
import Cutpoint.Verdict
import Cutpoint.Proofs.Path.Coverage
import Cutpoint.Proofs.Condition.Chain
import Cutpoint.Proofs.Flow.Exit
import Cutpoint.Proofs.Soundness.Contract
import Cutpoint.Proofs.Condition.Snapshot
import Cutpoint.Proofs.Condition.Total
import Cutpoint.Proofs.Expr.Nameless
import Cutpoint.Proofs.Soundness.Ranking
import Cutpoint.Proofs.Eval.Basic
import Cutpoint.Proofs.Eval.Subst
import Cutpoint.Proofs.Verdict
import Cutpoint.Proofs.Expr.Sorted
import Cutpoint.Proofs.Meaning.Model
import Cutpoint.Proofs.Eval.Exact
import Cutpoint.Proofs.Eval.Sorted
import Cutpoint.Proofs.Expr.Order
import Cutpoint.Proofs.Solver.Reach
import Cutpoint.Proofs.Solver.Bounded
import Cutpoint.Proofs.Meaning.Sorted
import Cutpoint.Proofs.SExp.Reader
import Cutpoint.Proofs.Smt.Term
import Cutpoint.Proofs.Smt.Encode
import Cutpoint.Proofs.Smt.Symbol
import Cutpoint.Proofs.Smt.Faithful
import Cutpoint.Proofs.Smt.Order
import Cutpoint.Proofs.Json.Codec
import Cutpoint.Proofs.Modular
import Cutpoint.Proofs.Expr.Json
import Cutpoint.Proofs.Flow.Json
import Cutpoint.Proofs.Flow.Validate
import Cutpoint.Proofs.Condition.Mismatch
import Cutpoint.Proofs.Path.Stack
import Cutpoint.Proofs.Eval.Unique
import Cutpoint.Proofs.Eval.Instance
import Cutpoint.Proofs.Expr.Changed
import Cutpoint.Proofs.Solver.Product
import Cutpoint.Proofs.Solver.Odometer
import Cutpoint.Proofs.SExp.Grammar
import Cutpoint.Proofs.Solver.Reply
import Cutpoint.Proofs.Eval.Lex
import Cutpoint.Proofs.Eval.Support
import Cutpoint.Proofs.Solver.Lossless
import Cutpoint.Proofs.Flow.Builder
import Cutpoint.Proofs.Flow.Built
import Cutpoint.Proofs.Expr.Shape
import Cutpoint.Proofs.Solver.Scan
import Cutpoint.Proofs.Condition.Supply
