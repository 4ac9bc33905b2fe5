import LineScript.Text.Blank
import LineScript.Text.Lines
import LineScript.Token.Lexer
import LineScript.Expr.Operation
import LineScript.Block
import LineScript.Program.Parser
import LineScript.Typing
import LineScript.Value
import LineScript.Eval.Operator
import LineScript.Eval.Statement
import LineScript.Session
import LineScript.CommandLine.Console
import LineScript.Main
import LineScript.Proofs.Expr.Canonical
import LineScript.Proofs.Block.Levels
import LineScript.Proofs.Program.Cases
import LineScript.Proofs.Program.Grammar
import LineScript.Proofs.Program.Prefix
import LineScript.Proofs.Eval.Steps
import LineScript.Proofs.Session.Replay
import LineScript.Proofs.Session.Batch
import LineScript.Proofs.Eval.Origin
import LineScript.Proofs.Typing.Agreement
import LineScript.Proofs.Eval.Lexical
import LineScript.Proofs.Program.WriteOnce
import LineScript.Proofs.Token.Spelling
import LineScript.Proofs.Block.Regrouping
import LineScript.Proofs.Program.Settled
import LineScript.Proofs.Session.Dialogue
import LineScript.Proofs.Session.Representation
import LineScript.Proofs.Session.Forgetting
import LineScript.Proofs.Renaming.Basic
import LineScript.Proofs.Renaming.Reading
import LineScript.Proofs.Renaming.Running
import LineScript.Proofs.Text.Remarks
import LineScript.Proofs.Eval.Refusal
import LineScript.Proofs.Eval.Constancy
import LineScript.Proofs.Eval.Limit
import LineScript.Proofs.Program.Location
import LineScript.Proofs.Session.Location
import LineScript.Proofs.Session.Failure
import LineScript.Proofs.Block.Nesting
import LineScript.Proofs.Program.Ownership
import LineScript.Proofs.Eval.Selection
import LineScript.Proofs.Eval.Range
import LineScript.Proofs.Eval.Arithmetic
import LineScript.Proofs.Eval.Discipline
import LineScript.Proofs.Eval.Iteration
import LineScript.Proofs.Typing.Violation
import LineScript.Proofs.Token.Isolation
import LineScript.Proofs.Token.Numeral
import LineScript.Proofs.Program.Formed
