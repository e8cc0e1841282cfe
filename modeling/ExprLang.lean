import ExprLang.Expr.Names
import ExprLang.Expr.Span
import ExprLang.Main
import ExprLang.Parser.Session
import ExprLang.Proofs.Reading.Basic
import ExprLang.Proofs.Reading.Unbounded
import ExprLang.Proofs.Reading.Bounded
import ExprLang.Proofs.Spelling.Basic
import ExprLang.Proofs.Spelling.Precedence
import ExprLang.Proofs.Spelling.Soundness
import ExprLang.Proofs.Spelling.Completeness
import ExprLang.Proofs.Descent.Agreement
import ExprLang.Proofs.Rejection.Basic
import ExprLang.Proofs.Rejection.Earliest
import ExprLang.Proofs.Lexeme.Shape
import ExprLang.Proofs.Lexeme.Item
import ExprLang.Proofs.Context.Basic
import ExprLang.Proofs.Context.Parentheses
import ExprLang.Proofs.Spelling.Assignment
import ExprLang.Proofs.Scanning.FirstRule
import ExprLang.Proofs.Scanning.Piece
import ExprLang.Proofs.Scanning.Boundary
import ExprLang.Proofs.Scanning.Content
import ExprLang.Proofs.Scanning.Fault
import ExprLang.Proofs.Scanning.LineBreak
import ExprLang.Proofs.Scanning.Respelling
import ExprLang.Proofs.Scanning.Tiling
import ExprLang.Proofs.Scanning.StringLiteral
import ExprLang.Proofs.Scanning.LongestMatch
import ExprLang.Proofs.Scanning.Loop
import ExprLang.Proofs.Running.Invariant
import ExprLang.Proofs.Running.Bound
import ExprLang.Proofs.Running.Termination
import ExprLang.Proofs.Running.Session
import ExprLang.Proofs.Evaluation.Fault
import ExprLang.Proofs.Evaluation.Reached
import ExprLang.Proofs.Evaluation.Replacement
import ExprLang.Proofs.Evaluation.FirstFault
import ExprLang.Proofs.Evaluation.Folding
import ExprLang.Proofs.Decimal.Rounding
import ExprLang.Proofs.Decimal.Notation
import ExprLang.Proofs.Decimal.NumberText
import ExprLang.Proofs.Decimal.Nearest
import ExprLang.Proofs.Phase.Faults
import ExprLang.Proofs.Relocation.Basic
import ExprLang.Proofs.Printing.Outline
import ExprLang.Proofs.Printing.Expression
import ExprLang.Proofs.Printing.Unambiguous
import ExprLang.Proofs.Relocation.Parsing
import ExprLang.Proofs.Spans.Basic
import ExprLang.Proofs.Spans.Nesting
import ExprLang.Proofs.Spans.Ends
import ExprLang.Proofs.Names.Occurrence
import ExprLang.Proofs.Names.Order
import ExprLang.Proofs.Source.Encoding
import ExprLang.Proofs.Source.Line
import ExprLang.Proofs.Source.Location
import ExprLang.Proofs.Diagnostic.Offence
import ExprLang.Proofs.Diagnostic.Caret
import ExprLang.Proofs.Relocation.Source
import ExprLang.Proofs.Command.FileName
import ExprLang.Proofs.Command.Outcome
