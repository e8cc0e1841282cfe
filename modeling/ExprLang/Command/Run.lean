import ExprLang.Command.File
import ExprLang.Diagnostic.Report
import ExprLang.Expr.Eval
import ExprLang.Expr.Printed
import ExprLang.Parser.Parse

/-!
# Commands

The program takes an expression, or the name of a file that holds one.  It
writes the printed form of the expression and its value, or a report of the
first fault, and ends with an exit code that tells the cases apart.

Main results:

- Theorem `Command.run_file`: a file that can be read is treated like its text.
-/

namespace ExprLang

/-- What the program leaves behind. -/
structure Outcome where
  code : UInt32
  stdout : String
  stderr : String
deriving DecidableEq, Repr

/-- What the program is asked to do. -/
inductive Command where
  | expression (text : String)
  | file (path : String)
  /-- The arguments make no sense. -/
  | usage
deriving DecidableEq, Repr

/-- The flag in front of the name of a file. -/
def fileFlag : String :=
  "--file"

/-- The line that explains the arguments. -/
def usageLine : String :=
  "Usage: plumber <expression> | plumber --file <path>\n"

namespace Command

/-- The command that a list of arguments stands for. -/
def ofArguments : List String → Command
  | [argument] => if argument = fileFlag then usage else expression argument
  | [flag, path] => if flag = fileFlag then file path else usage
  | _ => usage

/-- Evaluates an expression and shows it. -/
def runExpr (e : Expr) (source file : String) : Outcome :=
  match e.eval with
  | .ok value => ⟨0, e.printed ++ "\n" ++ value.text ++ "\n", ""⟩
  | .error d => ⟨70, e.printed ++ "\n", d.report source file⟩

/-- Runs the program on a source. -/
def runSource (source file : String) : Outcome :=
  match parseSource source file with
  | .ok e => runExpr e source file
  | .error d => ⟨65, "", d.report source file⟩

/-- Runs a command, given what there is to read. -/
def run (read : String → Except ReadFault String) : Command → Outcome
  | expression text => runSource text defaultFile
  | file path =>
      match read path with
      | .ok text => runSource text (fileName path)
      | .error fault =>
          ⟨66, "", "Failed to read " ++ path ++ ": " ++ fault.message ++ "\n"⟩
  | usage => ⟨64, "", usageLine⟩

/-- A file that can be read is treated like its text, under its own name. -/
theorem run_file {read : String → Except ReadFault String} {path text : String}
    (h : read path = .ok text) :
    run read (file path) = runSource text (fileName path) := by
  simp [run, h]

end Command

end ExprLang
