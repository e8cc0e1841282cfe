import ExprLang.Command.Run

/-!
# Command line

The program reads the file it is asked for, if any, and carries out the outcome
of its command.
-/

namespace ExprLang

/-- The number of a system error, which may come with its sign turned. -/
def errorNumber (code : UInt32) : Nat :=
  code.toInt32.toInt.natAbs

/-- The fault that a failed read amounts to. -/
def ReadFault.ofError : IO.Error → ReadFault
  | .noFileOrDirectory _ code reason | .permissionDenied _ code reason
  | .inappropriateType _ code reason | .invalidArgument _ code reason
  | .noSuchThing _ code reason | .resourceExhausted _ code reason
  | .otherError code reason => .ofNumber (errorNumber code) reason
  | e => .ofNumber 0 (toString e)

/-- The text of a file. -/
def readFile (path : String) : IO (Except ReadFault String) := do
  try
    return decodeText (← IO.FS.readBinFile path)
  catch e =>
    return .error (.ofError e)

/-- Carries out an outcome. -/
def Outcome.emit (o : Outcome) : IO UInt32 := do
  (← IO.getStdout).putStr o.stdout
  (← IO.getStderr).putStr o.stderr
  return o.code

end ExprLang

open ExprLang in
/-- Runs the program on its arguments. -/
def main (arguments : List String) : IO UInt32 := do
  let command := Command.ofArguments arguments
  let contents ←
    match command with
    | .file path => readFile path
    | _ => pure (.ok "")
  (command.run fun _ => contents).emit
