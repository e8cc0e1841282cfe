/-!
# Files

A source can be read from a file.  The file is shown by the last name of its path,
and a file that cannot be read is told by the reason.

Paths are texts whose parts are separated by slashes.  A part that is empty or a
single dot stays where it is, and two dots lead upwards.
-/

namespace ExprLang

/-- Why a file could not be read. -/
inductive ReadFault where
  /-- The system refused, for a reason that has a number. -/
  | system (reason : String) (code : Nat)
  /-- The contents are not UTF-8. -/
  | notText
deriving DecidableEq, Repr

namespace ReadFault

/-- There is no file of the name. -/
def notFound : ReadFault :=
  system "No such file or directory" 2

/-- A part of the path is a file, where a folder is needed. -/
def notDirectory : ReadFault :=
  system "Not a directory" 20

/-- The path leads to a folder. -/
def isDirectory : ReadFault :=
  system "Is a directory" 21

/-- The path, or a part of it, is longer than a file system takes. -/
def nameTooLong : ReadFault :=
  system "File name too long" 36

/-- The fault of a number.  The reason is that of the system, unless the number
is one of the above. -/
def ofNumber (number : Nat) (reason : String) : ReadFault :=
  match number with
  | 2 => notFound
  | 20 => notDirectory
  | 21 => isDirectory
  | 36 => nameTooLong
  | _ => system reason.capitalize number

/-- The text of a fault. -/
def message : ReadFault → String
  | system reason code => reason ++ " (os error " ++ toString code ++ ")"
  | notText => "stream did not contain valid UTF-8"

end ReadFault

/-- The text that bytes encode. -/
def decodeText (contents : ByteArray) : Except ReadFault String :=
  match String.fromUTF8? contents with
  | some text => .ok text
  | none => .error .notText

/-! ## Paths -/

/-- Cuts a text at each slash. -/
def splitSlashes : List Char → List (List Char)
  | [] => [[]]
  | c :: cs =>
      if c = '/' then
        [] :: splitSlashes cs
      else
        match splitSlashes cs with
        | [] => [[c]]
        | part :: parts => (c :: part) :: parts

/-- The parts of a path, between its slashes. -/
def pathParts (path : String) : List String :=
  (splitSlashes path.toList).map String.ofList

/-- Whether a part of a path stays where it is. -/
def isStep (part : String) : Bool :=
  part == "" || part == "."

/-- The name of the file that a path leads to: its last part, or the whole path
if it ends by going upwards or has no part that leads anywhere. -/
def fileName (path : String) : String :=
  match ((pathParts path).filter (!isStep ·)).getLast? with
  | none | some ".." => path
  | some name => name

end ExprLang
