import ExprLang.Diagnostic.Basic
import ExprLang.Source.Line
import ExprLang.Text.Blank

/-!
# Reports

A report shows a diagnostic to a reader: the name of the fault and its tip, the
file, and the line it is on with a caret below the place.  Spaces before the
line and blanks behind it are not shown.  An empty source has no line to show.
-/

namespace ExprLang

/-- A text set at the right of a field of a given width. -/
def alignRight (width : Nat) (fill : Char) (s : String) : String :=
  String.ofList (List.replicate (width - s.length) fill) ++ s

/-- The first line of a report. -/
def Fault.headline (f : Fault) : String :=
  match f.tip? with
  | none => "Error: " ++ f.name ++ "\n"
  | some tip => "Error: " ++ f.name ++ " (" ++ tip ++ ")\n"

/-- The number of spaces that a line starts with. -/
def indentation (line : List Char) : Nat :=
  (line.takeWhile (· == ' ')).length

/-- A line as it is shown, without its indentation and the blanks at its end. -/
def shownText (line : List Char) : String :=
  String.ofList (Text.trimBlankEnd (line.dropWhile (· == ' ')))

/-- A source line beside its number, with a caret below the place in it. -/
def SourceLine.excerpt (line : SourceLine) : String :=
  let number := toString line.number
  let gutter := alignRight (number.length + 2) ' ' "|"
  let chars := line.text.toList
  let caret := line.column - indentation chars
  gutter ++ "\n" ++
    number ++ " | " ++ shownText chars ++ "\n" ++
    gutter ++ " " ++ alignRight (caret + 1) '-' "^" ++ "\n"

/-- The report of a diagnostic against the source it belongs to. -/
def Diagnostic.report (d : Diagnostic) (source file : String) : String :=
  let excerpt :=
    match lineAt? source d.position.offset with
    | none => ""
    | some line => line.excerpt
  d.fault.headline ++ "-> " ++ file ++ "\n" ++ excerpt

end ExprLang
