import ExprLang.Text.Bytes

/-!
# The line of a position

A source is cut into lines behind each newline.  A byte offset belongs to the
line that holds the byte; an offset past the end belongs to the last line and
stands just behind its text.

Main results:

- Theorem `flatten_lines`: the lines put together are the source.
- Theorem `lineAt?_eq_none_iff`: only the empty source has no line.
-/

namespace ExprLang

open Text

/-- The lines of a text, each with the newline that ends it. -/
def lines : List Char → List (List Char)
  | [] => []
  | c :: cs =>
      if c = '\n' then
        [c] :: lines cs
      else
        match lines cs with
        | [] => [[c]]
        | line :: rest => (c :: line) :: rest

/-- No character is lost between the lines. -/
@[simp]
theorem flatten_lines (cs : List Char) : (lines cs).flatten = cs := by
  induction cs with
  | nil => rfl
  | cons c cs ih =>
      unfold lines
      split
      · simp [ih]
      · split
        · rename_i h
          rw [h] at ih
          simp only [List.flatten_nil] at ih
          simp [← ih]
        · rename_i line rest h
          rw [h] at ih
          simpa using ih

/-- Only the empty text has no lines. -/
@[simp]
theorem lines_eq_nil_iff {cs : List Char} : lines cs = [] ↔ cs = [] := by
  constructor
  · intro h
    simpa [h] using (flatten_lines cs).symm
  · rintro rfl
    rfl

/-- A line of a source, and a place in it. -/
structure SourceLine where
  /-- Lines are counted from one. -/
  number : Nat
  /-- The line with its newline, if it ends in one. -/
  text : String
  /-- Offset of the place in bytes from the start of the line. -/
  column : Nat
deriving DecidableEq, Repr

/-- Finds the line that holds an offset, among the lines from a given number
on.  The offset is counted from the start of the first of them. -/
def lineFrom? (number offset : Nat) : List (List Char) → Option SourceLine
  | [] => none
  | line :: rest =>
      if offset < byteLength line then
        some ⟨number, String.ofList line, offset⟩
      else
        match rest with
        | [] =>
            some ⟨number, String.ofList line,
              byteLength (line.takeWhile (· != '\n'))⟩
        | _ :: _ => lineFrom? (number + 1) (offset - byteLength line) rest

/-- The line of a source that a byte offset belongs to. -/
def lineAt? (source : String) (offset : UInt32) : Option SourceLine :=
  lineFrom? 1 offset.toNat (lines source.toList)

/-- A line is found unless there are none. -/
theorem lineFrom?_eq_none_iff {number offset : Nat} {ls : List (List Char)} :
    lineFrom? number offset ls = none ↔ ls = [] := by
  induction ls generalizing number offset with
  | nil => simp [lineFrom?]
  | cons line rest ih =>
      unfold lineFrom?
      split
      · simp
      · cases rest with
        | nil => simp
        | cons next rest => simp [ih]

/-- Every offset belongs to a line, unless the source is empty. -/
theorem lineAt?_eq_none_iff {source : String} {offset : UInt32} :
    lineAt? source offset = none ↔ source = "" := by
  simp [lineAt?, lineFrom?_eq_none_iff]

end ExprLang
