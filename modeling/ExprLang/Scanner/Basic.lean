import ExprLang.Text.Bytes
import ExprLang.Token.Basic

/-!
# Scanners

A scanner reads a source from left to right: it keeps a cursor, counted in
bytes, and the tokens found so far.  The cursor may be moved anywhere; only
where it falls between two characters is there text to read.

Main results:

- Theorem `Scanner.exists_remainder_iff`: there is text to read exactly if the
  cursor splits the source.
-/

namespace ExprLang

/-- A source that is being read, and what has been found in it. -/
structure Scanner where
  source : List Char
  /-- Offset in bytes of the text still to be read. -/
  cursor : Nat
  tokens : Array Token
  file : String
deriving DecidableEq, Repr

/-- The name of a source that comes from no file. -/
def defaultFile : String :=
  "shell"

namespace Scanner

/-- A scanner at the start of a source. -/
def ofSource (source file : String) : Scanner :=
  ⟨source.toList, 0, #[], file⟩

/-- Whether the cursor has reached the end of the source. -/
def atEnd (s : Scanner) : Bool :=
  Text.byteLength s.source ≤ s.cursor

/-- The text still to be read, or `none` if the cursor is inside a character or
past the end. -/
def remainder? (s : Scanner) : Option (List Char) :=
  Text.dropBytes? s.cursor s.source

/-- There is text to read exactly if the cursor splits the source. -/
theorem exists_remainder_iff {s : Scanner} {rest : List Char} :
    s.remainder? = some rest ↔
      ∃ front, s.source = front ++ rest ∧ Text.byteLength front = s.cursor := by
  constructor
  · exact Text.eq_append_of_dropBytes?
  · rintro ⟨front, hsource, hcursor⟩
    rw [remainder?, hsource, ← hcursor]
    exact Text.dropBytes?_append front rest

/-- Where the cursor splits the source, it is at the end exactly if there is no
text left. -/
theorem atEnd_iff {s : Scanner} {rest : List Char} (h : s.remainder? = some rest) :
    s.atEnd = true ↔ rest = [] := by
  obtain ⟨front, hsource, hcursor⟩ := exists_remainder_iff.1 h
  simp only [atEnd, hsource, Text.byteLength_append, hcursor, decide_eq_true_eq]
  constructor
  · intro hle
    by_cases hne : rest = []
    · exact hne
    · have := Text.byteLength_pos hne
      omega
  · rintro rfl
    simp

/-- At the start all of the source is still to be read. -/
@[simp]
theorem remainder?_ofSource (source file : String) :
    (ofSource source file).remainder? = some source.toList := by
  simp [remainder?, ofSource]

/-- The first character of a text, or the null character if there is none. -/
def firstChar (rest : List Char) : Char :=
  rest.headD '\x00'

/-- The character at the cursor, where there is text to read. -/
def current? (s : Scanner) : Option Char :=
  s.remainder?.map firstChar

/-- Moves the cursor on by a number of bytes. -/
def advance (s : Scanner) (width : Nat) : Scanner :=
  { s with cursor := s.cursor + width }

/-- Adds a token to those found. -/
def push (s : Scanner) (token : Token) : Scanner :=
  { s with tokens := s.tokens.push token }

/-- The position of the cursor. -/
def position (s : Scanner) : Position :=
  .ofByte s.file s.cursor

/-- The span of a number of bytes from the cursor on. -/
def spanOf (s : Scanner) (width : Nat) : Span :=
  ⟨s.position, .ofByte s.file (s.cursor + width)⟩

/-- Adds a token that covers a number of bytes and moves behind it. -/
def emit (s : Scanner) (kind : TokenKind) (text : String) (width : Nat) : Scanner :=
  (s.push ⟨kind, text, s.spanOf width⟩).advance width

@[simp]
theorem cursor_advance (s : Scanner) (width : Nat) :
    (s.advance width).cursor = s.cursor + width :=
  rfl

@[simp]
theorem cursor_emit (s : Scanner) (kind : TokenKind) (text : String) (width : Nat) :
    (s.emit kind text width).cursor = s.cursor + width :=
  rfl

@[simp]
theorem tokens_emit (s : Scanner) (kind : TokenKind) (text : String) (width : Nat) :
    (s.emit kind text width).tokens =
      s.tokens.push ⟨kind, text, s.spanOf width⟩ :=
  rfl

end Scanner

end ExprLang
