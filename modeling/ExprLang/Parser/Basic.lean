import ExprLang.Diagnostic.Basic
import ExprLang.Parser.TokenStream

/-!
# Reading tokens

Parsers read a token stream and end with a result or a stop.  The stream is
kept in both cases, so that one can see how far a failed parser has read.

Main results:

- Theorem `expectOr_eq`: a token that is wanted is read, and any other is left
  where it is.
-/

namespace ExprLang

/-- Why a parser ends without a result. -/
inductive Stop where
  /-- The tokens are not what was wanted. -/
  | fault (d : Diagnostic)
  /-- The bound on the depth was used up. -/
  | exhausted
deriving DecidableEq, Repr

/-- Parsers that read a token stream. -/
abbrev ParseM :=
  EStateM Stop TokenStream

namespace ParseM

/-- Ends with a fault. -/
def fail {α : Type} (d : Diagnostic) : ParseM α :=
  throw (.fault d)

/-- A result that was found, or the fault that was found instead. -/
def ofExcept {α : Type} : Except Diagnostic α → ParseM α
  | .ok a => pure a
  | .error d => fail d

/-- The current token. -/
def peek : ParseM Token :=
  fun s => .ok s.current s

/-- Reads the current token. -/
def next : ParseM Token :=
  fun s => .ok s.current s.advance

/-- Reads a token of a kind, or ends with a fault of one's own choice. -/
def expectOr (kind : TokenKind) (d : Diagnostic) : ParseM Token := do
  if (← peek).kind = kind then next else fail d

/-- Reads a token of a kind. -/
def expect (kind : TokenKind) : ParseM Token := do
  let found ← peek
  expectOr kind ⟨.unexpectedToken found.text, found.start⟩

/-- Reads a token of a kind, and says what was wanted if there is another. -/
def expectDetailed (kind : TokenKind) (message : String) : ParseM Token := do
  let found ← peek
  expectOr kind ⟨.unexpectedTokenDetailed found.text message, found.start⟩

/-- A token of the kind is read, and any other is left where it is. -/
theorem expectOr_eq (kind : TokenKind) (d : Diagnostic) (s : TokenStream) :
    expectOr kind d s =
      if s.current.kind = kind then .ok s.current s.advance
      else .error (.fault d) s := by
  simp only [expectOr, bind, EStateM.bind, peek]
  split <;> rfl

/-- A token of the kind is read, and any other is reported by its text. -/
theorem expect_eq (kind : TokenKind) (s : TokenStream) :
    expect kind s =
      if s.current.kind = kind then .ok s.current s.advance
      else
        .error (.fault ⟨.unexpectedToken s.current.text, s.current.start⟩) s := by
  simp only [expect, bind, EStateM.bind, peek]
  exact expectOr_eq ..

end ParseM

end ExprLang
