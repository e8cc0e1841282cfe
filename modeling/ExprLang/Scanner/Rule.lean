import ExprLang.Diagnostic.Basic
import ExprLang.Lexeme.StringLiteral
import ExprLang.Scanner.Basic

/-!
# Scanning rules

A rule recognises one shape of lexeme and says what becomes of it.  The rules
are tried in a fixed order and the first that fits is applied: a longer
operator stands before the shorter one that it starts with, a comment before a
slash, and a whole string literal before a lone quote, which is therefore
always the start of a literal that is never closed.

Main results:

- Theorem `Rule.lexeme?_front`: every rule of the table takes a lexeme that is
  not empty from the front of the text.
- Theorem `Rule.cursor_apply`: a rule that does not fail moves the cursor behind
  the lexeme.
-/

namespace ExprLang

open Text (byteLength)

/-- What the scanner looks for at its cursor. -/
inductive Rule where
  | word
  | number
  | blank
  | stringLiteral
  /-- A quote that opens no complete literal. -/
  | openQuote
  | comment
  /-- A kind of token that is always spelled the same. -/
  | fixed (kind : TokenKind) (text : String)
deriving DecidableEq, Repr

namespace Rule

/-- The rules in the order in which they are tried. -/
def all : List Rule :=
  [word, number, blank, stringLiteral, openQuote, comment,
    fixed .openCurly "\x7b", fixed .closeCurly "\x7d",
    fixed .openParen "(", fixed .closeParen ")",
    fixed .equals "==", fixed .notEquals "!=",
    fixed .not "!", fixed .assignment "=",
    fixed .lessEquals "<=", fixed .less "<",
    fixed .greaterEquals ">=", fixed .greater ">",
    fixed .dot ".", fixed .semicolon ";", fixed .comma ",",
    fixed .plus "+", fixed .dash "-", fixed .slash "/", fixed .star "*"]

/-- The lexeme that a rule finds at the front of a text. -/
def lexeme? : Rule → List Char → Option (List Char)
  | word, cs => Lexeme.word? cs
  | number, cs => Lexeme.number? cs
  | blank, cs => Lexeme.blank? cs
  | stringLiteral, cs => Lexeme.stringLiteral? cs
  | openQuote, cs => Lexeme.fixed? ['"'] cs
  | comment, cs => Lexeme.comment? cs
  | fixed _ text, cs => Lexeme.fixed? text.toList cs

/-- What a rule does with the lexeme it has found at the cursor. -/
def apply (rule : Rule) (lexeme : List Char) (s : Scanner) :
    Except Diagnostic Scanner :=
  let text := String.ofList lexeme
  match rule with
  | word => .ok (s.emit (.ofWord text) text (byteLength lexeme))
  | number => .ok (s.emit .number text (byteLength lexeme))
  | blank | comment => .ok (s.advance (byteLength lexeme))
  | stringLiteral =>
      let value := Lexeme.unescape (Lexeme.contents lexeme)
      .ok (s.emit .string (String.ofList value) (byteLength lexeme))
  | openQuote => .error ⟨.unterminatedString, s.position⟩
  | fixed kind text => .ok (s.emit kind text (byteLength text.toList))

/-- The first rule that fits a text, with the lexeme it finds there. -/
def first? (cs : List Char) : Option (Rule × List Char) :=
  all.findSome? fun rule => (rule.lexeme? cs).map fun lexeme => (rule, lexeme)

/-- The texts in the table are not empty. -/
theorem text_ne_empty {kind : TokenKind} {text : String}
    (h : fixed kind text ∈ all) : text.toList ≠ [] := by
  simp only [all, List.mem_cons, reduceCtorEq, fixed.injEq, false_or,
    List.not_mem_nil, or_false] at h
  rcases h with h | h | h | h | h | h | h | h | h | h | h | h | h | h | h | h |
    h | h | h <;> obtain ⟨-, rfl⟩ := h <;> decide

/-- A lexeme is not empty and stands at the front of the text. -/
theorem lexeme?_front {rule : Rule} {cs lexeme : List Char} (hmem : rule ∈ all)
    (h : rule.lexeme? cs = some lexeme) : Lexeme.Front lexeme cs := by
  cases rule with
  | word => exact Lexeme.word?_front h
  | number => exact Lexeme.number?_front h
  | blank => exact Lexeme.blank?_front h
  | stringLiteral => exact Lexeme.stringLiteral?_front h
  | openQuote => exact Lexeme.fixed?_front (by simp) h
  | comment => exact Lexeme.comment?_front h
  | fixed kind text => exact Lexeme.fixed?_front (text_ne_empty hmem) h

/-- The rule that is applied is one of the table and fits. -/
theorem of_first? {cs lexeme : List Char} {rule : Rule}
    (h : first? cs = some (rule, lexeme)) :
    rule ∈ all ∧ rule.lexeme? cs = some lexeme := by
  obtain ⟨found, hmem, hfound⟩ := List.exists_of_findSome?_eq_some h
  obtain ⟨_, hlexeme, heq⟩ := Option.map_eq_some_iff.1 hfound
  simp only [Prod.mk.injEq] at heq
  obtain ⟨rfl, rfl⟩ := heq
  exact ⟨hmem, hlexeme⟩

/-- A rule leaves the source as it is. -/
theorem source_apply {rule : Rule} {lexeme : List Char} {s s' : Scanner}
    (h : rule.apply lexeme s = .ok s') : s'.source = s.source := by
  cases rule <;> simp only [apply, Except.ok.injEq, reduceCtorEq] at h <;>
    subst h <;> rfl

/-- A rule that does not fail moves the cursor behind the lexeme it found. -/
theorem cursor_apply {rule : Rule} {cs lexeme : List Char} {s s' : Scanner}
    (hlexeme : rule.lexeme? cs = some lexeme)
    (h : rule.apply lexeme s = .ok s') :
    s'.cursor = s.cursor + byteLength lexeme := by
  cases rule with
  | fixed kind text =>
      simp only [lexeme?, Lexeme.fixed?] at hlexeme
      split at hlexeme
      · obtain rfl := Option.some.inj hlexeme
        simp only [apply, Except.ok.injEq] at h
        subst h
        rfl
      · simp at hlexeme
  | _ =>
      simp only [apply, Except.ok.injEq, reduceCtorEq] at h <;> subst h <;> rfl

end Rule

end ExprLang
