/-!
# Kinds of tokens

Every token has one of the kinds below.  Reserved words have a kind of their
own and are never identifiers; those of statements and declarations are
reserved although no expression uses them.

Main result:

- Theorem `TokenKind.ofWord_eq_identifier_iff`: a word is an identifier exactly
  if it is not reserved.
-/

namespace ExprLang

/-- What sort of token a lexeme is. -/
inductive TokenKind where
  | eof
  | number
  | string
  | identifier
  | openCurly
  | closeCurly
  | openParen
  | closeParen
  | assignment
  | equals
  | not
  | notEquals
  | less
  | lessEquals
  | greater
  | greaterEquals
  | dot
  | semicolon
  | comma
  | plus
  | dash
  | slash
  | star
  | kwAnd
  | kwOr
  | kwTrue
  | kwFalse
  | kwNil
  | kwThis
  | kwSuper
  | kwClass
  | kwFun
  | kwVar
  | kwIf
  | kwElse
  | kwWhile
  | kwFor
  | kwReturn
  | kwPrint
deriving DecidableEq, Repr, Inhabited

namespace TokenKind

/-- The name by which a kind is shown. -/
def name : TokenKind → String
  | eof => "EOF"
  | number => "Number"
  | string => "String"
  | identifier => "Identifier"
  | openCurly => "OpenCurly"
  | closeCurly => "CloseCurly"
  | openParen => "OpenParen"
  | closeParen => "CloseParen"
  | assignment => "Assignment"
  | equals => "Equals"
  | not => "Not"
  | notEquals => "NotEquals"
  | less => "Less"
  | lessEquals => "LessEquals"
  | greater => "Greater"
  | greaterEquals => "GreaterEquals"
  | dot => "Dot"
  | semicolon => "Semicolon"
  | comma => "Comma"
  | plus => "Plus"
  | dash => "Dash"
  | slash => "Slash"
  | star => "Star"
  | kwAnd => "And"
  | kwOr => "Or"
  | kwTrue => "True"
  | kwFalse => "False"
  | kwNil => "Nil"
  | kwThis => "This"
  | kwSuper => "Super"
  | kwClass => "Class"
  | kwFun => "Fun"
  | kwVar => "Var"
  | kwIf => "If"
  | kwElse => "Else"
  | kwWhile => "While"
  | kwFor => "For"
  | kwReturn => "Return"
  | kwPrint => "Print"

/-- The kind of a reserved word, or `none` for any other text. -/
def reserved? (word : String) : Option TokenKind :=
  match word with
  | "and" => some kwAnd
  | "or" => some kwOr
  | "true" => some kwTrue
  | "false" => some kwFalse
  | "nil" => some kwNil
  | "this" => some kwThis
  | "super" => some kwSuper
  | "class" => some kwClass
  | "fun" => some kwFun
  | "var" => some kwVar
  | "if" => some kwIf
  | "else" => some kwElse
  | "while" => some kwWhile
  | "for" => some kwFor
  | "return" => some kwReturn
  | "print" => some kwPrint
  | _ => none

/-- The kind of a word: its own if it is reserved, otherwise an identifier. -/
def ofWord (word : String) : TokenKind :=
  (reserved? word).getD identifier

/-- A word is an identifier exactly if it is not reserved. -/
theorem ofWord_eq_identifier_iff {word : String} :
    ofWord word = identifier ↔ reserved? word = none := by
  unfold ofWord reserved?
  split <;> simp

end TokenKind

end ExprLang
