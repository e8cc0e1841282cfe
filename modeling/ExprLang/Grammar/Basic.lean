import ExprLang.Grammar.Power
import ExprLang.Token.Kind

/-!
# Grammars

A grammar says how an expression starts at a token of each kind, how one goes
on at a token of each kind, and how tightly that token binds.  Kinds that are
not registered neither start nor continue anything, and bind least.

Main results:

- Theorems `prefixRule?_standard`, `infixRule?_standard` and `power_standard`:
  the tables of the expression language, one entry for each kind.
-/

namespace ExprLang

/-- How an expression starts. -/
inductive PrefixRule where
  /-- A constant or a variable. -/
  | primary
  | this
  /-- A method of the superclass. -/
  | super
  /-- An operator in front of its operand. -/
  | operator
  /-- An expression in parentheses. -/
  | group
deriving DecidableEq, Repr

/-- How an expression goes on behind a left operand. -/
inductive InfixRule where
  | binary
  | logical
  | assignment
  | call
  /-- A property of the left operand. -/
  | get
deriving DecidableEq, Repr

/-- The rules for tokens of each kind. -/
structure Grammar where
  prefixRule? : TokenKind → Option PrefixRule
  infixRule? : TokenKind → Option InfixRule
  power? : TokenKind → Option BindingPower

namespace Grammar

/-- The grammar without rules. -/
def empty : Grammar :=
  ⟨fun _ => none, fun _ => none, fun _ => none⟩

/-- How tightly tokens of a kind bind the operand on their left. -/
def power (g : Grammar) (kind : TokenKind) : BindingPower :=
  (g.power? kind).getD .default

/-- Registers how an expression starts at tokens of a kind. -/
def addPrefix (g : Grammar) (kind : TokenKind) (rule : PrefixRule) : Grammar :=
  { g with prefixRule? := fun k => if k = kind then some rule else g.prefixRule? k }

/-- Registers how an expression goes on at tokens of a kind. -/
def addInfix (g : Grammar) (kind : TokenKind) (power : BindingPower)
    (rule : InfixRule) : Grammar :=
  { g with
    infixRule? := fun k => if k = kind then some rule else g.infixRule? k
    power? := fun k => if k = kind then some power else g.power? k }

/-! ## The expression language -/

/-- How expressions start. -/
def standardPrefixes : List (TokenKind × PrefixRule) :=
  [(.number, .primary), (.string, .primary), (.kwTrue, .primary),
    (.kwFalse, .primary), (.kwNil, .primary), (.identifier, .primary),
    (.kwThis, .this), (.kwSuper, .super), (.dash, .operator),
    (.not, .operator), (.openParen, .group)]

/-- How expressions go on, loosest first. -/
def standardInfixes : List (TokenKind × BindingPower × InfixRule) :=
  [(.assignment, .assignment, .assignment), (.kwOr, .or, .logical),
    (.kwAnd, .and, .logical), (.equals, .equality, .binary),
    (.notEquals, .equality, .binary), (.less, .relational, .binary),
    (.lessEquals, .relational, .binary), (.greater, .relational, .binary),
    (.greaterEquals, .relational, .binary), (.plus, .additive, .binary),
    (.dash, .additive, .binary), (.star, .multiplicative, .binary),
    (.slash, .multiplicative, .binary), (.openParen, .call, .call),
    (.dot, .call, .get)]

/-- Registers the rules of the expression language, over those there are. -/
def addStandard (g : Grammar) : Grammar :=
  let withInfixes :=
    standardInfixes.foldl
      (fun g (kind, power, rule) => g.addInfix kind power rule) g
  standardPrefixes.foldl (fun g (kind, rule) => g.addPrefix kind rule) withInfixes

/-- The grammar of the expression language. -/
def standard : Grammar :=
  empty.addStandard

/-- How an expression of the language starts at each kind of token. -/
theorem prefixRule?_standard (kind : TokenKind) :
    standard.prefixRule? kind =
      match kind with
      | .number | .string | .kwTrue | .kwFalse | .kwNil | .identifier =>
          some .primary
      | .kwThis => some .this
      | .kwSuper => some .super
      | .dash | .not => some .operator
      | .openParen => some .group
      | _ => none := by
  cases kind <;> rfl

/-- How an expression of the language goes on at each kind of token. -/
theorem infixRule?_standard (kind : TokenKind) :
    standard.infixRule? kind =
      match kind with
      | .assignment => some .assignment
      | .kwOr | .kwAnd => some .logical
      | .equals | .notEquals | .less | .lessEquals | .greater | .greaterEquals
      | .plus | .dash | .star | .slash => some .binary
      | .openParen => some .call
      | .dot => some .get
      | _ => none := by
  cases kind <;> rfl

/-- How tightly each kind of token binds in the language. -/
theorem power_standard (kind : TokenKind) :
    standard.power kind =
      match kind with
      | .assignment => .assignment
      | .kwOr => .or
      | .kwAnd => .and
      | .equals | .notEquals => .equality
      | .less | .lessEquals | .greater | .greaterEquals => .relational
      | .plus | .dash => .additive
      | .star | .slash => .multiplicative
      | .openParen | .dot => .call
      | _ => .default := by
  cases kind <;> rfl

end Grammar

end ExprLang
