import ExprLang.Expr.Eval
import ExprLang.Expr.Names
import ExprLang.Expr.Printed
import ExprLang.Expr.Span

/-!
# Relocation

Every position in a token, a tree or a diagnostic is replaced by another one, which
depends on it in any way.  What a tree means does not look at positions; they are
only handed on.

Main results:

- Theorems `Expr.printed_relocate`, `Expr.span_relocate` and
  `Expr.names_relocate`: what a tree shows, covers and names.
- Theorem `Expr.eval_relocate`: what a tree evaluates to.
-/

namespace ExprLang

variable (φ : Position → Position)

/-! ## Spans, tokens and diagnostics -/

/-- Relocates both ends of a span. -/
def Span.relocate (span : Span) : Span :=
  ⟨φ span.start, φ span.stop⟩

/-- Relocates the span of a token. -/
def Token.relocate (t : Token) : Token :=
  { t with span := t.span.relocate φ }

/-- Relocates the position of a diagnostic. -/
def Diagnostic.relocate (d : Diagnostic) : Diagnostic :=
  { d with position := φ d.position }

/-- Relocates all tokens among names. -/
def Names.relocate (names : Names) : Names :=
  ⟨names.reads.map (Token.relocate φ), names.writes.map (Token.relocate φ),
    names.classRefs.map (Token.relocate φ)⟩

section

variable {φ}

@[simp]
theorem Span.relocate_to (first last : Span) :
    (first.to last).relocate φ = (first.relocate φ).to (last.relocate φ) :=
  rfl

@[simp]
theorem Token.kind_relocate (t : Token) : (t.relocate φ).kind = t.kind :=
  rfl

@[simp]
theorem Token.text_relocate (t : Token) : (t.relocate φ).text = t.text :=
  rfl

@[simp]
theorem Token.span_relocate (t : Token) : (t.relocate φ).span = t.span.relocate φ :=
  rfl

@[simp]
theorem Names.relocate_append (a b : Names) :
    (a ++ b).relocate φ = a.relocate φ ++ b.relocate φ := by
  simp only [relocate, reads_append, writes_append, classRefs_append, List.map_append]
  rfl

end

/-! ## Expressions -/

namespace Expr

mutual

/-- Relocates all tokens and spans of an expression. -/
def relocate : Expr → Expr
  | .binary left operator right =>
      .binary left.relocate (operator.relocate φ) right.relocate
  | .group inner => .group inner.relocate
  | .literal value span => .literal value (span.relocate φ)
  | .unary operator operand => .unary (operator.relocate φ) operand.relocate
  | .var name => .var (name.relocate φ)
  | .assign name value => .assign (name.relocate φ) value.relocate
  | .logical left operator right =>
      .logical left.relocate (operator.relocate φ) right.relocate
  | .call callee paren arguments =>
      .call callee.relocate (paren.relocate φ) (relocateAll arguments)
  | .get object name => .get object.relocate (name.relocate φ)
  | .set object name value => .set object.relocate (name.relocate φ) value.relocate
  | .this keyword => .this (keyword.relocate φ)
  | .super keyword method => .super (keyword.relocate φ) (method.relocate φ)

/-- Relocates a list of expressions. -/
def relocateAll : List Expr → List Expr
  | [] => []
  | e :: es => e.relocate :: relocateAll es

end

variable {φ}

/-! ## What a tree shows, covers and names -/

/-- A relocated tree is printed as before. -/
theorem printed_relocate (e : Expr) : (e.relocate φ).printed = e.printed := by
  induction e with
  | call callee paren arguments hcallee harguments =>
      have hall : printedAll (relocateAll φ arguments) = printedAll arguments := by
        induction arguments with
        | nil => rfl
        | cons e es ih => simp_all [relocateAll, printedAll]
      simp [relocate, printed, hcallee, hall]
  | _ => simp_all [relocate, printed]

/-- A relocated tree covers the relocated span. -/
theorem span_relocate (e : Expr) : (e.relocate φ).span = e.span.relocate φ := by
  induction e <;> simp_all [relocate, span]

/-- A relocated tree has the relocated names. -/
theorem names_relocate (e : Expr) : (e.relocate φ).names = e.names.relocate φ := by
  induction e with
  | call callee paren arguments hcallee harguments =>
      have hall : namesAll (relocateAll φ arguments) = (namesAll arguments).relocate φ := by
        induction arguments with
        | nil => rfl
        | cons e es ih => simp_all [relocateAll, namesAll]
      simp [relocate, names, hcallee, hall]
  | literal | var | this | super => rfl
  | assign name value hvalue =>
      rw [relocate, names, hvalue, names, Names.relocate_append]
      rfl
  | _ => simp_all [relocate, names]

end Expr

/-! ## Evaluation -/

variable {φ}

private theorem numbers_relocate (operator : Token) (l r : Value) :
    numbers (operator.relocate φ) l r =
      (numbers operator l r).mapError (Diagnostic.relocate φ) := by
  unfold numbers
  split <;> rfl

private theorem addition_relocate (operator : Token) (l r : Value) :
    addition (operator.relocate φ) l r =
      (addition operator l r).mapError (Diagnostic.relocate φ) := by
  unfold addition
  split <;> rfl

/-- An operation on two numbers fails at the relocated operator. -/
theorem numbers_map_relocate (operator : Token) (f : Float × Float → Value)
    (l r : Value) :
    (numbers (operator.relocate φ) l r).map f =
      ((numbers operator l r).map f).mapError (Diagnostic.relocate φ) := by
  rw [numbers_relocate]
  cases numbers operator l r <;> rfl

/-- A binary operator yields the same value, or is refused at its new position. -/
theorem binaryValue_relocate (operator : Token) (l r : Value) :
    binaryValue (operator.relocate φ) l r =
      (binaryValue operator l r).mapError (Diagnostic.relocate φ) := by
  unfold binaryValue
  rw [Token.kind_relocate]
  split
  · exact addition_relocate operator l r
  iterate 7 exact numbers_map_relocate operator _ l r
  all_goals rfl

/-- A unary operator yields the same value, or is refused at its new position. -/
theorem unaryValue_relocate (operator : Token) (value : Value) :
    unaryValue (operator.relocate φ) value =
      (unaryValue operator value).mapError (Diagnostic.relocate φ) := by
  unfold unaryValue
  rw [Token.kind_relocate]
  split <;> rfl

/-- A logical operator decides as before, or is refused at its new position. -/
theorem skipsRight_relocate (operator : Token) (l : Value) :
    skipsRight (operator.relocate φ) l =
      (skipsRight operator l).mapError (Diagnostic.relocate φ) := by
  unfold skipsRight
  rw [Token.kind_relocate]
  split <;> rfl

/-- A fault of a sequence is relocated in either step. -/
theorem mapError_bind {α β : Type} (x : Except Diagnostic α)
    (f : α → Except Diagnostic β) (move : Diagnostic → Diagnostic) :
    (x >>= f).mapError move = x.mapError move >>= fun a => (f a).mapError move := by
  cases x <;> rfl

/-- A relocated tree has the value that it had before, or the relocated fault. -/
theorem Expr.eval_relocate (e : Expr) :
    (e.relocate φ).eval = e.eval.mapError (Diagnostic.relocate φ) := by
  induction e with
  | binary left operator right hleft hright =>
      simp only [relocate, eval, mapError_bind, hleft, hright, binaryValue_relocate]
  | logical left operator right hleft hright =>
      simp only [relocate, eval, mapError_bind, hleft, hright, skipsRight_relocate,
        apply_ite (Except.mapError (Diagnostic.relocate φ))]
      rfl
  | unary operator operand hoperand =>
      simp only [relocate, eval, mapError_bind, hoperand, unaryValue_relocate]
  | group inner hinner => exact hinner
  | _ => rfl

end ExprLang
