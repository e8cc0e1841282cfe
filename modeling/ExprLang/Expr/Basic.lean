import ExprLang.Token.Basic
import ExprLang.Value

/-!
# Expressions

The tree of an expression keeps the tokens that name things or mark a place,
so that faults found in it can be shown in its source.  Two trees are equal if
they have the same shape, equal tokens with equal spans, and equal values.

Main results:

- Theorem `Expr.induct`: induction over a tree and the arguments of its calls.
-/

namespace ExprLang

/-- An expression. -/
inductive Expr where
  /-- An operator between two operands, as in `a + b`. -/
  | binary (left : Expr) (operator : Token) (right : Expr)
  /-- An expression in parentheses. -/
  | group (inner : Expr)
  /-- A constant. -/
  | literal (value : Value) (span : Span)
  /-- An operator in front of its operand, as in `-a`. -/
  | unary (operator : Token) (operand : Expr)
  /-- A variable that is read. -/
  | var (name : Token)
  /-- A variable that is written, as in `a = b`. -/
  | assign (name : Token) (value : Expr)
  /-- `and` or `or`, which may leave the right operand alone. -/
  | logical (left : Expr) (operator : Token) (right : Expr)
  /-- A call.  Its place is that of the closing parenthesis. -/
  | call (callee : Expr) (paren : Token) (arguments : List Expr)
  /-- A property that is read, as in `a.b`. -/
  | get (object : Expr) (name : Token)
  /-- A property that is written, as in `a.b = c`. -/
  | set (object : Expr) (name : Token) (value : Expr)
  /-- The instance that a method was invoked on. -/
  | this (keyword : Token)
  /-- A method of the superclass, as in `super.b`. -/
  | super (keyword method : Token)
deriving Repr, Inhabited

namespace Expr

/-! ## Induction -/

/-- A property holds of every expression if it holds of each node whose children
have it, where the children of a call are its callee and its arguments. -/
@[elab_as_elim, induction_eliminator]
theorem induct {motive : Expr → Prop}
    (binary : ∀ left operator right, motive left → motive right →
      motive (.binary left operator right))
    (group : ∀ inner, motive inner → motive (.group inner))
    (literal : ∀ value span, motive (.literal value span))
    (unary : ∀ operator operand, motive operand → motive (.unary operator operand))
    (var : ∀ name, motive (.var name))
    (assign : ∀ name value, motive value → motive (.assign name value))
    (logical : ∀ left operator right, motive left → motive right →
      motive (.logical left operator right))
    (call : ∀ callee paren arguments, motive callee →
      (∀ argument ∈ arguments, motive argument) →
      motive (.call callee paren arguments))
    (get : ∀ object name, motive object → motive (.get object name))
    (set : ∀ object name value, motive object → motive value →
      motive (.set object name value))
    (this : ∀ keyword, motive (.this keyword))
    (super : ∀ keyword method, motive (.super keyword method))
    (e : Expr) : motive e :=
  @Expr.rec motive (fun arguments => ∀ argument ∈ arguments, motive argument)
    binary group literal unary var assign logical call get set this super
    (by simp)
    (fun _ _ head tail => by
      intro argument hmem
      rcases List.mem_cons.1 hmem with rfl | hmem
      · exact head
      · exact tail argument hmem)
    e

/-! ## Equality -/

mutual

/-- Whether two expressions are equal.  Numbers are compared as numbers, so an
expression that holds what is not a number differs from itself. -/
def beq : Expr → Expr → Bool
  | .binary l o r, .binary l' o' r' => l.beq l' && o == o' && r.beq r'
  | .group e, .group e' => e.beq e'
  | .literal v s, .literal v' s' => v == v' && s == s'
  | .unary o e, .unary o' e' => o == o' && e.beq e'
  | .var n, .var n' => n == n'
  | .assign n e, .assign n' e' => n == n' && e.beq e'
  | .logical l o r, .logical l' o' r' => l.beq l' && o == o' && r.beq r'
  | .call c p as, .call c' p' as' => c.beq c' && p == p' && beqAll as as'
  | .get o n, .get o' n' => o.beq o' && n == n'
  | .set o n e, .set o' n' e' => o.beq o' && n == n' && e.beq e'
  | .this k, .this k' => k == k'
  | .super k m, .super k' m' => k == k' && m == m'
  | _, _ => false

/-- Whether two lists of expressions are equal. -/
def beqAll : List Expr → List Expr → Bool
  | [], [] => true
  | e :: es, e' :: es' => e.beq e' && beqAll es es'
  | _, _ => false

end

instance : BEq Expr :=
  ⟨beq⟩

end Expr

end ExprLang
