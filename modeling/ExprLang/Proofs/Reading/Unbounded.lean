import ExprLang.Parser.Expression
import ExprLang.Proofs.Reading.Basic

/-!
# Parsing without a bound

The parser of expressions as a recursion that nothing bounds, on the list of the
tokens that are still to be read.  It has the rules of the bounded parser, and
it is what that parser computes when the bound does not run out; proofs about
the language of a grammar are about this recursion.

Main results:

- Theorems `expr_of_rule` and `expr_of_no_rule`: an expression starts by the
  rule for its first token.
- Theorems `extend_of_lt` and `extend_of_not_lt`: it goes on as long as tokens
  bind tightly enough.
-/

namespace ExprLang

/-- A grammar that is followed without a bound. -/
abbrev Unbounded :=
  Grammar

namespace Unbounded

open ReadM Ending

mutual

/-- An expression that holds its operands more tightly than a power. -/
def expr (g : Unbounded) (power : BindingPower) : ReadM Expr := do
  let t ← peek
  match g.prefixRule? t.kind with
  | none => fail t.expectedExpression
  | some rule => do
      let left ← g |>.start rule
      g |>.extend power left
partial_fixpoint

/-- How an expression starts. -/
def start (g : Unbounded) (rule : PrefixRule) : ReadM Expr :=
  match rule with
  | .primary => do
      let t ← next
      found t.leaf
  | .this => do
      let keyword ← expect .kwThis
      return .this keyword
  | .super => do
      let keyword ← expect .kwSuper
      let _ ← expectDetailed .dot "expected `.` after `super`"
      let method ← expectDetailed .identifier "expected superclass method name"
      return .super keyword method
  | .operator => do
      let operator ← next
      let right ← g |>.expr .unary
      return .unary operator right
  | .group => do
      let _ ← next
      let inner ← g |>.expr .default
      let _ ← expectDetailed .closeParen "expected `)` after expression"
      return .group inner
partial_fixpoint

/-- Goes on with an expression while tokens follow that bind more tightly than a
power. -/
def extend (g : Unbounded) (power : BindingPower) (left : Expr) : ReadM Expr := do
  let t ← peek
  if power < g.power t.kind then
    match g.infixRule? t.kind with
    | none => fail ⟨.unexpectedToken t.text, t.start⟩
    | some rule => do
        let longer ← g |>.step left (g.power t.kind) rule
        g |>.extend power longer
  else
    return left
partial_fixpoint

/-- How an expression goes on behind a left operand. -/
def step (g : Unbounded) (left : Expr) (power : BindingPower) (rule : InfixRule) :
    ReadM Expr :=
  match rule with
  | .binary => do
      let operator ← next
      let right ← g |>.expr power
      return .binary left operator right
  | .logical => do
      let operator ← next
      let right ← g |>.expr power
      return .logical left operator right
  | .assignment => do
      let equals ← next
      let value ← g |>.expr .default
      match Expr.assigned? value left with
      | some e => return e
      | none => fail ⟨.invalidAssignmentTarget, equals.start⟩
  | .call => do
      let _ ← next
      let arguments ← if (← peek).kind = .closeParen then pure [] else g |>.arguments
      let paren ← expectDetailed .closeParen "expected `)` after arguments"
      return .call left paren arguments
  | .get => do
      let _ ← next
      let name ← expectDetailed .identifier "expected property name after `.`"
      return .get left name
partial_fixpoint

/-- Expressions between commas, at least one. -/
def arguments (g : Unbounded) : ReadM (List Expr) := do
  let first ← g |>.expr .default
  if (← peek).kind = .comma then
    let _ ← next
    let others ← g |>.arguments
    return first :: others
  else
    return [first]
partial_fixpoint

end

/-- One expression of the language and the end of the input. -/
def whole : ReadM Expr := do
  let e ← expr .standard .default
  let _ ← expectDetailed .eof "expected end of expression"
  return e

/-! ## How an expression starts -/

section

variable {g : Grammar} {power : BindingPower} {left : Expr} {ts : List Token}

/-- A token without a rule starts no expression. -/
theorem expr_of_no_rule (h : g.prefixRule? (headToken ts).kind = none) :
    expr g power ts = failed (headToken ts).expectedExpression := by
  rw [expr]
  simp [h]

/-- An expression is read by the rule of its first token, and goes on with operators. -/
theorem expr_of_rule {rule : PrefixRule}
    (h : g.prefixRule? (headToken ts).kind = some rule) :
    expr g power ts = (start g rule >>= extend g power) ts := by
  rw [expr]
  simp [h]

/-- Behind what a rule of prefixes has read, an expression goes on with operators. -/
theorem expr_of_start {t : Token} {rule : PrefixRule} {rest : List Token}
    (hrule : g.prefixRule? t.kind = some rule)
    (hstart : start g rule (t :: ts) = done left rest) :
    expr g power (t :: ts) = extend g power left rest := by
  rw [expr_of_rule hrule]
  exact bind_of_done hstart

/-! ## How it goes on -/

/-- Tokens that bind too loosely are left. -/
theorem extend_of_not_lt (h : ¬ power < g.power (headToken ts).kind) :
    extend g power left ts = done left ts := by
  rw [extend]
  simp [h]

/-- An operator that is tight enough is read by its rule, and the loop goes on. -/
theorem extend_of_lt {rule : InfixRule} (h : power < g.power (headToken ts).kind)
    (hrule : g.infixRule? (headToken ts).kind = some rule) :
    extend g power left ts =
      (step g left (g.power (headToken ts).kind) rule >>= extend g power) ts := by
  rw [extend]
  simp [h, hrule]

/-- A token that is tight enough but has no rule is reported. -/
theorem extend_of_no_rule (h : power < g.power (headToken ts).kind)
    (hrule : g.infixRule? (headToken ts).kind = none) :
    extend g power left ts =
      failed ⟨.unexpectedToken (headToken ts).text, (headToken ts).start⟩ := by
  rw [extend]
  simp [h, hrule]

end

/-! ## Rules that ask for no expression -/

section

variable {g : Grammar} {power : BindingPower} {left e : Expr} {t u v : Token}
  {ts rest : List Token}

/-- A primary is a single token. -/
theorem start_primary (ht : t.kind ≠ .eof) :
    start g .primary (t :: ts) = found t.leaf ts := by
  rw [start, bind_of_done (next_of_ne ht ts)]

/-- `this` is an expression by itself. -/
theorem start_this (ht : t.kind = .kwThis) :
    start g .this (t :: ts) = done (.this t) ts := by
  rw [start, bind_of_done (expect_cons ht (by decide) ts)]
  rfl

/-- `super` is followed by a dot and the name of a method. -/
theorem start_super (ht : t.kind = .kwSuper) (hu : u.kind = .dot)
    (hv : v.kind = .identifier) :
    start g .super (t :: u :: v :: ts) = done (.super t v) ts := by
  rw [start, bind_of_done (expect_cons ht (by decide) _),
    bind_of_done (expectDetailed_cons hu (by decide) _ _),
    bind_of_done (expectDetailed_cons hv (by decide) _ ts)]
  rfl

/-! ## What an expression does behind a token

The operand that a rule asks for, and how the expression goes on with it. -/

/-- Behind an operator in front of its operand the operand is read. -/
theorem expr_operator (hrule : g.prefixRule? t.kind = some .operator)
    (ht : t.kind ≠ .eof) (ts : List Token) :
    expr g power (t :: ts) =
      (expr g .unary >>= fun e => extend g power (.unary t e)) ts := by
  rw [expr_of_rule hrule, start]
  simp only [bind_assoc, pure_bind]
  exact bind_of_done (next_of_ne ht ts)

/-- Behind an opening parenthesis an expression and the closing one are read. -/
theorem expr_group (hrule : g.prefixRule? t.kind = some .group) (ht : t.kind ≠ .eof)
    (ts : List Token) :
    expr g power (t :: ts) = (do
      let inner ← expr g .default
      let _ ← expectDetailed .closeParen "expected `)` after expression"
      extend g power (.group inner)) ts := by
  rw [expr_of_rule hrule, start]
  simp only [bind_assoc, pure_bind]
  exact bind_of_done (next_of_ne ht ts)

/-- Behind a binary operator its right operand is read. -/
theorem extend_binary (left : Expr) (hlt : power < g.power t.kind)
    (hrule : g.infixRule? t.kind = some .binary) (ht : t.kind ≠ .eof)
    (ts : List Token) :
    extend g power left (t :: ts) =
      (expr g (g.power t.kind) >>= fun e => extend g power (.binary left t e)) ts := by
  rw [extend_of_lt hlt hrule, step]
  simp only [bind_assoc, pure_bind]
  exact bind_of_done (next_of_ne ht ts)

/-- Behind a logical operator its right operand is read. -/
theorem extend_logical (left : Expr) (hlt : power < g.power t.kind)
    (hrule : g.infixRule? t.kind = some .logical) (ht : t.kind ≠ .eof) (ts : List Token) :
    extend g power left (t :: ts) =
      (expr g (g.power t.kind) >>= fun e => extend g power (.logical left t e)) ts := by
  rw [extend_of_lt hlt hrule, step]
  simp only [bind_assoc, pure_bind]
  exact bind_of_done (next_of_ne ht ts)

/-- Behind an assignment its value is read, and then its target is checked. -/
theorem extend_assignment (left : Expr) (hlt : power < g.power t.kind)
    (hrule : g.infixRule? t.kind = some .assignment) (ht : t.kind ≠ .eof)
    (ts : List Token) :
    extend g power left (t :: ts) = (do
      let value ← expr g .default
      match Expr.assigned? value left with
      | some e => extend g power e
      | none => fail ⟨.invalidAssignmentTarget, t.start⟩) ts := by
  rw [extend_of_lt hlt hrule, step]
  simp only [bind_assoc]
  rw [bind_of_done (next_of_ne ht ts)]
  apply bind_eq_bind rfl
  intro value rest _
  cases Expr.assigned? value left <;> rfl

/-- Behind an opening parenthesis that is not closed at once arguments are read. -/
theorem extend_call (left : Expr) (hlt : power < g.power t.kind)
    (hrule : g.infixRule? t.kind = some .call) (ht : t.kind ≠ .eof)
    (hhead : (headToken ts).kind ≠ .closeParen) :
    extend g power left (t :: ts) = (do
      let es ← arguments g
      let paren ← expectDetailed .closeParen "expected `)` after arguments"
      extend g power (.call left paren es)) ts := by
  rw [extend_of_lt hlt hrule, step]
  simp only [bind_assoc, pure_bind]
  rw [bind_of_done (next_of_ne ht ts), peek_bind, if_neg hhead]
  simp only [bind_assoc, pure_bind]

/-- A call without arguments. -/
theorem extend_call_nil (left : Expr) (hlt : power < g.power t.kind)
    (hrule : g.infixRule? t.kind = some .call) (ht : t.kind ≠ .eof)
    (hu : u.kind = .closeParen) (ts : List Token) :
    extend g power left (t :: u :: ts) = extend g power (.call left u []) ts := by
  rw [extend_of_lt hlt hrule, step]
  simp only [bind_assoc, pure_bind]
  rw [bind_of_done (next_of_ne ht (u :: ts)), peek_bind, headToken_cons, if_pos hu]
  simp only [bind_assoc, pure_bind]
  exact bind_of_done (expectDetailed_cons hu (by decide) _ ts)

/-- Behind a dot the name of a property is read. -/
theorem extend_get (left : Expr) (hlt : power < g.power t.kind)
    (hrule : g.infixRule? t.kind = some .get) (ht : t.kind ≠ .eof) (ts : List Token) :
    extend g power left (t :: ts) = (do
      let name ← expectDetailed .identifier "expected property name after `.`"
      extend g power (.get left name)) ts := by
  rw [extend_of_lt hlt hrule, step]
  simp only [bind_assoc, pure_bind]
  exact bind_of_done (next_of_ne ht ts)

/-! ## Arguments -/

/-- Arguments start as an expression does. -/
theorem prefixRule?_ne_none_of_arguments {es : List Expr}
    (h : arguments g ts = done es rest) :
    g.prefixRule? (headToken ts).kind ≠ none := by
  intro hrule
  rw [arguments, bind_of_failed (expr_of_no_rule hrule)] at h
  cases h

/-- Arguments end with an expression that no comma follows. -/
theorem arguments_last (h : expr g .default ts = done e rest)
    (hhead : (headToken rest).kind ≠ .comma) : arguments g ts = done [e] rest := by
  rw [arguments, bind_of_done h, peek_bind, if_neg hhead]
  rfl

/-- Behind a comma there are further arguments. -/
theorem arguments_cons (h : expr g .default ts = done e (u :: rest))
    (hu : u.kind = .comma) :
    arguments g ts = (arguments g >>= fun es => pure (e :: es)) rest := by
  conv => lhs; rw [arguments]
  rw [bind_of_done h, peek_bind, headToken_cons, if_pos hu,
    bind_of_done (next_of_ne (by simp [hu]) rest)]

end

end Unbounded

end ExprLang
