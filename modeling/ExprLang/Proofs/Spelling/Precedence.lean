import ExprLang.Proofs.Spelling.Basic

/-!
# Precedence form

The trees that can be written down without further parentheses.  An operator
binds its left operand at least as tightly as itself and its right operand more
tightly, an operator in front of its operand binds that at least as tightly as
itself, and only what is at least as tight as a call can be called or have
properties.

Main results:

- Theorem `Grammar.exists_infixRule_of_lt`: a token that binds at all goes on
  with an expression.
- Theorem `Expr.bound_eq_power`: only an assignment lets a token of its own
  power pass.
-/

namespace ExprLang

/-! ## Facts about the tables of the language -/

namespace Grammar

/-- Nothing binds more tightly than a call. -/
theorem power_standard_le_call (kind : TokenKind) : standard.power kind ≤ .call := by
  cases kind <;> decide

/-- No operator behind an operand is as tight as those in front. -/
theorem power_standard_ne_unary (kind : TokenKind) : standard.power kind ≠ .unary := by
  cases kind <;> decide

/-- Operators in front of their operand are alone at their power. -/
theorem power_standard_le_multiplicative {kind : TokenKind}
    (h : standard.power kind ≤ .unary) : standard.power kind ≤ .multiplicative := by
  rcases Nat.lt_or_eq_of_le h with hlt | heq
  · exact Nat.le_of_lt_succ hlt
  · exact absurd (BindingPower.rank_injective heq) (power_standard_ne_unary kind)

/-- Assignments are alone at their power. -/
theorem power_standard_le_default {kind : TokenKind}
    (h : standard.power kind ≤ .assignment) (hne : kind ≠ .assignment) :
    standard.power kind ≤ .default := by
  cases kind <;> revert h hne <;> decide

/-- A token that binds at all goes on with an expression. -/
theorem exists_infixRule_of_lt {power : BindingPower} {kind : TokenKind}
    (h : power < standard.power kind) :
    ∃ rule, standard.infixRule? kind = some rule := by
  rw [power_standard] at h
  rw [infixRule?_standard]
  split at h <;> first
    | exact ⟨_, rfl⟩
    | exact absurd h (Nat.not_lt_zero _)

/-- Operators between two operands bind more tightly than assignments, and less
tightly than operators in front of their operand. -/
theorem power_standard_of_operator {kind : TokenKind}
    (h : standard.infixRule? kind = some .binary ∨
      standard.infixRule? kind = some .logical) :
    .assignment < standard.power kind ∧ standard.power kind < .unary := by
  cases kind <;> revert h <;> decide

/-- Only calls and properties bind more tightly than operators in front of their
operand. -/
theorem infixRule?_of_unary_lt {kind : TokenKind} {rule : InfixRule}
    (h : .unary < standard.power kind) (hrule : standard.infixRule? kind = some rule) :
    rule = .call ∨ rule = .get := by
  cases rule with
  | call => exact .inl rfl
  | get => exact .inr rfl
  | binary =>
      exact absurd h (Nat.lt_asymm (power_standard_of_operator (.inl hrule)).2)
  | logical =>
      exact absurd h (Nat.lt_asymm (power_standard_of_operator (.inr hrule)).2)
  | assignment =>
      cases kind <;> revert h hrule <;> decide

/-- Only the sign of assignments has their rule. -/
theorem infixRule?_eq_assignment_iff {kind : TokenKind} :
    standard.infixRule? kind = some .assignment ↔ kind = .assignment := by
  cases kind <;> decide

/-- Only an opening parenthesis has the rule of calls. -/
theorem infixRule?_eq_call_iff {kind : TokenKind} :
    standard.infixRule? kind = some .call ↔ kind = .openParen := by
  cases kind <;> decide

/-- Only a dot has the rule of properties. -/
theorem infixRule?_eq_get_iff {kind : TokenKind} :
    standard.infixRule? kind = some .get ↔ kind = .dot := by
  cases kind <;> decide

/-- The operators in front of operands are the dash and the negation. -/
theorem prefixRule?_eq_operator_iff {kind : TokenKind} :
    standard.prefixRule? kind = some .operator ↔ kind ∈ [TokenKind.dash, .not] := by
  cases kind <;> decide

/-- Only its keyword has the rule of `this`. -/
theorem prefixRule?_eq_this_iff {kind : TokenKind} :
    standard.prefixRule? kind = some .this ↔ kind = .kwThis := by
  cases kind <;> decide

/-- Only its keyword has the rule of `super`. -/
theorem prefixRule?_eq_super_iff {kind : TokenKind} :
    standard.prefixRule? kind = some .super ↔ kind = .kwSuper := by
  cases kind <;> decide

/-- Only an opening parenthesis has the rule of groups. -/
theorem prefixRule?_eq_group_iff {kind : TokenKind} :
    standard.prefixRule? kind = some .group ↔ kind = .openParen := by
  cases kind <;> decide

/-- A constant or a variable starts an expression by itself. -/
theorem prefixRule?_of_leaf {t : Token} {e : Expr} (h : t.leaf = .ok e) :
    standard.prefixRule? t.kind = some .primary := by
  rcases Token.leaf_eq_ok_iff.1 h with ⟨value, hdenotes, -⟩ | ⟨hkind, -⟩
  · cases hdenotes with
    | number hkind => rw [hkind]; rfl
    | string hkind | true hkind | false hkind | nil hkind => rw [hkind]; rfl
  · rw [hkind]
    rfl

/-- No expression starts at the end of the input. -/
theorem ne_eof_of_prefixRule? {kind : TokenKind} {rule : PrefixRule}
    (h : standard.prefixRule? kind = some rule) : kind ≠ .eof := by
  rintro rfl
  cases h

/-- No expression goes on at the end of the input. -/
theorem ne_eof_of_infixRule? {kind : TokenKind} {rule : InfixRule}
    (h : standard.infixRule? kind = some rule) : kind ≠ .eof := by
  rintro rfl
  cases h

end Grammar

/-! ## Powers of expressions -/

namespace Expr

/-- How tightly an expression holds its parts together. -/
def power : Expr → BindingPower
  | .binary _ operator _ | .logical _ operator _ => Grammar.standard.power operator.kind
  | .unary .. => .unary
  | .assign .. | .set .. => .assignment
  | .call .. | .get .. => .call
  | .group _ | .literal .. | .var _ | .this _ | .super .. => .primary

/-- The power above which a following token would be read into the last part of
an expression.  The value of an assignment takes in all that binds. -/
def bound : Expr → BindingPower
  | .assign .. | .set .. => .default
  | e => e.power

/-- Only an assignment has a bound below its power. -/
theorem bound_eq_power {e : Expr} (h : .assignment < e.power) : e.bound = e.power := by
  cases e with
  | assign => exact absurd h (Nat.lt_irrefl _)
  | set => exact absurd h (Nat.lt_irrefl _)
  | _ => rfl

/-- The bound of an expression does not exceed its power. -/
theorem bound_le_power (e : Expr) : e.bound ≤ e.power := by
  cases e with
  | assign => exact Nat.zero_le _
  | set => exact Nat.zero_le _
  | _ => exact Nat.le_refl _

/-- Above assignments an expression lets pass what is no tighter than itself. -/
theorem le_bound {e : Expr} {p : BindingPower} (hp : .assignment < p)
    (h : p ≤ e.power) : p ≤ e.bound := by
  rw [bound_eq_power (Nat.lt_of_lt_of_le hp h)]
  exact h

/-- An expression that needs no further parentheses, with operators, names and
keywords of the kinds that belong in their places. -/
inductive InPrecedenceForm : Expr → Prop where
  | binary {left right : Expr} {operator : Token}
      (hrule : Grammar.standard.infixRule? operator.kind = some .binary)
      (hleft : Grammar.standard.power operator.kind ≤ left.power)
      (hright : Grammar.standard.power operator.kind < right.power)
      (left_form : InPrecedenceForm left) (right_form : InPrecedenceForm right) :
      InPrecedenceForm (.binary left operator right)
  | group {inner : Expr} (form : InPrecedenceForm inner) :
      InPrecedenceForm (.group inner)
  | literal (value : Value) (span : Span) : InPrecedenceForm (.literal value span)
  | unary {operator : Token} {operand : Expr}
      (hrule : Grammar.standard.prefixRule? operator.kind = some .operator)
      (hoperand : .unary ≤ operand.power) (form : InPrecedenceForm operand) :
      InPrecedenceForm (.unary operator operand)
  | var {name : Token} (hname : name.kind = .identifier) :
      InPrecedenceForm (.var name)
  | assign {name : Token} {value : Expr} (hname : name.kind = .identifier)
      (form : InPrecedenceForm value) : InPrecedenceForm (.assign name value)
  | logical {left right : Expr} {operator : Token}
      (hrule : Grammar.standard.infixRule? operator.kind = some .logical)
      (hleft : Grammar.standard.power operator.kind ≤ left.power)
      (hright : Grammar.standard.power operator.kind < right.power)
      (left_form : InPrecedenceForm left) (right_form : InPrecedenceForm right) :
      InPrecedenceForm (.logical left operator right)
  | call {callee : Expr} {paren : Token} {arguments : List Expr}
      (hcallee : .call ≤ callee.power) (hparen : paren.kind = .closeParen)
      (form : InPrecedenceForm callee)
      (arguments_form : ∀ argument ∈ arguments, InPrecedenceForm argument) :
      InPrecedenceForm (.call callee paren arguments)
  | get {object : Expr} {name : Token} (hobject : .call ≤ object.power)
      (hname : name.kind = .identifier) (form : InPrecedenceForm object) :
      InPrecedenceForm (.get object name)
  | set {object value : Expr} {name : Token} (hobject : .call ≤ object.power)
      (hname : name.kind = .identifier) (form : InPrecedenceForm object)
      (value_form : InPrecedenceForm value) :
      InPrecedenceForm (.set object name value)
  | this {keyword : Token} (hkeyword : keyword.kind = .kwThis) :
      InPrecedenceForm (.this keyword)
  | super {keyword method : Token} (hkeyword : keyword.kind = .kwSuper)
      (hmethod : method.kind = .identifier) :
      InPrecedenceForm (.super keyword method)

/-- An expression in precedence form holds its parts together at some power. -/
theorem InPrecedenceForm.default_lt_power {e : Expr} (h : e.InPrecedenceForm) :
    .default < e.power := by
  have hoperator {kind : TokenKind} (hlt : .assignment < Grammar.standard.power kind) :
      .default < Grammar.standard.power kind :=
    Nat.lt_trans (by decide : BindingPower.default < .assignment) hlt
  cases h with
  | binary hrule => exact hoperator (Grammar.power_standard_of_operator (.inl hrule)).1
  | logical hrule => exact hoperator (Grammar.power_standard_of_operator (.inr hrule)).1
  | _ => exact Nat.zero_lt_succ _

/-! ## Assignments -/

section Assigned

variable {value target e : Expr} {ts : List Token}

/-- The spelling of an assignment is that of its target and of its value, with a
token between them. -/
theorem spells_iff_of_assigned? (hassigned : Expr.assigned? value target = some e) :
    e.Spells ts ↔ ∃ us equals vs, ts = us ++ equals :: vs ∧ target.Spells us ∧
      equals.kind = .assignment ∧ value.Spells vs := by
  rcases Expr.assigned?_eq_some_iff.1 hassigned with
    ⟨name, rfl, rfl⟩ | ⟨object, name, rfl, rfl⟩
  · simp only [spells_assign_iff, spells_var_iff]
    constructor
    · rintro ⟨equals, vs, rfl, hequals, hvs⟩
      exact ⟨[name], equals, vs, rfl, rfl, hequals, hvs⟩
    · rintro ⟨us, equals, vs, rfl, rfl, hequals, hvs⟩
      exact ⟨equals, vs, rfl, hequals, hvs⟩
  · simp only [spells_set_iff, spells_get_iff]
    constructor
    · rintro ⟨os, dot, equals, vs, rfl, hos, hdot, hequals, hvs⟩
      exact ⟨os ++ [dot, name], equals, vs, by simp, ⟨os, dot, rfl, hos, hdot⟩, hequals,
        hvs⟩
    · rintro ⟨us, equals, vs, rfl, ⟨os, dot, rfl, hos, hdot⟩, hequals, hvs⟩
      exact ⟨os, dot, equals, vs, by simp, hos, hdot, hequals, hvs⟩

/-- An assignment is in precedence form exactly if its target and its value are. -/
theorem form_iff_of_assigned? (hassigned : Expr.assigned? value target = some e) :
    e.InPrecedenceForm ↔ target.InPrecedenceForm ∧ value.InPrecedenceForm := by
  rcases Expr.assigned?_eq_some_iff.1 hassigned with
    ⟨name, rfl, rfl⟩ | ⟨object, name, rfl, rfl⟩
  · constructor
    · intro h
      cases h with
      | assign hname hvalue => exact ⟨.var hname, hvalue⟩
    · rintro ⟨h, hvalue⟩
      cases h with
      | var hname => exact .assign hname hvalue
  · constructor
    · intro h
      cases h with
      | set hobject hname hform hvalue => exact ⟨.get hobject hname hform, hvalue⟩
    · rintro ⟨h, hvalue⟩
      cases h with
      | get hobject hname hform => exact .set hobject hname hform hvalue

/-- Assignments are alone at their power. -/
theorem power_of_assigned? (hassigned : Expr.assigned? value target = some e) :
    e.power = .assignment := by
  rcases Expr.assigned?_eq_some_iff.1 hassigned with ⟨_, -, rfl⟩ | ⟨_, _, -, rfl⟩ <;> rfl

/-- The value of an assignment takes in all that binds. -/
theorem bound_of_assigned? (hassigned : Expr.assigned? value target = some e) :
    e.bound = .default := by
  rcases Expr.assigned?_eq_some_iff.1 hassigned with ⟨_, -, rfl⟩ | ⟨_, _, -, rfl⟩ <;> rfl

/-- What is assigned to holds its parts together more tightly than an assignment. -/
theorem assignment_lt_power_of_assigned?
    (hassigned : Expr.assigned? value target = some e) : .assignment < target.power := by
  rcases Expr.assigned?_eq_some_iff.1 hassigned with ⟨_, rfl, -⟩ | ⟨_, _, rfl, -⟩
  · exact (by decide : BindingPower.assignment < .primary)
  · exact (by decide : BindingPower.assignment < .call)

/-- The sign of an assignment is not read into its target. -/
theorem assignment_le_bound_of_assigned?
    (hassigned : Expr.assigned? value target = some e) : .assignment ≤ target.bound := by
  have hlt := assignment_lt_power_of_assigned? hassigned
  rw [bound_eq_power hlt]
  exact Nat.le_of_lt hlt

end Assigned

end Expr

end ExprLang
