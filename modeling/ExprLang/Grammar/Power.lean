/-!
# Binding powers

How tightly an operator holds its operands, from the loosest to the tightest.  Powers
are ordered as they are declared.

Main result:

- Theorem `BindingPower.rank_injective`: no two powers are equally tight.
-/

namespace ExprLang

/-- How tightly an operator binds, loosest first. -/
inductive BindingPower where
  | default
  | assignment
  | or
  | and
  | equality
  | relational
  | additive
  | multiplicative
  | unary
  | call
  | primary
deriving DecidableEq, Repr

namespace BindingPower

/-- The place of a power in the order. -/
def rank : BindingPower → Nat
  | default => 0
  | assignment => 1
  | or => 2
  | and => 3
  | equality => 4
  | relational => 5
  | additive => 6
  | multiplicative => 7
  | unary => 8
  | call => 9
  | primary => 10

instance : LT BindingPower :=
  ⟨fun a b => a.rank < b.rank⟩

instance : LE BindingPower :=
  ⟨fun a b => a.rank ≤ b.rank⟩

instance (a b : BindingPower) : Decidable (a < b) :=
  inferInstanceAs (Decidable (a.rank < b.rank))

instance (a b : BindingPower) : Decidable (a ≤ b) :=
  inferInstanceAs (Decidable (a.rank ≤ b.rank))

/-- Different powers have different ranks. -/
theorem rank_injective {a b : BindingPower} (h : a.rank = b.rank) : a = b := by
  cases a <;> cases b <;> simp_all [rank]

end BindingPower

end ExprLang
