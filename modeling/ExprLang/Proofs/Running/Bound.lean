import ExprLang.Parser.Parse

/-!
# Bounds that are not used up

The parser of expressions bounds its depth and the turns of its loops.  A run
that ends within its bounds is the run within any larger bounds, so that a bound
can only cut a run short, and never changes how it ends.

Main results:

- Theorem `refinedBy_bind`: a sequence is refined where both of its parsers are.
- Theorem `parseExpr_refinedBy`: a parser of expressions is refined by one with
  a larger bound.
-/

namespace ExprLang

open ParseM

/-- A run has not been cut short by its bound. -/
def Ends {α : Type} (r : EStateM.Result Stop TokenStream α) : Prop :=
  ∀ s, r ≠ .error .exhausted s

/-- A run ends as another one does, unless it has been cut short. -/
def RefinedBy {α : Type} (r r' : EStateM.Result Stop TokenStream α) : Prop :=
  Ends r → r' = r

section Sequence

variable {α β : Type} {x y : ParseM α} {f k : α → ParseM β} {s : TokenStream}

private theorem refinedBy_refl (r : EStateM.Result Stop TokenStream α) : RefinedBy r r :=
  fun _ => rfl

private theorem refinedBy_exhausted (r : EStateM.Result Stop TokenStream α) :
    RefinedBy ((throw .exhausted : ParseM α) s) r :=
  fun h => absurd rfl (h s)

/-- Runs that are refined one after another are refined in sequence. -/
theorem refinedBy_bind (hx : RefinedBy (x s) (y s))
    (hf : ∀ a s', RefinedBy (f a s') (k a s')) :
    RefinedBy ((x >>= f) s) ((y >>= k) s) := by
  simp only [bind, EStateM.bind]
  cases hrun : x s with
  | ok a s' =>
      rw [hrun] at hx
      have hy : y s = .ok a s' := hx (by intro _ h; cases h)
      rw [hy]
      exact hf a s'
  | error stop s' =>
      intro hends
      rw [hrun] at hx
      have hy : y s = .error stop s' := hx (by
        intro s'' h
        cases h
        exact hends s' rfl)
      rw [hy]

/-- Behind the same parser it is enough that what follows is refined. -/
theorem refinedBy_bind_left (hf : ∀ a s', RefinedBy (f a s') (k a s')) :
    RefinedBy ((x >>= f) s) ((x >>= k) s) :=
  refinedBy_bind (refinedBy_refl _) hf

end Sequence

/-! ## Rules of a grammar -/

section Rules

variable {g : Grammar} {operand operand' : BindingPower → ParseM Expr}
  {turns turns' : Nat}

variable (hoperand : ∀ power s, RefinedBy (operand power s) (operand' power s))

include hoperand

/-- Rules of prefixes are refined if their operands are. -/
theorem PrefixRule.run_refinedBy (rule : PrefixRule) (s : TokenStream) :
    RefinedBy (rule.run operand s) (rule.run operand' s) := by
  cases rule with
  | primary | this | super => exact refinedBy_refl _
  | operator | group =>
      apply refinedBy_bind_left
      intro t s'
      exact refinedBy_bind (hoperand _ s') fun _ _ => refinedBy_refl _

/-- Arguments are refined by more turns, if expressions are. -/
theorem parseArguments_refinedBy (hturns : turns ≤ turns') (s : TokenStream) :
    RefinedBy (parseArguments operand turns s) (parseArguments operand' turns' s) := by
  induction turns generalizing turns' s with
  | zero => exact refinedBy_exhausted _
  | succ turns ih =>
      rcases Nat.exists_eq_succ_of_ne_zero (Nat.ne_zero_of_lt hturns) with ⟨turns', rfl⟩
      apply refinedBy_bind (hoperand .default s)
      intro first s'
      apply refinedBy_bind_left
      intro t s'
      split
      · apply refinedBy_bind_left
        intro comma s'
        exact refinedBy_bind (ih (Nat.le_of_succ_le_succ hturns) s')
          fun _ _ => refinedBy_refl _
      · exact refinedBy_refl _

/-- Rules of operators are refined by more turns, if their operands are. -/
theorem InfixRule.run_refinedBy (hturns : turns ≤ turns') (left : Expr)
    (power : BindingPower) (rule : InfixRule) (s : TokenStream) :
    RefinedBy (rule.run operand turns left power s)
      (rule.run operand' turns' left power s) := by
  cases rule with
  | get => exact refinedBy_refl _
  | binary | logical | assignment =>
      apply refinedBy_bind_left
      intro t s'
      exact refinedBy_bind (hoperand _ s') fun _ _ => refinedBy_refl _
  | call =>
      apply refinedBy_bind_left
      intro opening s'
      apply refinedBy_bind_left
      intro t s'
      split
      · exact refinedBy_refl _
      · exact refinedBy_bind (parseArguments_refinedBy hoperand hturns s')
          fun _ _ => refinedBy_refl _

/-- The loop over operators is refined by more turns, if operands are. -/
theorem extend_refinedBy (hturns : turns ≤ turns') (power : BindingPower)
    {count count' : Nat} (hcount : count ≤ count') (left : Expr) (s : TokenStream) :
    RefinedBy (extend g operand turns power count left s)
      (extend g operand' turns' power count' left s) := by
  induction count generalizing count' left s with
  | zero => exact refinedBy_exhausted _
  | succ count ih =>
      rcases Nat.exists_eq_succ_of_ne_zero (Nat.ne_zero_of_lt hcount) with ⟨count', rfl⟩
      apply refinedBy_bind_left
      intro t s'
      split
      · cases g.infixRule? t.kind with
        | none => exact refinedBy_refl _
        | some rule =>
            apply refinedBy_bind (rule.run_refinedBy hoperand hturns left _ s')
            intro longer s''
            exact ih (Nat.le_of_succ_le_succ hcount) longer s''
      · exact refinedBy_refl _

end Rules

/-! ## Expressions -/

/-- A parser of expressions is refined by one with a larger bound. -/
theorem parseExpr_refinedBy (g : Grammar) {depth depth' : Nat} (h : depth ≤ depth')
    (power : BindingPower) (s : TokenStream) :
    RefinedBy (parseExpr g depth power s) (parseExpr g depth' power s) := by
  induction depth generalizing depth' power s with
  | zero => exact refinedBy_exhausted _
  | succ depth ih =>
      rcases Nat.exists_eq_succ_of_ne_zero (Nat.ne_zero_of_lt h) with ⟨depth', rfl⟩
      have hle := Nat.le_of_succ_le_succ h
      have hoperand : ∀ power s,
          RefinedBy (parseExpr g depth power s) (parseExpr g depth' power s) := ih hle
      apply refinedBy_bind_left
      intro t s'
      cases g.prefixRule? t.kind with
      | none => exact refinedBy_refl _
      | some rule =>
          apply refinedBy_bind (rule.run_refinedBy hoperand s')
          intro left s''
          exact extend_refinedBy hoperand hle power hle left s''

/-- A run with a larger bound refines one with a smaller bound. -/
theorem parseWhole_refinedBy {depth depth' : Nat} (h : depth ≤ depth')
    (s : TokenStream) : RefinedBy (parseWhole depth s) (parseWhole depth' s) :=
  refinedBy_bind (parseExpr_refinedBy _ h .default s) fun _ _ => refinedBy_refl _

end ExprLang
