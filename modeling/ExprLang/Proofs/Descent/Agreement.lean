import ExprLang.Proofs.Descent.Basic
import ExprLang.Proofs.Spelling.Soundness

/-!
# Recursive descent and binding powers agree

The loop over binding powers ends as recursive descent does, on every list of
tokens.  The procedure of a level is the loop that stops below the power of the
level's operators; such a loop can be cut into the loop of the operands and the
rest of the turns.

Main results:

- Theorem `Unbounded.expr_split`: a loop is one for a higher power that goes on.
- Theorem `operation_eq`: the procedure of a level is a loop.
- Theorem `parse_eq_descent`: parsing ends as recursive descent does.
-/

namespace ExprLang

open ReadM Ending

/-! ## Cutting the loop -/

namespace Unbounded

variable {g : Grammar} {p p' : BindingPower}

/-- Operators up to a power can be read first, and then the looser ones. -/
theorem extend_split (hg : g.StopsAtEnd) (h : p ≤ p') (left : Expr) (ts : List Token) :
    extend g p left ts = (extend g p' left >>= extend g p) ts := by
  induction hlength : ts.length using Nat.strongRecOn generalizing left ts with
  | ind length ihlength =>
      subst hlength
      by_cases hlt : p' < g.power (headToken ts).kind
      · have hlt' : p < g.power (headToken ts).kind := Nat.lt_of_le_of_lt h hlt
        cases hrule : g.infixRule? (headToken ts).kind with
        | none =>
            rw [extend_of_no_rule hlt' hrule,
              bind_of_failed (extend_of_no_rule hlt hrule)]
        | some rule =>
            have hcut : (extend g p' left >>= extend g p) ts =
                ((step g left (g.power (headToken ts).kind) rule >>= extend g p') >>=
                  extend g p) ts :=
              bind_eq_bind (extend_of_lt hlt hrule) fun _ _ _ => rfl
            rw [hcut, bind_assoc, extend_of_lt hlt' hrule]
            apply bind_eq_bind rfl
            intro longer mid hlonger
            have hmid := (advances_of_step hg hlonger).length_lt
            exact ihlength mid.length hmid longer mid rfl
      · exact (bind_of_done (extend_of_not_lt hlt)).symm

/-- A loop is one for a higher power that goes on. -/
theorem expr_split (hg : g.StopsAtEnd) (h : p ≤ p') (ts : List Token) :
    expr g p ts = (expr g p' >>= extend g p) ts := by
  cases hrule : g.prefixRule? (headToken ts).kind with
  | none => rw [expr_of_no_rule hrule, bind_of_failed (expr_of_no_rule hrule)]
  | some rule =>
      have hcut : (expr g p' >>= extend g p) ts =
          ((start g rule >>= extend g p') >>= extend g p) ts :=
        bind_eq_bind (expr_of_rule hrule) fun _ _ _ => rfl
      rw [hcut, bind_assoc, expr_of_rule hrule]
      apply bind_eq_bind rfl
      intro left mid _
      exact extend_split hg h left mid

end Unbounded

namespace Descent

/-! ## Levels and powers -/

namespace Level

/-- The power of the operators of a level. -/
def power : Level → BindingPower
  | or => .or
  | and => .and
  | equality => .equality
  | relational => .relational
  | additive => .additive
  | multiplicative => .multiplicative

/-- The greatest power that lets the operators of a level pass. -/
def below : Level → BindingPower
  | or => .assignment
  | and => .or
  | equality => .and
  | relational => .equality
  | additive => .relational
  | multiplicative => .additive

/-- The rule for the operators of a level. -/
def rule : Level → InfixRule
  | or | and => .logical
  | equality | relational | additive | multiplicative => .binary

variable {level level' : Level} {kind : TokenKind}

/-- The operators of a level are those of its power. -/
theorem mem_operators_iff :
    kind ∈ level.operators ↔ Grammar.standard.power kind = level.power := by
  rw [Grammar.power_standard]
  cases level <;> cases kind <;> decide

/-- The operators of a level go on with its rule. -/
theorem infixRule?_of_mem (h : kind ∈ level.operators) :
    Grammar.standard.infixRule? kind = some level.rule := by
  rw [Grammar.infixRule?_standard]
  cases level <;> simp [operators] at h <;> rcases h with rfl | rfl | rfl | rfl <;> rfl

private theorem below_lt_iff {p : BindingPower} : level.below < p ↔ level.power ≤ p := by
  cases level <;> cases p <;> decide

private theorem below_le_power (level : Level) : level.below ≤ level.power := by
  cases level <;> decide

private theorem below_of_tighter (h : level.tighter? = some level') :
    level'.below = level.power := by
  cases level <;> cases h <;> rfl

private theorem power_of_tightest (h : level.tighter? = none) :
    level.power = .multiplicative := by
  cases level <;> cases h
  rfl

end Level

/-- The rule for an operator of a level reads the right operand and makes a node
of the level. -/
theorem step_rule (level : Level) (left : Expr) (power : BindingPower) :
    Unbounded.step .standard left power level.rule = (do
      let operator ← next
      let right ← Unbounded.expr .standard power
      return level.node left operator right) := by
  cases level <;> rw [Level.rule, Unbounded.step] <;> rfl

/-! ## Primary expressions -/

/-- The procedures end as loops do, on all lists of fewer tokens than a number. -/
structure AgreesBelow (n : Nat) : Prop where
  assignment : ∀ ts : List Token, ts.length < n →
    Procedure.assignment.run ts = Unbounded.expr .standard .default ts
  operand : ∀ (level : Level) (ts : List Token), ts.length < n →
    (Procedure.operand level).run ts = Unbounded.expr .standard level.power ts
  unary : ∀ ts : List Token, ts.length < n →
    Procedure.unary.run ts = Unbounded.expr .standard .unary ts

variable {n : Nat} {ts : List Token} {t : Token}

private theorem primary_of_no_rule
    (h : Grammar.standard.prefixRule? (headToken ts).kind = none) :
    Procedure.primary.run ts = failed (headToken ts).expectedExpression := by
  rcases exists_next ts with ⟨rest, hnext⟩
  rw [Procedure.run, bind_of_done hnext]
  cases hkind : (headToken ts).kind <;> rw [hkind] at h <;> first | rfl | cases h

/-- A token that is a constant or a variable is read as the leaf that it is. -/
theorem primary_of_leaf (ht : Grammar.standard.prefixRule? t.kind = some .primary) :
    Procedure.primary.run (t :: ts) = found t.leaf ts := by
  rw [Procedure.run, bind_of_done (next_of_ne (Grammar.ne_eof_of_prefixRule? ht) ts)]
  cases hkind : t.kind <;> rw [hkind] at ht <;> try cases ht
  case number =>
    simp only [Token.leaf, Token.constant?, hkind]
    cases Decimal.read? t.text <;> rfl
  all_goals simp [Token.leaf, Token.constant?, hkind, found, Except.map]

/-- The procedure for primaries agrees with the rules of prefixes, but for operators. -/
theorem primary_eq (ih : AgreesBelow n) (hlen : ts.length ≤ n) {rule : PrefixRule}
    (hrule : Grammar.standard.prefixRule? (headToken ts).kind = some rule)
    (hne : rule ≠ .operator) :
    Procedure.primary.run ts = Unbounded.start .standard rule ts := by
  cases ts with
  | nil => cases hrule
  | cons t ts =>
      rw [headToken_cons] at hrule
      have ht := Grammar.ne_eof_of_prefixRule? hrule
      cases rule with
      | operator => exact absurd rfl hne
      | primary => rw [primary_of_leaf hrule, Unbounded.start_primary ht]
      | this =>
          have hkind := Grammar.prefixRule?_eq_this_iff.1 hrule
          rw [Procedure.run, bind_of_done (next_of_ne ht ts),
            Unbounded.start_this hkind, hkind]
          rfl
      | super =>
          have hkind := Grammar.prefixRule?_eq_super_iff.1 hrule
          rw [Procedure.run, bind_of_done (next_of_ne ht ts), Unbounded.start,
            bind_of_done (expect_cons hkind (by decide) ts), hkind]
      | group =>
          have hkind := Grammar.prefixRule?_eq_group_iff.1 hrule
          rw [Procedure.run, bind_of_done (next_of_ne ht ts), Unbounded.start,
            bind_of_done (next_of_ne ht ts), hkind]
          exact bind_eq_bind (ih.assignment ts hlen) fun _ _ _ => rfl

/-! ## Suffixes -/

/-- Arguments are assignments between commas for both. -/
theorem arguments_eq (ih : AgreesBelow n) (hlen : ts.length < n) :
    Procedure.arguments.run ts = Unbounded.arguments .standard ts := by
  induction hlength : ts.length using Nat.strongRecOn generalizing ts with
  | ind length ihlength =>
      subst hlength
      rw [Procedure.run, Unbounded.arguments]
      apply bind_eq_bind (ih.assignment ts hlen)
      intro first mid hfirst
      have hmid := (Unbounded.advances_of_expr Grammar.stopsAtEnd_standard
        hfirst).length_lt
      rw [peek_bind, peek_bind]
      split
      · rename_i hcomma
        cases mid with
        | nil => cases hcomma
        | cons comma rest =>
            have hnext := next_of_ne (t := comma) (by simp_all) rest
            rw [bind_of_done hnext, bind_of_done hnext]
            have hrest : rest.length < ts.length := Nat.lt_of_succ_lt hmid
            exact bind_eq_bind (ihlength rest.length hrest (Nat.lt_trans hrest hlen) rfl)
              fun _ _ _ => rfl
      · rfl

/-- What a call or a property name makes of a callee or an object. -/
theorem suffixes_of_rule (left : Expr) {rule : InfixRule}
    (hrule : Grammar.standard.infixRule? t.kind = some rule)
    (hcall : rule = .call ∨ rule = .get) (ih : AgreesBelow n)
    (hlen : (t :: ts).length ≤ n) :
    (Procedure.suffixes left).run (t :: ts) =
      (Unbounded.step .standard left (Grammar.standard.power t.kind) rule >>= fun e =>
        (Procedure.suffixes e).run) (t :: ts) := by
  have ht := Grammar.ne_eof_of_infixRule? hrule
  conv => lhs; rw [Procedure.run]
  rcases hcall with rfl | rfl
  · have hkind := Grammar.infixRule?_eq_call_iff.1 hrule
    rw [peek_bind, headToken_cons, hkind, Unbounded.step]
    simp only [bind_assoc]
    rw [bind_of_done (next_of_ne ht ts), bind_of_done (next_of_ne ht ts), peek_bind,
      peek_bind]
    by_cases hclose : (headToken ts).kind = .closeParen
    · rw [if_pos hclose, if_pos hclose]
      simp only [bind_assoc, pure_bind]
    · rw [if_neg hclose, if_neg hclose]
      simp only [bind_assoc, pure_bind]
      exact bind_eq_bind (arguments_eq ih hlen) fun _ _ _ => rfl
  · have hkind := Grammar.infixRule?_eq_get_iff.1 hrule
    rw [peek_bind, headToken_cons, hkind, Unbounded.step]
    simp only [bind_assoc, pure_bind]

/-- Other tokens end the suffixes. -/
theorem suffixes_of_le (left : Expr)
    (h : Grammar.standard.power (headToken ts).kind ≤ .unary) :
    (Procedure.suffixes left).run ts = done left ts := by
  rw [Procedure.run, peek_bind]
  cases hkind : (headToken ts).kind <;> rw [hkind] at h <;> first
    | rfl
    | exact absurd h (by decide)

/-- The procedure for calls and properties agrees with the loop above unary operators. -/
theorem suffixes_eq (ih : AgreesBelow n) (left : Expr) (hlen : ts.length ≤ n) :
    (Procedure.suffixes left).run ts = Unbounded.extend .standard .unary left ts := by
  induction hlength : ts.length using Nat.strongRecOn generalizing left ts with
  | ind length ihlength =>
      subst hlength
      by_cases hlt : .unary < Grammar.standard.power (headToken ts).kind
      · rcases Grammar.exists_infixRule_of_lt hlt with ⟨rule, hrule⟩
        cases ts with
        | nil => cases hrule
        | cons t ts =>
            rw [headToken_cons] at hlt hrule
            have hcall := Grammar.infixRule?_of_unary_lt hlt hrule
            rw [suffixes_of_rule left hrule hcall ih hlen,
              Unbounded.extend_of_lt hlt hrule]
            apply bind_eq_bind rfl
            intro longer mid hlonger
            have hmid := (Unbounded.advances_of_step Grammar.stopsAtEnd_standard
              hlonger).length_lt
            exact ihlength mid.length hmid longer (by omega) rfl
      · rw [suffixes_of_le left (Nat.le_of_not_lt hlt), Unbounded.extend_of_not_lt hlt]

/-! ## Unary expressions -/

/-- The loop has no turn between operands of the tightest level and unary
expressions. -/
theorem expr_multiplicative (ts : List Token) :
    Unbounded.expr .standard .multiplicative ts =
      Unbounded.expr .standard .unary ts := by
  have hcut := Unbounded.expr_split Grammar.stopsAtEnd_standard
    (by decide : BindingPower.multiplicative ≤ .unary) ts
  have hstop : (Unbounded.expr .standard .unary >>=
      Unbounded.extend .standard .multiplicative) ts =
        (Unbounded.expr .standard .unary >>= pure) ts := by
    apply bind_eq_bind rfl
    intro e rest he
    have hhead := (Unbounded.readsFrom_of_expr he).2
    apply Unbounded.extend_of_not_lt
    exact Nat.not_lt_of_le (Grammar.power_standard_le_multiplicative hhead)
  rw [hcut, hstop, bind_pure]

/-- The procedure for unary operators agrees with the reading of their operands. -/
theorem unary_eq (ih : AgreesBelow n) (hlen : ts.length ≤ n) :
    Procedure.unary.run ts = Unbounded.expr .standard .unary ts := by
  rw [Procedure.run, peek_bind]
  by_cases hmem : (headToken ts).kind ∈ [TokenKind.dash, .not]
  · have hrule := Grammar.prefixRule?_eq_operator_iff.2 hmem
    rw [if_pos hmem]
    cases ts with
    | nil => cases hrule
    | cons t ts =>
        rw [headToken_cons] at hrule
        have ht := Grammar.ne_eof_of_prefixRule? hrule
        rw [bind_of_done (next_of_ne ht ts), Unbounded.expr_operator hrule ht]
        apply bind_eq_bind (ih.unary ts hlen)
        intro e rest he
        -- the loop stops at once, as it has done behind the operand
        have hhead := (Unbounded.readsFrom_of_expr he).2
        exact (Unbounded.extend_of_not_lt (Nat.not_lt_of_le hhead)).symm
  · rw [if_neg hmem, Procedure.run]
    cases hrule : Grammar.standard.prefixRule? (headToken ts).kind with
    | none =>
        rw [Unbounded.expr_of_no_rule hrule, bind_of_failed (primary_of_no_rule hrule)]
    | some rule =>
        have hne : rule ≠ .operator := by
          rintro rfl
          exact hmem (Grammar.prefixRule?_eq_operator_iff.1 hrule)
        rw [Unbounded.expr_of_rule hrule]
        apply bind_eq_bind (primary_eq ih hlen hrule hne)
        intro left mid hleft
        have hmid := (Unbounded.advances_of_start Grammar.stopsAtEnd_standard
          hleft).length_lt
        exact suffixes_eq ih left (Nat.le_trans (Nat.le_of_lt hmid) hlen)

/-! ## Operators between operands -/

/-- The loop of a level stops as soon as what follows is no operator of it. -/
theorem operations_eq (ih : AgreesBelow n) (level : Level) (left : Expr)
    (hlen : ts.length ≤ n)
    (hhead : Grammar.standard.power (headToken ts).kind ≤ level.power) :
    (Procedure.operations level left).run ts =
      Unbounded.extend .standard level.below left ts := by
  induction hlength : ts.length using Nat.strongRecOn generalizing left ts with
  | ind length ihlength =>
      subst hlength
      conv => lhs; rw [Procedure.run]
      rw [peek_bind]
      by_cases hmem : (headToken ts).kind ∈ level.operators
      · have hpower := Level.mem_operators_iff.1 hmem
        have hrule := Level.infixRule?_of_mem hmem
        have hlt := Level.below_lt_iff.2 (Nat.le_of_eq (congrArg _ hpower.symm))
        rw [if_pos hmem, Unbounded.extend_of_lt hlt hrule, step_rule, hpower]
        cases ts with
        | nil => cases hrule
        | cons t ts =>
            have ht : t.kind ≠ .eof := Grammar.ne_eof_of_infixRule? hrule
            simp only [bind_assoc, pure_bind]
            rw [bind_of_done (next_of_ne ht ts), bind_of_done (next_of_ne ht ts)]
            apply bind_eq_bind (ih.operand level ts hlen)
            intro right mid hright
            have hmid := (Unbounded.advances_of_expr Grammar.stopsAtEnd_standard
              hright).length_lt
            have hhead' := (Unbounded.readsFrom_of_expr hright).2
            have hlt : mid.length < (t :: ts).length := Nat.lt_succ_of_lt hmid
            exact ihlength mid.length hlt _ (Nat.le_trans (Nat.le_of_lt hlt) hlen)
              hhead' rfl
      · have hnot : ¬ level.below < Grammar.standard.power (headToken ts).kind := by
          intro hlt
          apply hmem
          apply Level.mem_operators_iff.2
          exact BindingPower.rank_injective
            (Nat.le_antisymm hhead (Level.below_lt_iff.1 hlt))
        rw [if_neg hmem, Unbounded.extend_of_not_lt hnot]
        rfl

/-- The procedure of a level is a loop if that for its operands is. -/
theorem operation_eq (ih : AgreesBelow n) {level : Level} (hlen : ts.length ≤ n)
    (hoperand : (Procedure.operand level).run ts =
      Unbounded.expr .standard level.power ts) :
    (Procedure.operation level).run ts = Unbounded.expr .standard level.below ts := by
  rw [Procedure.run,
    Unbounded.expr_split Grammar.stopsAtEnd_standard level.below_le_power]
  apply bind_eq_bind hoperand
  intro left mid hleft
  have hmid := (Unbounded.advances_of_expr Grammar.stopsAtEnd_standard
    hleft).length_lt
  have hhead := (Unbounded.readsFrom_of_expr hleft).2
  exact operations_eq ih level left (Nat.le_trans (Nat.le_of_lt hmid) hlen) hhead

/-- The operands of a level are read by the procedure of the next tighter one. -/
theorem operand_eq (ih : AgreesBelow n) (hlen : ts.length ≤ n) (level : Level) :
    (Procedure.operand level).run ts = Unbounded.expr .standard level.power ts := by
  induction level using Level.induct with
  | tightest level hlevel =>
      rw [Procedure.run, hlevel, Level.power_of_tightest hlevel, expr_multiplicative]
      exact unary_eq ih hlen
  | looser level level' hlevel ihlevel =>
      rw [Procedure.run, hlevel, ← Level.below_of_tighter hlevel]
      exact operation_eq ih hlen ihlevel

/-! ## Assignments -/

/-- The procedure for assignments agrees with the reading of whole expressions. -/
theorem assignment_eq (ih : AgreesBelow n) (hlen : ts.length ≤ n) :
    Procedure.assignment.run ts = Unbounded.expr .standard .default ts := by
  have htarget : (Procedure.operation .or).run ts =
      Unbounded.expr .standard .assignment ts :=
    operation_eq ih hlen (operand_eq ih hlen .or)
  rw [Procedure.run, Unbounded.expr_split Grammar.stopsAtEnd_standard
    (by decide : BindingPower.default ≤ .assignment)]
  apply bind_eq_bind htarget
  intro target mid hread
  have hmid := (Unbounded.advances_of_expr Grammar.stopsAtEnd_standard
    hread).length_lt
  have hhead := (Unbounded.readsFrom_of_expr hread).2
  rw [peek_bind]
  by_cases hequals : (headToken mid).kind = .assignment
  · have hrule := Grammar.infixRule?_eq_assignment_iff.2 hequals
    have hlt : .default < Grammar.standard.power (headToken mid).kind := by
      rw [hequals]
      decide
    rw [if_pos hequals]
    cases mid with
    | nil => cases hrule
    | cons equals rest =>
        rw [headToken_cons] at hlt hrule
        have ht := Grammar.ne_eof_of_infixRule? hrule
        have hrest : rest.length < n := by
          simp only [List.length_cons] at hmid
          omega
        rw [bind_of_done (next_of_ne ht rest),
          Unbounded.extend_assignment target hlt hrule ht]
        apply bind_eq_bind (ih.assignment rest hrest)
        intro value last hvalue
        -- the loop stops at once, as it has done behind the value
        have hlast := (Unbounded.readsFrom_of_expr hvalue).2
        have hstop : ∀ e, Unbounded.extend .standard .default e last = done e last :=
          fun e => Unbounded.extend_of_not_lt (Nat.not_lt_of_le hlast)
        cases target with
        | var name => exact (hstop _).symm
        | get object name => exact (hstop _).symm
        | _ => rfl
  · have hnot : ¬ .default < Grammar.standard.power (headToken mid).kind :=
      Nat.not_lt_of_le (Grammar.power_standard_le_default hhead hequals)
    rw [if_neg hequals, Unbounded.extend_of_not_lt hnot]
    rfl

/-- By induction on the number of tokens, all procedures agree. -/
theorem agreesBelow (n : Nat) : AgreesBelow n := by
  induction n with
  | zero =>
      exact
        { assignment := fun _ h => absurd h (Nat.not_lt_zero _)
          operand := fun _ _ h => absurd h (Nat.not_lt_zero _)
          unary := fun _ h => absurd h (Nat.not_lt_zero _) }
  | succ n ih =>
      exact
        { assignment := fun ts hlt => assignment_eq ih (Nat.le_of_lt_succ hlt)
          operand := fun level ts hlt => operand_eq ih (Nat.le_of_lt_succ hlt) level
          unary := fun ts hlt => unary_eq ih (Nat.le_of_lt_succ hlt) }

private theorem whole_eq (ts : List Token) : whole ts = Unbounded.whole ts :=
  bind_eq_bind (assignment_eq (agreesBelow ts.length) (Nat.le_refl _)) fun _ _ _ => rfl

end Descent

/-! ## Whole lists of tokens -/

/-- Parsing ends as recursive descent does, on every list of tokens: with the
same expression or with the same diagnostic. -/
theorem parse_eq_descent (tokens : List Token) :
    Descent.parse tokens = some (parse tokens) := by
  rw [Descent.parse, Descent.whole_eq]
  rcases parse_agrees tokens with ⟨e, rest, hparse, hwhole⟩ | ⟨d, hparse, hwhole⟩
  · rw [hparse, hwhole]
    rfl
  · rw [hparse, hwhole]
    rfl

end ExprLang
