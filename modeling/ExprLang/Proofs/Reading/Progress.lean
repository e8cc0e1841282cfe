import ExprLang.Proofs.Reading.Unbounded

/-!
# Progress of the unbounded parser

A parser of an expression ends on every list of tokens, and it has taken at
least one token away if it has a result.  All that is asked of the grammar is
that no rule for an operand starts at the end of the input: such a rule would
look for its operand in the same place for ever.

Main results:

- Theorem `expr_advances`: an expression ends, behind at least one token.
- Theorem `step_advances`: so does what goes on with an expression.
-/

namespace ExprLang

/-- No expression that needs an operand starts at the end of the input. -/
def Grammar.StopsAtEnd (g : Grammar) : Prop :=
  g.prefixRule? .eof ≠ some .operator ∧ g.prefixRule? .eof ≠ some .group

/-- The grammar of expressions stops at the end. -/
theorem Grammar.stopsAtEnd_standard : Grammar.standard.StopsAtEnd := by
  constructor <;> decide

/-! ## Tokens that have been taken away -/

/-- What is left after some tokens have been taken away, all of them before the
end of the input. -/
inductive Leaves : List Token → List Token → Prop where
  | refl (ts : List Token) : Leaves ts ts
  | take {t : Token} {ts rest : List Token} (h : t.kind ≠ .eof)
      (hrest : Leaves ts rest) : Leaves (t :: ts) rest

/-- What is left after at least one token has been taken away. -/
def Advances (ts rest : List Token) : Prop :=
  ∃ t mid, ts = t :: mid ∧ t.kind ≠ .eof ∧ Leaves mid rest

private theorem Leaves.trans {ts mid rest : List Token} (h : Leaves ts mid)
    (h' : Leaves mid rest) : Leaves ts rest := by
  induction h with
  | refl => exact h'
  | take hkind _ ih => exact .take hkind (ih h')

private theorem Leaves.length_le {ts rest : List Token} (h : Leaves ts rest) :
    rest.length ≤ ts.length := by
  induction h with
  | refl => exact Nat.le_refl _
  | take _ _ ih => exact Nat.le_succ_of_le ih

private theorem Leaves.exists_append {ts rest : List Token} (h : Leaves ts rest) :
    ∃ us, ts = us ++ rest ∧ ∀ t ∈ us, t.kind ≠ .eof := by
  induction h with
  | refl => exact ⟨[], rfl, List.forall_mem_nil _⟩
  | @take t _ _ hkind _ ih =>
      obtain ⟨us, rfl, hus⟩ := ih
      exact ⟨t :: us, rfl, List.forall_mem_cons.2 ⟨hkind, hus⟩⟩

/-- No end of the input has been taken away. -/
theorem Leaves.ne_eof {us rest : List Token} (h : Leaves (us ++ rest) rest) :
    ∀ t ∈ us, t.kind ≠ .eof := by
  obtain ⟨us', hus, hkinds⟩ := h.exists_append
  rw [List.append_cancel_right hus]
  exact hkinds

/-- What is left after at least one token is left after some tokens. -/
theorem Advances.leaves {ts rest : List Token} (h : Advances ts rest) :
    Leaves ts rest := by
  obtain ⟨t, mid, rfl, hkind, hmid⟩ := h
  exact .take hkind hmid

private theorem Advances.trans_leaves {ts mid rest : List Token} (h : Advances ts mid)
    (h' : Leaves mid rest) : Advances ts rest := by
  obtain ⟨t, ts', hts, hkind, hmid⟩ := h
  exact ⟨t, ts', hts, hkind, hmid.trans h'⟩

/-- What advances leaves fewer tokens. -/
theorem Advances.length_lt {ts rest : List Token} (h : Advances ts rest) :
    rest.length < ts.length := by
  obtain ⟨t, mid, rfl, -, hmid⟩ := h
  exact Nat.lt_succ_of_le hmid.length_le

private theorem advances_cons {t : Token} (h : t.kind ≠ .eof) (rest : List Token) :
    Advances (t :: rest) rest :=
  ⟨t, rest, rfl, h, .refl rest⟩

namespace Unbounded

open ReadM Ending

variable {g : Grammar} {ts : List Token}

/-! ## The end of the input -/

/-- The end is no expression. -/
theorem leaf_of_eof {t : Token} (h : t.kind = .eof) :
    t.leaf = .error t.expectedExpression := by
  simp [Token.leaf, Token.constant?, h]

/-- No expression stands at the end of the input. -/
theorem expr_failed_of_eof (hg : g.StopsAtEnd) (power : BindingPower)
    (hend : (headToken ts).kind = .eof) : ∃ d, expr g power ts = failed d := by
  cases hrule : g.prefixRule? (headToken ts).kind with
  | none => exact ⟨_, expr_of_no_rule hrule⟩
  | some rule =>
      have hstart : ∃ d, start g rule ts = failed d := by
        rw [hend] at hrule
        cases rule with
        | primary =>
            refine ⟨(headToken ts).expectedExpression, ?_⟩
            rw [start, bind_of_done (next_of_eof hend), leaf_of_eof hend]
            rfl
        | this =>
            rw [start]
            exact ⟨_, bind_of_failed (expect_of_ne (by simp [hend]))⟩
        | super =>
            rw [start]
            exact ⟨_, bind_of_failed (expect_of_ne (by simp [hend]))⟩
        | operator => exact absurd hrule hg.1
        | group => exact absurd hrule hg.2
      obtain ⟨d, hd⟩ := hstart
      exact ⟨d, by rw [expr_of_rule hrule, bind_of_failed hd]⟩

private theorem arguments_failed_of_eof (hg : g.StopsAtEnd)
    (hend : (headToken ts).kind = .eof) : ∃ d, arguments g ts = failed d := by
  obtain ⟨d, hd⟩ := expr_failed_of_eof hg .default hend
  exact ⟨d, by rw [arguments, bind_of_failed hd]⟩

/-! ## One rule

The rules are treated under the assumption that expressions advance on all
shorter lists.  A rule for an operand takes its own token away first, so the
operand stands in a shorter list. -/

/-- Expressions advance on all lists of fewer tokens than a number. -/
def AdvancesBelow (g : Grammar) (n : Nat) : Prop :=
  ∀ ts : List Token, ts.length < n → ∀ power,
    Ensures (expr g power) ts fun _ rest => Advances ts rest

/-- An operand behind the current token advances, or there is none. -/
theorem operand_advances (hg : g.StopsAtEnd) {power : BindingPower}
    (ih : AdvancesBelow g ts.length) {f : Token → Expr → ReadM Expr}
    (hf : ∀ t e mid, Advances ts mid →
      Ensures (f t e) mid fun _ rest => Advances ts rest) :
    Ensures (do let t ← next; let e ← expr g power; f t e) ts
      fun _ rest => Advances ts rest := by
  apply ensures_bind
  apply ensures_next
  · intro hend
    obtain ⟨d, hd⟩ := expr_failed_of_eof hg power hend
    exact ensures_of_failed (bind_of_failed hd)
  · rintro t rest rfl ht
    apply ensures_bind
    apply (ih rest (by simp) power).mono
    intro e mid hmid
    exact hf t e mid ((advances_cons ht rest).trans_leaves hmid.leaves)

/-- A last token that is expected is taken away as well. -/
theorem expected_advances {kind : TokenKind} (hkind : kind ≠ .eof) (message : String)
    {f : Token → Expr} {mid : List Token} (hmid : Advances ts mid) :
    Ensures (do let t ← expectDetailed kind message; return f t) mid
      fun _ rest => Advances ts rest := by
  apply ensures_bind
  apply ensures_expectDetailed hkind
  rintro t rest rfl ht
  exact ensures_pure (hmid.trans_leaves (.take (ht ▸ hkind) (.refl rest)))

/-- A rule of prefixes advances if the reading of expressions does on fewer tokens. -/
theorem start_advances (hg : g.StopsAtEnd) (rule : PrefixRule)
    (ih : AdvancesBelow g ts.length) :
    Ensures (start g rule) ts fun _ rest => Advances ts rest := by
  cases rule with
  | primary =>
      rw [start]
      apply ensures_bind
      apply ensures_next
      · intro hend
        rw [leaf_of_eof hend]
        exact ensures_fail
      · rintro t rest rfl ht
        exact ensures_found fun _ _ => advances_cons ht rest
  | this =>
      rw [start]
      apply ensures_bind
      apply ensures_expect (by decide)
      rintro keyword rest rfl hkind
      exact ensures_pure (advances_cons (by simp [hkind]) rest)
  | super =>
      rw [start]
      apply ensures_bind
      apply ensures_expect (by decide)
      rintro keyword rest rfl hkeyword
      apply ensures_bind
      apply ensures_expectDetailed (by decide)
      rintro dot rest rfl hdot
      have hadvances : Advances (keyword :: dot :: rest) (dot :: rest) :=
        advances_cons (by simp [hkeyword]) _
      apply expected_advances (by decide)
      exact hadvances.trans_leaves (.take (by simp [hdot]) (.refl rest))
  | operator =>
      rw [start]
      exact operand_advances hg ih fun _ _ _ hmid => ensures_pure hmid
  | group =>
      rw [start]
      apply operand_advances hg ih
      intro _ inner mid hmid
      exact expected_advances (by decide) _ hmid

/-- Arguments advance on a list if expressions advance on it and on all shorter
ones. -/
theorem arguments_advances {n : Nat} (ih : AdvancesBelow g n) (hlen : ts.length < n) :
    Ensures (arguments g) ts fun _ rest => Advances ts rest := by
  induction hlength : ts.length using Nat.strongRecOn generalizing ts with
  | ind length ihlength =>
      subst hlength
      rw [arguments]
      apply ensures_bind
      apply (ih ts hlen .default).mono
      intro first mid hfirst
      apply ensures_bind
      apply ensures_peek
      split
      · apply ensures_bind
        apply ensures_next
        · simp_all
        · rintro comma rest rfl hcomma
          have hlt : rest.length < ts.length := by
            have := hfirst.length_lt
            simp only [List.length_cons] at this
            omega
          apply ensures_bind
          apply (ihlength rest.length hlt (by omega) rfl).mono
          intro others last hothers
          refine ensures_pure (hfirst.trans_leaves ?_)
          exact .take hcomma hothers.leaves
      · exact ensures_pure hfirst

/-- What goes on with an expression advances. -/
theorem step_advances (hg : g.StopsAtEnd) (left : Expr)
    (power : BindingPower) (rule : InfixRule) (ih : AdvancesBelow g ts.length) :
    Ensures (step g left power rule) ts fun _ rest => Advances ts rest := by
  cases rule with
  | binary =>
      rw [step]
      exact operand_advances hg ih fun _ _ _ h => ensures_pure h
  | logical =>
      rw [step]
      exact operand_advances hg ih fun _ _ _ h => ensures_pure h
  | assignment =>
      rw [step]
      apply operand_advances hg ih
      intro _ value mid hmid
      split
      · exact ensures_pure hmid
      · exact ensures_fail
  | call =>
      rw [step]
      apply ensures_bind
      apply ensures_next
      · intro hend
        obtain ⟨d, hd⟩ := arguments_failed_of_eof hg hend
        apply ensures_of_failed
        rw [peek_bind, if_neg (by simp [hend])]
        exact bind_of_failed hd
      · rintro t rest rfl ht
        apply ensures_bind
        apply ensures_peek
        have hrest := advances_cons ht rest
        split
        · apply ensures_bind
          apply ensures_pure
          exact expected_advances (by decide) _ hrest
        · apply ensures_bind
          have hlen : rest.length < (t :: rest).length := Nat.lt_succ_self _
          apply (arguments_advances ih hlen).mono
          intro es mid hmid
          exact expected_advances (by decide) _ (hrest.trans_leaves hmid.leaves)
  | get =>
      rw [step]
      apply ensures_bind
      apply ensures_next
      · intro hend
        apply ensures_bind
        apply ensures_expectDetailed (by decide)
        rintro name rest rfl hname
        simp [hname] at hend
      · rintro t rest rfl ht
        exact expected_advances (by decide) _ (advances_cons ht rest)

/-- The loop over operators never goes back if the reading of expressions advances. -/
theorem extend_leaves_of_below (hg : g.StopsAtEnd) {n : Nat} (ih : AdvancesBelow g n)
    (power : BindingPower) (left : Expr) (hlen : ts.length ≤ n) :
    Ensures (extend g power left) ts fun _ rest => Leaves ts rest := by
  induction hlength : ts.length using Nat.strongRecOn generalizing left ts with
  | ind length ihlength =>
      subst hlength
      by_cases hlt : power < g.power (headToken ts).kind
      · cases hrule : g.infixRule? (headToken ts).kind with
        | none => exact ensures_of_failed (extend_of_no_rule hlt hrule)
        | some rule =>
            have ihlist : AdvancesBelow g ts.length := fun us hus =>
              ih us (Nat.lt_of_lt_of_le hus hlen)
            have hstep := step_advances hg left (g.power (headToken ts).kind) rule ihlist
            unfold Ensures
            rw [extend_of_lt hlt hrule]
            refine ensures_bind (hstep.mono ?_)
            intro longer mid hmid
            have hmid' := hmid.length_lt
            apply (ihlength mid.length hmid' longer (by omega) rfl).mono
            intro _ _ hrest
            exact hmid.leaves.trans hrest
      · exact ensures_of_done (extend_of_not_lt hlt) (.refl ts)

/-! ## All expressions -/

/-- A parser of an expression ends, and has taken a token away if it has a
result. -/
theorem expr_advances (hg : g.StopsAtEnd) (power : BindingPower) (ts : List Token) :
    Ensures (expr g power) ts fun _ rest => Advances ts rest := by
  induction hlength : ts.length using Nat.strongRecOn
    generalizing ts power with
  | ind length ihlength =>
      subst hlength
      have ih : AdvancesBelow g ts.length := fun us hus power =>
        ihlength us.length hus power us rfl
      cases hrule : g.prefixRule? (headToken ts).kind with
      | none => exact ensures_of_failed (expr_of_no_rule hrule)
      | some rule =>
          unfold Ensures
          rw [expr_of_rule hrule]
          refine ensures_bind ((start_advances hg rule ih).mono ?_)
          intro left mid hmid
          apply (extend_leaves_of_below hg ih power left
            (Nat.le_of_lt hmid.length_lt)).mono
          intro _ _ hrest
          exact hmid.trans_leaves hrest

/-- By induction on the number of tokens, reading expressions advances. -/
theorem advancesBelow (hg : g.StopsAtEnd) (n : Nat) : AdvancesBelow g n :=
  fun ts _ power => expr_advances hg power ts

/-! ## Results

What is left behind a result is shorter, since tokens have been taken away. -/

section

variable {power : BindingPower} {left e : Expr} {rest : List Token}

/-- A rule of prefixes advances. -/
theorem advances_of_start (hg : g.StopsAtEnd) {rule : PrefixRule}
    (h : start g rule ts = done e rest) : Advances ts rest :=
  (start_advances hg rule (advancesBelow hg _)).of_done h

/-- A rule of operators advances. -/
theorem advances_of_step (hg : g.StopsAtEnd) {rule : InfixRule}
    (h : step g left power rule ts = done e rest) : Advances ts rest :=
  (step_advances hg left power rule (advancesBelow hg _)).of_done h

/-- Reading an expression advances. -/
theorem advances_of_expr (hg : g.StopsAtEnd) (h : expr g power ts = done e rest) :
    Advances ts rest :=
  (expr_advances hg power ts).of_done h

/-- Reading arguments advances. -/
theorem advances_of_arguments (hg : g.StopsAtEnd) {es : List Expr}
    (h : arguments g ts = done es rest) : Advances ts rest :=
  (arguments_advances (advancesBelow hg _) (Nat.lt_succ_self _)).of_done h

end

end Unbounded

end ExprLang
