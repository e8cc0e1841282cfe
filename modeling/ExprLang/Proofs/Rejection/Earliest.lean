import ExprLang.Proofs.Rejection.Basic
import ExprLang.Proofs.Spelling.Completeness
import ExprLang.Proofs.Spelling.Soundness

/-!
# The earliest hopeless token

A list that is rejected is rejected because of the first token that makes every
list hopeless which starts in the same way.  What has been read before it is an
expression with pending operands, and spellings are read back in front of any
other tokens; so the same diagnostic is found whatever follows, and without the
token the pending operands can still be supplied.

Main results:

- Theorem `Unbounded.step_failsAt`: a rule that fails has found such a token.
- Theorem `Unbounded.expr_failsAt`: so has a parser of expressions.
- Theorem `parse_error_earliest`: where the errors of a list of tokens stand.
-/

namespace ExprLang

/-- The end of the input is among some tokens. -/
def HasEnd (ts : List Token) : Prop :=
  ∃ t ∈ ts, t.kind = .eof

private theorem HasEnd.exists_cons {ts : List Token} (h : HasEnd ts) :
    ∃ t rest, ts = t :: rest := by
  rcases h with ⟨t, ht, -⟩
  exact List.exists_cons_of_ne_nil (List.ne_nil_of_mem ht)

private theorem HasEnd.of_cons {t : Token} {ts : List Token} (h : HasEnd (t :: ts))
    (ht : t.kind ≠ .eof) : HasEnd ts := by
  rcases h with ⟨u, hu, heof⟩
  rcases List.mem_cons.1 hu with rfl | hmem
  · exact absurd heof ht
  · exact ⟨u, hmem, heof⟩

/-- It is not among the tokens that have been taken away. -/
theorem Leaves.hasEnd {ts rest : List Token} (h : Leaves ts rest) (hend : HasEnd ts) :
    HasEnd rest := by
  induction h with
  | refl => exact hend
  | take hkind _ ih => exact ih (hend.of_cons hkind)

namespace Unbounded

open ReadM Ending

/-- The kinds of tokens that can stand behind any expression. -/
def closers : List TokenKind :=
  [.closeParen, .eof]

private theorem power_of_mem_closers {kind : TokenKind} (h : kind ∈ closers) :
    Grammar.standard.power kind = .default := by
  revert h
  cases kind <;> decide

variable {power : BindingPower} {us k ts : List Token} {e left : Expr} {t : Token}
  {d : Diagnostic} {n : Nat}

/-- The loop stops in front of a closer. -/
theorem settles_extend (e : Expr) (hk : (headToken k).kind ∈ closers) :
    Settles (extend .standard power e k) k := by
  refine .inl ⟨e, extend_of_not_lt ?_⟩
  rw [power_of_mem_closers hk]
  exact Nat.not_lt_zero _

/-- A spelling needs no completion. -/
theorem completes_of_spells (hform : e.InPrecedenceForm) (hspells : e.Spells us)
    (htight : power < e.power ∨ e.power = .unary) :
    Completes closers (expr .standard power) us := by
  intro k hk
  have hhead := power_of_mem_closers hk
  rw [readsBack hform hspells htight (hhead ▸ Nat.zero_le _)]
  exact settles_extend e hk

/-- What has been read in front of a token is read again in front of that token,
whatever follows it. -/
theorem expr_of_hasRead (h : HasRead power us left (t :: ts)) (hpower : power ≤ .unary)
    (k : List Token) :
    expr .standard power (us ++ t :: k) = extend .standard power left (t :: k) := by
  have htight : power < left.power ∨ left.power = .unary := by
    rcases h.tight with hlt | hunary
    · exact .inl hlt
    · rcases Nat.lt_or_eq_of_le hunary with hlt | heq
      · exact .inl (Nat.lt_of_le_of_lt hpower hlt)
      · exact .inr (BindingPower.rank_injective heq.symm)
  exact readsBack h.form h.spells htight h.closed

/-- What has been read in front of a token that is not tighter is read again as a
whole. -/
theorem expr_of_hasRead_of_le (h : HasRead power us e (t :: ts)) (hpower : power ≤ .unary)
    (hhead : Grammar.standard.power t.kind ≤ power) (k : List Token) :
    expr .standard power (us ++ t :: k) = done e (t :: k) := by
  rw [expr_of_hasRead h hpower]
  exact extend_of_not_lt (Nat.not_lt_of_le hhead)

/-- What has been read stands in front of a token that binds no more tightly than
the power. -/
theorem exists_hasRead (hend : HasEnd ts) (h : expr .standard power ts = done e k) :
    ∃ us u rest, ts = us ++ u :: rest ∧ k = u :: rest ∧
      HasRead power us e (u :: rest) ∧ Grammar.standard.power u.kind ≤ power := by
  have hleaves := (advances_of_expr Grammar.stopsAtEnd_standard h).leaves
  rcases (hleaves.hasEnd hend).exists_cons with ⟨u, rest, rfl⟩
  rcases readsFrom_of_expr h with ⟨⟨us, hts, hread⟩, hhead⟩
  exact ⟨us, u, rest, hts, rfl, hread, hhead⟩

/-! ## Tokens that can be supplied -/

/-- A name, where an operand is missing. -/
def suppliedName : Token :=
  .synthetic .identifier "x"

/-- A dot, where a name is to follow. -/
def suppliedDot : Token :=
  .synthetic .dot "."

/-- A closing parenthesis, where one is missing. -/
def suppliedParen : Token :=
  .synthetic .closeParen ")"

private theorem expect_suppliedParen (message : String) (ts : List Token) :
    expectDetailed .closeParen message (suppliedParen :: ts) = done suppliedParen ts :=
  expectDetailed_cons rfl (by decide) message ts

private theorem completes_of_tight (hform : e.InPrecedenceForm) (hspells : e.Spells us)
    (hpower : power ≤ .unary) (htight : .unary < e.power) :
    Completes closers (expr .standard power) us :=
  completes_of_spells hform hspells (.inl (Nat.lt_of_le_of_lt hpower htight))

private theorem completes_of_operand (hpower : power ≤ .unary) :
    Completes closers (expr .standard power) [suppliedName] :=
  completes_of_tight (.var rfl) (Expr.spells_var_iff.2 rfl) hpower
    (by decide : BindingPower.unary < .primary)

/-! ## How an expression starts -/

/-- Expressions fail at a hopeless token, on all lists of fewer tokens than a
number. -/
def FailsBelow (n : Nat) : Prop :=
  ∀ ts : List Token, ts.length < n → HasEnd ts → ∀ power, power ≤ .unary → ∀ d,
    expr .standard power ts = failed d → FailsAt closers (expr .standard power) ts d

/-- A primary fails at its token, where a name could have stood. -/
theorem leaf_failsAt (hpower : power ≤ .unary)
    (hrule : Grammar.standard.prefixRule? t.kind = some .primary)
    (h : start .standard .primary (t :: ts) = failed d) :
    FailsAt closers (expr .standard power) (t :: ts) d := by
  have ht := Grammar.ne_eof_of_prefixRule? hrule
  rw [start_primary ht] at h
  cases hleaf : t.leaf with
  | ok e =>
      rw [hleaf] at h
      cases h
  | error d' =>
      rw [hleaf] at h
      cases h
      have hfails : ∀ k, expr .standard power ([] ++ t :: k) = failed d := by
        intro k
        have hstart : start .standard .primary (t :: k) = failed d := by
          rw [start_primary ht, hleaf]
          rfl
        exact (expr_of_rule hrule).trans (bind_of_failed hstart)
      exact .blamed ts hfails (blames_of_leaf_eq_error hleaf)
        (completes_of_operand hpower)

/-- `super` fails at the dot or the name that is missing behind it. -/
theorem super_failsAt (hpower : power ≤ .unary) (ht : t.kind = .kwSuper)
    (hend : HasEnd ts) (h : start .standard .super (t :: ts) = failed d) :
    FailsAt closers (expr .standard power) (t :: ts) d := by
  have hrule := Grammar.prefixRule?_eq_super_iff.2 ht
  have hcompletes : ∀ dot : Token, dot.kind = .dot →
      Completes closers (expr .standard power) [t, dot, suppliedName] := by
    intro dot hdot
    exact completes_of_tight (.super ht rfl) (Expr.spells_super_iff.2 ⟨dot, rfl, hdot⟩)
      hpower (by decide : BindingPower.unary < .primary)
  rcases hend.exists_cons with ⟨u, rest, rfl⟩
  by_cases hu : u.kind = .dot
  · rcases (hend.of_cons (by simp [hu])).exists_cons with ⟨v, last, rfl⟩
    have hv : v.kind ≠ .identifier := by
      intro hv
      rw [start_super ht hu hv] at h
      cases h
    have hstart : ∀ k, start .standard .super (t :: u :: v :: k) =
        failed ⟨.unexpectedTokenDetailed v.text "expected superclass method name",
          v.start⟩ := by
      intro k
      rw [start, bind_of_done (expect_cons ht (by decide) _),
        bind_of_done (expectDetailed_cons hu (by decide) _ _)]
      exact bind_of_failed (expectDetailed_cons_of_ne hv _ _)
    rw [hstart] at h
    cases h
    have hfails : ∀ k, expr .standard power ([t, u] ++ v :: k) = failed _ := fun k =>
      (expr_of_rule hrule).trans (bind_of_failed (hstart k))
    exact .blamed last hfails (blames_unexpectedTokenDetailed v _) (hcompletes u hu)
  · have hstart : ∀ k, start .standard .super (t :: u :: k) =
        failed ⟨.unexpectedTokenDetailed u.text "expected `.` after `super`",
          u.start⟩ := by
      intro k
      rw [start, bind_of_done (expect_cons ht (by decide) _)]
      exact bind_of_failed (expectDetailed_cons_of_ne hu _ _)
    rw [hstart] at h
    cases h
    have hfails : ∀ k, expr .standard power ([t] ++ u :: k) = failed _ := fun k =>
      (expr_of_rule hrule).trans (bind_of_failed (hstart k))
    exact .blamed rest hfails (blames_unexpectedTokenDetailed u _)
      (hcompletes suppliedDot rfl)

/-- Behind an operator the failure of the operand is that of the whole. -/
theorem operator_failsAt (ih : FailsBelow (t :: ts).length) (hend : HasEnd ts)
    (hrule : Grammar.standard.prefixRule? t.kind = some .operator)
    (h : start .standard .operator (t :: ts) = failed d) :
    FailsAt closers (expr .standard power) (t :: ts) d := by
  have ht := Grammar.ne_eof_of_prefixRule? hrule
  rw [start, bind_of_done (next_of_ne ht ts)] at h
  rcases failed_or_of_bind_failed h with hoperand | ⟨_, _, _, hpure⟩
  · have hfails := ih ts (Nat.lt_succ_self _) hend .unary (Nat.le_refl _) d hoperand
    have hcontext : ∀ us, expr .standard power ([t] ++ us) =
        (expr .standard .unary >>= fun e => extend .standard power (.unary t e)) us :=
      expr_operator hrule ht
    exact hfails.context [] hcontext (fun _ hk => hk) fun _ _ hk => settles_extend _ hk
  · cases hpure

/-- A group fails in what is in it, or where its closing parenthesis is missing. -/
theorem group_failsAt (ih : FailsBelow (t :: ts).length) (hend : HasEnd ts)
    (hpower : power ≤ .unary)
    (hrule : Grammar.standard.prefixRule? t.kind = some .group)
    (h : start .standard .group (t :: ts) = failed d) :
    FailsAt closers (expr .standard power) (t :: ts) d := by
  have ht := Grammar.ne_eof_of_prefixRule? hrule
  rw [start, bind_of_done (next_of_ne ht ts)] at h
  rcases failed_or_of_bind_failed h with hinner | ⟨inner, mid, hinner, hclose⟩
  · have hfails := ih ts (Nat.lt_succ_self _) hend .default (by decide) d hinner
    have hcontext : ∀ us, expr .standard power ([t] ++ us) = (do
        let inner ← expr .standard .default
        let _ ← expectDetailed .closeParen "expected `)` after expression"
        extend .standard power (.group inner)) us := expr_group hrule ht
    refine hfails.context [suppliedParen] hcontext (fun _ _ => List.mem_cons_self ..) ?_
    intro inner k hk
    rw [List.cons_append, List.nil_append, bind_of_done (expect_suppliedParen _ _)]
    exact settles_extend _ hk
  · rcases exists_hasRead hend hinner with ⟨us, u, rest, rfl, rfl, hread, hhead⟩
    rcases refused_of_bind_failed hclose (fun _ => pure_ne_failed) with ⟨hu, rfl⟩
    have hfails : ∀ k, expr .standard power (t :: us ++ u :: k) =
        failed ⟨.unexpectedTokenDetailed u.text "expected `)` after expression",
          u.start⟩ := by
      intro k
      rw [List.cons_append, expr_group hrule ht,
        bind_of_done (expr_of_hasRead_of_le hread (by decide) hhead k)]
      exact bind_of_failed (expectDetailed_cons_of_ne hu _ _)
    have hopening := Grammar.prefixRule?_eq_group_iff.1 hrule
    have hcompletes : Completes closers (expr .standard power)
        (t :: us ++ [suppliedParen]) := by
      apply completes_of_tight (.group hread.form) _ hpower
        (by decide : BindingPower.unary < .primary)
      exact Expr.spells_group_iff.2 ⟨t, us, _, rfl, hopening, hread.spells, rfl⟩
    exact .blamed rest hfails (blames_unexpectedTokenDetailed u _) hcompletes

/-- A rule of prefixes fails at a token. -/
theorem start_failsAt (ih : FailsBelow (t :: ts).length) (hend : HasEnd ts)
    (hpower : power ≤ .unary) {rule : PrefixRule}
    (hrule : Grammar.standard.prefixRule? t.kind = some rule)
    (h : start .standard rule (t :: ts) = failed d) :
    FailsAt closers (expr .standard power) (t :: ts) d := by
  cases rule with
  | primary => exact leaf_failsAt hpower hrule h
  | this =>
      rw [start_this (Grammar.prefixRule?_eq_this_iff.1 hrule)] at h
      cases h
  | super => exact super_failsAt hpower (Grammar.prefixRule?_eq_super_iff.1 hrule) hend h
  | operator => exact operator_failsAt ih hend hrule h
  | group => exact group_failsAt ih hend hpower hrule h

/-! ## How it goes on -/

private theorem ne_comma_of_mem_closers (hk : (headToken k).kind ∈ closers) :
    (headToken k).kind ≠ .comma := by
  intro hcomma
  rw [hcomma] at hk
  exact absurd hk (by decide)

/-- Arguments fail where their first argument does. -/
theorem first_failsAt (h : FailsAt closers (expr .standard .default) ts d) :
    FailsAt closers (arguments .standard) ts d := by
  apply h.lift []
  · intro us _ hus
    rw [List.nil_append, arguments, bind_of_failed hus]
  · intro us hus
    refine ⟨[], fun k hk => ?_⟩
    rw [List.nil_append, List.append_nil]
    rcases hus k hk with ⟨e, he⟩ | ⟨position, hposition⟩
    · exact .inl ⟨[e], arguments_last he (ne_comma_of_mem_closers hk)⟩
    · refine .inr ⟨position, ?_⟩
      rw [arguments, bind_of_failed hposition]

/-- Arguments fail at a hopeless token if expressions do. -/
theorem arguments_failsAt (ih : FailsBelow n) (hlen : ts.length < n) (hend : HasEnd ts)
    (h : arguments .standard ts = failed d) :
    FailsAt closers (arguments .standard) ts d := by
  induction hlength : ts.length using Nat.strongRecOn generalizing ts with
  | ind length ihlength =>
      subst hlength
      rw [arguments] at h
      rcases failed_or_of_bind_failed h with hfirst | ⟨first, mid, hfirst, hothers⟩
      · exact first_failsAt (ih ts hlen hend .default (by decide) d hfirst)
      · rw [peek_bind] at hothers
        by_cases hcomma : (headToken mid).kind = .comma
        · have hadvances := advances_of_expr Grammar.stopsAtEnd_standard hfirst
          have hendmid := hadvances.leaves.hasEnd hend
          rcases exists_hasRead hend hfirst with
            ⟨us, comma, rest, rfl, rfl, hread, hhead⟩
          have ht : comma.kind ≠ .eof := by
            rw [headToken_cons] at hcomma
            simp [hcomma]
          have hlt := Nat.lt_of_succ_lt hadvances.length_lt
          rw [if_pos hcomma, bind_of_done (next_of_ne ht rest)] at hothers
          rcases failed_or_of_bind_failed hothers with hfailed | ⟨_, _, _, hpure⟩
          · have hfails := ihlength rest.length hlt (Nat.lt_trans hlt hlen)
              (hendmid.of_cons ht) hfailed rfl
            have hcontext : ∀ k, arguments .standard (us ++ [comma] ++ k) =
                (arguments .standard >>= fun es => pure (first :: es)) k := by
              intro k
              rw [← List.append_cons]
              exact arguments_cons (expr_of_hasRead_of_le hread (by decide) hhead k)
                hcomma
            rw [List.append_cons]
            exact hfails.context [] hcontext (fun _ hk => hk) fun _ _ _ => .inl ⟨_, rfl⟩
          · cases hpure
        · rw [if_neg hcomma] at hothers
          cases hothers

/-- A turn of the loop fails at a hopeless token if an operand does that it asks
for at once. -/
theorem operand_failsAt (hread : HasRead power us left (t :: ts))
    (hpower : power ≤ .unary) {q : BindingPower} {f : Expr → ReadM Expr}
    (hextend : ∀ k, extend .standard power left (t :: k) = (expr .standard q >>= f) k)
    (hf : ∀ e k, (headToken k).kind ∈ closers → Settles (f e k) k)
    (h : FailsAt closers (expr .standard q) ts d) :
    FailsAt closers (expr .standard power) (us ++ t :: ts) d := by
  have hcontext : ∀ k, expr .standard power (us ++ [t] ++ k) =
      (expr .standard q >>= f) k := by
    intro k
    rw [← List.append_cons, expr_of_hasRead hread hpower]
    exact hextend k
  rw [List.append_cons]
  exact h.context [] hcontext (fun _ hk => hk) hf

/-- An assignment fails in its value, or its target is refused at the sign. -/
theorem assignment_failsAt (ih : FailsBelow (t :: ts).length) (hend : HasEnd ts)
    (hpower : power ≤ .unary) (hlt : power < Grammar.standard.power t.kind)
    (ht : t.kind = .assignment) (hread : HasRead power us left (t :: ts))
    (h : step .standard left (Grammar.standard.power t.kind) .assignment (t :: ts) =
      failed d) :
    FailsAt closers (expr .standard power) (us ++ t :: ts) d := by
  have hrule := Grammar.infixRule?_eq_assignment_iff.2 ht
  have hne := Grammar.ne_eof_of_infixRule? hrule
  have hextend := extend_assignment left hlt hrule hne
  rw [step, bind_of_done (next_of_ne hne ts)] at h
  rcases failed_or_of_bind_failed h with hvalue | ⟨value, mid, hvalue, htarget⟩
  · apply operand_failsAt hread hpower hextend
    · intro value k hk
      cases Expr.assigned? value left with
      | some e => exact settles_extend e hk
      | none => exact .inr ⟨t.start, rfl⟩
    · exact ih ts (Nat.lt_succ_self _) hend .default (by decide) d hvalue
  · rcases exists_hasRead hend hvalue with ⟨vs, u, rest, rfl, rfl, hreadvalue, hhead⟩
    cases hassigned : Expr.assigned? value left with
    | some e =>
        rw [hassigned] at htarget
        cases htarget
    | none =>
        rw [hassigned] at htarget
        cases htarget
        have hfails : ∀ k, expr .standard power (us ++ t :: vs ++ u :: k) =
            failed ⟨.invalidAssignmentTarget, t.start⟩ := by
          intro k
          rw [List.append_assoc, List.cons_append, expr_of_hasRead hread hpower, hextend,
            bind_of_done (expr_of_hasRead_of_le hreadvalue (by decide) hhead k),
            hassigned]
          rfl
        have hlist : us ++ t :: (vs ++ u :: rest) = us ++ t :: vs ++ u :: rest := by simp
        rw [hlist]
        exact .target rest (by simp) ht hfails

/-- Behind a dot the name of a property is missing. -/
theorem get_failsAt (hend : HasEnd ts) (hpower : power ≤ .unary)
    (hlt : power < Grammar.standard.power t.kind) (ht : t.kind = .dot)
    (hread : HasRead power us left (t :: ts))
    (h : step .standard left (Grammar.standard.power t.kind) .get (t :: ts) = failed d) :
    FailsAt closers (expr .standard power) (us ++ t :: ts) d := by
  have hrule := Grammar.infixRule?_eq_get_iff.2 ht
  have hne := Grammar.ne_eof_of_infixRule? hrule
  rcases hend.exists_cons with ⟨u, rest, rfl⟩
  rw [step, bind_of_done (next_of_ne hne _)] at h
  rcases refused_of_bind_failed h (fun _ => pure_ne_failed) with ⟨hu, rfl⟩
  have hfails : ∀ k, expr .standard power (us ++ [t] ++ u :: k) =
      failed ⟨.unexpectedTokenDetailed u.text "expected property name after `.`",
        u.start⟩ := by
    intro k
    rw [← List.append_cons, expr_of_hasRead hread hpower, extend_get left hlt hrule hne]
    exact bind_of_failed (expectDetailed_cons_of_ne hu _ _)
  have hform : Expr.InPrecedenceForm (.get left suppliedName) :=
    .get (hread.call_le_power (.inr ht)) rfl hread.form
  have hcompletes : Completes closers (expr .standard power)
      (us ++ [t] ++ [suppliedName]) := by
    apply completes_of_tight hform _ hpower (by decide : BindingPower.unary < .call)
    exact Expr.spells_get_iff.2 ⟨us, t, by simp, hread.spells, ht⟩
  rw [List.append_cons]
  exact .blamed rest hfails (blames_unexpectedTokenDetailed u _) hcompletes

/-- Where arguments are read no parenthesis is closed. -/
theorem ne_closeParen_of_settles (h : Settles (arguments .standard ts) k) :
    (headToken ts).kind ≠ .closeParen := by
  intro hclose
  have hrule : Grammar.standard.prefixRule? (headToken ts).kind = none := by
    rw [hclose]
    rfl
  rw [arguments, bind_of_failed (expr_of_no_rule hrule)] at h
  rcases h with ⟨_, ⟨⟩⟩ | ⟨_, ⟨⟩⟩

/-- Arguments that have been read in front of a token are read again in front of
that token. -/
theorem arguments_of_hasRead {es : List Expr} (h : HasReadArguments us es (t :: ts))
    (k : List Token) : arguments .standard (us ++ t :: k) = done es (t :: k) :=
  arguments_of_spellsAll h.ne_nil (fun e he => readsBack (h.forms e he)) h.forms h.spells
    h.closed h.ne_comma

section Call

variable (hpower : power ≤ .unary) (hlt : power < Grammar.standard.power t.kind)
  (ht : t.kind = .openParen) (hread : HasRead power us left (t :: ts))

include hpower hlt ht hread

/-- Behind a callee its arguments are read. -/
theorem expr_of_hasRead_call (hk : (headToken k).kind ≠ .closeParen) :
    expr .standard power (us ++ [t] ++ k) = (do
      let es ← arguments .standard
      let paren ← expectDetailed .closeParen "expected `)` after arguments"
      extend .standard power (.call left paren es)) k := by
  have hrule := Grammar.infixRule?_eq_call_iff.2 ht
  rw [← List.append_cons, expr_of_hasRead hread hpower]
  exact extend_call left hlt hrule (Grammar.ne_eof_of_infixRule? hrule) hk

/-- A call fails where its arguments do. -/
theorem call_arguments_failsAt (hhead : (headToken ts).kind ≠ .closeParen)
    (h : FailsAt closers (arguments .standard) ts d) :
    FailsAt closers (expr .standard power) (us ++ [t] ++ ts) d := by
  apply h.lift
  · intro k hk hfailed
    rw [expr_of_hasRead_call hpower hlt ht hread (hk ▸ hhead), bind_of_failed hfailed]
  · intro vs hvs
    refine ⟨[suppliedParen], fun k hk => ?_⟩
    have hsettles := hvs (suppliedParen :: k) (List.mem_cons_self ..)
    have hlist : us ++ [t] ++ (vs ++ [suppliedParen]) ++ k =
        us ++ [t] ++ (vs ++ suppliedParen :: k) := by simp
    rw [hlist,
      expr_of_hasRead_call hpower hlt ht hread (ne_closeParen_of_settles hsettles)]
    apply hsettles.bind
    intro es
    rw [bind_of_done (expect_suppliedParen _ _)]
    exact settles_extend _ hk

/-- It fails at the token behind its arguments if that closes no parenthesis. -/
theorem call_closing_failsAt {vs rest : List Token} {u : Token} {es : List Expr}
    (hes : HasReadArguments vs es (u :: rest)) (hu : u.kind ≠ .closeParen) :
    FailsAt closers (expr .standard power) (us ++ [t] ++ (vs ++ u :: rest))
      ⟨.unexpectedTokenDetailed u.text "expected `)` after arguments", u.start⟩ := by
  have hfails : ∀ k, expr .standard power (us ++ [t] ++ vs ++ u :: k) =
      failed ⟨.unexpectedTokenDetailed u.text "expected `)` after arguments",
        u.start⟩ := by
    intro k
    have hsettles : Settles (arguments .standard (vs ++ u :: k)) (u :: k) :=
      .inl ⟨es, arguments_of_hasRead hes k⟩
    rw [List.append_assoc,
      expr_of_hasRead_call hpower hlt ht hread (ne_closeParen_of_settles hsettles),
      bind_of_done (arguments_of_hasRead hes k)]
    exact bind_of_failed (expectDetailed_cons_of_ne hu _ _)
  have hform : Expr.InPrecedenceForm (.call left suppliedParen es) :=
    .call (hread.call_le_power (.inl ht)) rfl hread.form hes.forms
  have hcompletes : Completes closers (expr .standard power)
      (us ++ [t] ++ vs ++ [suppliedParen]) := by
    apply completes_of_tight hform _ hpower (by decide : BindingPower.unary < .call)
    exact Expr.spells_call_iff.2 ⟨us, t, vs, by simp, hread.spells, ht, hes.spells⟩
  rw [← List.append_assoc]
  exact .blamed rest hfails (blames_unexpectedTokenDetailed u _) hcompletes

/-- A call fails in its arguments, or where its closing parenthesis is missing. -/
theorem call_failsAt (ih : FailsBelow (t :: ts).length) (hend : HasEnd ts)
    (h : step .standard left (Grammar.standard.power t.kind) .call (t :: ts) = failed d) :
    FailsAt closers (expr .standard power) (us ++ t :: ts) d := by
  have hne := Grammar.ne_eof_of_infixRule? (Grammar.infixRule?_eq_call_iff.2 ht)
  have hhead : (headToken ts).kind ≠ .closeParen := by
    intro hclose
    rcases hend.exists_cons with ⟨u, rest, rfl⟩
    rw [step, bind_of_done (next_of_ne hne _), peek_bind, if_pos hclose,
      bind_of_done (pure_apply [] (u :: rest))] at h
    exact (refused_of_bind_failed h fun _ => pure_ne_failed).1 hclose
  rw [step, bind_of_done (next_of_ne hne ts), peek_bind, if_neg hhead] at h
  rw [List.append_cons]
  rcases failed_or_of_bind_failed h with harguments | ⟨es, mid, harguments, hclose⟩
  · exact call_arguments_failsAt hpower hlt ht hread hhead
      (arguments_failsAt ih (Nat.lt_succ_self _) hend harguments)
  · have hleaves := (advances_of_arguments Grammar.stopsAtEnd_standard harguments).leaves
    rcases (hleaves.hasEnd hend).exists_cons with ⟨u, rest, rfl⟩
    rcases (arguments_sound (soundBelow _) (Nat.lt_succ_self _)).of_done harguments with
      ⟨vs, hts, hes⟩
    rcases refused_of_bind_failed hclose (fun _ => pure_ne_failed) with ⟨hu, rfl⟩
    rw [hts]
    exact call_closing_failsAt hpower hlt ht hread hes hu

end Call

/-- A rule of operators fails at a token. -/
theorem step_failsAt (ih : FailsBelow (t :: ts).length) (hend : HasEnd ts)
    (hpower : power ≤ .unary) (hlt : power < Grammar.standard.power t.kind)
    {rule : InfixRule} (hrule : Grammar.standard.infixRule? t.kind = some rule)
    (hread : HasRead power us left (t :: ts))
    (h : step .standard left (Grammar.standard.power t.kind) rule (t :: ts) = failed d) :
    FailsAt closers (expr .standard power) (us ++ t :: ts) d := by
  have hne := Grammar.ne_eof_of_infixRule? hrule
  cases rule with
  | binary =>
      have hunary := (Grammar.power_standard_of_operator (.inl hrule)).2
      rw [step, bind_of_done (next_of_ne hne ts)] at h
      rcases failed_or_of_bind_failed h with hright | ⟨_, _, _, hpure⟩
      · apply operand_failsAt hread hpower (extend_binary left hlt hrule hne)
        · exact fun _ _ hk => settles_extend _ hk
        · exact ih ts (Nat.lt_succ_self _) hend _ (Nat.le_of_lt hunary) d hright
      · cases hpure
  | logical =>
      have hunary := (Grammar.power_standard_of_operator (.inr hrule)).2
      rw [step, bind_of_done (next_of_ne hne ts)] at h
      rcases failed_or_of_bind_failed h with hright | ⟨_, _, _, hpure⟩
      · apply operand_failsAt hread hpower (extend_logical left hlt hrule hne)
        · exact fun _ _ hk => settles_extend _ hk
        · exact ih ts (Nat.lt_succ_self _) hend _ (Nat.le_of_lt hunary) d hright
      · cases hpure
  | assignment =>
      have ht := Grammar.infixRule?_eq_assignment_iff.1 hrule
      exact assignment_failsAt ih hend hpower hlt ht hread h
  | call =>
      have ht := Grammar.infixRule?_eq_call_iff.1 hrule
      exact call_failsAt hpower hlt ht hread ih hend h
  | get =>
      have ht := Grammar.infixRule?_eq_get_iff.1 hrule
      exact get_failsAt hend hpower hlt ht hread h

/-- The loop fails in one of its turns. -/
theorem extend_failsAt (ih : FailsBelow n) (hlen : ts.length ≤ n) (hend : HasEnd ts)
    (hpower : power ≤ .unary) (hread : HasRead power us left ts)
    (h : extend .standard power left ts = failed d) :
    FailsAt closers (expr .standard power) (us ++ ts) d := by
  induction hlength : ts.length using Nat.strongRecOn generalizing us left ts with
  | ind length ihlength =>
      subst hlength
      by_cases hlt : power < Grammar.standard.power (headToken ts).kind
      · rcases Grammar.exists_infixRule_of_lt hlt with ⟨rule, hrule⟩
        rcases hend.exists_cons with ⟨t, rest, rfl⟩
        rw [headToken_cons] at hlt hrule
        have hne := Grammar.ne_eof_of_infixRule? hrule
        rw [extend_of_lt hlt hrule] at h
        rcases failed_or_of_bind_failed h with hstep | ⟨longer, mid, hstep, hextend⟩
        · have ihlist : FailsBelow (t :: rest).length := fun ws hws =>
            ih ws (Nat.lt_of_lt_of_le hws hlen)
          exact step_failsAt ihlist (hend.of_cons hne) hpower hlt hrule hread hstep
        · have hadvances := advances_of_step Grammar.stopsAtEnd_standard hstep
          have hmid := hadvances.length_lt
          rcases (step_sound (soundBelow _) hrule hlt hread).of_done hstep with
            ⟨vs, hlist, hlonger⟩
          rw [hlist, ← List.append_assoc]
          exact ihlength mid.length hmid (Nat.le_trans (Nat.le_of_lt hmid) hlen)
            (hadvances.leaves.hasEnd hend) hlonger hextend rfl
      · rw [extend_of_not_lt hlt] at h
        cases h

/-! ## All expressions -/

/-- A parser of expressions fails at a hopeless token. -/
theorem expr_failsAt (hpower : power ≤ .unary) (hend : HasEnd ts)
    (h : expr .standard power ts = failed d) :
    FailsAt closers (expr .standard power) ts d := by
  induction hlength : ts.length using Nat.strongRecOn generalizing ts power d with
  | ind length ihlength =>
      subst hlength
      have ih : FailsBelow ts.length := fun us hus hend _ hpower _ h =>
        ihlength us.length hus hpower hend h rfl
      rcases hend.exists_cons with ⟨t, rest, rfl⟩
      cases hrule : Grammar.standard.prefixRule? t.kind with
      | none =>
          have hfails : ∀ k, expr .standard power ([] ++ t :: k) =
              failed t.expectedExpression := fun _ => expr_of_no_rule hrule
          rw [expr_of_no_rule hrule] at h
          cases h
          exact .blamed rest hfails (blames_expectedExpression t)
            (completes_of_operand hpower)
      | some rule =>
          have hne := Grammar.ne_eof_of_prefixRule? hrule
          rw [expr_of_rule hrule] at h
          rcases failed_or_of_bind_failed h with hstart | ⟨left, mid, hstart, hextend⟩
          · exact start_failsAt ih (hend.of_cons hne) hpower hrule hstart
          · have hadvances := advances_of_start Grammar.stopsAtEnd_standard hstart
            rcases (start_sound (soundBelow _) hrule).of_done hstart with
              ⟨us, hlist, hread⟩
            rw [hlist]
            exact extend_failsAt ih (Nat.le_of_lt hadvances.length_lt)
              (hadvances.leaves.hasEnd hend) hpower hread hextend

/-- So does a parser of a whole list. -/
theorem whole_failsAt (hend : HasEnd ts) (h : whole ts = failed d) :
    FailsAt [.eof] whole ts d := by
  rcases failed_or_of_bind_failed h with hexpr | ⟨e, mid, hexpr, hclose⟩
  · apply (expr_failsAt (by decide) hend hexpr).lift []
    · intro us _ hus
      exact bind_of_failed hus
    · intro us hus
      refine ⟨[], fun k hk => ?_⟩
      rw [List.nil_append, List.append_nil]
      rw [List.mem_singleton] at hk
      apply (hus k (by rw [hk]; decide)).bind
      intro e
      rw [bind_of_done (expectDetailed_eof hk _)]
      exact .inl ⟨e, rfl⟩
  · rcases exists_hasRead hend hexpr with ⟨us, u, rest, rfl, rfl, hread, hhead⟩
    rcases refused_of_bind_failed hclose (fun _ => pure_ne_failed) with ⟨hu, rfl⟩
    have hfails : ∀ k, whole (us ++ u :: k) =
        failed ⟨.unexpectedTokenDetailed u.text "expected end of expression",
          u.start⟩ := by
      intro k
      rw [whole, bind_of_done (expr_of_hasRead_of_le hread (by decide) hhead k)]
      exact bind_of_failed (expectDetailed_cons_of_ne hu _ _)
    have hcompletes : Completes [.eof] whole (us ++ []) := by
      intro k hk
      rw [List.append_nil]
      exact .inl ⟨e, whole_of_spells hread.form hread.spells (List.mem_singleton.1 hk)⟩
    exact .blamed rest hfails (blames_unexpectedTokenDetailed u _) hcompletes

end Unbounded

/-! ## Whole lists of tokens -/

namespace TokenStream

/-- A list that is completed has an end. -/
theorem hasEnd_complete (tokens : List Token) : HasEnd (complete tokens) := by
  rcases getLast?_complete tokens with ⟨last, hlast, hkind⟩
  exact ⟨last, List.mem_of_getLast? hlast, hkind⟩

/-- A list that ends in an end of the input is complete. -/
theorem complete_concat (us : List Token) {t : Token} (ht : t.kind = .eof) :
    complete (us ++ [t]) = us ++ [t] := by
  simp [complete, ht]

end TokenStream

open Ending TokenStream

/-- What makes a stream hopeless makes all streams hopeless that start with it. -/
theorem parse_of_prefix {us tokens : List Token} {t : Token} {d : Diagnostic}
    (hfails : ∀ k, Unbounded.whole (us ++ t :: k) = failed d)
    (h : us ++ [t] <+: complete tokens) : parse tokens = .error d := by
  rcases h with ⟨k, hk⟩
  rw [parse_eq_error_iff, ← hk, ← List.append_cons]
  exact hfails k

/-- What can be completed is the front of a stream that is parsed, or refused
only for the target of an assignment. -/
theorem exists_parse_of_completes {us w : List Token}
    (h : Completes [.eof] Unbounded.whole (us ++ w)) :
    ∃ tokens, us <+: complete tokens ∧
      ((∃ e, parse tokens = .ok e) ∨
        ∃ position, parse tokens = .error ⟨.invalidAssignmentTarget, position⟩) := by
  have hcomplete := complete_concat (us ++ w) (t := .endOfInput .null) rfl
  refine ⟨us ++ w ++ [.endOfInput .null], ?_, ?_⟩
  · rw [hcomplete, List.append_assoc]
    exact List.prefix_append _ _
  · rcases h [.endOfInput .null] (List.mem_singleton.2 rfl) with ⟨e, he⟩ | ⟨position, he⟩
    · exact .inl ⟨e, parse_eq_ok_iff.2 ⟨_, by rw [hcomplete]; exact he⟩⟩
    · exact .inr ⟨position, parse_eq_error_iff.2 (by rw [hcomplete]; exact he)⟩

/-- An error stands at the earliest token that makes the stream hopeless: every
stream that starts in the same way, up to that token, has the same error, and
without that token it could still be completed.  The target of an assignment is
refused only behind its value, so its error stands before that token. -/
theorem parse_error_earliest {tokens : List Token} {d : Diagnostic}
    (h : parse tokens = .error d) :
    (d.fault ≠ .invalidAssignmentTarget →
        ∃ i t, (complete tokens)[i]? = some t ∧ d.position = t.start ∧
          d.fault.quoted? = some t.text ∧
          (∀ others, (complete tokens).take (i + 1) <+: complete others →
            parse others = .error d) ∧
          ∃ others, (complete tokens).take i <+: complete others ∧
            ((∃ e, parse others = .ok e) ∨
              ∃ position, parse others = .error ⟨.invalidAssignmentTarget, position⟩)) ∧
      (d.fault = .invalidAssignmentTarget →
        ∃ i j t, (complete tokens)[i]? = some t ∧ t.kind = .assignment ∧
          d.position = t.start ∧ i < j ∧ j < (complete tokens).length ∧
          ∀ others, (complete tokens).take (j + 1) <+: complete others →
            parse others = .error d) := by
  have hfailsAt := Unbounded.whole_failsAt (hasEnd_complete tokens)
    (parse_eq_error_iff.1 h)
  generalize complete tokens = ts at hfailsAt ⊢
  cases hfailsAt with
  | @blamed us w t _ k hfails hblames hcompletes =>
      refine ⟨fun _ => ⟨us.length, t, by simp, hblames.1, hblames.2, ?_, ?_⟩, ?_⟩
      · intro others hothers
        rw [List.take_length_add_append] at hothers
        exact parse_of_prefix hfails hothers
      · rw [List.take_left]
        exact exists_parse_of_completes hcompletes
      · intro hfault
        rw [Diagnostic.Blames, hfault] at hblames
        cases hblames.2
  | @target us t equals k hmem hkind hfails =>
      refine ⟨fun hne => absurd rfl hne, fun _ => ?_⟩
      rcases List.mem_iff_getElem?.1 hmem with ⟨i, hi⟩
      have hlt : i < us.length := (List.getElem?_eq_some_iff.1 hi).1
      have hget : (us ++ t :: k)[i]? = some equals := by
        rw [List.getElem?_append_left hlt]
        exact hi
      refine ⟨i, us.length, equals, hget, hkind, rfl, hlt, by simp, ?_⟩
      intro others hothers
      rw [List.take_length_add_append] at hothers
      exact parse_of_prefix hfails hothers

/-- The cases of `(a`, which the end of the input makes hopeless, and of `"a" = b`,
where it shows that the value is complete. -/
theorem parse_error_earliest_at_end :
    ∃ group target : List Token, ∃ d d' : Diagnostic,
      parse group = .error d ∧ d.fault ≠ .invalidAssignmentTarget ∧
        parse target = .error d' ∧ d'.fault = .invalidAssignmentTarget ∧
          (∃ (i : Nat) (t : Token), (complete group)[i]? = some t ∧
            d.position = t.start ∧ d.fault.quoted? = some t.text) ∧
          ∃ (i j : Nat) (t : Token), (complete target)[i]? = some t ∧
            t.kind = .assignment ∧ i < j := by
  have hgroup : parse [.synthetic .openParen "(", .synthetic .identifier "a"] =
      .error ⟨.unexpectedTokenDetailed "EOF" "expected `)` after expression", .null⟩ :=
    rfl
  have htarget : parse [.synthetic .string "a", .synthetic .assignment "=",
      .synthetic .identifier "b"] = .error ⟨.invalidAssignmentTarget, .null⟩ := rfl
  rcases (parse_error_earliest hgroup).1 (by decide) with
    ⟨i, t, hget, hposition, hquoted, -⟩
  rcases (parse_error_earliest htarget).2 rfl with ⟨i', j, t', hget', hkind, -, hlt, -⟩
  exact ⟨_, _, _, _, hgroup, by decide, htarget, rfl, ⟨i, t, hget, hposition, hquoted⟩,
    i', j, t', hget', hkind, hlt⟩

end ExprLang
