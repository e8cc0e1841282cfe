import ExprLang.Proofs.Reading.Unbounded

/-!
# Where a reader fails

A reader that fails on a list has found a token that makes the list hopeless.
Either the diagnostic blames this token, and what stands before it can still be
completed; or the target of an assignment is refused, which happens only when
the token behind its value has been seen.

Main results:

- Theorem `FailsAt.lift`: a failure of a part is one of the whole.
- Theorem `FailsAt.context`: a failure of an operand is one of the expression
  that goes on with it.
-/

namespace ExprLang

open ReadM Ending

/-! ## Diagnostics that blame a token -/

/-- The text of a token that a fault quotes. -/
def Fault.quoted? : Fault → Option String
  | .unrecognisedToken token | .unexpectedToken token | .invalidNumber token
  | .unexpectedTokenDetailed token _ | .expectedExpression token => some token
  | .operandType operator _ => some operator
  | .unterminatedString | .invalidAssignmentTarget | .notConstant _ => none

/-- A diagnostic quotes a token and stands where it starts. -/
def Diagnostic.Blames (d : Diagnostic) (t : Token) : Prop :=
  d.position = t.start ∧ d.fault.quoted? = some t.text

/-- A missing expression is blamed on the token that stands there. -/
theorem blames_expectedExpression (t : Token) : t.expectedExpression.Blames t :=
  ⟨rfl, rfl⟩

/-- A token that is not what was wanted is blamed itself. -/
theorem blames_unexpectedTokenDetailed (t : Token) (message : String) :
    Diagnostic.Blames ⟨.unexpectedTokenDetailed t.text message, t.start⟩ t :=
  ⟨rfl, rfl⟩

/-- A token that is no leaf is to blame for that. -/
theorem blames_of_leaf_eq_error {t : Token} {d : Diagnostic} (h : t.leaf = .error d) :
    d.Blames t := by
  unfold Token.leaf at h
  cases hconstant : t.constant? with
  | none =>
      rw [hconstant] at h
      by_cases hkind : t.kind = .identifier
      · simp [hkind] at h
      · simp only [hkind, if_false] at h
        cases h
        exact blames_expectedExpression t
  | some value? =>
      rw [hconstant] at h
      cases value? with
      | ok value => cases h
      | error d' =>
          cases h
          unfold Token.constant? at hconstant
          split at hconstant
          · cases hread : Decimal.read? t.text with
            | none =>
                simp only [hread, Option.some.injEq, Except.error.injEq] at hconstant
                rw [← hconstant]
                exact ⟨rfl, rfl⟩
            | some x => simp [hread] at hconstant
          all_goals cases hconstant

/-! ## Lists that can be completed -/

/-- A reader has a result in front of some tokens, or refuses the target of an
assignment. -/
def Settles {α : Type} (e : Ending α) (rest : List Token) : Prop :=
  (∃ a, e = done a rest) ∨
    ∃ position, e = failed ⟨.invalidAssignmentTarget, position⟩

/-- A reader settles behind a list, whatever follows it, as long as the first
token of that is of one of some kinds. -/
def Completes {α : Type} (closing : List TokenKind) (x : ReadM α) (ts : List Token) :
    Prop :=
  ∀ k, (headToken k).kind ∈ closing → Settles (x (ts ++ k)) k

section

variable {α β : Type} {x : ReadM α} {y : ReadM β} {f : α → ReadM β}
  {closing closing' : List TokenKind} {ts us k : List Token}

/-- A sequence settles if its first reader does and its second does after every result. -/
theorem Settles.bind (h : Settles (x ts) us)
    (hnext : ∀ a, Settles (f a us) k) : Settles ((x >>= f) ts) k := by
  rcases h with ⟨a, ha⟩ | ⟨position, hfailed⟩
  · rw [bind_of_done ha]
    exact hnext a
  · rw [bind_of_failed hfailed]
    exact .inr ⟨position, rfl⟩

/-! ## Tokens that make a list hopeless -/

/-- A reader fails on a list with a diagnostic that one of its tokens makes
inevitable. -/
inductive FailsAt (closing : List TokenKind) (x : ReadM α) :
    List Token → Diagnostic → Prop where
  /-- The diagnostic blames that token, and what stands before it can be
  completed. -/
  | blamed {us w : List Token} {t : Token} {d : Diagnostic} (k : List Token)
      (hfails : ∀ k, x (us ++ t :: k) = failed d) (hblames : d.Blames t)
      (hcompletes : Completes closing x (us ++ w)) :
      FailsAt closing x (us ++ t :: k) d
  /-- The diagnostic is about an assignment before that token. -/
  | target {us : List Token} {t equals : Token} (k : List Token)
      (hmem : equals ∈ us) (hkind : equals.kind = .assignment)
      (hfails : ∀ k, x (us ++ t :: k) =
        failed ⟨.invalidAssignmentTarget, equals.start⟩) :
      FailsAt closing x (us ++ t :: k) ⟨.invalidAssignmentTarget, equals.start⟩

/-- A failure of a part is one of the whole, if the whole can be completed where
the part can. -/
theorem FailsAt.lift {d : Diagnostic} (pre : List Token) (h : FailsAt closing x ts d)
    (hfails : ∀ us, headToken us = headToken ts → x us = failed d →
      y (pre ++ us) = failed d)
    (hcompletes : ∀ us, Completes closing x us →
      ∃ w, Completes closing' y (pre ++ (us ++ w))) :
    FailsAt closing' y (pre ++ ts) d := by
  cases h with
  | @blamed us w t _ k hx hblames hw =>
      rcases hcompletes _ hw with ⟨w', hw'⟩
      have hy : ∀ k, y (pre ++ us ++ t :: k) = failed d := by
        intro k'
        rw [List.append_assoc]
        apply hfails _ _ (hx k')
        cases us <;> rfl
      rw [List.append_assoc, ← List.append_assoc] at hw'
      rw [← List.append_assoc]
      exact .blamed k hy hblames hw'
  | @target us t equals k hmem hkind hx =>
      have hy : ∀ k, y (pre ++ us ++ t :: k) =
          failed ⟨.invalidAssignmentTarget, equals.start⟩ := by
        intro k'
        rw [List.append_assoc]
        apply hfails _ _ (hx k')
        cases us <;> rfl
      rw [← List.append_assoc]
      exact .target k (List.mem_append_right pre hmem) hkind hy

/-- A failure of an operand is one of the expression that goes on with it, if
some tokens end the expression behind any operand. -/
theorem FailsAt.context {d : Diagnostic} {pre : List Token} (w : List Token)
    (h : FailsAt closing x ts d)
    (hcontext : ∀ us, y (pre ++ us) = (x >>= f) us)
    (hclosing : ∀ k, (headToken k).kind ∈ closing' → (headToken (w ++ k)).kind ∈ closing)
    (hw : ∀ a k, (headToken k).kind ∈ closing' → Settles (f a (w ++ k)) k) :
    FailsAt closing' y (pre ++ ts) d := by
  apply h.lift pre
  · intro us _ hus
    rw [hcontext, bind_of_failed hus]
  · intro us hus
    refine ⟨w, ?_⟩
    intro k hk
    have hlist : pre ++ (us ++ w) ++ k = pre ++ (us ++ (w ++ k)) := by
      simp only [List.append_assoc]
    rw [hlist, hcontext]
    exact (hus _ (hclosing k hk)).bind fun a => hw a k hk

end

end ExprLang
