import ExprLang.Diagnostic.Basic
import ExprLang.Token.Basic

/-!
# Readers of token lists

A reader takes tokens from the front of a list.  It ends with a result and the
tokens that are left, or with a diagnostic, or it does not end at all; nothing
bounds its recursion.  A token for the end of the input is never taken away, and
the empty list is read as if it held one.

Main results:

- Theorem `bind_of_done`: after a result the next reader reads on.
- Theorem `ensures_bind`: a sequence ensures what its first reader ensures of
  its second.
-/

namespace ExprLang

/-- Readers of token lists. -/
abbrev ReadM :=
  StateT (List Token) (ExceptT Diagnostic Option)

/-- How a reader ends, if it does. -/
abbrev Ending (α : Type) :=
  Option (Except Diagnostic (α × List Token))

namespace Ending

/-- The end with a result, in front of the tokens that are left. -/
@[match_pattern]
abbrev done {α : Type} (a : α) (rest : List Token) : Ending α :=
  some (.ok (a, rest))

/-- The end with a diagnostic. -/
@[match_pattern]
abbrev failed {α : Type} (d : Diagnostic) : Ending α :=
  some (.error d)

end Ending

open Ending

/-- The first token of a list. -/
def headToken (ts : List Token) : Token :=
  ts.headD (.endOfInput .null)

@[simp]
theorem headToken_cons (t : Token) (ts : List Token) : headToken (t :: ts) = t :=
  rfl

@[simp]
theorem kind_headToken_nil : (headToken []).kind = .eof :=
  rfl

/-- A list that does not stand at the end of the input has a first token. -/
theorem eq_cons_of_kind_headToken_ne {ts : List Token}
    (h : (headToken ts).kind ≠ .eof) : ∃ rest, ts = headToken ts :: rest := by
  cases ts with
  | nil => exact absurd rfl h
  | cons t rest => exact ⟨rest, rfl⟩

/-- The tokens before the end of the input. -/
def beforeEnd (ts : List Token) : List Token :=
  ts.takeWhile fun t => t.kind ≠ .eof

/-- Tokens that are no ends stand before the end. -/
theorem beforeEnd_append_of_ne {us : List Token} (hus : ∀ t ∈ us, t.kind ≠ .eof)
    (rest : List Token) : beforeEnd (us ++ rest) = us ++ beforeEnd rest :=
  List.takeWhile_append_of_pos (by simpa using hus)

/-- Tokens that are no ends, with an end behind them, are all that stands before it. -/
theorem beforeEnd_append {us rest : List Token} (hus : ∀ t ∈ us, t.kind ≠ .eof)
    (hrest : (headToken rest).kind = .eof) : beforeEnd (us ++ rest) = us := by
  rw [beforeEnd_append_of_ne hus, beforeEnd]
  cases rest with
  | nil => rw [List.takeWhile_nil, List.append_nil]
  | cons t rest => rw [List.takeWhile_cons_of_neg (by simpa using hrest), List.append_nil]

/-- What stands behind the tokens before the end of the input. -/
theorem exists_eq_beforeEnd_append (ts : List Token) :
    ∃ rest, ts = beforeEnd ts ++ rest ∧ (headToken rest).kind = .eof := by
  refine ⟨ts.dropWhile fun t => t.kind ≠ .eof, List.takeWhile_append_dropWhile.symm, ?_⟩
  cases hrest : ts.dropWhile fun t => t.kind ≠ .eof with
  | nil => rfl
  | cons t rest =>
      have ht := List.head?_dropWhile_not (fun t : Token => t.kind ≠ .eof) ts
      rw [hrest] at ht
      simpa using ht

namespace ReadM

/-! ## Primitive readers -/

/-- Ends with a diagnostic. -/
def fail {α : Type} (d : Diagnostic) : ReadM α :=
  fun _ => throw d

/-- A result that was found, or the diagnostic that was found instead. -/
def found {α : Type} : Except Diagnostic α → ReadM α
  | .ok a => pure a
  | .error d => fail d

/-- The first token. -/
def peek : ReadM Token :=
  fun ts => pure (headToken ts, ts)

/-- Takes the first token away, unless it is the end of the input. -/
def next : ReadM Token :=
  fun ts => pure (headToken ts, if (headToken ts).kind = .eof then ts else ts.tail)

/-- Takes a token of a kind, or ends with a diagnostic of one's own choice. -/
def expectOr (kind : TokenKind) (d : Diagnostic) : ReadM Token := do
  if (← peek).kind = kind then next else fail d

/-- Takes a token of a kind. -/
def expect (kind : TokenKind) : ReadM Token := do
  let t ← peek
  expectOr kind ⟨.unexpectedToken t.text, t.start⟩

/-- Takes a token of a kind, and says what was wanted if there is another. -/
def expectDetailed (kind : TokenKind) (message : String) : ReadM Token := do
  let t ← peek
  expectOr kind ⟨.unexpectedTokenDetailed t.text message, t.start⟩

section Sequence

variable {α β : Type} {x : ReadM α} {f : α → ReadM β} {ts : List Token}

/-- After a result the second reader reads on. -/
theorem bind_of_done {a : α} {rest : List Token} (h : x ts = done a rest) :
    (x >>= f) ts = f a rest := by
  simp only [bind, StateT.bind, ExceptT.bind, ExceptT.mk, Option.bind, h]
  rfl

/-- After a diagnostic nothing more is read. -/
theorem bind_of_failed {d : Diagnostic} (h : x ts = failed d) :
    (x >>= f) ts = failed d := by
  simp only [bind, StateT.bind, ExceptT.bind, ExceptT.mk, Option.bind, h]
  rfl

private theorem bind_of_none (h : x ts = none) : (x >>= f) ts = none := by
  simp only [bind, StateT.bind, ExceptT.bind, ExceptT.mk, Option.bind, h]

/-- Both readers of a sequence have a result if the sequence has. -/
theorem exists_of_bind_done {b : β} {rest : List Token}
    (h : (x >>= f) ts = done b rest) :
    ∃ a mid, x ts = done a mid ∧ f a mid = done b rest := by
  cases hx : x ts with
  | none =>
      rw [bind_of_none hx] at h
      cases h
  | some r =>
      cases r with
      | error d =>
          rw [bind_of_failed hx] at h
          cases h
      | ok p =>
          rw [bind_of_done hx] at h
          exact ⟨p.1, p.2, rfl, h⟩

/-- A sequence fails in its first or in its second reader. -/
theorem failed_or_of_bind_failed {d : Diagnostic} (h : (x >>= f) ts = failed d) :
    x ts = failed d ∨ ∃ a mid, x ts = done a mid ∧ f a mid = failed d := by
  cases hx : x ts with
  | none =>
      rw [bind_of_none hx] at h
      cases h
  | some r =>
      cases r with
      | error e =>
          rw [bind_of_failed hx] at h
          cases h
          exact .inl rfl
      | ok p =>
          rw [bind_of_done hx] at h
          exact .inr ⟨p.1, p.2, rfl, h⟩

/-- Sequences end alike if their first readers do, and their second readers do
after every result of these. -/
theorem bind_eq_bind {y : ReadM α} {k : α → ReadM β} (h : x ts = y ts)
    (hnext : ∀ a rest, y ts = done a rest → f a rest = k a rest) :
    (x >>= f) ts = (y >>= k) ts := by
  cases hy : y ts with
  | none => rw [bind_of_none (h.trans hy), bind_of_none hy]
  | some r =>
      cases r with
      | error d => rw [bind_of_failed (h.trans hy), bind_of_failed hy]
      | ok p =>
          rw [bind_of_done (h.trans hy), bind_of_done hy]
          exact hnext p.1 p.2 hy

end Sequence

@[simp]
theorem pure_apply {α : Type} (a : α) (ts : List Token) :
    (pure a : ReadM α) ts = done a ts :=
  rfl

/-- A result is no failure. -/
theorem pure_ne_failed {α : Type} {a : α} {ts : List Token} {d : Diagnostic} :
    (pure a : ReadM α) ts ≠ failed d := by
  intro h
  cases h

@[simp]
theorem fail_apply {α : Type} (d : Diagnostic) (ts : List Token) :
    (fail d : ReadM α) ts = failed d :=
  rfl

@[simp]
theorem peek_apply (ts : List Token) : peek ts = done (headToken ts) ts :=
  rfl

@[simp]
theorem peek_bind {β : Type} (f : Token → ReadM β) (ts : List Token) :
    (peek >>= f) ts = f (headToken ts) ts :=
  bind_of_done rfl

/-- A token that is no end is read. -/
theorem next_of_ne {t : Token} (h : t.kind ≠ .eof) (ts : List Token) :
    next (t :: ts) = done t ts := by
  simp [next, h, pure, ExceptT.pure, ExceptT.mk]

/-- At the end of the input nothing is taken away. -/
theorem next_of_eof {ts : List Token} (h : (headToken ts).kind = .eof) :
    next ts = done (headToken ts) ts := by
  simp [next, h, pure, ExceptT.pure, ExceptT.mk]

/-- There is always a token to read. -/
theorem exists_next (ts : List Token) : ∃ rest, next ts = done (headToken ts) rest :=
  ⟨_, rfl⟩

private theorem expect_of_eq {kind : TokenKind} {ts : List Token}
    (h : (headToken ts).kind = kind) : expect kind ts = next ts := by
  simp [expect, expectOr, h]

/-- A token of another kind is reported by its text. -/
theorem expect_of_ne {kind : TokenKind} {ts : List Token}
    (h : (headToken ts).kind ≠ kind) :
    expect kind ts =
      failed ⟨.unexpectedToken (headToken ts).text, (headToken ts).start⟩ := by
  simp [expect, expectOr, h]

private theorem expectDetailed_of_eq {kind : TokenKind} {ts : List Token}
    (h : (headToken ts).kind = kind) (message : String) :
    expectDetailed kind message ts = next ts := by
  simp [expectDetailed, expectOr, h]

/-- A token of a wanted kind is taken away. -/
theorem expect_cons {kind : TokenKind} {t : Token} (h : t.kind = kind)
    (hkind : kind ≠ .eof) (ts : List Token) : expect kind (t :: ts) = done t ts := by
  have hhead : (headToken (t :: ts)).kind = kind := h
  rw [expect_of_eq hhead]
  exact next_of_ne (h ▸ hkind) ts

/-- A token of the kind that is wanted is read. -/
theorem expectDetailed_cons {kind : TokenKind} {t : Token} (h : t.kind = kind)
    (hkind : kind ≠ .eof) (message : String) (ts : List Token) :
    expectDetailed kind message (t :: ts) = done t ts := by
  have hhead : (headToken (t :: ts)).kind = kind := h
  rw [expectDetailed_of_eq hhead]
  exact next_of_ne (h ▸ hkind) ts

/-- A token of another kind is reported with what was wanted. -/
theorem expectDetailed_of_ne {kind : TokenKind} {ts : List Token}
    (h : (headToken ts).kind ≠ kind) (message : String) :
    expectDetailed kind message ts =
      failed ⟨.unexpectedTokenDetailed (headToken ts).text message,
        (headToken ts).start⟩ := by
  simp [expectDetailed, expectOr, h]

/-- A token of another kind is refused. -/
theorem expectDetailed_cons_of_ne {kind : TokenKind} {t : Token} (h : t.kind ≠ kind)
    (message : String) (ts : List Token) :
    expectDetailed kind message (t :: ts) =
      failed ⟨.unexpectedTokenDetailed t.text message, t.start⟩ := by
  have hhead : (headToken (t :: ts)).kind ≠ kind := h
  exact expectDetailed_of_ne hhead message

/-- At the end of the input the end is expected. -/
theorem expectDetailed_eof {ts : List Token} (h : (headToken ts).kind = .eof)
    (message : String) : expectDetailed .eof message ts = done (headToken ts) ts := by
  rw [expectDetailed_of_eq h]
  exact next_of_eof h

/-- A sequence that fails with no fault of its second reader has refused the first
token. -/
theorem refused_of_bind_failed {α : Type} {kind : TokenKind} {message : String}
    {f : Token → ReadM α} {t : Token} {ts : List Token} {d : Diagnostic}
    (h : (expectDetailed kind message >>= f) (t :: ts) = failed d)
    (hf : ∀ rest, f t rest ≠ failed d) :
    t.kind ≠ kind ∧ d = ⟨.unexpectedTokenDetailed t.text message, t.start⟩ := by
  by_cases ht : t.kind = kind
  · have hhead : (headToken (t :: ts)).kind = kind := ht
    rcases exists_next (t :: ts) with ⟨rest, hnext⟩
    rw [bind_of_done ((expectDetailed_of_eq hhead message).trans hnext)] at h
    exact absurd h (hf rest)
  · rw [bind_of_failed (expectDetailed_cons_of_ne ht message ts)] at h
    cases h
    exact ⟨ht, rfl⟩

/-! ## What a reader ensures -/

/-- A reader ends on a list, and any result of it has a property, together with
the tokens that are left. -/
def Ensures {α : Type} (x : ReadM α) (ts : List Token)
    (Q : α → List Token → Prop) : Prop :=
  match x ts with
  | none => False
  | some (.error _) => True
  | some (.ok (a, rest)) => Q a rest

section Ensures

variable {α β : Type} {x : ReadM α} {f : α → ReadM β} {ts : List Token}
  {Q Q' : α → List Token → Prop} {R : β → List Token → Prop}

/-- A reader that ensures something comes to an end. -/
theorem Ensures.ne_none (h : Ensures x ts Q) : x ts ≠ none := by
  intro hx
  simp [Ensures, hx] at h

/-- What a reader ensures holds of its result. -/
theorem Ensures.of_done {a : α} {rest : List Token} (h : Ensures x ts Q)
    (hx : x ts = done a rest) : Q a rest := by
  simpa [Ensures, hx] using h

/-- What holds of the result is ensured. -/
theorem ensures_of_done {a : α} {rest : List Token} (hx : x ts = done a rest)
    (h : Q a rest) : Ensures x ts Q := by
  simpa [Ensures, hx] using h

/-- A failure ensures anything. -/
theorem ensures_of_failed {d : Diagnostic} (hx : x ts = failed d) :
    Ensures x ts Q := by
  simp [Ensures, hx]

/-- What is ensured can be weakened. -/
theorem Ensures.mono (h : Ensures x ts Q) (himp : ∀ a rest, Q a rest → Q' a rest) :
    Ensures x ts Q' := by
  unfold Ensures at *
  split at h
  · exact h.elim
  · trivial
  · exact himp _ _ h

/-- Two things that are ensured hold together. -/
theorem Ensures.and (h : Ensures x ts Q) (h' : Ensures x ts Q') :
    Ensures x ts fun a rest => Q a rest ∧ Q' a rest := by
  unfold Ensures at *
  split
  · rename_i hx
    simp [hx] at h
  · trivial
  · rename_i hx
    simp only [hx] at h h'
    exact ⟨h, h'⟩

/-- A sequence ensures what its first reader ensures of its second. -/
theorem ensures_bind (h : Ensures x ts fun a mid => Ensures (f a) mid R) :
    Ensures (x >>= f) ts R := by
  cases hx : x ts with
  | none => exact absurd hx h.ne_none
  | some r =>
      cases r with
      | error d => exact ensures_of_failed (bind_of_failed hx)
      | ok p =>
          have hnext := h.of_done hx
          unfold Ensures at *
          rw [bind_of_done hx]
          exact hnext

/-- A result without reading ensures what holds of it. -/
theorem ensures_pure {a : α} (h : Q a ts) : Ensures (pure a) ts Q :=
  h

/-- A failure without reading ensures anything. -/
theorem ensures_fail {d : Diagnostic} : Ensures (fail d) ts Q :=
  trivial

/-- A result that was found ensures what holds of it. -/
theorem ensures_found {r : Except Diagnostic α} (h : ∀ a, r = .ok a → Q a ts) :
    Ensures (found r) ts Q := by
  cases r with
  | error d => exact ensures_fail
  | ok a => exact ensures_pure (h a rfl)

/-- Looking at a token ensures what holds of it. -/
theorem ensures_peek {Q : Token → List Token → Prop} (h : Q (headToken ts) ts) :
    Ensures peek ts Q :=
  h

/-- Either the first token is taken away or the list stands at the end of the
input. -/
theorem ensures_next {Q : Token → List Token → Prop}
    (hend : (headToken ts).kind = .eof → Q (headToken ts) ts)
    (htake : ∀ t rest, ts = t :: rest → t.kind ≠ .eof → Q t rest) :
    Ensures next ts Q := by
  by_cases h : (headToken ts).kind = .eof
  · exact ensures_of_done (next_of_eof h) (hend h)
  · obtain ⟨rest, hts⟩ := eq_cons_of_kind_headToken_ne h
    rw [hts]
    exact ensures_of_done (next_of_ne h rest) (htake _ rest hts h)

/-- A token before the end of the input is taken away. -/
theorem ensures_next_cons {t : Token} {rest : List Token}
    {Q : Token → List Token → Prop} (ht : t.kind ≠ .eof) (h : Q t rest) :
    Ensures next (t :: rest) Q :=
  ensures_of_done (next_of_ne ht rest) h

/-- A token of a wanted kind before the end of the input is taken away. -/
theorem ensures_expectOr {kind : TokenKind} {d : Diagnostic}
    {Q : Token → List Token → Prop} (hkind : kind ≠ .eof)
    (htake : ∀ t rest, ts = t :: rest → t.kind = kind → Q t rest) :
    Ensures (expectOr kind d) ts Q := by
  apply ensures_bind
  apply ensures_peek
  split
  · rename_i hhead
    apply ensures_next
    · exact fun hend => absurd (hhead.symm.trans hend) hkind
    · rintro t rest rfl -
      exact htake t rest rfl hhead
  · exact ensures_fail

/-- Reading a token of a kind ensures what holds behind it. -/
theorem ensures_expect {kind : TokenKind} {Q : Token → List Token → Prop}
    (hkind : kind ≠ .eof)
    (htake : ∀ t rest, ts = t :: rest → t.kind = kind → Q t rest) :
    Ensures (expect kind) ts Q :=
  ensures_bind (ensures_peek (ensures_expectOr hkind htake))

/-- Reading a token of a kind ensures what holds behind it, whatever the message. -/
theorem ensures_expectDetailed {kind : TokenKind} {message : String}
    {Q : Token → List Token → Prop} (hkind : kind ≠ .eof)
    (htake : ∀ t rest, ts = t :: rest → t.kind = kind → Q t rest) :
    Ensures (expectDetailed kind message) ts Q :=
  ensures_bind (ensures_peek (ensures_expectOr hkind htake))

end Ensures

end ReadM

end ExprLang
