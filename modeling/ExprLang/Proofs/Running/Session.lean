import ExprLang.Parser.Session
import ExprLang.Proofs.Running.Invariant
import Mathlib.Logic.Function.Iterate
import Mathlib.Logic.Relation

/-!
# What a session keeps

Whatever is asked of a session, its tokens stay what they were, its cursor moves
over tokens in front of the first end of the input only, and what binds is what
an expression goes on with.  A request for a token of a kind that is not there
leaves all of the session as it was.

Main results:

- Theorem `Step.exists_iterate`: steps do nothing to a stream but read tokens
  from it.
- Theorem `Step.ruled`: what binds has a rule to go on by, and the other way
  round.
- Theorem `session_invariant`: what holds of every session on a list of tokens.
-/

namespace ExprLang

/-! ## Streams that are read from the front -/

namespace TokenStream

/-- The last token is an end of the input, and the cursor has passed none. -/
structure Sound (s : TokenStream) : Prop where
  ends : ∃ last, s.tokens.back? = some last ∧ last.kind = .eof
  passed : ∀ t ∈ s.tokens.toList.take s.cursor, t.kind ≠ .eof

namespace Sound

variable {s : TokenStream}

/-- The cursor of a sound stream is at one of its tokens. -/
theorem cursor_lt (h : s.Sound) : s.cursor < s.tokens.size := by
  obtain ⟨last, hlast, hkind⟩ := h.ends
  have hmem : last ∈ s.tokens.toList := by
    apply List.mem_of_getLast?
    simpa using hlast
  apply Nat.lt_of_not_le
  intro hle
  apply h.passed last _ hkind
  rwa [List.take_of_length_le (by simpa using hle)]

/-- The current token is the one at the cursor, not one that stands in for it. -/
theorem getElem?_cursor (h : s.Sound) : s.tokens[s.cursor]? = some s.current := by
  have hlt := h.cursor_lt
  have hmin : min s.cursor (s.tokens.size - 1) = s.cursor := by omega
  simp [current, hmin, hlt]

/-- Moving on keeps the stream and passes at most one token, which is not the end. -/
protected theorem advance (h : s.Sound) : s.advance.Sound := by
  refine ⟨by simpa using h.ends, ?_⟩
  by_cases hend : s.current.kind = .eof
  · rw [advance_eq_self_iff.2 hend]
    exact h.passed
  · have hget : s.tokens.toList[s.cursor]? = some s.current := by
      simpa using h.getElem?_cursor
    rw [tokens_advance, cursor_advance_of_ne hend, List.take_add_one, hget]
    intro t ht
    rcases List.mem_append.1 ht with hpassed | hcurrent
    · exact h.passed t hpassed
    · obtain rfl : t = s.current := by simpa using hcurrent
      exact hend

end Sound

private theorem sound_ofTokens (tokens : List Token) : (ofTokens tokens).Sound :=
  ⟨back?_tokens_ofTokens tokens, by simp [ofTokens]⟩

section Iterate

variable (s : TokenStream) (n : Nat)

private theorem tokens_iterate_advance : (advance^[n] s).tokens = s.tokens := by
  induction n with
  | zero => rfl
  | succ n ih => rw [Function.iterate_succ_apply', tokens_advance, ih]

private theorem le_cursor_iterate_advance : s.cursor ≤ (advance^[n] s).cursor := by
  induction n with
  | zero => exact Nat.le_refl _
  | succ n ih =>
      rw [Function.iterate_succ_apply']
      exact Nat.le_trans ih (le_cursor_advance _)

variable {s}

private theorem Sound.iterate_advance (h : s.Sound) : (advance^[n] s).Sound := by
  induction n with
  | zero => exact h
  | succ n ih =>
      rw [Function.iterate_succ_apply']
      exact ih.advance

end Iterate

end TokenStream

/-! ## Grammars in which what binds has a rule -/

namespace Grammar

/-- The kinds that bind are those that an expression goes on with. -/
def Ruled (g : Grammar) : Prop :=
  ∀ kind, (g.power? kind).isSome ↔ (g.infixRule? kind).isSome

variable {g : Grammar}

private theorem ruled_empty : empty.Ruled :=
  fun _ => Iff.rfl

private theorem Ruled.addPrefix (h : g.Ruled) (kind : TokenKind) (rule : PrefixRule) :
    (g.addPrefix kind rule).Ruled :=
  h

private theorem Ruled.addInfix (h : g.Ruled) (kind : TokenKind) (power : BindingPower)
    (rule : InfixRule) : (g.addInfix kind power rule).Ruled := by
  intro k
  by_cases hk : k = kind
  · simp [Grammar.addInfix, hk]
  · simpa [Grammar.addInfix, hk] using h k

private theorem Ruled.addStandard (h : g.Ruled) : g.addStandard.Ruled := by
  apply List.foldlRecOn
  · exact List.foldlRecOn _ _ h fun g hg (kind, power, rule) _ =>
      Ruled.addInfix hg kind power rule
  · exact fun g hg (kind, rule) _ => Ruled.addPrefix hg kind rule

/-- What binds more tightly than any power has a rule to go on by. -/
theorem Ruled.infixRule?_ne_none (h : g.Ruled) {power : BindingPower} {kind : TokenKind}
    (hlt : power < g.power kind) : g.infixRule? kind ≠ none := by
  intro hnone
  have hpower : g.power? kind = none := by
    have hkind := h kind
    rw [hnone] at hkind
    simpa using hkind
  rw [Grammar.power, hpower] at hlt
  exact Nat.not_lt_zero _ hlt

end Grammar

namespace Session

/-! ## Steps of a session -/

/-- What can be done with a session: to answer a request, or to parse an expression
or apply a rule at the current token, within any bounds and behind any left
operand. -/
inductive Step : Session → Session → Prop where
  | answer (s : Session) (r : Request) : Step s (s.answer r).2
  | expression (s : Session) (depth : Nat) (power : BindingPower) :
      Step s (s.readExpr (parseExpr s.grammar depth power)).2
  | applyPrefix (s : Session) (depth : Nat) (rule : PrefixRule) :
      Step s (s.readExpr (rule.run (parseExpr s.grammar depth))).2
  | applyInfix (s : Session) (depth turns : Nat) (left : Expr) (power : BindingPower)
      (rule : InfixRule) :
      Step s (s.readExpr (rule.run (parseExpr s.grammar depth) turns left power)).2

/-- What a session can become by any number of steps. -/
abbrev Steps : Session → Session → Prop :=
  Relation.ReflTransGen Step

/-- The session behind a list of requests. -/
def afterAll (s : Session) (requests : List Request) : Session :=
  requests.foldl (fun s r => (s.answer r).2) s

private theorem steps_afterAll (s : Session) (requests : List Request) :
    Steps s (s.afterAll requests) := by
  induction requests generalizing s with
  | nil => exact .refl
  | cons r requests ih => exact .head (.answer s r) (ih _)

/-- Requests for a token of a kind. -/
def Request.Expects : Request → Prop
  | .expect _ | .expectDetailed .. | .expectOr .. => True
  | _ => False

/-! ## The stream of a session -/

/-- The stream that a run leaves behind, however it ends. -/
def finalStream {α : Type} : EStateM.Result Stop TokenStream α → TokenStream
  | .ok _ s | .error _ s => s

section Stream

variable {α : Type} {I : TokenStream → Prop} {A : Diagnostic → Prop} {s s' : Session}

/-- A run that keeps an invariant leaves a stream of which it holds. -/
theorem keeps_finalStream {r : EStateM.Result Stop TokenStream α} (h : Keeps I A r) :
    I (finalStream r) := by
  cases r with
  | ok a s => exact h
  | error stop s =>
      cases stop with
      | fault d => exact h.2
      | exhausted => exact h

private theorem stream_readExpr (s : Session) (p : ParseM Expr) :
    (s.readExpr p).2.stream = finalStream (p s.stream) := by
  unfold readExpr
  cases p s.stream <;> rfl

private theorem stream_readToken (s : Session) (p : ParseM Token) :
    (s.readToken p).2.stream = finalStream (p s.stream) := by
  unfold readToken
  cases p s.stream <;> rfl

@[simp]
theorem grammar_readExpr (s : Session) (p : ParseM Expr) :
    (s.readExpr p).2.grammar = s.grammar := by
  unfold readExpr
  cases p s.stream <;> rfl

@[simp]
theorem grammar_readToken (s : Session) (p : ParseM Token) :
    (s.readToken p).2.grammar = s.grammar := by
  unfold readToken
  cases p s.stream <;> rfl

/-- Any grammar admits what reading a token keeps, with faults of any kind. -/
theorem admits_of_advance (g : Grammar) (h : ∀ s, I s → I s.advance) :
    g.Admits I fun _ => True where
  advance := h
  expected _ := trivial
  detailed _ _ := trivial
  target _ := trivial
  start s rule _ _ := by cases rule <;> simp [PrefixRule.Allowed]
  unruled _ _ _ _ := trivial

variable (hadvance : ∀ s, I s → I s.advance)

include hadvance

/-- What reading a token keeps, every step of a session keeps. -/
theorem Step.keeps_stream (h : Step s s') (hs : I s.stream) : I s'.stream := by
  have hg := admits_of_advance s.grammar hadvance
  have hoperand (depth : Nat) : ∀ power s', I s' →
      Keeps I (fun _ => True) (parseExpr s.grammar depth power s') :=
    fun power _ hs' => parseExpr_keeps hg depth power hs'
  have hexpression (depth : Nat) (power : BindingPower) :
      I (s.readExpr (parseExpr s.grammar depth power)).2.stream := by
    rw [stream_readExpr]
    exact keeps_finalStream (hoperand depth power _ hs)
  have hprefix (depth : Nat) (rule : PrefixRule) :
      I (s.readExpr (rule.run (parseExpr s.grammar depth))).2.stream := by
    have hallowed : rule.Allowed (fun _ => True) s.stream.current := by
      cases rule <;> simp [PrefixRule.Allowed]
    rw [stream_readExpr]
    exact keeps_finalStream (rule.run_keeps hg (hoperand depth) hs hallowed)
  have hinfix (depth turns : Nat) (left : Expr) (power : BindingPower)
      (rule : InfixRule) :
      I (s.readExpr (rule.run (parseExpr s.grammar depth) turns left power)).2.stream := by
    rw [stream_readExpr]
    exact keeps_finalStream (rule.run_keeps hg (hoperand depth) turns left power hs)
  cases h with
  | expression depth power => exact hexpression depth power
  | applyPrefix depth rule => exact hprefix depth rule
  | applyInfix depth turns left power rule => exact hinfix depth turns left power rule
  | answer r =>
      -- Requests for expressions are the steps above with the bounds of the session.
      cases r with
      | addStandard | addPrefix | addInfix | position | lookUp | current => exact hs
      | advance => exact hadvance _ hs
      | expression power => exact hexpression s.depth power
      | applyPrefix rule => exact hprefix s.depth rule
      | applyInfix rule power => exact hinfix s.depth s.depth s.last power rule
      | expect kind =>
          rw [Session.answer, stream_readToken]
          exact keeps_finalStream (keeps_expect hg hs fun _ => trivial)
      | expectDetailed kind message =>
          rw [Session.answer, stream_readToken]
          exact keeps_finalStream (keeps_expectDetailed hg hs kind message)
      | expectOr kind d =>
          rw [Session.answer, stream_readToken]
          exact keeps_finalStream (keeps_expectOr hg hs fun _ => trivial)

end Stream

/-- A step does nothing to the stream but read tokens from it. -/
theorem Step.exists_iterate {s s' : Session} (h : Step s s') :
    ∃ n, s'.stream = TokenStream.advance^[n] s.stream := by
  apply h.keeps_stream (I := fun t => ∃ n, t = TokenStream.advance^[n] s.stream)
  · rintro t ⟨n, rfl⟩
    exact ⟨n + 1, (Function.iterate_succ_apply' ..).symm⟩
  · exact ⟨0, rfl⟩

/-- A session only ever moves its stream on. -/
theorem Steps.exists_iterate {s s' : Session} (h : Steps s s') :
    ∃ n, s'.stream = TokenStream.advance^[n] s.stream := by
  induction h with
  | refl => exact ⟨0, rfl⟩
  | tail _ hstep ih =>
      rcases ih with ⟨n, hn⟩
      rcases hstep.exists_iterate with ⟨m, hm⟩
      exact ⟨m + n, by rw [hm, hn, Function.iterate_add_apply]⟩

/-! ## The grammar of a session -/

/-- A step registers what binds together with the rule to go on by. -/
theorem Step.ruled {s s' : Session} (h : Step s s') (hs : s.grammar.Ruled) :
    s'.grammar.Ruled := by
  cases h with
  | expression | applyPrefix | applyInfix => rwa [grammar_readExpr]
  | answer r =>
      cases r with
      | addStandard => exact hs.addStandard
      | addPrefix kind rule => exact hs.addPrefix kind rule
      | addInfix kind power rule => exact hs.addInfix kind power rule
      | position | lookUp => exact hs
      | current | advance | expect | expectDetailed | expectOr =>
          rwa [Session.answer, grammar_readToken]
      | expression | applyPrefix | applyInfix =>
          rwa [Session.answer, grammar_readExpr]

private theorem Steps.ruled {s s' : Session} (h : Steps s s') (hs : s.grammar.Ruled) :
    s'.grammar.Ruled := by
  induction h with
  | refl => exact hs
  | tail _ hstep ih => exact hstep.ruled ih

/-! ## Requests that are refused -/

/-- A token that is not there is left alone. -/
theorem eq_of_expectOr_error {kind : TokenKind} {d : Diagnostic} {s s' : TokenStream}
    {reason : Stop} (h : ParseM.expectOr kind d s = .error reason s') : s' = s := by
  rw [ParseM.expectOr_eq] at h
  split at h
  · cases h
  · cases h
    rfl

/-- A token that is not read leaves the session as it was. -/
theorem eq_of_readToken_stop {s s' : Session} {p : ParseM Token} {reason : Stop}
    (hp : ∀ stream, p s.stream = .error reason stream → stream = s.stream)
    (h : s.readToken p = (.stop reason, s')) : s' = s := by
  unfold readToken at h
  split at h
  · cases h
  · rename_i hrun
    cases h
    rw [hp _ hrun]

/-- A request for a token that is not there leaves all of a session as it was. -/
theorem eq_of_answer_stop {s s' : Session} {r : Request} {reason : Stop}
    (hr : r.Expects) (h : s.answer r = (.stop reason, s')) : s' = s := by
  cases r with
  | expect | expectDetailed | expectOr =>
      exact eq_of_readToken_stop (fun _ hrun => eq_of_expectOr_error hrun) h
  | _ => exact hr.elim

end Session

open Session

/-- However a session on a list of tokens is used, its tokens are those of the list,
completed by an end of the input; its cursor never moves back and has not passed an
end of the input, so that at every stream that it goes through the token at the
cursor is the current one; what binds is what an expression goes on with, so that
there is a rule for every token that binds tightly enough; and a request for a token
that is not there leaves all of it as it was. -/
theorem session_invariant (tokens : List Token) {s : Session}
    (h : Steps (.ofTokens tokens) s) :
    (s.stream.tokens.toList = TokenStream.complete tokens ∧ s.stream.Sound) ∧
      (∀ s', Steps s s' → s.stream.cursor ≤ s'.stream.cursor) ∧
      (∀ s', Step s s' → ∃ n, s'.stream = TokenStream.advance^[n] s.stream) ∧
      (∀ n, (TokenStream.advance^[n] s.stream).tokens[
          (TokenStream.advance^[n] s.stream).cursor]? =
        some (TokenStream.advance^[n] s.stream).current) ∧
      (s.grammar.Ruled ∧
        ∀ power kind, power < s.grammar.power kind → s.grammar.infixRule? kind ≠ none) ∧
      ∀ (r : Request) reason s', r.Expects → s.answer r = (.stop reason, s') →
        s' = s := by
  obtain ⟨n, hn⟩ := h.exists_iterate
  have htokens : s.stream.tokens.toList = TokenStream.complete tokens := by
    rw [hn, TokenStream.tokens_iterate_advance]
    rfl
  have hsound : s.stream.Sound := by
    rw [hn]
    exact (TokenStream.sound_ofTokens tokens).iterate_advance n
  have hruled : s.grammar.Ruled := h.ruled Grammar.ruled_empty
  refine ⟨⟨htokens, hsound⟩, ?_, fun _ hstep => hstep.exists_iterate, ?_, ⟨hruled, ?_⟩, ?_⟩
  · intro s' hsteps
    obtain ⟨m, hm⟩ := hsteps.exists_iterate
    rw [hm]
    exact TokenStream.le_cursor_iterate_advance _ m
  · exact fun m => (hsound.iterate_advance m).getElem?_cursor
  · exact fun power kind hlt => hruled.infixRule?_ne_none hlt
  · exact fun r reason s' hr hanswer => eq_of_answer_stop hr hanswer

/-- The case of a list that goes on behind an end of the input, where an expression
goes on with a call that fails for want of an argument. -/
theorem session_invariant_call_at_end :
    ∃ (a b : Token) (s : Session),
      Steps (.ofTokens [a, .endOfInput .null, b]) s ∧
        s.grammar.infixRule? .eof = some .call ∧ s.stream.cursor = 1 ∧
          s.stream.Sound ∧ s.grammar.Ruled :=
  have hsteps := steps_afterAll
    (.ofTokens [.synthetic .identifier "a", .endOfInput .null, .synthetic .identifier "b"])
    [.addPrefix .identifier .primary, .addInfix .eof .call .call, .expression .default]
  have hinvariant := session_invariant _ hsteps
  ⟨_, _, _, hsteps, rfl, by decide, hinvariant.1.2, hinvariant.2.2.2.2.1.1⟩

end ExprLang
