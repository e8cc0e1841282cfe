import ExprLang.Parser.Parse
import ExprLang.Proofs.Reading.Progress

/-!
# The bounded parser computes the unbounded one

The parser of a token stream bounds its depth and the turns of its loops.  A
bound of the number of tokens that are left is never used up, because every
level of nesting and every turn takes a token away; so the bounded parser ends
as the unbounded one does on these tokens.

Main results:

- Theorem `parseExpr_agrees`: both parsers of an expression end alike.
- Theorems `parse_eq_ok_iff` and `parse_eq_error_iff`: parsing a list of tokens
  is reading one expression and the end of the input from the completed list.
-/

namespace ExprLang

/-! ## Streams as lists -/

namespace TokenStream

/-- The end of the input is still to come. -/
def Open (s : TokenStream) : Prop :=
  ∃ t ∈ s.rest, t.kind = .eof

private theorem Open.rest_ne_nil {s : TokenStream} (h : s.Open) : s.rest ≠ [] := by
  obtain ⟨t, ht, -⟩ := h
  exact List.ne_nil_of_mem ht

private theorem Open.current_eq {s : TokenStream} (h : s.Open) :
    s.current = headToken s.rest := by
  cases hrest : s.rest with
  | nil => exact absurd hrest h.rest_ne_nil
  | cons t ts => exact current_eq_head hrest

/-- A stream stays at its end. -/
theorem advance_of_eof {s : TokenStream} (h : s.current.kind = .eof) :
    s.advance = s :=
  advance_eq_self_iff.2 h

private theorem rest_advance_of_ne {s : TokenStream} (h : s.current.kind ≠ .eof) :
    s.advance.rest = s.rest.tail := by
  simp [advance, h, rest]

/-- What is left of a stream that moves on still has its end. -/
theorem Open.advance {s : TokenStream} (h : s.Open) : s.advance.Open := by
  by_cases hkind : s.current.kind = .eof
  · rwa [advance_of_eof hkind]
  · obtain ⟨t, ht, hend⟩ := h
    refine ⟨t, ?_, hend⟩
    rw [rest_advance_of_ne hkind]
    cases hrest : s.rest with
    | nil => simp [hrest] at ht
    | cons u us =>
        rw [current_eq_head hrest] at hkind
        rw [hrest] at ht
        rcases List.mem_cons.1 ht with rfl | hmem
        · exact absurd hend hkind
        · exact hmem

@[simp]
theorem rest_ofTokens (tokens : List Token) :
    (ofTokens tokens).rest = complete tokens := by
  simp [rest, ofTokens]

private theorem open_ofTokens (tokens : List Token) : (ofTokens tokens).Open := by
  obtain ⟨last, hlast, hkind⟩ := getLast?_complete tokens
  refine ⟨last, ?_, hkind⟩
  rw [rest_ofTokens]
  exact List.mem_of_getLast? hlast

/-- Completing a list changes nothing before the end of the input. -/
theorem beforeEnd_complete (tokens : List Token) :
    beforeEnd (complete tokens) = beforeEnd tokens := by
  have hend : ∀ span, beforeEnd (tokens ++ [.endOfInput span]) = beforeEnd tokens := by
    intro span
    unfold beforeEnd
    rw [List.takeWhile_append]
    split
    · rename_i hall
      rw [List.takeWhile_cons_of_neg (by simp [Token.endOfInput]), List.append_nil]
      exact ((List.takeWhile_prefix _).eq_of_length hall).symm
    · rfl
  unfold complete
  split
  · rename_i hlast
    rw [List.getLast?_eq_none_iff.1 hlast]
    rfl
  · split
    · rfl
    · exact hend _

end TokenStream

open Ending

/-! ## Agreement -/

/-- A parser of a stream ends as a reader of a list does: with the same result
in front of the same tokens, or with the same diagnostic. -/
def Agrees {α : Type} (r : EStateM.Result Stop TokenStream α) (e : Ending α) : Prop :=
  match r with
  | .ok a s => s.Open ∧ e = done a s.rest
  | .error (.fault d) _ => e = failed d
  | .error .exhausted _ => False

section Agrees

variable {α β : Type} {s : TokenStream} {ts : List Token}

/-- Readers that agree one after another agree in sequence. -/
theorem agrees_bind {x : ParseM α} {y : ReadM α} {f : α → ParseM β} {k : α → ReadM β}
    (h : Agrees (x s) (y ts))
    (hnext : ∀ a s', s'.Open → y ts = done a s'.rest →
      Agrees (f a s') (k a s'.rest)) :
    Agrees ((x >>= f) s) ((y >>= k) ts) := by
  simp only [bind, EStateM.bind]
  cases hx : x s with
  | ok a s' =>
      rw [hx] at h
      have hbind := hnext a s' h.1 h.2
      rw [← ReadM.bind_of_done h.2 (f := k)] at hbind
      exact hbind
  | error stop s' =>
      rw [hx] at h
      cases stop with
      | fault d => exact ReadM.bind_of_failed h
      | exhausted => exact h.elim

private theorem agrees_pure {a : α} (hs : s.Open) :
    Agrees ((pure a : ParseM α) s) ((pure a : ReadM α) s.rest) :=
  ⟨hs, rfl⟩

private theorem agrees_fail {d : Diagnostic} :
    Agrees ((ParseM.fail d : ParseM α) s) ((ReadM.fail d : ReadM α) ts) :=
  rfl

/-- Both look at the same token. -/
theorem agrees_peek_bind (hs : s.Open) {f : Token → ParseM β} {k : Token → ReadM β}
    (h : Agrees (f (headToken s.rest) s) (k (headToken s.rest) s.rest)) :
    Agrees ((ParseM.peek >>= f) s) ((ReadM.peek >>= k) s.rest) := by
  rw [← hs.current_eq] at h
  rw [ReadM.peek_bind, ← hs.current_eq]
  exact h

/-- Reading a token agrees with taking it off the list. -/
theorem agrees_next (hs : s.Open) : Agrees (ParseM.next s) (ReadM.next s.rest) := by
  refine ⟨hs.advance, ?_⟩
  by_cases hkind : s.current.kind = .eof
  · rw [TokenStream.advance_of_eof hkind]
    rw [hs.current_eq] at hkind ⊢
    exact ReadM.next_of_eof hkind
  · rw [TokenStream.rest_advance_of_ne hkind]
    rw [hs.current_eq] at hkind ⊢
    obtain ⟨rest, hrest⟩ := eq_cons_of_kind_headToken_ne hkind
    rw [hrest]
    exact ReadM.next_of_ne hkind rest

private theorem agrees_expectOr (hs : s.Open) (kind : TokenKind) (d : Diagnostic) :
    Agrees (ParseM.expectOr kind d s) (ReadM.expectOr kind d s.rest) := by
  apply agrees_peek_bind hs
  split
  · exact agrees_next hs
  · exact agrees_fail

private theorem agrees_expect (hs : s.Open) (kind : TokenKind) :
    Agrees (ParseM.expect kind s) (ReadM.expect kind s.rest) := by
  apply agrees_peek_bind hs
  exact agrees_expectOr hs kind _

private theorem agrees_expectDetailed (hs : s.Open) (kind : TokenKind) (message : String) :
    Agrees (ParseM.expectDetailed kind message s)
      (ReadM.expectDetailed kind message s.rest) := by
  apply agrees_peek_bind hs
  exact agrees_expectOr hs kind _

/-- A result is made of a last token that is expected. -/
theorem agrees_expected (hs : s.Open) (kind : TokenKind) (message : String)
    (f : Token → β) :
    Agrees
      ((do let t ← ParseM.expectDetailed kind message; return f t : ParseM β) s)
      ((do let t ← ReadM.expectDetailed kind message; return f t : ReadM β) s.rest) := by
  apply agrees_bind (agrees_expectDetailed hs kind message)
  intro t s' hs' _
  exact agrees_pure hs'

private theorem agrees_found (hs : s.Open) (r : Except Diagnostic α) :
    Agrees (ParseM.ofExcept r s) (ReadM.found r s.rest) := by
  cases r with
  | ok a => exact agrees_pure hs
  | error d => exact (rfl : ReadM.fail d s.rest = failed d)

end Agrees

/-! ## The rules of a grammar -/

namespace Unbounded

variable {g : Grammar} {operand : BindingPower → ParseM Expr} {n : Nat}

/-- A bounded parser of operands agrees with the unbounded one where at most a
number of tokens is left. -/
def OperandAgrees (g : Grammar) (operand : BindingPower → ParseM Expr) (n : Nat) :
    Prop :=
  ∀ s : TokenStream, s.Open → s.rest.length ≤ n → ∀ power,
    Agrees (operand power s) (expr g power s.rest)

/-- Behind the first token a list is shorter, except at the end of the input. -/
theorem length_le_of_next {ts rest : List Token} {t : Token} (hlen : ts.length ≤ n + 1)
    (hne : (headToken ts).kind ≠ .eof) (h : ReadM.next ts = done t rest) :
    rest.length ≤ n := by
  obtain ⟨mid, hts⟩ := eq_cons_of_kind_headToken_ne hne
  rw [hts, ReadM.next_of_ne hne] at h
  cases h
  rw [hts] at hlen
  exact Nat.le_of_succ_le_succ hlen

private theorem length_le_of_next_of_le {ts rest : List Token} {t : Token}
    (hlen : ts.length ≤ n) (h : ReadM.next ts = done t rest) : rest.length ≤ n := by
  by_cases hend : (headToken ts).kind = .eof
  · rw [ReadM.next_of_eof hend] at h
    cases h
    exact hlen
  · exact length_le_of_next (Nat.le_succ_of_le hlen) hend h

/-- Both read an operand behind the current token. -/
theorem operand_agrees (hoperand : OperandAgrees g operand n) {s : TokenStream}
    (hs : s.Open) (hlen : ∀ t rest, ReadM.next s.rest = done t rest → rest.length ≤ n)
    {power : BindingPower} {f : Token → Expr → ParseM Expr}
    {k : Token → Expr → ReadM Expr}
    (hnext : ∀ t e s', s'.Open → Agrees (f t e s') (k t e s'.rest)) :
    Agrees
      ((do let t ← ParseM.next; let e ← operand power; f t e : ParseM Expr) s)
      ((do let t ← ReadM.next; let e ← expr g power; k t e : ReadM Expr) s.rest) := by
  apply agrees_bind (agrees_next hs)
  intro t s' hs' hread
  apply agrees_bind (hoperand s' hs' (hlen t s'.rest hread) power)
  intro e s'' hs'' _
  exact hnext t e s'' hs''

/-- A rule of prefixes agrees if the reading of its operands does. -/
theorem start_agrees (hg : g.StopsAtEnd) (hoperand : OperandAgrees g operand n)
    {s : TokenStream} (hs : s.Open) (hlen : s.rest.length ≤ n + 1) {rule : PrefixRule}
    (hrule : g.prefixRule? (headToken s.rest).kind = some rule) :
    Agrees (rule.run operand s) (start g rule s.rest) := by
  cases rule with
  | primary =>
      rw [start]
      apply agrees_bind (agrees_next hs)
      intro t s' hs' _
      exact agrees_found hs' t.leaf
  | this =>
      rw [start]
      apply agrees_bind (agrees_expect hs .kwThis)
      intro keyword s' hs' _
      exact agrees_pure hs'
  | super =>
      rw [start]
      apply agrees_bind (agrees_expect hs .kwSuper)
      intro keyword s' hs' _
      apply agrees_bind (agrees_expectDetailed hs' .dot _)
      intro dot s' hs' _
      exact agrees_expected hs' .identifier _ _
  | operator =>
      have hne : (headToken s.rest).kind ≠ .eof := by
        intro hend
        rw [hend] at hrule
        exact hg.1 hrule
      rw [start]
      apply operand_agrees hoperand hs fun _ _ => length_le_of_next hlen hne
      intro operator right s' hs'
      exact agrees_pure hs'
  | group =>
      have hne : (headToken s.rest).kind ≠ .eof := by
        intro hend
        rw [hend] at hrule
        exact hg.2 hrule
      rw [start]
      apply operand_agrees hoperand hs fun _ _ => length_le_of_next hlen hne
      intro paren inner s' hs'
      exact agrees_expected hs' .closeParen _ _

/-- As many turns are enough as there are tokens left. -/
theorem parseArguments_agrees (hg : g.StopsAtEnd) (hoperand : OperandAgrees g operand n)
    (turns : Nat) {s : TokenStream} (hs : s.Open) (hlen : s.rest.length ≤ n)
    (hturns : s.rest.length ≤ turns) :
    Agrees (parseArguments operand turns s) (arguments g s.rest) := by
  induction turns generalizing s with
  | zero =>
      exact absurd (List.eq_nil_of_length_eq_zero (Nat.le_zero.1 hturns))
        hs.rest_ne_nil
  | succ turns ih =>
      rw [parseArguments, arguments]
      apply agrees_bind (hoperand s hs hlen .default)
      intro first s' hs' hfirst
      have hlt := (advances_of_expr hg hfirst).length_lt
      apply agrees_peek_bind hs'
      split
      · apply agrees_bind (agrees_next hs')
        intro comma s'' hs'' hnext
        have hle := length_le_of_next_of_le (Nat.le_refl _) hnext
        apply agrees_bind (ih hs'' (by omega) (by omega))
        intro others s' hs' _
        exact agrees_pure hs'
      · exact agrees_pure hs'

/-- A rule of operators agrees if the reading of its operands does. -/
theorem step_agrees (hg : g.StopsAtEnd) (hoperand : OperandAgrees g operand n)
    {s : TokenStream} (hs : s.Open) (hlen : s.rest.length ≤ n) (left : Expr)
    (power : BindingPower) (rule : InfixRule) :
    Agrees (rule.run operand n left power s) (step g left power rule s.rest) := by
  cases rule with
  | binary =>
      rw [step]
      apply operand_agrees hoperand hs fun _ _ => length_le_of_next_of_le hlen
      intro operator right s' hs'
      exact agrees_pure hs'
  | logical =>
      rw [step]
      apply operand_agrees hoperand hs fun _ _ => length_le_of_next_of_le hlen
      intro operator right s' hs'
      exact agrees_pure hs'
  | assignment =>
      rw [step]
      apply operand_agrees hoperand hs fun _ _ => length_le_of_next_of_le hlen
      intro equals value s' hs'
      cases Expr.assigned? value left with
      | some e => exact agrees_pure hs'
      | none => exact agrees_fail
  | call =>
      rw [step]
      apply agrees_bind (agrees_next hs)
      intro paren s' hs' hnext
      have hle := length_le_of_next_of_le hlen hnext
      apply agrees_peek_bind hs'
      split
      · apply agrees_bind (agrees_pure hs')
        intro es s'' hs'' _
        exact agrees_expected hs'' .closeParen _ _
      · apply agrees_bind (parseArguments_agrees hg hoperand n hs' hle hle)
        intro es s'' hs'' _
        exact agrees_expected hs'' .closeParen _ _
  | get =>
      rw [step]
      apply agrees_bind (agrees_next hs)
      intro dot s' hs' _
      exact agrees_expected hs' .identifier _ _

/-- The loop over operators agrees as long as its turns are enough for the tokens. -/
theorem extend_agrees (hg : g.StopsAtEnd) (hoperand : OperandAgrees g operand n)
    (power : BindingPower) (count : Nat) (left : Expr) {s : TokenStream}
    (hs : s.Open) (hlen : s.rest.length ≤ n) (hcount : s.rest.length ≤ count) :
    Agrees (ExprLang.extend g operand n power count left s)
      (extend g power left s.rest) := by
  induction count generalizing s left with
  | zero =>
      exact absurd (List.eq_nil_of_length_eq_zero (Nat.le_zero.1 hcount))
        hs.rest_ne_nil
  | succ count ih =>
      rw [ExprLang.extend, extend]
      apply agrees_peek_bind hs
      split
      · cases g.infixRule? (headToken s.rest).kind with
        | none => exact agrees_fail
        | some rule =>
            apply agrees_bind (step_agrees hg hoperand hs hlen left _ rule)
            intro longer s' hs' hlonger
            have hlt := (advances_of_step hg hlonger).length_lt
            exact ih longer hs' (by omega) (by omega)
      · exact agrees_pure hs

/-- Within a bound of the tokens that are left the bounded parser ends as the
unbounded one does. -/
theorem parseExpr_agrees (hg : g.StopsAtEnd) (depth : Nat) (power : BindingPower)
    {s : TokenStream} (hs : s.Open) (hlen : s.rest.length ≤ depth) :
    Agrees (parseExpr g depth power s) (expr g power s.rest) := by
  induction depth generalizing s power with
  | zero =>
      exact absurd (List.eq_nil_of_length_eq_zero (Nat.le_zero.1 hlen)) hs.rest_ne_nil
  | succ depth ih =>
      have hoperand : OperandAgrees g (parseExpr g depth) depth :=
        fun s hs hlen power => ih power hs hlen
      rw [parseExpr, expr]
      apply agrees_peek_bind hs
      cases hrule : g.prefixRule? (headToken s.rest).kind with
      | none => exact agrees_fail
      | some rule =>
          apply agrees_bind (start_agrees hg hoperand hs hlen hrule)
          intro left s' hs' hleft
          have hlt := (advances_of_start hg hleft).length_lt
          exact extend_agrees hg hoperand power depth left hs' (by omega) (by omega)

end Unbounded

/-! ## Whole lists of tokens -/

/-- The bounded parser agrees with the unbounded reading of a whole list. -/
theorem parseWhole_agrees (tokens : List Token) :
    Agrees
      (parseWhole (TokenStream.ofTokens tokens).tokens.size (.ofTokens tokens))
      (Unbounded.whole (TokenStream.complete tokens)) := by
  have hs := TokenStream.open_ofTokens tokens
  rw [← TokenStream.rest_ofTokens]
  apply agrees_bind (Unbounded.parseExpr_agrees Grammar.stopsAtEnd_standard _ _ hs _)
  · intro e s' hs' _
    exact agrees_expected hs' .eof _ _
  · rw [TokenStream.rest_ofTokens]
    simp [TokenStream.ofTokens]

/-- Parsing ends as the unbounded parser does on the completed list. -/
theorem parse_agrees (tokens : List Token) :
    (∃ e rest, parse tokens = .ok e ∧
        Unbounded.whole (TokenStream.complete tokens) = done e rest) ∨
      ∃ d, parse tokens = .error d ∧
        Unbounded.whole (TokenStream.complete tokens) = failed d := by
  have h := parseWhole_agrees tokens
  unfold parse
  dsimp only
  cases hrun : parseWhole _ (TokenStream.ofTokens tokens) with
  | ok e s =>
      rw [hrun] at h
      exact .inl ⟨e, s.rest, rfl, h.2⟩
  | error stop s =>
      rw [hrun] at h
      cases stop with
      | fault d => exact .inr ⟨d, rfl, h⟩
      | exhausted => exact h.elim

/-- Parsing succeeds exactly with what the unbounded parser reads. -/
theorem parse_eq_ok_iff {tokens : List Token} {e : Expr} :
    parse tokens = .ok e ↔
      ∃ rest, Unbounded.whole (TokenStream.complete tokens) = done e rest := by
  rcases parse_agrees tokens with ⟨e', rest, hparse, hwhole⟩ | ⟨d, hparse, hwhole⟩
  · rw [hparse, hwhole]
    constructor
    · rintro ⟨⟩
      exact ⟨rest, rfl⟩
    · rintro ⟨_, ⟨⟩⟩
      rfl
  · rw [hparse, hwhole]
    constructor
    · rintro ⟨⟩
    · rintro ⟨_, ⟨⟩⟩

/-- Parsing fails exactly with the diagnostic of the unbounded parser. -/
theorem parse_eq_error_iff {tokens : List Token} {d : Diagnostic} :
    parse tokens = .error d ↔
      Unbounded.whole (TokenStream.complete tokens) = failed d := by
  rcases parse_agrees tokens with ⟨e, rest, hparse, hwhole⟩ | ⟨d', hparse, hwhole⟩
  · rw [hparse, hwhole]
    constructor
    · rintro ⟨⟩
    · rintro ⟨⟩
  · rw [hparse, hwhole]
    constructor
    · rintro ⟨⟩
      rfl
    · rintro ⟨⟩
      rfl

end ExprLang
