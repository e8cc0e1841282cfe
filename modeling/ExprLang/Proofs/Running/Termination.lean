import ExprLang.Proofs.Reading.Bounded
import ExprLang.Proofs.Running.Bound

/-!
# Parsing ends

A parser of expressions ends wherever it starts, by whatever rules, as long as no
rule for an operand starts at the end of the input.  A result always stands behind
at least one token more; the end of the input, which is never left, yields none.

Main results:

- Theorem `parseExpr_reaches`: a result of a parser of expressions stands behind
  the token that it started at.
- Theorem `parseExpr_ends`: a bound of the number of tokens is never used up.
- Theorem `parseExpr_terminates`: so parsing ends at every place of every stream.
-/

namespace ExprLang

open ParseM

/-! ## Results stand behind the tokens that were read -/

/-- A result, if there is one, stands at a place or behind it. -/
def Reaches {α : Type} (place : Nat) : EStateM.Result Stop TokenStream α → Prop
  | .ok _ s => place ≤ s.cursor
  | .error _ _ => True

section Sequence

variable {α β : Type} {place place' : Nat} {x : ParseM α} {f : α → ParseM β}
  {s : TokenStream}

private theorem Reaches.mono {r : EStateM.Result Stop TokenStream α} (h : Reaches place r)
    (hle : place' ≤ place) : Reaches place' r := by
  cases r with
  | ok a s => exact Nat.le_trans hle h
  | error stop s => trivial

/-- A sequence stands where its second parser stands behind the first. -/
theorem reaches_bind (hx : Reaches place (x s))
    (hf : ∀ a s', place ≤ s'.cursor → Reaches place' (f a s')) :
    Reaches place' ((x >>= f) s) := by
  simp only [bind, EStateM.bind]
  cases hrun : x s with
  | ok a s' =>
      rw [hrun] at hx
      exact hf a s' hx
  | error stop s' => trivial

private theorem reaches_pure {a : α} (h : place ≤ s.cursor) :
    Reaches place ((pure a : ParseM α) s) :=
  h

private theorem reaches_next_bind {f : Token → ParseM β}
    (h : Reaches place (f s.current s.advance)) : Reaches place ((next >>= f) s) :=
  h

private theorem reaches_peek_bind {f : Token → ParseM β}
    (h : Reaches place (f s.current s)) : Reaches place ((peek >>= f) s) :=
  h

end Sequence

section Rules

variable {g : Grammar} {operand : BindingPower → ParseM Expr} {s : TokenStream}

/-- A token of a kind that does not end the input is read. -/
theorem reaches_expectOr {kind : TokenKind} (hkind : kind ≠ .eof) (d : Diagnostic) :
    Reaches (s.cursor + 1) (expectOr kind d s) := by
  rw [expectOr_eq]
  split
  · rename_i h
    exact Nat.le_of_eq (s.cursor_advance_of_ne (h ▸ hkind)).symm
  · trivial

private theorem reaches_expect {kind : TokenKind} (hkind : kind ≠ .eof) :
    Reaches (s.cursor + 1) (expect kind s) :=
  reaches_peek_bind (reaches_expectOr hkind _)

private theorem reaches_expectDetailed {kind : TokenKind} (hkind : kind ≠ .eof)
    (message : String) : Reaches (s.cursor + 1) (expectDetailed kind message s) :=
  reaches_peek_bind (reaches_expectOr hkind _)

/-- A result is made of a last token that is expected. -/
theorem reaches_expected {α : Type} {kind : TokenKind} (hkind : kind ≠ .eof)
    (message : String) (f : Token → α) :
    Reaches (s.cursor + 1)
      ((do let t ← expectDetailed kind message; return f t : ParseM α) s) :=
  reaches_bind (reaches_expectDetailed hkind message) fun _ _ h => reaches_pure h

variable (hoperand : ∀ power s, Reaches (s.cursor + 1) (operand power s))

include hoperand

/-- An operand behind the current token stands behind it, also where the token
is the end of the input. -/
theorem operand_reaches {power : BindingPower} {f : Token → Expr → ParseM Expr}
    (hf : ∀ t e s', s.cursor + 1 ≤ s'.cursor → Reaches (s.cursor + 1) (f t e s')) :
    Reaches (s.cursor + 1)
      ((do let t ← next; let e ← operand power; f t e : ParseM Expr) s) := by
  apply reaches_next_bind
  apply reaches_bind (hoperand power s.advance)
  intro e s' hs'
  exact hf _ e s' (Nat.le_trans (Nat.succ_le_succ s.le_cursor_advance) hs')

/-- Behind a rule of prefixes the stream has moved on. -/
theorem PrefixRule.run_reaches (rule : PrefixRule) :
    Reaches (s.cursor + 1) (rule.run operand s) := by
  cases rule with
  | primary =>
      apply reaches_next_bind
      by_cases hend : s.current.kind = .eof
      · rw [Unbounded.leaf_of_eof hend]
        trivial
      · cases s.current.leaf with
        | ok e => exact Nat.le_of_eq (s.cursor_advance_of_ne hend).symm
        | error d => trivial
  | this =>
      apply reaches_bind (reaches_expect (by decide))
      intro keyword s' hs'
      exact reaches_pure hs'
  | super =>
      apply reaches_bind (reaches_expect (by decide))
      intro keyword s' hs'
      apply reaches_bind (reaches_expectDetailed (by decide) _)
      intro dot s'' hs''
      exact (reaches_expected (by decide) _ _).mono (by omega)
  | operator => exact operand_reaches hoperand fun _ _ _ hs' => reaches_pure hs'
  | group =>
      apply operand_reaches hoperand
      intro opening inner s' hs'
      exact (reaches_expected (by decide) _ _).mono (by omega)

/-- Behind arguments the stream has moved on. -/
theorem parseArguments_reaches (turns : Nat) :
    Reaches (s.cursor + 1) (parseArguments operand turns s) := by
  induction turns generalizing s with
  | zero => trivial
  | succ turns ih =>
      apply reaches_bind (hoperand .default s)
      intro first s' hs'
      apply reaches_peek_bind
      split
      · apply reaches_next_bind
        apply reaches_bind ih
        intro others s'' hs''
        have hle := s'.le_cursor_advance
        exact reaches_pure (by omega)
      · exact reaches_pure hs'

/-- What goes on with an expression stands behind the token that it goes on
with. -/
theorem InfixRule.run_reaches (turns : Nat) (left : Expr) (power : BindingPower)
    (rule : InfixRule) : Reaches (s.cursor + 1) (rule.run operand turns left power s) := by
  have hadvance := s.le_cursor_advance
  cases rule with
  | binary | logical =>
      exact operand_reaches hoperand fun _ _ _ hs' => reaches_pure hs'
  | assignment =>
      apply operand_reaches hoperand
      intro equals value s' hs'
      cases Expr.assigned? value left with
      | some e => exact reaches_pure hs'
      | none => trivial
  | call =>
      apply reaches_next_bind
      apply reaches_peek_bind
      split
      · exact (reaches_expected (by decide) _ _).mono (by omega)
      · apply reaches_bind (parseArguments_reaches hoperand turns)
        intro arguments s' hs'
        exact (reaches_expected (by decide) _ _).mono (by omega)
  | get =>
      apply reaches_next_bind
      exact (reaches_expected (by decide) _ _).mono (by omega)

/-- The loop over operators never moves the stream back. -/
theorem extend_reaches (turns : Nat) (power : BindingPower) (count : Nat) (left : Expr) :
    Reaches s.cursor (extend g operand turns power count left s) := by
  induction count generalizing s left with
  | zero => trivial
  | succ count ih =>
      apply reaches_peek_bind
      split
      · cases g.infixRule? s.current.kind with
        | none => trivial
        | some rule =>
            apply reaches_bind (rule.run_reaches hoperand turns left _)
            intro longer s' hs'
            exact (ih longer).mono (by omega)
      · exact reaches_pure (Nat.le_refl _)

end Rules

/-- A result of a parser of expressions stands behind the token that it started
at. -/
theorem parseExpr_reaches (g : Grammar) (depth : Nat) (power : BindingPower)
    (s : TokenStream) : Reaches (s.cursor + 1) (parseExpr g depth power s) := by
  induction depth generalizing power s with
  | zero => trivial
  | succ depth ih =>
      apply reaches_peek_bind
      cases g.prefixRule? s.current.kind with
      | none => trivial
      | some rule =>
          apply reaches_bind (rule.run_reaches ih)
          intro left s' hs'
          exact (extend_reaches ih depth power depth left).mono hs'

private theorem cursor_lt_of_reaches {α : Type} {r : EStateM.Result Stop TokenStream α}
    {s s' : TokenStream} {a : α} (h : Reaches (s.cursor + 1) r) (hr : r = .ok a s') :
    s.cursor < s'.cursor := by
  subst hr
  exact h

/-! ## The end of every run -/

private theorem Ends.of_agrees {α : Type} {r : EStateM.Result Stop TokenStream α}
    {e : Ending α} (h : Agrees r e) : Ends r := by
  rintro s rfl
  exact h

/-- No expression stands at the end of the input, wherever the cursor is. -/
theorem parseExpr_ends_of_eof {g : Grammar} (hg : g.StopsAtEnd) (depth : Nat)
    (power : BindingPower) {s : TokenStream} (hend : s.current.kind = .eof) :
    Ends (parseExpr g (depth + 1) power s) := by
  -- The rules that may start at the end of the input ask for no operand, and none of
  -- them finds its token there.
  have hfault : ∃ d, parseExpr g (depth + 1) power s = .error (.fault d) s := by
    simp only [parseExpr, bind, EStateM.bind, peek, hend]
    cases hrule : g.prefixRule? .eof with
    | none => exact ⟨_, rfl⟩
    | some rule =>
        cases rule with
        | primary =>
            simp only [PrefixRule.run, bind, EStateM.bind, next,
              TokenStream.advance_of_eof hend, Unbounded.leaf_of_eof hend]
            exact ⟨_, rfl⟩
        | this | super =>
            simp only [PrefixRule.run, bind, EStateM.bind, expect_eq, hend]
            exact ⟨_, rfl⟩
        | operator => exact absurd hrule hg.1
        | group => exact absurd hrule hg.2
  rcases hfault with ⟨d, hd⟩
  intro s' h
  rw [hd] at h
  cases h

namespace TokenStream

/-- A stream with its cursor at any place, also behind an end of the input. -/
def ofTokensAt (tokens : List Token) (cursor : Nat) : TokenStream :=
  ⟨(complete tokens).toArray, cursor⟩

private theorem length_complete_pos (tokens : List Token) : 0 < (complete tokens).length := by
  obtain ⟨last, hlast, -⟩ := getLast?_complete tokens
  exact List.length_pos_of_mem (List.mem_of_getLast? hlast)

/-- The end of the input is still to come, or the cursor is behind all tokens and
the last of them is the current one. -/
theorem open_or_eof (tokens : List Token) (cursor : Nat) :
    (ofTokensAt tokens cursor).Open ∨
      (ofTokensAt tokens cursor).current.kind = .eof := by
  obtain ⟨last, hlast, hkind⟩ := getLast?_complete tokens
  by_cases hlt : cursor < (complete tokens).length
  · left
    refine ⟨last, ?_, hkind⟩
    apply List.mem_of_getLast?
    simp [rest, ofTokensAt, List.getLast?_drop, Nat.not_le_of_lt hlt, hlast]
  · right
    have hmin : min cursor ((complete tokens).length - 1) =
        (complete tokens).length - 1 := by omega
    rw [List.getLast?_eq_getElem?] at hlast
    simp [current, ofTokensAt, hmin, hlast, hkind]

end TokenStream

/-- A bound of the number of tokens is never used up. -/
theorem parseExpr_ends {g : Grammar} (hg : g.StopsAtEnd) (tokens : List Token)
    (cursor : Nat) (power : BindingPower) :
    Ends (parseExpr g (TokenStream.complete tokens).length power
      (.ofTokensAt tokens cursor)) := by
  rcases TokenStream.open_or_eof tokens cursor with hopen | hend
  · apply Ends.of_agrees
    apply Unbounded.parseExpr_agrees hg _ power hopen
    simp [TokenStream.rest, TokenStream.ofTokensAt]
  · rcases Nat.exists_eq_succ_of_ne_zero
      (Nat.ne_of_gt (TokenStream.length_complete_pos tokens)) with ⟨depth, hdepth⟩
    rw [hdepth]
    exact parseExpr_ends_of_eof hg depth power hend

/-- Parsing an expression ends at every place of every stream, by any rules that
ask for no operand at the end of the input: the recursion ends without a bound,
and all bounds of at least the number of tokens lead to the same end.  So does
parsing a list of tokens as a whole.  A result of a parser of expressions, or of a
rule that goes on with an expression, stands behind at least one token more. -/
theorem parseExpr_terminates {g : Grammar} (hg : g.StopsAtEnd) (tokens : List Token)
    (cursor : Nat) :
    (∀ power,
        Unbounded.expr g power (TokenStream.ofTokensAt tokens cursor).rest ≠ none ∧
          ∃ r, Ends r ∧ ∀ depth, (TokenStream.complete tokens).length ≤ depth →
            parseExpr g depth power (.ofTokensAt tokens cursor) = r) ∧
      (Unbounded.whole (TokenStream.complete tokens) ≠ none ∧
        ∃ r, Ends r ∧ ∀ depth, (TokenStream.complete tokens).length ≤ depth →
          parseWhole depth (.ofTokens tokens) = r) ∧
      (∀ depth power e s,
        parseExpr g depth power (.ofTokensAt tokens cursor) = .ok e s →
          cursor < s.cursor) ∧
      ∀ depth turns left power (rule : InfixRule) e s,
        rule.run (parseExpr g depth) turns left power (.ofTokensAt tokens cursor) =
            .ok e s →
          cursor < s.cursor := by
  refine ⟨?_, ⟨?_, ?_⟩, ?_, ?_⟩
  · intro power
    refine ⟨(Unbounded.expr_advances hg power _).ne_none, _,
      parseExpr_ends hg tokens cursor power, ?_⟩
    intro depth hdepth
    exact parseExpr_refinedBy g hdepth power _ (parseExpr_ends hg tokens cursor power)
  · rcases parse_agrees tokens with ⟨e, rest, -, hwhole⟩ | ⟨d, -, hwhole⟩
    · rw [hwhole]
      exact Option.some_ne_none _
    · rw [hwhole]
      exact Option.some_ne_none _
  · have hends : Ends (parseWhole (TokenStream.complete tokens).length
        (.ofTokens tokens)) := Ends.of_agrees (parseWhole_agrees tokens)
    exact ⟨_, hends, fun depth hdepth => parseWhole_refinedBy hdepth _ hends⟩
  · intro depth power e s h
    exact cursor_lt_of_reaches (parseExpr_reaches g depth power _) h
  · intro depth turns left power rule e s h
    exact cursor_lt_of_reaches
      (rule.run_reaches (parseExpr_reaches g depth) turns left power) h

/-- The case of an operator at an end of the input behind which the list goes on. -/
theorem parseExpr_terminates_operator_at_end :
    ∃ (g : Grammar) (a b : Token),
      g.StopsAtEnd ∧ g.infixRule? .eof = some .binary ∧
        .default < g.power .eof ∧
          ∃ r, Ends r ∧ ∀ depth, 4 ≤ depth →
            parseExpr g depth .default (.ofTokensAt [a, .endOfInput .null, b] 0) = r := by
  let g := Grammar.standard.addInfix .eof .additive .binary
  let a : Token := .synthetic .identifier "a"
  let b : Token := .synthetic .identifier "b"
  have hg : g.StopsAtEnd := Grammar.stopsAtEnd_standard
  have hends := ((parseExpr_terminates hg [a, .endOfInput .null, b] 0).1 .default).2
  exact ⟨g, a, b, hg, rfl, by decide, hends⟩

end ExprLang
