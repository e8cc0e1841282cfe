import ExprLang.Token.Basic

/-!
# Token streams

A token stream is a list of tokens that ends in one for the end of the input,
with a cursor into it.  The cursor moves over the tokens one by one and stops
at the first that marks the end of the input.

Main results:

- Theorem `TokenStream.back?_tokens_ofTokens`: a stream ends in a token for
  the end of the input.
- Theorem `TokenStream.advance_eq_self_iff`: the cursor stays exactly at the end
  of the input.
-/

namespace ExprLang

/-- Tokens that are being read. -/
structure TokenStream where
  tokens : Array Token
  /-- Number of tokens that have been read. -/
  cursor : Nat
deriving DecidableEq, Repr

namespace TokenStream

/-- The tokens with one behind them for the end of the input, if they do not
already end in one.  It stands at the end of the last token. -/
def complete (tokens : List Token) : List Token :=
  match tokens.getLast? with
  | none => [.endOfInput .null]
  | some last =>
      if last.kind = .eof then
        tokens
      else
        tokens ++ [.endOfInput (.empty last.span.stop)]

/-- A stream at its first token. -/
def ofTokens (tokens : List Token) : TokenStream :=
  ⟨(complete tokens).toArray, 0⟩

/-- A completed list of tokens ends in one for the end of the input. -/
theorem getLast?_complete (tokens : List Token) :
    ∃ last, (complete tokens).getLast? = some last ∧ last.kind = .eof := by
  unfold complete
  split
  · exact ⟨_, rfl, rfl⟩
  · rename_i last hlast
    split
    · rename_i hkind
      exact ⟨last, hlast, hkind⟩
    · exact ⟨.endOfInput (.empty last.span.stop), by simp, rfl⟩

/-- A stream ends in a token for the end of the input. -/
theorem back?_tokens_ofTokens (tokens : List Token) :
    ∃ last, (ofTokens tokens).tokens.back? = some last ∧ last.kind = .eof := by
  obtain ⟨last, hlast, hkind⟩ := getLast?_complete tokens
  exact ⟨last, by simp [ofTokens, hlast], hkind⟩

/-- The token at the cursor; behind the last token it is the last. -/
def current (s : TokenStream) : Token :=
  s.tokens[min s.cursor (s.tokens.size - 1)]?.getD (.endOfInput .null)

/-- The stream behind the current token.  The end of the input is never left. -/
def advance (s : TokenStream) : TokenStream :=
  if s.current.kind = .eof then s else { s with cursor := s.cursor + 1 }

/-- The tokens from the cursor on. -/
def rest (s : TokenStream) : List Token :=
  s.tokens.toList.drop s.cursor

@[simp]
theorem tokens_advance (s : TokenStream) : s.advance.tokens = s.tokens := by
  unfold advance
  split <;> rfl

/-- The cursor stays where it is exactly at the end of the input. -/
theorem advance_eq_self_iff {s : TokenStream} :
    s.advance = s ↔ s.current.kind = .eof := by
  unfold advance
  split
  · rename_i h
    simp [h]
  · rename_i h
    simp only [h, iff_false]
    intro heq
    have := congrArg cursor heq
    simp at this

/-- The stream moves on behind every token but the last. -/
theorem cursor_advance_of_ne {s : TokenStream} (h : s.current.kind ≠ .eof) :
    s.advance.cursor = s.cursor + 1 := by
  simp [advance, h]

/-- The stream never moves back. -/
theorem le_cursor_advance (s : TokenStream) : s.cursor ≤ s.advance.cursor := by
  unfold advance
  split
  · exact Nat.le_refl _
  · exact Nat.le_succ _

/-- Inside the stream the current token is the first of the rest. -/
theorem current_eq_head {s : TokenStream} {t : Token} {ts : List Token}
    (h : s.rest = t :: ts) : s.current = t := by
  have hlt : s.cursor < s.tokens.size := by
    apply Nat.lt_of_not_le
    intro hle
    simp [rest, List.drop_eq_nil_of_le hle] at h
  have hmin : min s.cursor (s.tokens.size - 1) = s.cursor := by omega
  have hget : s.tokens[s.cursor]? = some t := by
    rw [← Array.getElem?_toList, ← List.head?_drop]
    rw [rest] at h
    rw [h]
    rfl
  simp [current, hmin, hget]

end TokenStream

end ExprLang
