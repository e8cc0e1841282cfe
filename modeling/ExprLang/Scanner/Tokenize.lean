import ExprLang.Scanner.Rule

/-!
# Tokens of a source

A source is tokenized by applying the first rule that fits, again and again,
until the end.  Each step is given the text at the cursor and hands on what is
left of it behind the lexeme.  The text grows shorter with every step, so the
steps come to an end.  The tokens end in one that marks the end of the input.

Main results:

- Theorem `Scanner.exists_lexeme_of_step`: a step moves the cursor behind the
  lexeme that it takes from the text.
- Theorem `Scanner.remainder?_of_step`: the text that a step hands on is the text
  at the cursor that it leaves.
-/

namespace ExprLang

namespace Scanner

/-- Applies the first rule that fits the text at the cursor. -/
def step (s : Scanner) (rest : List Char) : Except Diagnostic (Scanner × List Char) :=
  match Rule.first? rest with
  | none =>
      .error ⟨.unrecognisedToken (String.singleton (firstChar rest)), s.position⟩
  | some (rule, lexeme) =>
      (rule.apply lexeme s).map fun next => (next, rest.drop lexeme.length)

/-- A step takes a lexeme from the front of the text and moves the cursor behind
it, and it keeps the source. -/
theorem exists_lexeme_of_step {s next : Scanner} {rest rest' : List Char}
    (h : s.step rest = .ok (next, rest')) :
    ∃ lexeme, lexeme ≠ [] ∧ rest = lexeme ++ rest' ∧
      next.cursor = s.cursor + Text.byteLength lexeme ∧ next.source = s.source := by
  unfold step at h
  split at h
  · simp at h
  · rename_i rule lexeme hfirst
    obtain ⟨hmem, hlexeme⟩ := Rule.of_first? hfirst
    obtain ⟨hne, tail, rfl⟩ := Rule.lexeme?_front hmem hlexeme
    cases happly : rule.apply lexeme s with
    | error d => simp [happly, Except.map] at h
    | ok found =>
        simp only [happly, Except.map, List.drop_left, Except.ok.injEq,
          Prod.mk.injEq] at h
        obtain ⟨rfl, rfl⟩ := h
        exact ⟨lexeme, hne, rfl, Rule.cursor_apply hlexeme happly,
          Rule.source_apply happly⟩

/-- The text grows shorter. -/
theorem length_lt_of_step {s next : Scanner} {rest rest' : List Char}
    (h : s.step rest = .ok (next, rest')) : rest'.length < rest.length := by
  obtain ⟨lexeme, hne, rfl, -, -⟩ := exists_lexeme_of_step h
  have := List.length_pos_iff.2 hne
  simp only [List.length_append]
  omega

/-- The cursor moves forward. -/
theorem cursor_lt_of_step {s next : Scanner} {rest rest' : List Char}
    (h : s.step rest = .ok (next, rest')) : s.cursor < next.cursor := by
  obtain ⟨lexeme, hne, -, hcursor, -⟩ := exists_lexeme_of_step h
  have := Text.byteLength_pos hne
  omega

/-- The text that is handed on is the text at the cursor. -/
theorem remainder?_of_step {s next : Scanner} {rest rest' : List Char}
    (hrest : s.remainder? = some rest) (h : s.step rest = .ok (next, rest')) :
    next.remainder? = some rest' := by
  obtain ⟨lexeme, -, rfl, hcursor, hsource⟩ := exists_lexeme_of_step h
  obtain ⟨front, hfront, hlength⟩ := exists_remainder_iff.1 hrest
  refine exists_remainder_iff.2 ⟨front ++ lexeme, ?_, ?_⟩
  · rw [hsource, hfront, List.append_assoc]
  · rw [Text.byteLength_append, hcursor, hlength]

/-- Steps through the text at the cursor to its end, or to the first fault. -/
def run (s : Scanner) (rest : List Char) : Except Diagnostic Scanner :=
  if rest = [] then
    .ok s
  else
    match _h : s.step rest with
    | .error d => .error d
    | .ok (next, rest') => next.run rest'
termination_by rest.length
decreasing_by exact length_lt_of_step _h

/-- Adds the token that ends the stream. -/
def finish (s : Scanner) : Scanner :=
  s.push (.endOfInput (s.spanOf 0))

end Scanner

/-- The tokens of a source, or the first fault in it. -/
def tokenize (source file : String) : Except Diagnostic (List Token) :=
  let s := Scanner.ofSource source file
  (s.run s.source).map fun s => s.finish.tokens.toList

end ExprLang
