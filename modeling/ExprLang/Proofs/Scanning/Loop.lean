import ExprLang.Proofs.Scanning.StringLiteral

/-!
# The loop over a source

A source is read in turns: while the cursor is not at the end, the first rule that
fits the text at the cursor is applied.  Here the loop is a relation between scanners
that looks at the text at their cursors only, so a cursor inside a character, or
behind the end, would stop it without an answer.  What is true of one turn gives what
is true before every turn, and how many turns there can be.

Main results:

- Theorem `Scanner.step_outcome`: a turn fails, or takes the lexeme of the first rule
  that fits.
- Theorem `Scanner.Turns.exists_remainder`: before every turn the cursor splits the source.
- Theorem `Scanner.Turns.cursor_le`: each turn moves the cursor by a byte or more.
- Theorem `Scanner.exists_turns`: the turns lead to the end or to a fault.
- Theorem `tokenize_turns`: the loop over a source is safe, ends, and finds no more
  tokens than the source has bytes.
-/

namespace ExprLang

open Text Lexeme

/-! ## Slices -/

/-- The text between two offsets, or `none` if the second is in front of the first or
one of them is no place between characters. -/
def Text.slice? (cs : List Char) (start stop : Nat) : Option (List Char) :=
  if start ≤ stop then
    match dropBytes? start cs, dropBytes? stop cs with
    | some rest, some tail => some (rest.take (rest.length - tail.length))
    | _, _ => none
  else
    none

/-- A text is the slice between its two ends. -/
theorem Text.slice?_append (front text back : List Char) :
    slice? (front ++ (text ++ back)) (byteLength front) (byteLength (front ++ text)) =
      some text := by
  have hle : byteLength front ≤ byteLength (front ++ text) := by
    rw [byteLength_append]
    exact Nat.le_add_right _ _
  have htail : dropBytes? (byteLength (front ++ text)) (front ++ (text ++ back)) = some back := by
    rw [← List.append_assoc]
    exact dropBytes?_append _ _
  simp only [slice?, if_pos hle, dropBytes?_append, htail, List.length_append,
    Nat.add_sub_cancel, List.take_left]

/-- The quotes of a literal can be cut off, which leaves its contents. -/
theorem Lexeme.slice?_of_stringLiteral? {cs lexeme : List Char}
    (h : stringLiteral? cs = some lexeme) :
    slice? lexeme 1 (byteLength lexeme - 1) = some (contents lexeme) := by
  rcases stringLiteral?_eq_some_iff.1 h with ⟨items, _, -, rfl⟩
  have hslice := slice?_append ['"'] (bodyOf items) ['"']
  have hquotes : byteLength (literalOf items) - 1 = byteLength (['"'] ++ bodyOf items) := by
    have hquote : byteLength ['"'] = 1 := rfl
    rw [byteLength_literalOf, byteLength_append, hquote]
    omega
  rw [hquotes, literalOf, contents_quoted]
  exact hslice

/-! ## One turn -/

/-- A rule finds at most one token. -/
theorem Rule.tokens_apply {rule : Rule} {lexeme : List Char} {s s' : Scanner}
    (h : rule.apply lexeme s = .ok s') :
    s'.tokens = s.tokens ∨ ∃ token, s'.tokens = s.tokens.push token := by
  cases rule with
  | openQuote => cases h
  | blank | comment => cases h; exact .inl rfl
  | word | number | stringLiteral | fixed _ _ => cases h; exact .inr ⟨_, rfl⟩

namespace Scanner

/-- What becomes of a scanner and of the text at its cursor in one turn. -/
inductive Outcome (s : Scanner) (rest : List Char) :
    Except Diagnostic (Scanner × List Char) → Prop where
  | fault (d : Diagnostic) : Outcome s rest (.error d)
  /-- The lexeme of the first rule that fits is taken. -/
  | moved {rule : Rule} {lexeme rest' : List Char} {t : Scanner}
      (hfirst : Rule.first? rest = some (rule, lexeme)) (hrest : rest = lexeme ++ rest')
      (hpos : 0 < byteLength lexeme) (hcursor : t.cursor = s.cursor + byteLength lexeme)
      (htokens : t.tokens = s.tokens ∨ ∃ token, t.tokens = s.tokens.push token)
      (hquotes : rule = .stringLiteral →
        slice? lexeme 1 (byteLength lexeme - 1) = some (contents lexeme)) :
      Outcome s rest (.ok (t, rest'))

variable {s t u : Scanner} {rest rest' : List Char} {d : Diagnostic} {n : Nat}

/-- A turn fails, or takes the lexeme of the first rule that fits. -/
theorem step_outcome (s : Scanner) (rest : List Char) : Outcome s rest (s.step rest) := by
  cases hfirst : Rule.first? rest with
  | none =>
      simp only [step, hfirst]
      exact .fault _
  | some found =>
      obtain ⟨rule, lexeme⟩ := found
      rcases Rule.of_first? hfirst with ⟨hmem, hlexeme⟩
      rcases Rule.lexeme?_front hmem hlexeme with ⟨hne, rest', rfl⟩
      cases happly : rule.apply lexeme s with
      | error d =>
          simp only [step, hfirst, happly, Except.map]
          exact .fault d
      | ok t =>
          simp only [step, hfirst, happly, Except.map, List.drop_left]
          refine .moved hfirst rfl (byteLength_pos hne) (Rule.cursor_apply hlexeme happly)
            (Rule.tokens_apply happly) ?_
          rintro rfl
          exact slice?_of_stringLiteral? hlexeme

/-- A step finds at most one token. -/
theorem size_tokens_le_of_step (h : s.step rest = .ok (t, rest')) :
    t.tokens.size ≤ s.tokens.size + 1 := by
  have houtcome := step_outcome s rest
  rw [h] at houtcome
  rcases houtcome with _ | ⟨-, -, -, -, htokens | ⟨token, htokens⟩, -⟩
  · rw [htokens]
    exact Nat.le_succ _
  · exact Nat.le_of_eq (by rw [htokens, Array.size_push])

/-- One turn of the loop. -/
inductive Turn : Scanner → Scanner → Prop where
  | intro {s t : Scanner} {rest rest' : List Char} (hend : s.atEnd = false)
      (hrest : s.remainder? = some rest) (hstep : s.step rest = .ok (t, rest')) : Turn s t

/-- A number of turns one after another. -/
inductive Turns : Nat → Scanner → Scanner → Prop where
  | zero (s : Scanner) : Turns 0 s s
  | succ {n : Nat} {s t u : Scanner} (hturn : Turn s t) (hturns : Turns n t u) :
      Turns (n + 1) s u

private theorem Turn.source_eq (h : Turn s t) : t.source = s.source := by
  rcases h with ⟨-, -, hstep⟩
  rcases exists_lexeme_of_step hstep with ⟨-, -, -, -, hsource⟩
  exact hsource

private theorem Turn.cursor_lt (h : Turn s t) : s.cursor < t.cursor := by
  rcases h with ⟨-, -, hstep⟩
  exact cursor_lt_of_step hstep

/-- Behind a turn there is text at the cursor again. -/
theorem Turn.exists_remainder (h : Turn s t) : ∃ rest, t.remainder? = some rest := by
  rcases h with ⟨-, hrest, hstep⟩
  exact ⟨_, remainder?_of_step hrest hstep⟩

private theorem Turn.size_tokens_le (h : Turn s t) : t.tokens.size ≤ s.tokens.size + 1 := by
  rcases h with ⟨-, -, hstep⟩
  exact size_tokens_le_of_step hstep

/-! ## All turns -/

private theorem Turns.source_eq (h : Turns n s t) : t.source = s.source := by
  induction h with
  | zero s => rfl
  | succ hturn _ ih => exact ih.trans hturn.source_eq

/-- Before every turn the cursor splits the source. -/
theorem Turns.exists_remainder (h : Turns n s t) (hrest : ∃ rest, s.remainder? = some rest) :
    ∃ rest, t.remainder? = some rest := by
  induction h with
  | zero s => exact hrest
  | succ hturn _ ih => exact ih hturn.exists_remainder

/-- Each turn moves the cursor by a byte or more. -/
theorem Turns.cursor_le (h : Turns n s t) : s.cursor + n ≤ t.cursor := by
  induction h with
  | zero s => exact Nat.le_refl _
  | succ hturn _ ih =>
      have hlt := hturn.cursor_lt
      omega

/-- There are no more tokens than turns. -/
theorem Turns.size_tokens_le (h : Turns n s t) : t.tokens.size ≤ s.tokens.size + n := by
  induction h with
  | zero s => exact Nat.le_refl _
  | succ hturn _ ih =>
      have hle := hturn.size_tokens_le
      omega

private theorem cursor_le_of_remainder? (h : s.remainder? = some rest) :
    s.cursor ≤ byteLength s.source := by
  rcases exists_remainder_iff.1 h with ⟨front, hsource, hcursor⟩
  rw [hsource, byteLength_append]
  omega

/-- The turns lead to the end of the text or to a fault, and the loop answers with what
it has found there. -/
theorem exists_turns (hrest : s.remainder? = some rest) :
    ∃ n t rest', Turns n s t ∧ t.remainder? = some rest' ∧
      (t.atEnd = true ∧ s.run rest = .ok t ∨
        t.atEnd = false ∧ ∃ d, t.step rest' = .error d ∧ s.run rest = .error d) := by
  induction hlength : rest.length using Nat.strongRecOn generalizing s rest with
  | ind length ih =>
      subst hlength
      by_cases hnil : rest = []
      · subst hnil
        exact ⟨0, s, [], .zero s, hrest, .inl ⟨(atEnd_iff hrest).2 rfl, run_nil⟩⟩
      have hend : s.atEnd = false := by
        rw [← Bool.not_eq_true, atEnd_iff hrest]
        exact hnil
      cases hstep : s.step rest with
      | error d =>
          exact ⟨0, s, rest, .zero s, hrest, .inr ⟨hend, d, hstep, run_of_step_error hnil hstep⟩⟩
      | ok found =>
          obtain ⟨t, rest'⟩ := found
          rcases ih _ (length_lt_of_step hstep) (remainder?_of_step hrest hstep) rfl with
            ⟨n, u, rest'', hturns, hrest'', hanswer⟩
          rw [← run_of_step hnil hstep] at hanswer
          exact ⟨n + 1, u, rest'', .succ ⟨hend, hrest, hstep⟩ hturns, hrest'', hanswer⟩

/-! ## The loop over a source -/

variable {source file : String}

/-- From the start of a source on, the cursor has passed a byte or more for every turn,
and it never passes the end. -/
theorem Turns.bounds (h : Turns n (.ofSource source file) s) :
    n ≤ s.cursor ∧ s.cursor ≤ source.utf8ByteSize ∧ s.tokens.size ≤ n := by
  rcases h.exists_remainder ⟨_, remainder?_ofSource source file⟩ with ⟨rest, hrest⟩
  have hcursor := cursor_le_of_remainder? hrest
  have hturns := h.cursor_le
  have htokens := h.size_tokens_le
  rw [h.source_eq, ofSource, byteLength_toList] at hcursor
  rw [ofSource, Nat.zero_add] at hturns
  rw [ofSource, Array.size_empty, Nat.zero_add] at htokens
  exact ⟨hturns, hcursor, htokens⟩

/-- The tokens of a source are what the loop has found at the end, and its fault is the
one at which the loop stops. -/
theorem exists_turns_of_source (source file : String) :
    ∃ n s rest, Turns n (.ofSource source file) s ∧ s.remainder? = some rest ∧
      (s.atEnd = true ∧ tokenize source file = .ok s.finish.tokens.toList ∨
        s.atEnd = false ∧ ∃ d, s.step rest = .error d ∧ tokenize source file = .error d) := by
  rcases exists_turns (remainder?_ofSource source file) with
    ⟨n, s, rest, hturns, hrest, ⟨hend, hrun⟩ | ⟨hend, d, hstep, hrun⟩⟩
  · refine ⟨n, s, rest, hturns, hrest, .inl ⟨hend, ?_⟩⟩
    exact congrArg (Except.map fun s => s.finish.tokens.toList) hrun
  · refine ⟨n, s, rest, hturns, hrest, .inr ⟨hend, d, hstep, ?_⟩⟩
    exact congrArg (Except.map fun s => s.finish.tokens.toList) hrun

end Scanner

open Scanner

/-- Before every turn of the loop over a source the cursor is inside the source and
between two characters, so there is a text to read at it.  The turn fails, or it moves
the cursor behind the lexeme of the first rule that fits, which is not empty, and finds
at most one token; where quotes are to be cut off, they can be.  There are no more turns
than bytes, they lead to the answer, and the tokens are at most one more. -/
theorem tokenize_turns (source file : String) :
    (∀ n s, Turns n (.ofSource source file) s →
      s.source = source.toList ∧ n ≤ s.cursor ∧ s.cursor ≤ source.utf8ByteSize ∧
        s.tokens.size ≤ n ∧ ∃ rest, s.remainder? = some rest ∧
          s.current? = some (firstChar rest) ∧ Outcome s rest (s.step rest)) ∧
      (∃ n s rest, Turns n (.ofSource source file) s ∧ s.remainder? = some rest ∧
        (s.atEnd = true ∧ tokenize source file = .ok s.finish.tokens.toList ∨
          s.atEnd = false ∧
            ∃ d, s.step rest = .error d ∧ tokenize source file = .error d)) ∧
      ∀ ts, tokenize source file = .ok ts → ts.length ≤ source.utf8ByteSize + 1 := by
  refine ⟨?_, exists_turns_of_source source file, ?_⟩
  · intro n s h
    rcases h.exists_remainder ⟨_, remainder?_ofSource source file⟩ with ⟨rest, hrest⟩
    rcases h.bounds with ⟨hturns, hcursor, htokens⟩
    exact ⟨h.source_eq, hturns, hcursor, htokens, rest, hrest,
      congrArg (Option.map firstChar) hrest, step_outcome s rest⟩
  · intro ts hts
    rcases exists_turns_of_source source file with
      ⟨n, s, rest, hturns, -, ⟨-, hok⟩ | ⟨-, d, -, herror⟩⟩
    · rcases hturns.bounds with ⟨hcount, hcursor, htokens⟩
      rw [hts, Except.ok.injEq] at hok
      rw [hok, Array.length_toList, finish, push, Array.size_push]
      omega
    · rw [hts] at herror
      cases herror

/-- The case of a literal and a comment with a character of two bytes each. -/
theorem tokenize_turns_comment :
    ∃ s, Turns 2 (.ofSource "\"é\"//é+" "shell") s ∧ s.atEnd = true ∧ s.cursor = 9 ∧
      s.tokens.size ≤ 2 := by
  have h : Turns 2 (.ofSource "\"é\"//é+" "shell")
      ⟨"\"é\"//é+".toList, 9, #[⟨.string, "é", .ofByte "shell" 0, .ofByte "shell" 4⟩], "shell"⟩ :=
    .succ ⟨rfl, rfl, rfl⟩ (.succ ⟨rfl, rfl, rfl⟩ (.zero _))
  rcases (tokenize_turns "\"é\"//é+" "shell").1 2 _ h with ⟨-, -, -, htokens, -⟩
  exact ⟨_, h, rfl, rfl, htokens⟩

end ExprLang
