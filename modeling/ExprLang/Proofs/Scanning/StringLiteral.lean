import ExprLang.Proofs.Scanning.Content

/-!
# String tokens

A literal becomes one string token, whose text is what the items between the quotes
denote, and scanning goes on behind it.  No other text becomes a string token.

Main results:

- Theorem `Scanner.step_literal`: what a step does with a literal.
- Theorem `Scanner.exists_literal_of_step`: what a step has read that finds a string.
- Theorem `string_iff_literal`: string tokens are the literals of a source.
-/

namespace ExprLang

open Lexeme Text Piece

/-- The quotes of a literal are two bytes. -/
theorem Lexeme.byteLength_literalOf (items : List Item) :
    byteLength (literalOf items) = byteLength (bodyOf items) + 2 := by
  have hquote : Char.utf8Size '"' = 1 := by decide
  simp only [literalOf, List.cons_append, byteLength_cons, byteLength_append,
    byteLength_nil, hquote]
  omega

/-- The piece that a literal is. -/
def Piece.ofLiteral (items : List Item) : Piece :=
  ⟨.stringLiteral, literalOf items, ⟨items, rfl⟩, by decide⟩

/-- The token that a literal becomes at an offset. -/
def Token.ofLiteral (file : String) (offset : Nat) (items : List Item) : Token :=
  ⟨.string, String.ofList (valueOf items),
    ⟨.ofByte file offset, .ofByte file (offset + (byteLength (bodyOf items) + 2))⟩⟩

/-- A piece that becomes a string token is a literal. -/
theorem Piece.exists_items {p : Piece} {file : String} {offset : Nat} {t : Token}
    (h : t ∈ p.tokens file offset) (hstring : t.kind = .string) :
    ∃ items, p.lexeme = literalOf items ∧ t = .ofLiteral file offset items := by
  rcases mem_tokens_iff.1 h with ⟨hcontent, hspan⟩
  rcases (Piece.spells hcontent).exists_items hstring with ⟨items, hlexeme, htext⟩
  refine ⟨items, hlexeme, ?_⟩
  obtain ⟨kind, text, span⟩ := t
  obtain rfl : kind = .string := hstring
  obtain rfl : span = _ := hspan
  rw [Token.ofLiteral, ← htext, String.ofList_toList, hlexeme, byteLength_literalOf]

namespace Scanner

variable {s next : Scanner} {cs rest : List Char}

/-- A step that does not fail takes a piece. -/
theorem exists_piece_of_step (h : s.step cs = .ok (next, rest)) :
    ∃ p : Piece, cs = p.lexeme ++ rest ∧ next = s.take p := by
  cases hfirst : Rule.first? cs with
  | none => simp [step, hfirst] at h
  | some found =>
      obtain ⟨rule, lexeme⟩ := found
      rcases Rule.first?_eq_some_iff.1 hfirst with ⟨tail, rfl, hshape, hend⟩
      by_cases hquote : rule = .openQuote
      · subst hquote
        simp [step, hfirst, Rule.apply, Except.map] at h
      · have hstep := step_piece (s := s) (p := ⟨rule, lexeme, hshape, hquote⟩) hend
        rw [hstep] at h
        cases h
        exact ⟨⟨rule, lexeme, hshape, hquote⟩, rfl, rfl⟩

/-- The scanner behind a literal. -/
def takeLiteral (s : Scanner) (items : List Item) : Scanner :=
  (s.push (.ofLiteral s.file s.cursor items)).advance (byteLength (bodyOf items) + 2)

private theorem take_ofLiteral (s : Scanner) (items : List Item) :
    s.take (.ofLiteral items) = s.takeLiteral items := by
  simp only [take, ofLiteral, Rule.content?, unescape_contents_literalOf,
    byteLength_literalOf]
  rfl

/-- A literal becomes a string token, and the text behind it is left. -/
theorem step_literal (s : Scanner) (items : List Item) (rest : List Char) :
    s.step (literalOf items ++ rest) = .ok (s.takeLiteral items, rest) := by
  rw [← take_ofLiteral]
  exact step_piece (p := .ofLiteral items) trivial

/-- A step finds at most one token.  If it is a string, the step has read a literal. -/
theorem exists_literal_of_step (h : s.step cs = .ok (next, rest)) :
    ∃ found, next.tokens.toList = s.tokens.toList ++ found ∧ found.length ≤ 1 ∧
      ∀ t ∈ found, t.kind = .string → ∃ items, cs = literalOf items ++ rest ∧
        t = .ofLiteral s.file s.cursor items := by
  rcases exists_piece_of_step h with ⟨p, rfl, rfl⟩
  refine ⟨p.tokens s.file s.cursor, tokens_take, ?_, ?_⟩
  · unfold Piece.tokens
    cases p.rule.content? p.lexeme <;> simp
  · intro t ht hstring
    rcases Piece.exists_items ht hstring with ⟨items, hlexeme, rfl⟩
    exact ⟨items, congrArg (· ++ rest) hlexeme, rfl⟩

end Scanner

/-- A string token of a source is that of a literal in it, at its place. -/
theorem exists_literal_of_mem_tokenize {source file : String} {ts : List Token} {t : Token}
    (h : tokenize source file = .ok ts) (ht : t ∈ ts) (hstring : t.kind = .string) :
    ∃ front items back, source.toList = front ++ literalOf items ++ back ∧
      t = .ofLiteral file (byteLength front) items := by
  rcases tokenize_eq_ok_iff.1 h with ⟨ps, hsource, -, rfl⟩
  rcases List.mem_append.1 ht with ht | ht
  · rcases exists_of_mem_tokensOf ht with ⟨before, p, after, rfl, hp⟩
    rcases Piece.exists_items hp hstring with ⟨items, hlexeme, rfl⟩
    refine ⟨textOf before, items, textOf after, ?_, by rw [Nat.zero_add]⟩
    simp [hsource, textOf, hlexeme]
  · obtain rfl := List.mem_singleton.1 ht
    cases hstring

/-- Whatever items stand between two quotes at the cursor of a scanner, and whatever
text behind them, the literal becomes one string token over its bytes, with what the
items denote as its text, and scanning goes on with the text behind it.  Every string
token that a step finds, and so every one of a source, is that of such a literal. -/
theorem string_iff_literal :
    (∀ (s : Scanner) (items : List Item) (rest : List Char),
      ∃ next, s.step (literalOf items ++ rest) = .ok (next, rest) ∧
        s.run (literalOf items ++ rest) = next.run rest ∧
        next.tokens = s.tokens.push ⟨.string, String.ofList (valueOf items),
          s.spanOf (byteLength (bodyOf items) + 2)⟩ ∧
        next.cursor = s.cursor + (byteLength (bodyOf items) + 2) ∧
        next.source = s.source ∧ next.file = s.file ∧
        (s.remainder? = some (literalOf items ++ rest) → next.remainder? = some rest)) ∧
      (∀ (s next : Scanner) (cs rest : List Char), s.step cs = .ok (next, rest) →
        ∃ found, next.tokens.toList = s.tokens.toList ++ found ∧ found.length ≤ 1 ∧
          ∀ t ∈ found, t.kind = .string → ∃ items, cs = literalOf items ++ rest ∧
            t = ⟨.string, String.ofList (valueOf items),
              s.spanOf (byteLength (bodyOf items) + 2)⟩) ∧
      ∀ (source file : String) (ts : List Token), tokenize source file = .ok ts →
        ∀ t ∈ ts, t.kind = .string →
          ∃ front items back, source.toList = front ++ literalOf items ++ back ∧
            t = ⟨.string, String.ofList (valueOf items), .ofByte file (byteLength front),
              .ofByte file (byteLength front + (byteLength (bodyOf items) + 2))⟩ := by
  refine ⟨?_, ?_, ?_⟩
  · intro s items rest
    have hstep := s.step_literal items rest
    have hne : literalOf items ++ rest ≠ [] := List.cons_ne_nil _ _
    exact ⟨_, hstep, Scanner.run_of_step hne hstep, rfl, rfl, rfl, rfl,
      fun hrest => Scanner.remainder?_of_step hrest hstep⟩
  · intro s next cs rest hstep
    exact Scanner.exists_literal_of_step hstep
  · intro source file ts h t ht hstring
    exact exists_literal_of_mem_tokenize h ht hstring

/-- The case of a literal with a character of two bytes, a pair that denotes itself, a
backslash, and a quote behind a backslash. -/
theorem string_iff_literal_backslashes :
    ∃ (next : Scanner) (t : Token) (ts : List Token),
      (Scanner.ofSource "\"é\\q\\\\\\\"\"+" "shell").step "\"é\\q\\\\\\\"\"+".toList =
        .ok (next, ['+']) ∧ next.remainder? = some ['+'] ∧ next.tokens.toList = [t] ∧
      t = ⟨.string, "é\\q\\\"", .ofByte "shell" 0, .ofByte "shell" 10⟩ ∧
      tokenize "\"é\\q\\\\\\\"\"+" "shell" = .ok ts ∧ t ∈ ts ∧
      ∃ front items back,
        "\"é\\q\\\\\\\"\"+".toList = front ++ literalOf items ++ back ∧
        t.text = String.ofList (valueOf items) := by
  let items : List Item := [.plain 'é' (by decide), .pair 'q' (by decide),
    .pair '\\' (by decide), .pair '"' (by decide)]
  rcases string_iff_literal.1 (.ofSource "\"é\\q\\\\\\\"\"+" "shell") items ['+'] with
    ⟨next, hstep, -, htokens, -, -, -, hrest⟩
  have hcut : CutBefore
      [.ofLiteral items, ⟨.fixed .plus "+", ['+'], ⟨by decide, rfl⟩, by decide⟩] [] :=
    ⟨trivial, by simp [Rule.EndsBefore, Rule.longer?], trivial⟩
  have h : tokenize "\"é\\q\\\\\\\"\"+" "shell" =
      .ok [⟨.string, "é\\q\\\"", .ofByte "shell" 0, .ofByte "shell" 10⟩,
        ⟨.plus, "+", .ofByte "shell" 10, .ofByte "shell" 11⟩,
        ⟨.eof, "EOF", .ofByte "shell" 11, .ofByte "shell" 11⟩] :=
    tokenize_of_pieces rfl hcut
  rcases string_iff_literal.2.2 _ _ _ h _ List.mem_cons_self rfl with
    ⟨front, items', back, hsource, htoken⟩
  refine ⟨next, _, _, hstep, hrest (Scanner.remainder?_ofSource _ _), ?_, rfl, h,
    List.mem_cons_self, front, items', back, hsource, congrArg Token.text htoken⟩
  rw [htokens]
  rfl

end ExprLang
