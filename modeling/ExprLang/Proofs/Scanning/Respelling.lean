import ExprLang.Proofs.Scanning.Content

/-!
# Sources that spell tokens

Every token that a source can have may be spelled again: by its text, or, if it
is a string, by a literal in which backslashes and quotes are escaped.  With a
blank between neighbours the spellings of any tokens in a row are a source that
has these tokens.

Main results:

- Theorem `Lexeme.quote_eq_literalOf`: escaping turns every text into a literal
  that denotes it.
- Theorem `tokenize_respelled`: tokenizing gives back the tokens that are
  spelled.
-/

namespace ExprLang

open Lexeme Text Piece

/-! ## Quoting -/

namespace Lexeme

/-- A character of a string as a literal spells it. -/
def escape (c : Char) : List Char :=
  if c = '\\' ∨ c = '"' then ['\\', c] else [c]

/-- The literal of a text. -/
def quote (text : List Char) : List Char :=
  '"' :: text.flatMap escape ++ ['"']

/-- The item that stands for a character. -/
def Item.ofChar (c : Char) : Item :=
  if h : c ≠ '"' ∧ c ≠ '\\' then
    .plain c h
  else
    .pair c fun hc => h (hc ▸ by decide)

private theorem Item.ofChar_plain {c : Char} (h : c ≠ '"' ∧ c ≠ '\\') :
    Item.ofChar c = .plain c h :=
  dif_pos h

/-- The item of a character is spelled with a backslash where one is needed. -/
theorem Item.spelling_ofChar (c : Char) : (Item.ofChar c).spelling = escape c := by
  by_cases hslash : c = '\\'
  · subst hslash
    rfl
  · by_cases hquote : c = '"'
    · subst hquote
      rfl
    · rw [ofChar_plain ⟨hquote, hslash⟩, spelling, escape,
        if_neg (by simp [hslash, hquote])]

/-- The item of a character stands for it. -/
theorem Item.value_ofChar (c : Char) : (Item.ofChar c).value = [c] := by
  by_cases hslash : c = '\\'
  · subst hslash
    rfl
  · by_cases hquote : c = '"'
    · subst hquote
      rfl
    · rw [ofChar_plain ⟨hquote, hslash⟩, value]

/-- The literal of a text has an item for each of its characters. -/
theorem quote_eq_literalOf (text : List Char) :
    quote text = literalOf (text.map Item.ofChar) := by
  have hbody : bodyOf (text.map Item.ofChar) = text.flatMap escape := by
    simp [bodyOf, List.flatMap_map, Item.spelling_ofChar]
  rw [quote, literalOf, hbody]

private theorem valueOf_ofChar (text : List Char) : valueOf (text.map Item.ofChar) = text := by
  simp [valueOf, List.flatMap_map, Item.value_ofChar]

/-- The literal of a text spells a string with this text. -/
theorem spells_quote (text : String) : Spells (quote text.toList) .string text := by
  have h := Spells.literal (text.toList.map Item.ofChar)
  rwa [← quote_eq_literalOf, valueOf_ofChar, String.ofList_toList] at h

end Lexeme

/-! ## Spellings of tokens -/

namespace Token

/-- What a token is apart from its place. -/
def content (t : Token) : TokenKind × String :=
  (t.kind, t.text)

/-- The text that spells a token. -/
def respelled (t : Token) : String :=
  if t.kind = .string then String.ofList (quote t.text.toList) else t.text

/-- A token has a text that its kind can have, as any text is one of a string. -/
def HasContent (t : Token) : Prop :=
  t.kind = .string ∨ t.kind.HasText t.text

/-- What a token is spelled with has its content. -/
theorem HasContent.spells {t : Token} (h : t.HasContent) :
    Spells t.respelled.toList t.kind t.text := by
  rcases h with hstring | htext
  · rw [respelled, if_pos hstring, String.toList_ofList, hstring]
    exact spells_quote t.text
  · rw [respelled, if_neg htext.ne_string]
    exact .plain htext

end Token

/-- Spellings of tokens with a blank between neighbours. -/
def respelled (ts : List Token) : String :=
  " ".intercalate (ts.map Token.respelled)

private theorem toList_respelled (ts : List Token) :
    (respelled ts).toList = [' '].intercalate (ts.map fun t => t.respelled.toList) := by
  simp [respelled, String.toList_intercalate, Function.comp_def]

/-! ## Tokenizing a spelling -/

namespace Piece

variable {p : Piece} {kind : TokenKind} {text : String}

/-- A piece that becomes a token is no blank and no comment. -/
theorem ne_blank_of_content? (h : p.rule.content? p.lexeme = some (kind, text)) :
    p.rule ≠ .blank ∧ p.rule ≠ .comment := by
  constructor <;> intro hrule <;> rw [hrule] at h <;> cases h

private theorem content_tokens (h : p.rule.content? p.lexeme = some (kind, text)) (file : String)
    (offset : Nat) : (p.tokens file offset).map Token.content = [(kind, text)] := by
  simp [tokens, h, Token.content]

/-- Spellings of tokens are cut into pieces that become these tokens. -/
theorem exists_pieces_of_respelled {ts : List Token} (h : ∀ t ∈ ts, t.HasContent) :
    ∃ ps, textOf ps = (respelled ts).toList ∧ CutBefore ps [] ∧
      EndsRun isBlank (textOf ps) ∧
      ∀ file offset, (tokensOf file offset ps).map Token.content =
        ts.map Token.content := by
  simp only [toList_respelled]
  have hspace : isBlank ' ' = true := by decide
  induction ts with
  | nil => exact ⟨[], rfl, trivial, endsRun_nil _, fun file offset => rfl⟩
  | cons t ts ih =>
      obtain ⟨p, hlexeme, hcontent⟩ :=
        (h t (List.mem_cons_self ..)).spells.exists_piece
      have hrule := ne_blank_of_content? hcontent
      obtain ⟨ps, htext, hcut, hhead, htokens⟩ :=
        ih fun u hu => h u (List.mem_cons_of_mem t hu)
      cases ts with
      | nil =>
          refine ⟨[p], by simp [hlexeme], ⟨Rule.endsBefore_nil p.closed _, trivial⟩,
            endsRun_isBlank hrule.1 _, ?_⟩
          intro file offset
          simp [tokensOf, content_tokens hcontent, Token.content]
      | cons u ts =>
          refine ⟨p :: ofBlanks [' '] (isBlanks_singleton hspace) :: ps,
            ?_, ⟨?_, ?_, hcut⟩, endsRun_isBlank hrule.1 _, ?_⟩
          · simp [hlexeme, htext, ofBlanks]
          · exact Rule.endsBefore_of_isBlank p.shapes.mem_all p.closed hrule.1 hspace
              (fun hcomment => absurd hcomment hrule.2) _
          · rw [List.append_nil]
            exact hhead
          · intro file offset
            simp only [tokensOf, List.map_append, content_tokens hcontent, htokens]
            rfl

end Piece

/-- Tokens are given back by the source that spells them with a blank between
neighbours, whatever texts their strings have. -/
theorem tokenize_respelled {ts : List Token} (h : ∀ t ∈ ts, t.HasContent)
    (file : String) :
    ∃ us, tokenize (respelled ts) file = .ok us ∧
      us.map Token.content = ts.map Token.content ++ [(.eof, "EOF")] := by
  obtain ⟨ps, htext, hcut, -, htokens⟩ := exists_pieces_of_respelled h
  refine ⟨_, tokenize_of_pieces htext.symm hcut, ?_⟩
  rw [List.map_append, htokens]
  rfl

/-- The case of two slashes, which would be a comment without the blank, and of a
string that holds a backslash, a quote and a line break. -/
theorem tokenize_respelled_slashes_string :
    ∃ ts us, ts.map Token.content = [(.slash, "/"), (.slash, "/"), (.string, "\\\"\n")] ∧
      (∀ t ∈ ts, t.HasContent) ∧ tokenize (respelled ts) "shell" = .ok us ∧
      us.map Token.content =
        [(.slash, "/"), (.slash, "/"), (.string, "\\\"\n"), (.eof, "EOF")] := by
  have hcontent : ∀ t ∈ [Token.synthetic .slash "/", .synthetic .slash "/",
      .synthetic .string "\\\"\n"], t.HasContent := by
    intro t ht
    simp only [List.mem_cons, List.not_mem_nil, or_false] at ht
    rcases ht with rfl | rfl | rfl
    · exact .inr (.fixed rfl)
    · exact .inr (.fixed rfl)
    · exact .inl rfl
  obtain ⟨us, htokens, hus⟩ := tokenize_respelled hcontent "shell"
  exact ⟨_, us, rfl, hcontent, htokens, hus⟩

end ExprLang
