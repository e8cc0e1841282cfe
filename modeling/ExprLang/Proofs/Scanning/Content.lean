import ExprLang.Proofs.Scanning.Boundary

/-!
# Kinds and texts of tokens

Which texts a token of a kind can have, and by which lexemes it is spelled.
Keywords and operators have one text each, identifiers and numbers all texts of
a shape, and strings any text at all.  Except for strings the lexeme is the text,
and a text belongs to one kind only.

Main results:

- Theorem `TokenKind.HasText.unique`: no text belongs to two kinds.
- Theorems `Piece.spells` and `Lexeme.Spells.exists_piece`: tokens are made of
  the lexemes that spell them.
-/

namespace ExprLang

open Lexeme

/-- A quote that opens no literal becomes no token. -/
theorem Rule.ne_openQuote_of_content? {rule : Rule} {lexeme : List Char}
    {kind : TokenKind} {text : String} (h : rule.content? lexeme = some (kind, text)) :
    rule ≠ .openQuote := by
  rintro rfl
  cases h

/-! ## Texts of a kind -/

namespace TokenKind

/-- The text of a kind whose tokens are always spelled the same. -/
def fixedText? : TokenKind → Option String
  | eof | number | string | identifier => none
  | openCurly => some "\x7b"
  | closeCurly => some "\x7d"
  | openParen => some "("
  | closeParen => some ")"
  | assignment => some "="
  | equals => some "=="
  | not => some "!"
  | notEquals => some "!="
  | less => some "<"
  | lessEquals => some "<="
  | greater => some ">"
  | greaterEquals => some ">="
  | dot => some "."
  | semicolon => some ";"
  | comma => some ","
  | plus => some "+"
  | dash => some "-"
  | slash => some "/"
  | star => some "*"
  | kwAnd => some "and"
  | kwOr => some "or"
  | kwTrue => some "true"
  | kwFalse => some "false"
  | kwNil => some "nil"
  | kwThis => some "this"
  | kwSuper => some "super"
  | kwClass => some "class"
  | kwFun => some "fun"
  | kwVar => some "var"
  | kwIf => some "if"
  | kwElse => some "else"
  | kwWhile => some "while"
  | kwFor => some "for"
  | kwReturn => some "return"
  | kwPrint => some "print"

/-- The texts that tokens of a kind can have, strings apart. -/
inductive HasText : TokenKind → String → Prop where
  | fixed {kind : TokenKind} {text : String} (h : kind.fixedText? = some text) :
      HasText kind text
  | identifier {text : String} (h : IsWord text.toList)
      (hreserved : reserved? text = none) : HasText .identifier text
  | number {text : String} (h : IsNumber text.toList) : HasText .number text

variable {kind kind' : TokenKind} {text : String}

private theorem fixedText?_of_reserved? (h : reserved? text = some kind) :
    kind.fixedText? = some text := by
  unfold reserved? at h
  split at h <;> cases h <;> rfl

private theorem fixedText?_of_mem (h : .fixed kind text ∈ Rule.all) :
    kind.fixedText? = some text := by
  simp only [Rule.all, List.mem_cons, reduceCtorEq, Rule.fixed.injEq, false_or,
    List.not_mem_nil, or_false] at h
  rcases h with h | h | h | h | h | h | h | h | h | h | h | h | h | h | h | h |
    h | h | h <;> obtain ⟨rfl, rfl⟩ := h <;> rfl

/-- A fixed text is an operator or a reserved word. -/
theorem mem_or_reserved?_of_fixedText? (h : kind.fixedText? = some text) :
    .fixed kind text ∈ Rule.all ∨ reserved? text = some kind ∧ IsWord text.toList := by
  cases kind <;> cases h <;> decide

/-- The kind of a word is that of its text. -/
theorem hasText_ofWord (h : IsWord text.toList) : (ofWord text).HasText text := by
  cases hreserved : reserved? text with
  | none =>
      rw [ofWord_eq_identifier_iff.2 hreserved]
      exact .identifier h hreserved
  | some kind =>
      have hkind : ofWord text = kind := by rw [ofWord, hreserved, Option.getD_some]
      rw [hkind]
      exact .fixed (fixedText?_of_reserved? hreserved)

/-- A text of a kind is the lexeme of a rule that makes a token of that kind and
text of it. -/
theorem HasText.exists_rule (h : kind.HasText text) :
    ∃ rule : Rule, rule.Shapes text.toList ∧
      rule.content? text.toList = some (kind, text) := by
  cases h with
  | identifier hword hreserved =>
      refine ⟨.word, hword, ?_⟩
      rw [Rule.content?, String.ofList_toList, ofWord_eq_identifier_iff.2 hreserved]
  | number hnumber =>
      exact ⟨.number, hnumber, by rw [Rule.content?, String.ofList_toList]⟩
  | fixed hfixed =>
      rcases mem_or_reserved?_of_fixedText? hfixed with hmem | ⟨hreserved, hword⟩
      · exact ⟨.fixed kind text, ⟨hmem, rfl⟩, rfl⟩
      · refine ⟨.word, hword, ?_⟩
        rw [Rule.content?, String.ofList_toList, ofWord, hreserved, Option.getD_some]

/-- No text belongs to two kinds. -/
theorem HasText.unique (h : kind.HasText text) (h' : kind'.HasText text) :
    kind = kind' := by
  obtain ⟨rule, hshape, hcontent⟩ := h.exists_rule
  obtain ⟨rule', hshape', hcontent'⟩ := h'.exists_rule
  have hend := Rule.endsBefore_nil (Rule.ne_openQuote_of_content? hcontent) text.toList
  have hend' := Rule.endsBefore_nil (Rule.ne_openQuote_of_content? hcontent') text.toList
  -- Both rules are the first to fit the text by itself.
  have hfirst := Rule.first?_eq_some_iff.2 ⟨[], rfl, hshape, hend⟩
  have hfirst' := Rule.first?_eq_some_iff.2 ⟨[], rfl, hshape', hend'⟩
  obtain rfl : rule = rule' :=
    congrArg Prod.fst (Option.some.inj (hfirst.symm.trans hfirst'))
  exact congrArg Prod.fst (Option.some.inj (hcontent.symm.trans hcontent'))

/-- A word is an identifier exactly if it is not reserved. -/
theorem HasText.eq_identifier_iff (h : kind.HasText text) (hword : IsWord text.toList) :
    kind = .identifier ↔ reserved? text = none := by
  rw [h.unique (hasText_ofWord hword), ofWord_eq_identifier_iff]

/-- Tokens of a kind with one spelling have that text. -/
theorem HasText.eq_of_fixedText? {text' : String} (h : kind.HasText text)
    (hfixed : kind.fixedText? = some text') : text = text' := by
  cases h with
  | fixed h => exact Option.some.inj (h.symm.trans hfixed)
  | identifier => cases hfixed
  | number => cases hfixed

private theorem HasText.ne_eof (h : kind.HasText text) : kind ≠ .eof := by
  rintro rfl
  cases h with
  | fixed h => cases h

/-- A kind with texts of its own is not that of literals. -/
theorem HasText.ne_string (h : kind.HasText text) : kind ≠ .string := by
  rintro rfl
  cases h with
  | fixed h => cases h

end TokenKind

/-! ## Lexemes of a token -/

/-- Which lexemes spell a token of a kind and text. -/
inductive Lexeme.Spells : List Char → TokenKind → String → Prop where
  | plain {kind : TokenKind} {text : String} (h : kind.HasText text) :
      Spells text.toList kind text
  | literal (items : List Item) :
      Spells (literalOf items) .string (String.ofList (valueOf items))

namespace Lexeme.Spells

variable {lexeme : List Char} {kind : TokenKind} {text : String}

/-- No lexeme spells the end. -/
theorem ne_eof (h : Spells lexeme kind text) : kind ≠ .eof := by
  cases h with
  | plain htext => exact htext.ne_eof
  | literal items => decide

/-- A string is spelled by a literal that denotes its text. -/
theorem exists_items (h : Spells lexeme kind text) (hstring : kind = .string) :
    ∃ items, lexeme = literalOf items ∧ text.toList = valueOf items := by
  cases h with
  | plain htext => exact absurd hstring htext.ne_string
  | literal items => exact ⟨items, rfl, String.toList_ofList⟩

/-- Any other token is spelled by its text, which is one of its kind. -/
theorem eq_text (h : Spells lexeme kind text) (hstring : kind ≠ .string) :
    lexeme = text.toList ∧ kind.HasText text := by
  cases h with
  | plain htext => exact ⟨rfl, htext⟩
  | literal items => exact absurd rfl hstring

end Lexeme.Spells

namespace Rule

variable {rule : Rule} {kind : TokenKind} {text : String} {lexeme : List Char}

/-- A token is spelled by the lexeme that it is made of. -/
theorem Shapes.spells (hshape : rule.Shapes lexeme)
    (h : rule.content? lexeme = some (kind, text)) : Spells lexeme kind text := by
  cases rule with
  | word =>
      cases h
      have hword : IsWord (String.ofList lexeme).toList := by
        rw [String.toList_ofList]
        exact hshape
      have hspells := Spells.plain (TokenKind.hasText_ofWord hword)
      rwa [String.toList_ofList] at hspells
  | number =>
      cases h
      have hnumber : IsNumber (String.ofList lexeme).toList := by
        rw [String.toList_ofList]
        exact hshape
      have hspells := Spells.plain (.number hnumber)
      rwa [String.toList_ofList] at hspells
  | stringLiteral =>
      obtain ⟨items, rfl⟩ := hshape
      rw [content?, unescape_contents_literalOf] at h
      cases h
      exact .literal items
  | fixed kind text =>
      obtain ⟨hmem, rfl⟩ := hshape
      cases h
      exact .plain (.fixed (TokenKind.fixedText?_of_mem hmem))
  | _ => cases h

end Rule

/-- The lexeme of a piece spells the kind and the text of its token. -/
theorem Piece.spells {p : Piece} {kind : TokenKind} {text : String}
    (h : p.rule.content? p.lexeme = some (kind, text)) : Spells p.lexeme kind text :=
  p.shapes.spells h

/-- The tokens of a text have texts of their kinds, strings apart. -/
theorem Piece.hasText_of_mem_tokensOf {file : String} {offset : Nat} {ps : List Piece}
    {t : Token} (ht : t ∈ tokensOf file offset ps) (hkind : t.kind ≠ .string) :
    t.kind.HasText t.text := by
  rcases exists_of_mem_tokensOf ht with ⟨before, p, after, -, hp⟩
  exact ((Piece.spells (mem_tokens_iff.1 hp).1).eq_text hkind).2

/-- A lexeme that spells a token is a piece that becomes it. -/
theorem Lexeme.Spells.exists_piece {lexeme : List Char} {kind : TokenKind} {text : String}
    (h : Spells lexeme kind text) :
    ∃ p : Piece, p.lexeme = lexeme ∧ p.rule.content? p.lexeme = some (kind, text) := by
  cases h with
  | plain htext =>
      obtain ⟨rule, hshape, hcontent⟩ := htext.exists_rule
      exact ⟨⟨rule, _, hshape, Rule.ne_openQuote_of_content? hcontent⟩, rfl, hcontent⟩
  | literal items =>
      refine ⟨⟨.stringLiteral, literalOf items, ⟨items, rfl⟩, by decide⟩, rfl, ?_⟩
      rw [Rule.content?, unescape_contents_literalOf]

end ExprLang
