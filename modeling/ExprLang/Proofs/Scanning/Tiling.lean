import ExprLang.Proofs.Scanning.Content

/-!
# How tokens lie in a source

The tokens of a source and the gaps between them make up the source, each at the
place that its offsets name.  Gaps are blanks and comments; the text under a
token says of what kind it is.

Main results:

- Theorem `Piece.separated_tokensOf`: between the tokens of pieces stand only
  gaps.
- Theorem `tokenize_tiles`: the tokens of a source tile it.
-/

namespace ExprLang

open Lexeme Text Piece

/-! ## Places in a source -/

/-- A text stands between two positions of a source, behind a front and before a
back. -/
structure Between (source : List Char) (first last : Position)
    (front text back : List Char) : Prop where
  source_eq : source = front ++ text ++ back
  first_eq : first.offset.toNat = byteLength front
  last_eq : last.offset.toNat = byteLength front + byteLength text

/-- A text before a back that separates tokens: blanks, and comments that run to
the end of their line. -/
inductive Gap : List Char → List Char → Prop where
  | nil (back : List Char) : Gap [] back
  | blank {c : Char} {gap back : List Char} (hc : isBlank c = true) (h : Gap gap back) :
      Gap (c :: gap) back
  | comment {line gap back : List Char} (hline : '\n' ∉ line)
      (hend : gap ++ back = [] ∨ ∃ rest, gap ++ back = '\n' :: rest) (h : Gap gap back) :
      Gap ('/' :: '/' :: line ++ gap) back

/-- Only a gap stands between two positions of a source. -/
def GapBetween (source : List Char) (first last : Position) : Prop :=
  ∃ front gap back, Between source first last front gap back ∧ Gap gap back

/-- Only gaps stand from a position to the first token and between tokens that
follow each other. -/
def Separated (source : List Char) : Position → List Token → Prop
  | _, [] => True
  | position, t :: ts =>
      GapBetween source position t.span.start ∧ Separated source t.span.stop ts

/-- The tokens of a source tile it. -/
structure Tiles (source file : String) (ts : List Token) : Prop where
  /-- The last token, and no other, is the end of the input, behind the last
  byte. -/
  ends : ∃ us eof, ts = us ++ [eof] ∧ eof.kind = .eof ∧ eof.span.start = eof.span.stop ∧
    eof.span.start.offset.toNat = source.utf8ByteSize ∧ ∀ t ∈ us, t.kind ≠ .eof
  /-- Under every other token stands a lexeme that spells it.  For a string it is
  a literal of this value.  For any other token it is the text, which belongs to
  the kind of the token only, and a word to an identifier unless it is
  reserved. -/
  lexemes : ∀ t ∈ ts, t.kind ≠ .eof →
    ∃ front lexeme back,
      Between source.toList t.span.start t.span.stop front lexeme back ∧
      lexeme ≠ [] ∧
      (t.kind = .string →
        ∃ items, lexeme = literalOf items ∧ t.text.toList = valueOf items) ∧
      (t.kind ≠ .string → lexeme = t.text.toList ∧
        (∀ kind : TokenKind, kind.HasText t.text ↔ kind = t.kind) ∧
        (IsWord lexeme → (t.kind = .identifier ↔ TokenKind.reserved? t.text = none)))
  /-- Spans lie inside the source, and only that of the end is empty. -/
  bounds : ∀ t ∈ ts, t.span.stop.offset.toNat ≤ source.utf8ByteSize ∧
    (t.kind ≠ .eof → t.span.start.offset.toNat < t.span.stop.offset.toNat)
  /-- Spans are in order and do not overlap. -/
  ordered : ts.Pairwise fun t u =>
    t.span.stop.offset.toNat ≤ u.span.start.offset.toNat
  /-- Before, between and behind the tokens stand only gaps. -/
  gaps : Separated source.toList (.ofByte file 0) ts
  /-- Every position is one of the file. -/
  files : ∀ t ∈ ts, t.span.start.file = file ∧ t.span.stop.file = file

/-! ## What stands between two positions -/

section Between

variable {source front text back : List Char} {first last : Position}

/-- A part of a source stands between the positions that its bytes name. -/
theorem between_ofByte (file : String)
    (hsource : source = front ++ text ++ back) (hsize : byteLength source < UInt32.size) :
    Between source (.ofByte file (byteLength front))
      (.ofByte file (byteLength front + byteLength text)) front text back := by
  subst hsource
  simp only [byteLength_append] at hsize
  refine ⟨rfl, Position.toNat_offset_ofByte ?_, Position.toNat_offset_ofByte ?_⟩ <;> omega

private theorem Between.first_le (h : Between source first last front text back) :
    first.offset.toNat ≤ last.offset.toNat := by
  rw [h.first_eq, h.last_eq]
  exact Nat.le_add_right _ _

private theorem Between.last_le (h : Between source first last front text back) :
    last.offset.toNat ≤ byteLength source := by
  rw [h.last_eq, h.source_eq, byteLength_append, byteLength_append]
  exact Nat.le_add_right _ _

private theorem Between.first_lt (h : Between source first last front text back)
    (hne : text ≠ []) :
    first.offset.toNat < last.offset.toNat := by
  have := byteLength_pos hne
  rw [h.first_eq, h.last_eq]
  omega

end Between

/-! ## Gaps -/

section Gaps

variable {source gap gap' back w : List Char} {first last : Position} {ts : List Token}

/-- Gaps one after another are a gap. -/
theorem Gap.append (h : Gap gap (gap' ++ back)) (h' : Gap gap' back) :
    Gap (gap ++ gap') back := by
  generalize htail : gap' ++ back = tail at h
  induction h with
  | nil => exact h'
  | blank hc _ ih => exact .blank hc (ih htail)
  | @comment line gap _ hline hend _ ih =>
      subst htail
      rw [List.cons_append, List.cons_append, List.append_assoc]
      rw [← List.append_assoc] at hend
      exact .comment hline hend (ih rfl)

private theorem gap_of_blanks (h : ∀ c ∈ w, isBlank c = true) (back : List Char) :
    Gap w back := by
  induction w with
  | nil => exact .nil back
  | cons c w ih =>
      exact .blank (h c (List.mem_cons_self ..))
        (ih fun d hd => h d (List.mem_cons_of_mem c hd))

/-- Tokens with only gaps between them are in order, if none ends before it
starts. -/
theorem Separated.pairwise (h : Separated source first ts)
    (hspans : ∀ t ∈ ts, t.span.start.offset.toNat ≤ t.span.stop.offset.toNat) :
    (∀ t ∈ ts, first.offset.toNat ≤ t.span.start.offset.toNat) ∧
      ts.Pairwise fun t u => t.span.stop.offset.toNat ≤ u.span.start.offset.toNat := by
  induction ts generalizing first with
  | nil => exact ⟨by simp, .nil⟩
  | cons t ts ih =>
      obtain ⟨hfirst, hrest⟩ := ih h.2 fun u hu => hspans u (List.mem_cons_of_mem t hu)
      have hgap : first.offset.toNat ≤ t.span.start.offset.toNat := by
        obtain ⟨_, _, _, hbetween, -⟩ := h.1
        exact hbetween.first_le
      refine ⟨?_, .cons hfirst hrest⟩
      intro u hu
      rcases List.mem_cons.1 hu with rfl | hu
      · exact hgap
      · have := hspans t (List.mem_cons_self ..)
        have := hfirst u hu
        omega

end Gaps

/-! ## Tokens of pieces -/

namespace Piece

variable {p : Piece} {ps : List Piece} {file : String} {offset : Nat} {t : Token}
  {source front gap : List Char}

/-- A piece that becomes no token is a gap. -/
theorem gap_of_content?_eq_none (h : p.rule.content? p.lexeme = none) {back : List Char}
    (hend : p.rule.EndsBefore p.lexeme back) : Gap p.lexeme back := by
  obtain ⟨rule, lexeme, hshape, hclosed⟩ := p
  cases rule with
  | blank => exact gap_of_blanks hshape.2 back
  | comment =>
      obtain ⟨line, rfl, hline⟩ := hshape
      have hline_end : [] ++ back = [] ∨ ∃ rest, [] ++ back = '\n' :: rest :=
        endsLine_iff.1 hend
      have hgap := Gap.comment hline hline_end (.nil back)
      rwa [List.append_nil] at hgap
  | openQuote => exact absurd rfl hclosed
  | _ => cases h

/-- Between the tokens of pieces, and before the end of the source, stand only
gaps. -/
theorem separated_tokensOf {eof : Token} (hsource : source = front ++ gap ++ textOf ps)
    (hsize : byteLength source < UInt32.size) (hcut : CutBefore ps [])
    (hgap : Gap gap (textOf ps))
    (heof : eof.span.start = .ofByte file (byteLength source)) :
    Separated source (.ofByte file (byteLength front))
      (tokensOf file (byteLength front + byteLength gap) ps ++ [eof]) := by
  induction ps generalizing front gap with
  | nil =>
      have hlength : byteLength source = byteLength front + byteLength gap := by
        rw [hsource, textOf_nil, List.append_nil, byteLength_append]
      refine ⟨⟨front, gap, [], ?_, hgap⟩, trivial⟩
      rw [heof, hlength]
      exact between_ofByte file hsource hsize
  | cons p ps ih =>
      have hend : p.rule.EndsBefore p.lexeme (textOf ps) := by
        simpa using hcut.1
      cases hcontent : p.rule.content? p.lexeme with
      | none =>
          -- The piece makes the gap in front of it longer.
          have hlonger : Gap (gap ++ p.lexeme) (textOf ps) :=
            hgap.append (gap_of_content?_eq_none hcontent hend)
          have hsplit : source = front ++ (gap ++ p.lexeme) ++ textOf ps := by
            simp [hsource]
          have hseparated := ih hsplit hcut.2 hlonger
          rw [byteLength_append, ← Nat.add_assoc] at hseparated
          simpa [tokensOf, tokens, hcontent] using hseparated
      | some content =>
          -- The next gap starts behind the token.
          have hsplit : source = front ++ gap ++ p.lexeme ++ [] ++ textOf ps := by
            simp [hsource]
          have hseparated := ih hsplit hcut.2 (.nil _)
          simp only [tokensOf, tokens, hcontent]
          refine ⟨⟨front, gap, _, between_ofByte file hsource hsize, hgap⟩, ?_⟩
          simpa [Nat.add_assoc] using hseparated

/-- Under a token of pieces stands the lexeme that it is made of. -/
theorem exists_between_of_mem_tokensOf (hsize : byteLength (textOf ps) < UInt32.size)
    (h : t ∈ tokensOf file 0 ps) :
    (∃ front lexeme back,
      Between (textOf ps) t.span.start t.span.stop front lexeme back ∧
        lexeme ≠ [] ∧ Spells lexeme t.kind t.text) ∧
      t.span.start.file = file ∧ t.span.stop.file = file := by
  obtain ⟨before, p, after, rfl, hp⟩ := exists_of_mem_tokensOf h
  obtain ⟨hcontent, hspan⟩ := mem_tokens_iff.1 hp
  rw [Nat.zero_add] at hspan
  have hsource : textOf (before ++ p :: after) =
      textOf before ++ p.lexeme ++ textOf after := by
    simp [textOf]
  rw [hspan]
  exact ⟨⟨_, _, _, between_ofByte file hsource hsize, p.shapes.ne_nil, spells hcontent⟩,
    rfl, rfl⟩

end Piece

/-! ## Tilings -/

/-- The tokens of pieces tile the source that is cut into them. -/
theorem tiles_of_pieces {source file : String} {ps : List Piece}
    (hsource : source.toList = textOf ps) (hcut : CutBefore ps [])
    (hsize : source.utf8ByteSize < UInt32.size) :
    Tiles source file (tokensOf file 0 ps ++ [endOf source file]) := by
  have hlength : byteLength (textOf ps) = source.utf8ByteSize := by
    rw [← hsource, byteLength_toList]
  have hoffset : (endOf source file).span.start.offset.toNat = source.utf8ByteSize :=
    Position.toNat_offset_ofByte hsize
  have hlexeme (t : Token) (ht : t ∈ tokensOf file 0 ps) :=
    exists_between_of_mem_tokensOf (by rwa [hlength]) ht
  have hmem (t : Token) (ht : t ∈ tokensOf file 0 ps ++ [endOf source file]) :
      t ∈ tokensOf file 0 ps ∨ t = endOf source file := by
    simpa using ht
  have hgaps : Separated source.toList (.ofByte file 0)
      (tokensOf file 0 ps ++ [endOf source file]) := by
    have hsplit : source.toList = [] ++ [] ++ textOf ps := hsource
    apply separated_tokensOf hsplit _ hcut (.nil _)
    · rw [byteLength_toList]
      rfl
    · rwa [byteLength_toList]
  have hspans : ∀ t ∈ tokensOf file 0 ps ++ [endOf source file],
      t.span.start.offset.toNat ≤ t.span.stop.offset.toNat := by
    intro t ht
    rcases hmem t ht with ht | rfl
    · obtain ⟨⟨front, lexeme, back, hbetween, hne, -⟩, -⟩ := hlexeme t ht
      exact Nat.le_of_lt (hbetween.first_lt hne)
    · exact Nat.le_refl _
  constructor
  case ends =>
    refine ⟨_, _, rfl, rfl, rfl, hoffset, ?_⟩
    intro t ht
    obtain ⟨⟨front, lexeme, back, -, -, hspells⟩, -⟩ := hlexeme t ht
    exact hspells.ne_eof
  case lexemes =>
    intro t ht hkind
    obtain ⟨⟨front, lexeme, back, hbetween, hne, hspells⟩, -⟩ :=
      hlexeme t ((hmem t ht).resolve_right fun heq => hkind (heq ▸ rfl))
    refine ⟨front, lexeme, back, hsource ▸ hbetween, hne, hspells.exists_items, ?_⟩
    intro hstring
    obtain ⟨rfl, htext⟩ := hspells.eq_text hstring
    refine ⟨rfl, fun kind => ⟨fun h => h.unique htext, fun h => h ▸ htext⟩, ?_⟩
    exact htext.eq_identifier_iff
  case bounds =>
    intro t ht
    rcases hmem t ht with ht | rfl
    · obtain ⟨⟨front, lexeme, back, hbetween, hne, -⟩, -⟩ := hlexeme t ht
      exact ⟨hlength ▸ hbetween.last_le, fun _ => hbetween.first_lt hne⟩
    · exact ⟨Nat.le_of_eq hoffset, fun h => absurd rfl h⟩
  case ordered => exact (hgaps.pairwise hspans).2
  case gaps => exact hgaps
  case files =>
    intro t ht
    rcases hmem t ht with ht | rfl
    · exact (hlexeme t ht).2
    · exact ⟨rfl, rfl⟩

/-- The tokens of a source and the gaps between them make it up, if its offsets
can be counted. -/
theorem tokenize_tiles {source : String} {file? : Option String} {ts : List Token}
    (hsize : source.utf8ByteSize < UInt32.size)
    (h : tokenize source (file?.getD defaultFile) = .ok ts) :
    Tiles source (file?.getD "shell") ts := by
  obtain ⟨ps, hsource, hcut, rfl⟩ := tokenize_eq_ok_iff.1 h
  exact tiles_of_pieces hsource hcut hsize

/-- The case of a string with a character of two bytes, between a keyword and a
comment that ends the source. -/
theorem tokenize_tiles_print_string :
    ∃ ts, "print\"é\\n\"//".utf8ByteSize < UInt32.size ∧
      tokenize "print\"é\\n\"//" ((none : Option String).getD defaultFile) = .ok ts ∧
      Tiles "print\"é\\n\"//" ((none : Option String).getD "shell") ts := by
  have hcut : CutBefore
      [⟨.word, "print".toList, (by decide : IsWord "print".toList), by decide⟩,
        ⟨.stringLiteral, literalOf [.plain 'é' (by decide), .pair 'n' (by decide)],
          ⟨_, rfl⟩, by decide⟩,
        ⟨.comment, "//".toList, ⟨[], rfl, by simp⟩, by decide⟩] [] :=
    ⟨endsRun_cons.2 (by decide), trivial, endsRun_nil _, trivial⟩
  have h : tokenize "print\"é\\n\"//" ((none : Option String).getD defaultFile) =
      .ok [⟨.kwPrint, "print", ⟨.ofByte "shell" 0, .ofByte "shell" 5⟩⟩,
        ⟨.string, "é\n", ⟨.ofByte "shell" 5, .ofByte "shell" 11⟩⟩,
        ⟨.eof, "EOF", ⟨.ofByte "shell" 13, .ofByte "shell" 13⟩⟩] :=
    tokenize_of_pieces rfl hcut
  exact ⟨_, by decide, h, tokenize_tiles (by decide) h⟩

end ExprLang
