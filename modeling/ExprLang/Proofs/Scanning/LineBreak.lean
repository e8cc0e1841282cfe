import ExprLang.Proofs.Scanning.Boundary
import Mathlib.Data.List.Forall2

/-!
# Line breaks between sources

Two sources with a line break between them are one source, and its tokens are
those of the two.  The line break ends whatever the first source ends in; only
blanks around it become one piece with it, and blanks are no tokens.

Main results:

- Theorem `Piece.exists_join`: the pieces of two sources are joined by a line
  break.
- Theorem `tokenize_append_newline`: tokens and faults of the second source
  stand behind those of the first, moved by the length of what precedes them.
-/

namespace ExprLang

open Lexeme Text Piece

/-! ## Moved positions -/

/-- A position in the same file, a number of bytes further on. -/
def Position.Moved (n : Nat) (p q : Position) : Prop :=
  q.file = p.file ∧ q.offset.toNat = p.offset.toNat + n

/-- The same token, a number of bytes further on. -/
structure Token.Moved (n : Nat) (t u : Token) : Prop where
  kind : u.kind = t.kind
  text : u.text = t.text
  start : t.span.start.Moved n u.span.start
  stop : t.span.stop.Moved n u.span.stop

private theorem Position.moved_ofByte (file : String) {n byte : Nat}
    (h : n + byte < UInt32.size) :
    (Position.ofByte file byte).Moved n (.ofByte file (n + byte)) := by
  refine ⟨rfl, ?_⟩
  rw [toNat_offset_ofByte h, toNat_offset_ofByte (by omega), Nat.add_comm]

namespace Piece

variable {p : Piece} {ps qs : List Piece} {rest w : List Char} {file : String}
  {n offset : Nat}

/-- A piece further on in a source has the same tokens further on. -/
theorem moved_tokens (h : n + (offset + byteLength p.lexeme) < UInt32.size) :
    List.Forall₂ (Token.Moved n) (p.tokens file offset) (p.tokens file (n + offset)) := by
  unfold tokens
  cases p.rule.content? p.lexeme with
  | none => exact .nil
  | some content =>
      refine .cons ⟨rfl, rfl, Position.moved_ofByte file (by omega), ?_⟩ .nil
      rw [Nat.add_assoc]
      exact Position.moved_ofByte file h

/-- Pieces further on in a source have the same tokens further on. -/
theorem moved_tokensOf (h : n + (offset + byteLength (textOf ps)) < UInt32.size) :
    List.Forall₂ (Token.Moved n) (tokensOf file offset ps)
      (tokensOf file (n + offset) ps) := by
  induction ps generalizing offset with
  | nil => exact .nil
  | cons p ps ih =>
      rw [textOf_cons, byteLength_append] at h
      have hrest : List.Forall₂ (Token.Moved n)
          (tokensOf file (offset + byteLength p.lexeme) ps)
          (tokensOf file (n + (offset + byteLength p.lexeme)) ps) := ih (by omega)
      rw [← Nat.add_assoc] at hrest
      exact List.rel_append (moved_tokens (by omega)) hrest

/-! ## Joining pieces -/

/-- Blanks in front of pieces become one piece with the blanks that the pieces
start with. -/
theorem exists_join_blanks (hw : IsBlanks w) (hcut : CutBefore qs rest)
    (hrest : EndsRun isBlank rest) :
    ∃ ms, textOf ms = w ++ textOf qs ∧ CutBefore ms rest ∧
      ∀ file offset,
        tokensOf file offset ms = tokensOf file (offset + byteLength w) qs := by
  cases qs with
  | nil =>
      refine ⟨[ofBlanks w hw], rfl, ⟨hrest, trivial⟩, ?_⟩
      intro file offset
      rfl
  | cons q qs =>
      by_cases hrule : q.rule = .blank
      · obtain ⟨rule, lexeme, hshape, hclosed⟩ := q
        obtain rfl : rule = .blank := hrule
        refine ⟨ofBlanks (w ++ lexeme) (hw.append hshape) :: qs, ?_, hcut, ?_⟩
        · simp [ofBlanks]
        · intro file offset
          simp [tokensOf, tokens, ofBlanks, Rule.content?, Nat.add_assoc]
      · refine ⟨ofBlanks w hw :: q :: qs, rfl, ⟨?_, hcut⟩, fun file offset => rfl⟩
        rw [textOf_cons, List.append_assoc]
        exact endsRun_isBlank hrule _

/-- The pieces of two sources are joined by a line break. -/
theorem exists_join (hps : CutBefore ps []) (hqs : CutBefore qs rest)
    (hrest : EndsRun isBlank rest) :
    ∃ ms, textOf ms = textOf ps ++ '\n' :: textOf qs ∧ CutBefore ms rest ∧
      ∀ file offset, tokensOf file offset ms =
        tokensOf file offset ps ++
          tokensOf file (offset + byteLength (textOf ps ++ ['\n'])) qs := by
  have hnewline : IsBlanks ['\n'] := isBlanks_singleton (by decide)
  induction ps with
  | nil => exact exists_join_blanks hnewline hqs hrest
  | cons p ps ih =>
      by_cases hlast : p.rule = .blank ∧ ps = []
      · -- The blanks at the end of the first source take the line break in.
        obtain ⟨rule, lexeme, hshape, hclosed⟩ := p
        obtain ⟨rfl, rfl⟩ := hlast
        have hblanks : IsBlanks lexeme := hshape
        obtain ⟨ms, htext, hcut, htokens⟩ :=
          exists_join_blanks (hblanks.append hnewline) hqs hrest
        refine ⟨ms, by simp [htext], hcut, ?_⟩
        intro file offset
        simp [htokens, tokensOf, tokens, Rule.content?]
      · obtain ⟨ms, htext, hcut, htokens⟩ := ih hps.2
        refine ⟨p :: ms, by simp [htext], ⟨?_, hcut⟩, ?_⟩
        · have hend := hps.1
          rw [htext, List.append_assoc, List.cons_append]
          rw [List.append_nil] at hend
          cases ps with
          | nil =>
              exact Rule.endsBefore_of_isBlank p.shapes.mem_all p.closed
                (fun hrule => hlast ⟨hrule, rfl⟩) (by decide) (fun _ => rfl) _
          | cons p' ps =>
              apply hend.append p.closed
              · simp [p'.shapes.ne_nil]
              · exact endsRun_cons.2 (by decide)
        · intro file offset
          simp [htokens, tokensOf, Nat.add_assoc]

end Piece

/-! ## Joining sources -/

variable {a b file : String} {ts : List Token} {eof : Token}

/-- The end of the longer source is the end of its second part, further on. -/
theorem moved_endOf (h : a.utf8ByteSize + 1 + b.utf8ByteSize < UInt32.size) :
    (endOf b file).Moved (a.utf8ByteSize + 1) (endOf (a ++ "\n" ++ b) file) := by
  have hsize : (a ++ "\n" ++ b).utf8ByteSize = a.utf8ByteSize + 1 + b.utf8ByteSize := by
    rw [String.utf8ByteSize_append, String.utf8ByteSize_append]
    rfl
  have hmoved := Position.moved_ofByte file h
  rw [← hsize] at hmoved
  exact ⟨rfl, rfl, hmoved, hmoved⟩

private theorem endsRun_isBlank_of_faultAt {rest : List Char} {fault : Fault}
    (h : FaultAt rest fault) : EndsRun isBlank rest := by
  cases h with
  | unrecognised h => exact endsRun_cons.2 (h .blank (by decide))
  | unterminated => exact endsRun_cons.2 (by decide)

/-- A source that goes on behind a line break.  Its tokens are those of the part
before the line break and those of the part behind it, as far on as they stand
there; and if the part behind it has a fault, it has the same one. -/
theorem tokenize_append_newline
    (hsize : a.utf8ByteSize + 1 + b.utf8ByteSize < UInt32.size)
    (ha : tokenize a file = .ok (ts ++ [eof])) :
    (∀ us, tokenize b file = .ok us →
        ∃ vs, tokenize (a ++ "\n" ++ b) file = .ok (ts ++ vs) ∧
          List.Forall₂ (Token.Moved (a.utf8ByteSize + 1)) us vs) ∧
      ∀ d, tokenize b file = .error d →
        ∃ d', tokenize (a ++ "\n" ++ b) file = .error d' ∧ d'.fault = d.fault ∧
          d.position.Moved (a.utf8ByteSize + 1) d'.position := by
  obtain ⟨ps, hps, hcutps, hts⟩ := tokenize_eq_ok_iff.1 ha
  obtain ⟨rfl, -⟩ := List.append_inj' hts rfl
  have hlength : byteLength (textOf ps ++ ['\n']) = a.utf8ByteSize + 1 := by
    rw [byteLength_append, ← hps, byteLength_toList]
    rfl
  constructor
  · intro us hb
    obtain ⟨qs, hqs, hcutqs, rfl⟩ := tokenize_eq_ok_iff.1 hb
    obtain ⟨ms, hms, hcutms, htokens⟩ := exists_join hcutps hcutqs (endsRun_nil _)
    have hsource : (a ++ "\n" ++ b).toList = textOf ms := by
      simp [hms, hps, hqs]
    have hsizeb := byteLength_toList b
    rw [hqs] at hsizeb
    refine ⟨tokensOf file (a.utf8ByteSize + 1) qs ++ [endOf (a ++ "\n" ++ b) file],
      ?_, ?_⟩
    · rw [tokenize_of_pieces hsource hcutms, htokens, hlength, Nat.zero_add,
        List.append_assoc]
    · apply List.rel_append
      · exact moved_tokensOf (by omega)
      · exact .cons (moved_endOf hsize) .nil
  · intro d hb
    obtain ⟨qs, rest, fault, hqs, hcutqs, hfault, rfl⟩ := tokenize_eq_error_iff.1 hb
    obtain ⟨ms, hms, hcutms, -⟩ :=
      exists_join hcutps hcutqs (endsRun_isBlank_of_faultAt hfault)
    have hsource : (a ++ "\n" ++ b).toList = textOf ms ++ rest := by
      simp [hms, hps, hqs]
    have hsizeb : byteLength (textOf qs) + byteLength rest = b.utf8ByteSize := by
      rw [← byteLength_append, ← hqs, byteLength_toList]
    have hbyte : byteLength (textOf ms) =
        a.utf8ByteSize + 1 + byteLength (textOf qs) := by
      rw [hms, List.append_cons, byteLength_append, hlength]
    refine ⟨_, tokenize_of_fault hsource hcutms hfault, rfl, ?_⟩
    rw [hbyte]
    exact Position.moved_ofByte file (by omega)

/-- The case of a comment that the line break ends, with a number behind it, and with a
character behind it that starts no token. -/
theorem tokenize_append_newline_comment :
    ∃ ts eof us vs d', "a//é".utf8ByteSize + 1 + "1".utf8ByteSize < UInt32.size ∧
      "a//é".utf8ByteSize + 1 + "#".utf8ByteSize < UInt32.size ∧
      tokenize "a//é" "shell" = .ok (ts ++ [eof]) ∧
      tokenize "1" "shell" = .ok us ∧
      tokenize ("a//é" ++ "\n" ++ "1") "shell" = .ok (ts ++ vs) ∧
      List.Forall₂ (Token.Moved 6) us vs ∧
      tokenize "#" "shell" = .error ⟨.unrecognisedToken "#", .ofByte "shell" 0⟩ ∧
      tokenize ("a//é" ++ "\n" ++ "#") "shell" = .error d' ∧
      d'.fault = .unrecognisedToken "#" ∧ d'.position.file = "shell" ∧
      d'.position.offset.toNat = 6 := by
  have hps : CutBefore
      [⟨.word, ['a'], (by decide : IsWord ['a']), by decide⟩,
        ⟨.comment, "//é".toList, ⟨['é'], rfl, by simp⟩, by decide⟩] [] :=
    ⟨endsRun_cons.2 (by decide), endsRun_nil _, trivial⟩
  have ha : tokenize "a//é" "shell" =
      .ok ([⟨.identifier, "a", ⟨.ofByte "shell" 0, .ofByte "shell" 1⟩⟩] ++
        [endOf "a//é" "shell"]) :=
    tokenize_of_pieces rfl hps
  have hqs : CutBefore
      [⟨.number, ['1'], .whole ⟨by decide, by simp⟩, by decide⟩] [] :=
    ⟨Rule.endsBefore_nil (by decide) _, trivial⟩
  have hb : tokenize "1" "shell" =
      .ok [⟨.number, "1", ⟨.ofByte "shell" 0, .ofByte "shell" 1⟩⟩, endOf "1" "shell"] :=
    tokenize_of_pieces rfl hqs
  have hcut : CutBefore [] ['#'] := trivial
  have hfault : tokenize "#" "shell" =
      .error ⟨.unrecognisedToken "#", .ofByte "shell" 0⟩ :=
    tokenize_of_fault rfl hcut (.unrecognised (by decide))
  obtain ⟨vs, hvs, hmoved⟩ := (tokenize_append_newline (b := "1") (by decide) ha).1 _ hb
  obtain ⟨d', hd', hkind, hfile, hoffset⟩ :=
    (tokenize_append_newline (b := "#") (by decide) ha).2 _ hfault
  exact ⟨_, _, _, vs, d', by decide, by decide, ha, hb, hvs, hmoved, hfault, hd', hkind,
    hfile, hoffset⟩

end ExprLang
