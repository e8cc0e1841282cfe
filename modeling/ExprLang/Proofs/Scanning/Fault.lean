import ExprLang.Proofs.Scanning.Boundary

/-!
# Faults of a source

A source has a fault at the first place where no piece can be taken.  What
stands before it has tokens by itself, so the fault is not the fault of anything
earlier; and a character that starts no lexeme is a fault whatever follows it.

Main results:

- Theorem `tokenize_error_exact`: where the fault of a source is, and what it
  says about the text there.
-/

namespace ExprLang

open Lexeme Text Piece

variable {source file : String} {ps : List Piece} {rest : List Char} {fault : Fault}
  {d : Diagnostic} {c : Char}

/-- Pieces by themselves are a source that has tokens. -/
theorem exists_tokenize_of_cutBefore (h : CutBefore ps rest) (file : String) :
    ∃ ts, tokenize (String.ofList (textOf ps)) file = .ok ts :=
  ⟨_, tokenize_of_pieces String.toList_ofList h.truncate⟩

/-- A point starts a lexeme, so pieces in front of any other character do not
depend on what follows it. -/
theorem ne_point_of_starts (h : ∀ rule ∈ Rule.all, rule.starts c = false) : c ≠ '.' := by
  rintro rfl
  have hdot := h (.fixed .dot ".") (by decide)
  contradiction

/-- A character that starts no lexeme is a fault in every source in which the
same text stands before it. -/
theorem tokenize_of_unrecognised (hcut : CutBefore ps (c :: rest))
    (hstarts : ∀ rule ∈ Rule.all, rule.starts c = false)
    (h : textOf ps ++ [c] <+: source.toList) :
    tokenize source file =
      .error ⟨.unrecognisedToken (String.singleton c),
        .ofByte file (byteLength (textOf ps))⟩ := by
  obtain ⟨tail, htail⟩ := h
  rw [List.append_assoc] at htail
  exact tokenize_of_fault htail.symm (hcut.replace (ne_point_of_starts hstarts) tail)
    (.unrecognised hstarts)

/-- The fault of a source stands in front of a character.  What precedes it is a
source without fault.  Either no lexeme starts with the character, and every
source that starts in the same way has the same fault; or the character is a
quote, and no other quote is met by reading on item by item. -/
theorem tokenize_error_exact (hsize : source.utf8ByteSize < UInt32.size)
    (h : tokenize source file = .error d) :
    ∃ front c back, source.toList = front ++ c :: back ∧
      d.position.file = file ∧ d.position.offset.toNat = byteLength front ∧
      d.position.offset.toNat < source.utf8ByteSize ∧
      (∃ ts, tokenize (String.ofList front) file = .ok ts) ∧
      (d.fault = .unrecognisedToken (String.singleton c) ∧
          (∀ rule ∈ Rule.all, ∀ cs, rule.lexeme? (c :: cs) = none) ∧
          (∀ other : String, front ++ [c] <+: other.toList →
            tokenize other file = .error d) ∨
        d.fault = .unterminatedString ∧ c = '"' ∧
          ∃ items stop, back = bodyOf items ++ stop ∧ BreaksOff stop) := by
  obtain ⟨ps, rest, fault, hsource, hcut, hfault, rfl⟩ := tokenize_eq_error_iff.1 h
  have hbyte : byteLength (textOf ps) + byteLength rest = source.utf8ByteSize := by
    rw [← byteLength_append, ← hsource, byteLength_toList]
  have hpos : 0 < byteLength rest := byteLength_pos (by rintro rfl; cases hfault)
  have hoffset : (Position.ofByte file (byteLength (textOf ps))).offset.toNat =
      byteLength (textOf ps) :=
    Position.toNat_offset_ofByte (by omega)
  have hlt : (Position.ofByte file (byteLength (textOf ps))).offset.toNat <
      source.utf8ByteSize := by omega
  cases hfault with
  | @unrecognised c back hstarts =>
      refine ⟨textOf ps, c, back, hsource, rfl, hoffset, hlt,
        exists_tokenize_of_cutBefore hcut file, .inl ⟨rfl, ?_, ?_⟩⟩
      · intro rule hrule cs
        exact Rule.lexeme?_cons_eq_none hrule (hstarts rule hrule) cs
      · intro other hother
        exact tokenize_of_unrecognised hcut hstarts hother
  | @unterminated back hunclosed =>
      exact ⟨textOf ps, '"', back, hsource, rfl, hoffset, hlt,
        exists_tokenize_of_cutBefore hcut file, .inr ⟨rfl, rfl, hunclosed⟩⟩

/-- The cases of a character without meaning behind a number and a
point, and of a literal with a backslash before a line break. -/
theorem tokenize_error_exact_at_hash_and_quote :
    ∃ d d' : Diagnostic, tokenize "1.#" "shell" = .error d ∧
      d.fault = .unrecognisedToken "#" ∧
      tokenize "a \"b\\\n\"" "shell" = .error d' ∧ d'.fault = .unterminatedString ∧
      (∃ front, d.position.offset.toNat = byteLength front ∧
        ∀ other : String, front ++ ['#'] <+: other.toList →
          tokenize other "shell" = .error d) ∧
      ∃ front items stop, "a \"b\\\n\"".toList = front ++ '"' :: (bodyOf items ++ stop) ∧
        d'.position.offset.toNat = byteLength front ∧ BreaksOff stop := by
  have hcut : CutBefore
      [⟨.number, ['1'], .whole ⟨by decide, by simp⟩, by decide⟩,
        ⟨.fixed .dot ".", ['.'], ⟨by decide, rfl⟩, by decide⟩] ['#'] := by
    refine ⟨⟨endsRun_cons.2 (by decide), .inr ?_⟩,
      by simp [Rule.EndsBefore, Rule.longer?], trivial⟩
    rintro ⟨c, rest, h, hc⟩
    cases h
    contradiction
  have hhash : tokenize "1.#" "shell" =
      .error ⟨.unrecognisedToken "#", .ofByte "shell" 2⟩ :=
    tokenize_of_fault rfl hcut (.unrecognised (by decide))
  have hcut' : CutBefore
      [⟨.word, ['a'], (by decide : IsWord ['a']), by decide⟩,
        ⟨.blank, [' '], isBlanks_singleton (by decide), by decide⟩]
      "\"b\\\n\"".toList :=
    ⟨endsRun_cons.2 (by decide), endsRun_cons.2 (by decide), trivial⟩
  have hquote : tokenize "a \"b\\\n\"" "shell" =
      .error ⟨.unterminatedString, .ofByte "shell" 2⟩ :=
    tokenize_of_fault rfl hcut'
      (.unterminated ⟨[.plain 'b' (by decide)], _, rfl, .lineBreak ['"']⟩)
  obtain ⟨front, c, back, -, -, hoffset, -, -, hexact⟩ :=
    tokenize_error_exact (by decide) hhash
  obtain ⟨front', c', back', hsource', -, hoffset', -, -, hexact'⟩ :=
    tokenize_error_exact (by decide) hquote
  refine ⟨_, _, hhash, rfl, hquote, rfl, ?_, ?_⟩
  · rcases hexact with ⟨hfault, -, hothers⟩ | ⟨hfault, -⟩
    · have hc : [c] = ['#'] := by
        simpa using congrArg String.toList (Fault.unrecognisedToken.inj hfault).symm
      obtain rfl := List.singleton_inj.1 hc
      exact ⟨front, hoffset, hothers⟩
    · cases hfault
  · rcases hexact' with ⟨hfault, -⟩ | ⟨-, rfl, items, stop, rfl, hstop⟩
    · cases hfault
    · exact ⟨front', items, stop, hsource', hoffset', hstop⟩

end ExprLang
