import ExprLang.Proofs.Scanning.Piece

/-!
# What may stand behind a lexeme

Where a lexeme ends is decided by at most two characters behind it.  So pieces
stay pieces when the text behind them is cut off, when it is changed far enough
away, and when a blank is put between them.  Only a quote that opens no literal
looks at the whole text behind it, and that is never a piece.

Main results:

- Theorem `Rule.EndsBefore.congr`: the first character behind a lexeme and the
  fraction that may stand there decide whether it ends.
- Theorems `Piece.CutBefore.truncate` and `Piece.CutBefore.replace`: pieces stay
  pieces when the text behind them changes.
-/

namespace ExprLang

open Lexeme Text

namespace Rule

variable {rule : Rule} {lexeme xs ys cs : List Char} {c : Char}

/-! ## Two characters decide -/

/-- A lexeme that ends before a text ends before another one, if that offers it
nothing new to go on with. -/
theorem EndsBefore.congr (hclosed : rule ≠ .openQuote) (h : rule.EndsBefore lexeme xs)
    (hhead : ∀ c ∈ ys.head?, c ∈ xs.head?)
    (hfraction : StartsFraction ys → StartsFraction xs) :
    rule.EndsBefore lexeme ys := by
  cases rule with
  | openQuote => exact absurd rfl hclosed
  | stringLiteral => trivial
  | number =>
      exact ⟨fun c hc => h.1 c (hhead c hc),
        h.2.imp_right fun hxs hys => hxs (hfraction hys)⟩
  | _ => exact fun c hc => h c (hhead c hc)

private theorem not_startsFraction_nil : ¬ StartsFraction [] := by
  rintro ⟨c, rest, h, -⟩
  cases h

/-- At the end of a text every lexeme ends. -/
theorem endsBefore_nil (hclosed : rule ≠ .openQuote) (lexeme : List Char) :
    rule.EndsBefore lexeme [] := by
  cases rule with
  | openQuote => exact absurd rfl hclosed
  | stringLiteral => trivial
  | number => exact ⟨endsRun_nil _, .inr not_startsFraction_nil⟩
  | fixed kind text => simp [EndsBefore]
  | _ => exact endsRun_nil _

/-- A lexeme still ends where the text behind it is cut off. -/
theorem EndsBefore.of_append (hclosed : rule ≠ .openQuote)
    (h : rule.EndsBefore lexeme (xs ++ ys)) : rule.EndsBefore lexeme xs := by
  apply h.congr hclosed
  · intro c hc
    rw [List.head?_append, Option.mem_def.1 hc]
    rfl
  · rintro ⟨c, rest, rfl, hc⟩
    exact ⟨c, rest ++ ys, rfl, hc⟩

/-- A lexeme with something behind it still ends where more follows, unless that
makes a fraction out of a point. -/
theorem EndsBefore.append (hclosed : rule ≠ .openQuote) (h : rule.EndsBefore lexeme xs)
    (hne : xs ≠ []) (hdigit : EndsRun Char.isDigit ys) :
    rule.EndsBefore lexeme (xs ++ ys) := by
  obtain ⟨c, rest, rfl⟩ := List.exists_cons_of_ne_nil hne
  apply h.congr hclosed
  · simp
  · rintro ⟨d, tail, heq, hd⟩
    obtain ⟨rfl, htail⟩ := List.cons.inj heq
    cases rest with
    | nil =>
        subst htail
        rw [endsRun_cons.1 hdigit] at hd
        contradiction
    | cons e rest =>
        obtain rfl := (List.cons.inj htail).1
        exact ⟨e, rest, rfl, hd⟩

/-- What stands behind a character other than a point makes no difference to the
lexemes in front of it. -/
theorem EndsBefore.replace (hclosed : rule ≠ .openQuote)
    (h : rule.EndsBefore lexeme (xs ++ c :: cs)) (hc : c ≠ '.') (cs' : List Char) :
    rule.EndsBefore lexeme (xs ++ c :: cs') := by
  apply h.congr hclosed
  · cases xs <;> simp
  · rintro ⟨d, tail, heq, hd⟩
    match xs, heq with
    | [], heq => exact absurd (List.cons.inj heq).1 hc
    | [x], heq =>
        obtain ⟨rfl, hrest⟩ := List.cons.inj heq
        exact ⟨c, cs, rfl, (List.cons.inj hrest).1 ▸ hd⟩
    | x :: y :: xs, heq =>
        obtain ⟨rfl, hrest⟩ := List.cons.inj heq
        exact ⟨y, xs ++ c :: cs, rfl, (List.cons.inj hrest).1 ▸ hd⟩

/-! ## Blanks -/

/-- No rule but that for blanks has an opening that starts with one. -/
theorem isBlank_eq_false_of_opening :
    ∀ rule ∈ all, ∀ c ∈ rule.opening.head?, isBlank c = false := by
  have htable : ∀ rule ∈ all,
      rule.opening.head?.all (fun c => isBlank c = false) = true := by
    decide
  intro rule hrule c hc
  simpa using (Option.all_eq_true _ _).1 (htable rule hrule) c hc

/-- No rule but that for blanks has lexemes that start with one. -/
theorem isBlank_eq_false_of_starts (hmem : rule ∈ all) (hrule : rule ≠ .blank)
    (h : rule.starts c = true) : isBlank c = false := by
  cases hblank : isBlank c with
  | false => rfl
  | true =>
      cases rule with
      | word => exact absurd h (by simp [starts, (starts_eq_false_of_isBlank hblank).1])
      | number => exact absurd h (by simp [starts, (starts_eq_false_of_isBlank hblank).2])
      | blank => exact absurd rfl hrule
      | _ =>
          have := isBlank_eq_false_of_opening _ hmem c (beq_iff_eq.1 h)
          rw [hblank] at this
          contradiction

/-- No operator goes on with a blank. -/
theorem isBlank_eq_false_of_longer? :
    ∀ rule ∈ all, ∀ c ∈ rule.longer?, isBlank c = false := by
  have htable : ∀ rule ∈ all, rule.longer?.all (fun c => isBlank c = false) = true := by
    decide
  intro rule hrule c hc
  simpa using (Option.all_eq_true _ _).1 (htable rule hrule) c hc

/-- A blank ends every lexeme but blanks, and a line break ends comments too. -/
theorem endsBefore_of_isBlank (hmem : rule ∈ all) (hclosed : rule ≠ .openQuote)
    (hrule : rule ≠ .blank) (hc : isBlank c = true)
    (hcomment : rule = .comment → c = '\n') (cs : List Char) :
    rule.EndsBefore lexeme (c :: cs) := by
  have hword := isWordChar_eq_false_of_isBlank hc
  cases rule with
  | openQuote => exact absurd rfl hclosed
  | blank => exact absurd rfl hrule
  | word => exact endsRun_cons.2 hword
  | stringLiteral => trivial
  | comment => simp [EndsBefore, hcomment rfl]
  | number =>
      refine ⟨endsRun_cons.2 (starts_eq_false_of_isBlank hc).2, .inr ?_⟩
      rintro ⟨d, rest, heq, -⟩
      obtain rfl := (List.cons.inj heq).1
      contradiction
  | fixed kind text =>
      intro d hd hlonger
      obtain rfl := Option.some.inj hd
      rw [isBlank_eq_false_of_longer? _ hmem _ hlonger] at hc
      contradiction

end Rule

namespace Piece

variable {p : Piece} {ps : List Piece} {rest : List Char} {c : Char}

/-- No piece but blanks starts with a blank. -/
theorem endsRun_isBlank (h : p.rule ≠ .blank) (rest : List Char) :
    EndsRun isBlank (p.lexeme ++ rest) := by
  obtain ⟨rule, lexeme, hshape, hclosed⟩ := p
  obtain ⟨c, run, rfl⟩ := List.exists_cons_of_ne_nil hshape.ne_nil
  exact endsRun_cons.2
    (Rule.isBlank_eq_false_of_starts hshape.mem_all h (Rule.starts_of_shapes hshape))

/-- Pieces stay pieces at the end of a text. -/
theorem CutBefore.truncate (h : CutBefore ps rest) : CutBefore ps [] := by
  induction ps with
  | nil => trivial
  | cons p ps ih =>
      refine ⟨?_, ih h.2⟩
      rw [List.append_nil]
      exact Rule.EndsBefore.of_append p.closed h.1

/-- Pieces stay pieces if the text changes behind a character other than a
point. -/
theorem CutBefore.replace (h : CutBefore ps (c :: rest)) (hc : c ≠ '.')
    (rest' : List Char) : CutBefore ps (c :: rest') := by
  induction ps with
  | nil => trivial
  | cons p ps ih => exact ⟨Rule.EndsBefore.replace p.closed h.1 hc rest', ih h.2⟩

end Piece

end ExprLang
