import ExprLang.Proofs.Scanning.Piece

/-!
# The longest lexeme

Of two rules that fit the same text the earlier one finds the longer lexeme.  So the
order of the table only spares comparing lengths: a scanner that takes the longest
lexeme that any rule finds, and knows no order of the rules, finds the same tokens and
stops at the same faults.

Main results:

- Theorem `Rule.length_lt_of_mem_earlier`: of two rules that fit, the earlier one finds
  the longer lexeme.
- Theorem `Rule.findsLongest_iff`: the longest lexeme is the one that is taken.
- Theorem `Scanner.munches_iff`: taking the longest lexeme is what a scanner does.
-/

namespace ExprLang

open Lexeme

namespace Rule

variable {rule r : Rule} {cs lexeme longer : List Char}

/-- Of two rules that fit, the earlier one finds the longer lexeme. -/
theorem length_lt_of_mem_earlier (hrule : rule ∈ all) (hr : r ∈ rule.earlier)
    (h : rule.lexeme? cs = some lexeme) (hlonger : r.lexeme? cs = some longer) :
    lexeme.length < longer.length := by
  have hmem := mem_all_of_mem_earlier hr
  have hshape := shapes_of_lexeme? hrule h
  have hshape' := shapes_of_lexeme? hmem hlonger
  -- Both lexemes start with the first character of the text.
  obtain ⟨c, run, rfl⟩ := List.exists_cons_of_ne_nil hshape.ne_nil
  obtain ⟨c', run', rfl⟩ := List.exists_cons_of_ne_nil hshape'.ne_nil
  obtain ⟨-, tail, rfl⟩ := lexeme?_front hrule h
  obtain ⟨-, tail', htail⟩ := lexeme?_front hmem hlonger
  obtain rfl : c' = c := (List.cons.inj htail).1
  have hc := starts_of_shapes hshape
  have hstarts := starts_of_shapes hshape'
  have hhead := head?_opening (opening_ne_nil_of_mem_earlier hr hc hstarts) hc
  by_cases hquote : rule = openQuote
  · subst hquote
    obtain ⟨rfl, rfl⟩ := List.cons.inj hshape
    obtain rfl := eq_stringLiteral_of_mem_earlier hr hstarts
    obtain ⟨items, hitems⟩ := hshape'
    simp [hitems, literalOf]
  · obtain ⟨d, hd, hopening⟩ := opening_of_mem_earlier rule hrule hquote c' hhead r hr hstarts
    have hprefix := opening_front hshape'
    cases rule with
    | fixed kind text =>
        -- The lexeme is the opening of its rule.
        obtain ⟨-, htext⟩ := hshape
        have hle := hprefix.length_le
        rw [hopening, List.length_append, opening, ← htext] at hle
        exact hle
    | _ => cases hd

/-- Of two rules one is tried before the other. -/
theorem mem_earlier_or_mem_earlier (hrule : rule ∈ all) (hne : r ≠ rule) :
    r ∈ rule.earlier ∨ rule ∈ r.earlier := by
  by_cases hr : r ∈ rule.earlier
  · exact .inl hr
  · obtain ⟨later, hall⟩ := exists_all_eq hrule
    have hbefore : ∀ x ∈ rule.earlier, decide (x ≠ r) = true := by
      intro x hx
      simpa using fun heq : x = r => hr (heq ▸ hx)
    have hstart : r.earlier =
        rule.earlier ++ rule :: later.takeWhile fun x => decide (x ≠ r) := by
      rw [earlier, hall, List.takeWhile_append_of_pos hbefore,
        List.takeWhile_cons_of_pos (by simpa using hne.symm)]
    rw [hstart]
    exact .inr (List.mem_append_right _ List.mem_cons_self)

/-- The first rule that fits finds a longer lexeme than any other one. -/
theorem length_lt_of_first? (h : first? cs = some (rule, longer)) (hr : r ∈ all)
    (hne : r ≠ rule) (hlexeme : r.lexeme? cs = some lexeme) :
    lexeme.length < longer.length := by
  obtain ⟨hrule, hlonger, hearlier⟩ := first?_eq_some_iff_earlier.1 h
  rcases mem_earlier_or_mem_earlier hrule hne with hbefore | hbehind
  · rw [hearlier r hbefore] at hlexeme
    cases hlexeme
  · exact length_lt_of_mem_earlier hr hbehind hlexeme hlonger

/-- A rule finds a lexeme at the front of a text, and no rule finds a longer one. -/
structure FindsLongest (rule : Rule) (lexeme cs : List Char) : Prop where
  mem : rule ∈ all
  finds : rule.lexeme? cs = some lexeme
  longest : ∀ r ∈ all, ∀ other, r.lexeme? cs = some other → other.length ≤ lexeme.length

/-- The longest lexeme is the one that is taken. -/
theorem findsLongest_iff :
    rule.FindsLongest lexeme cs ↔ first? cs = some (rule, lexeme) := by
  constructor
  · intro h
    cases hfirst : first? cs with
    | none =>
        have hnone := first?_eq_none_iff.1 hfirst rule h.mem
        rw [h.finds] at hnone
        cases hnone
    | some found =>
        obtain ⟨r, longer⟩ := found
        obtain ⟨hr, hlonger⟩ := of_first? hfirst
        by_cases hne : rule = r
        · subst hne
          rw [h.finds] at hlonger
          cases hlonger
          rfl
        · have hlt := length_lt_of_first? hfirst h.mem hne h.finds
          have hle := h.longest r hr longer hlonger
          omega
  · intro h
    obtain ⟨hmem, hlexeme⟩ := of_first? h
    refine ⟨hmem, hlexeme, ?_⟩
    intro r hr other hother
    by_cases hne : r = rule
    · subst hne
      rw [hlexeme] at hother
      cases hother
      exact Nat.le_refl _
    · exact Nat.le_of_lt (length_lt_of_first? h hr hne hother)

end Rule

/-! ## Taking the longest lexeme -/

namespace Scanner

/-- How a scanner ends that takes a longest lexeme in every step.  The order of the
rules does not matter to it. -/
inductive Munches : Scanner → List Char → Except Diagnostic Scanner → Prop where
  | atEnd (s : Scanner) : Munches s [] (.ok s)
  | take {s next : Scanner} {rule : Rule} {lexeme rest : List Char}
      {result : Except Diagnostic Scanner}
      (hlongest : rule.FindsLongest lexeme (lexeme ++ rest))
      (happly : rule.apply lexeme s = .ok next) (hrest : Munches next rest result) :
      Munches s (lexeme ++ rest) result
  | refused {s : Scanner} {rule : Rule} {lexeme cs : List Char} {d : Diagnostic}
      (hlongest : rule.FindsLongest lexeme cs) (happly : rule.apply lexeme s = .error d) :
      Munches s cs (.error d)
  | unrecognised {s : Scanner} {c : Char} {cs : List Char}
      (hnone : ∀ rule ∈ Rule.all, rule.lexeme? (c :: cs) = none) :
      Munches s (c :: cs) (.error ⟨.unrecognisedToken (String.singleton c), s.position⟩)

variable {s : Scanner} {cs : List Char} {result : Except Diagnostic Scanner}

/-- What munching by the longest match finds is what the scanner finds. -/
theorem Munches.run_eq (h : Munches s cs result) : s.run cs = result := by
  induction h with
  | atEnd s => exact run_nil
  | @take s next rule lexeme rest result hlongest happly _ ih =>
      have hfirst := Rule.findsLongest_iff.1 hlongest
      have hne : lexeme ++ rest ≠ [] :=
        List.append_ne_nil_of_left_ne_nil (Rule.lexeme?_front hlongest.mem hlongest.finds).1 _
      have hstep : s.step (lexeme ++ rest) = .ok (next, rest) := by
        simp only [step, hfirst, happly, Except.map, List.drop_left]
      rw [run_of_step hne hstep, ih]
  | @refused s rule lexeme cs d hlongest happly =>
      have hfirst := Rule.findsLongest_iff.1 hlongest
      have hne : cs ≠ [] := by
        rintro rfl
        obtain ⟨hnil, hprefix⟩ := Rule.lexeme?_front hlongest.mem hlongest.finds
        exact hnil (List.prefix_nil.1 hprefix)
      have hstep : s.step cs = .error d := by
        simp only [step, hfirst, happly, Except.map]
      exact run_of_step_error hne hstep
  | @unrecognised s c cs hnone =>
      have hfirst := Rule.first?_eq_none_iff.2 hnone
      have hstep : s.step (c :: cs) =
          .error ⟨.unrecognisedToken (String.singleton c), s.position⟩ := by
        simp only [step, hfirst]
        rfl
      exact run_of_step_error (List.cons_ne_nil c cs) hstep

/-- What the scanner finds is found by munching the longest match. -/
theorem munches_run (s : Scanner) (cs : List Char) : Munches s cs (s.run cs) := by
  induction hlength : cs.length using Nat.strongRecOn generalizing s cs with
  | _ n ih =>
      cases hfirst : Rule.first? cs with
      | none =>
          cases cs with
          | nil =>
              rw [run_nil]
              exact .atEnd s
          | cons c cs =>
              have hmunches : Munches s (c :: cs) _ :=
                .unrecognised (Rule.first?_eq_none_iff.1 hfirst)
              rwa [hmunches.run_eq]
      | some found =>
          obtain ⟨rule, lexeme⟩ := found
          have hlongest := Rule.findsLongest_iff.2 hfirst
          obtain ⟨hne, rest, rfl⟩ := Rule.lexeme?_front hlongest.mem hlongest.finds
          cases happly : rule.apply lexeme s with
          | error d =>
              have hmunches : Munches s (lexeme ++ rest) _ := .refused hlongest happly
              rwa [hmunches.run_eq]
          | ok next =>
              have hlt : rest.length < n := by
                have := List.length_pos_iff.2 hne
                simp only [List.length_append] at hlength
                omega
              have hmunches := Munches.take hlongest happly (ih _ hlt next rest rfl)
              rwa [hmunches.run_eq]

/-- Taking the longest lexeme in every step is what a scanner does. -/
theorem munches_iff : Munches s cs result ↔ s.run cs = result := by
  constructor
  · exact Munches.run_eq
  · rintro rfl
    exact munches_run s cs

end Scanner

/-- How a source is tokenized by taking the longest lexeme in every step. -/
inductive TokenizesByLongest (source file : String) :
    Except Diagnostic (List Token) → Prop where
  | scanned {result : Except Diagnostic Scanner}
      (h : (Scanner.ofSource source file).Munches source.toList result) :
      TokenizesByLongest source file (result.map fun s => s.finish.tokens.toList)

/-- Where any rule of the table fits, the first one that does finds a lexeme that is not
empty and longer than the lexeme of any other rule.  So tokenizing a source by the order
of the table is tokenizing it by the longest lexeme. -/
theorem first_is_longest :
    (∀ cs : List Char, (∃ r ∈ Rule.all, ∃ other, r.lexeme? cs = some other) →
      ∃ rule lexeme, Rule.first? cs = some (rule, lexeme) ∧ rule ∈ Rule.all ∧
        rule.lexeme? cs = some lexeme ∧ lexeme ≠ [] ∧
        ∀ r ∈ Rule.all, r ≠ rule → ∀ other, r.lexeme? cs = some other →
          other.length < lexeme.length) ∧
      Rule.all.Nodup ∧
      ∀ (source file : String) (result : Except Diagnostic (List Token)),
        TokenizesByLongest source file result ↔ tokenize source file = result := by
  refine ⟨?_, by decide, ?_⟩
  · rintro cs ⟨r, hr, other, hother⟩
    cases hfirst : Rule.first? cs with
    | none =>
        rw [Rule.first?_eq_none_iff.1 hfirst r hr] at hother
        cases hother
    | some found =>
        obtain ⟨rule, lexeme⟩ := found
        obtain ⟨hmem, hlexeme⟩ := Rule.of_first? hfirst
        exact ⟨rule, lexeme, rfl, hmem, hlexeme, (Rule.lexeme?_front hmem hlexeme).1,
          fun r hr hne other => Rule.length_lt_of_first? hfirst hr hne⟩
  · intro source file result
    constructor
    · rintro ⟨h⟩
      exact congrArg (Except.map _) (Scanner.munches_iff.1 h)
    · rintro rfl
      exact .scanned (Scanner.munches_run _ _)

/-- The case of an empty literal, which is longer than the quote that it starts with. -/
theorem first_is_longest_quotes :
    ∃ lexeme, Rule.first? "\"\"=".toList = some (.stringLiteral, lexeme) ∧
      Rule.openQuote.lexeme? "\"\"=".toList = some ['"'] ∧ ['"'].length < lexeme.length := by
  rcases first_is_longest.1 "\"\"=".toList ⟨.openQuote, by decide, ['"'], rfl⟩ with
    ⟨rule, lexeme, hfirst, -, -, -, hlonger⟩
  have hliteral : Rule.first? "\"\"=".toList = some (.stringLiteral, ['"', '"']) := rfl
  obtain rfl : rule = .stringLiteral :=
    congrArg Prod.fst (Option.some.inj (hfirst.symm.trans hliteral))
  exact ⟨lexeme, hfirst, rfl, hlonger .openQuote (by decide) (by decide) _ rfl⟩

end ExprLang
