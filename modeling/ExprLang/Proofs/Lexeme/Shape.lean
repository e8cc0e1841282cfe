import ExprLang.Lexeme.Pattern

/-!
# Shapes of lexemes

What words, numbers, blanks and comments look like, told by their characters,
and what may stand behind one that is as long as it can be.  A number is the
only lexeme whose end depends on two characters behind it: a point goes on with
it only if a digit follows.

Main results:

- Theorems `word?_eq_some_iff`, `number?_eq_some_iff`, `blank?_eq_some_iff` and
  `comment?_eq_some_iff`: a pattern finds exactly the lexeme of its shape that
  cannot go on.
-/

namespace ExprLang.Lexeme

variable {cs lexeme tail : List Char}

/-! ## Runs of characters -/

/-- A run of characters of a class ends before a text, because no character of
the class stands at the front of it. -/
def EndsRun (p : Char → Bool) (tail : List Char) : Prop :=
  ∀ c ∈ tail.head?, p c = false

@[simp]
theorem endsRun_nil (p : Char → Bool) : EndsRun p [] := by
  simp [EndsRun]

@[simp]
theorem endsRun_cons {p : Char → Bool} {c : Char} :
    EndsRun p (c :: cs) ↔ p c = false := by
  simp [EndsRun]

/-- The run at the front of a text is the part of the class before which nothing
of the class is left. -/
theorem takeWhile_eq_iff {p : Char → Bool} {run : List Char} :
    cs.takeWhile p = run ↔
      ∃ tail, cs = run ++ tail ∧ (∀ c ∈ run, p c = true) ∧ EndsRun p tail := by
  constructor
  · rintro rfl
    refine ⟨cs.dropWhile p, List.takeWhile_append_dropWhile.symm, ?_, ?_⟩
    · intro c hc
      exact List.all_eq_true.1 List.all_takeWhile c hc
    · intro c hc
      have hhead := List.head?_dropWhile_not p cs
      rw [Option.mem_def.1 hc] at hhead
      exact hhead
  · rintro ⟨tail, rfl, hrun, hend⟩
    rw [List.takeWhile_append_of_pos hrun]
    cases tail with
    | nil => simp
    | cons c tail => simp [endsRun_cons.1 hend]

/-- What is left behind the run at the front of a text. -/
theorem dropWhile_append_of_endsRun {p : Char → Bool} {run : List Char}
    (hrun : ∀ c ∈ run, p c = true) (hend : EndsRun p tail) :
    (run ++ tail).dropWhile p = tail := by
  rw [List.dropWhile_append_of_pos hrun]
  cases tail with
  | nil => rfl
  | cons c tail => simp [endsRun_cons.1 hend]

/-! ## Classes of characters -/

section Classes

variable {c : Char}

/-- A word goes on with what it can start with and with digits. -/
theorem isWordChar_iff :
    isWordChar c = true ↔ isWordStart c = true ∨ c.isDigit = true := by
  simp only [isWordChar, isWordStart, Char.isAlphanum, Bool.or_eq_true]
  exact or_right_comm

/-- Words start with a letter or an underscore. -/
theorem toNat_of_isWordStart (h : isWordStart c = true) :
    65 ≤ c.toNat ∧ c.toNat ≤ 90 ∨ c.toNat = 95 ∨ 97 ≤ c.toNat ∧ c.toNat ≤ 122 := by
  have halpha : c.isAlpha = (decide (65 ≤ c.val ∧ c.val ≤ 90) ||
      decide (97 ≤ c.val) && decide (c.val ≤ 122)) := rfl
  simp only [isWordStart, halpha, Bool.or_eq_true, Bool.and_eq_true, decide_eq_true_eq,
    beq_iff_eq, UInt32.le_iff_toNat_le] at h
  rcases h with (hupper | hlower) | rfl
  · exact .inl hupper
  · exact .inr (.inr hlower)
  · exact .inr (.inl rfl)

private theorem toNat_of_isDigit (h : c.isDigit = true) : 48 ≤ c.toNat ∧ c.toNat ≤ 57 := by
  simpa [Char.isDigit, UInt32.le_iff_toNat_le] using h

/-- A digit starts no word. -/
theorem isWordStart_eq_false_of_isDigit (h : c.isDigit = true) :
    isWordStart c = false := by
  have hdigit := toNat_of_isDigit h
  cases hword : isWordStart c with
  | false => rfl
  | true =>
      have := toNat_of_isWordStart hword
      omega

/-- A blank goes on with no word and no number. -/
theorem isWordChar_eq_false_of_isBlank (h : Text.isBlank c = true) :
    isWordChar c = false := by
  simp only [Text.isBlank, Text.inRanges, Text.blankRanges, List.any_cons, List.any_nil,
    Bool.or_false, Bool.or_eq_true, Bool.and_eq_true, decide_eq_true_eq] at h
  cases hword : isWordChar c with
  | false => rfl
  | true =>
      rcases isWordChar_iff.1 hword with hstart | hdigit
      · have := toNat_of_isWordStart hstart
        omega
      · have := toNat_of_isDigit hdigit
        omega

/-- A blank starts no word and no number. -/
theorem starts_eq_false_of_isBlank (h : Text.isBlank c = true) :
    isWordStart c = false ∧ c.isDigit = false := by
  have hword : ¬ (isWordStart c = true ∨ c.isDigit = true) := by
    rw [← isWordChar_iff, isWordChar_eq_false_of_isBlank h]
    exact Bool.false_ne_true
  simpa using hword

end Classes

/-! ## Words -/

/-- A letter or underscore, followed by letters, digits and underscores. -/
def IsWord : List Char → Prop
  | [] => False
  | c :: cs => isWordStart c = true ∧ ∀ d ∈ cs, isWordChar d = true

instance : DecidablePred IsWord
  | [] => inferInstanceAs (Decidable False)
  | c :: cs =>
      decidable_of_iff (isWordStart c = true ∧ cs.all isWordChar = true)
        (by simp [IsWord])

/-- What is found as a word is a word that does not go on behind it. -/
theorem word?_eq_some_iff :
    word? cs = some lexeme ↔
      ∃ tail, cs = lexeme ++ tail ∧ IsWord lexeme ∧ EndsRun isWordChar tail := by
  constructor
  · intro h
    unfold word? at h
    split at h
    · simp at h
    · rename_i c cs
      split at h
      · rename_i hc
        obtain rfl := Option.some.inj h
        obtain ⟨tail, htail, hrun, hend⟩ :=
          takeWhile_eq_iff.1 (Eq.refl (cs.takeWhile isWordChar))
        refine ⟨tail, ?_, ⟨hc, hrun⟩, hend⟩
        rw [List.cons_append, ← htail]
      · simp at h
  · rintro ⟨tail, rfl, hword, hend⟩
    cases lexeme with
    | nil => exact hword.elim
    | cons c run =>
        have hrun := takeWhile_eq_iff.2 ⟨tail, rfl, hword.2, hend⟩
        rw [List.cons_append, word?, if_pos hword.1, hrun]

/-! ## Numbers -/

/-- One or more decimal digits. -/
def IsDigits (cs : List Char) : Prop :=
  cs ≠ [] ∧ ∀ c ∈ cs, c.isDigit = true

/-- Digits, alone or with a point and more digits behind them. -/
inductive IsNumber : List Char → Prop where
  | whole {whole : List Char} (h : IsDigits whole) : IsNumber whole
  | fraction {whole fraction : List Char} (h : IsDigits whole)
      (hfraction : IsDigits fraction) : IsNumber (whole ++ '.' :: fraction)

/-- A text that starts with a digit is cut behind its digits. -/
theorem exists_digits {c : Char} (h : c.isDigit = true) (cs : List Char) :
    ∃ whole tail, c :: cs = whole ++ tail ∧ IsDigits whole ∧
      EndsRun Char.isDigit tail := by
  obtain ⟨tail, htail, hrun, hend⟩ :=
    takeWhile_eq_iff.1 (Eq.refl ((c :: cs).takeWhile Char.isDigit))
  refine ⟨_, tail, htail, ⟨?_, hrun⟩, hend⟩
  simp [h]

/-- A number is not empty. -/
theorem IsNumber.ne_nil (h : IsNumber cs) : cs ≠ [] := by
  cases h with
  | whole hwhole => exact hwhole.1
  | fraction => simp

/-- A number starts with a digit. -/
theorem isDigit_of_isNumber {c : Char} (h : IsNumber (c :: cs)) : c.isDigit = true := by
  generalize hnumber : c :: cs = number at h
  cases h with
  | whole hwhole =>
      subst hnumber
      exact hwhole.2 c (List.mem_cons_self ..)
  | @fraction whole fraction hwhole _ =>
      cases whole with
      | nil => exact absurd rfl hwhole.1
      | cons d whole =>
          obtain rfl := (List.cons.inj hnumber).1
          exact hwhole.2 c (List.mem_cons_self ..)

/-- A point with a digit behind it stands at the front of a text. -/
def StartsFraction (tail : List Char) : Prop :=
  ∃ c rest, tail = '.' :: c :: rest ∧ c.isDigit = true

/-- A number cannot go on with a text. -/
def EndsNumber (lexeme tail : List Char) : Prop :=
  EndsRun Char.isDigit tail ∧ ('.' ∈ lexeme ∨ ¬ StartsFraction tail)

/-- The point and the digits that a number takes from the text behind its
digits. -/
def fractionOf : List Char → List Char
  | '.' :: rest =>
      if rest.takeWhile Char.isDigit = [] then [] else
        '.' :: rest.takeWhile Char.isDigit
  | _ => []

private theorem IsDigits.point_not_mem {cs : List Char} (h : IsDigits cs) : '.' ∉ cs := by
  intro hmem
  have := h.2 _ hmem
  contradiction

/-- Digits and the fraction behind them are a number. -/
theorem number?_digits {whole : List Char} (hwhole : IsDigits whole)
    (hend : EndsRun Char.isDigit tail) :
    number? (whole ++ tail) = some (whole ++ fractionOf tail) := by
  have htake := takeWhile_eq_iff.2 ⟨tail, rfl, hwhole.2, hend⟩
  have hdrop := dropWhile_append_of_endsRun hwhole.2 hend
  simp only [number?, htake, hdrop, if_neg hwhole.1]
  unfold fractionOf
  split
  · split <;> simp_all
  · simp

/-- Without a digit behind a point there is no fraction. -/
theorem fractionOf_eq_nil_of_not_startsFraction (h : ¬ StartsFraction tail) :
    fractionOf tail = [] := by
  unfold fractionOf
  split
  · rename_i rest
    cases rest with
    | nil => simp
    | cons c rest =>
        have hc : ¬ c.isDigit = true := fun hc => h ⟨c, rest, rfl, hc⟩
        simp [hc]
  · rfl

private theorem fractionOf_append {fraction : List Char} (hfraction : IsDigits fraction)
    (hend : EndsRun Char.isDigit tail) :
    fractionOf ('.' :: (fraction ++ tail)) = '.' :: fraction := by
  have htake := takeWhile_eq_iff.2 ⟨tail, rfl, hfraction.2, hend⟩
  simp [fractionOf, htake, hfraction.1]

private theorem number?_of_not_isDigit {c : Char} (h : c.isDigit = false) :
    number? (c :: cs) = none := by
  simp [number?, h]

/-- Where a digit stands there is a number. -/
theorem number?_ne_none {c : Char} (h : c.isDigit = true) (cs : List Char) :
    number? (c :: cs) ≠ none := by
  obtain ⟨whole, tail, hcs, hwhole, hend⟩ := exists_digits h cs
  rw [hcs, number?_digits hwhole hend]
  exact Option.some_ne_none _

/-- What is found as a number is a number that does not go on behind it. -/
theorem number?_eq_some_iff :
    number? cs = some lexeme ↔
      ∃ tail, cs = lexeme ++ tail ∧ IsNumber lexeme ∧ EndsNumber lexeme tail := by
  constructor
  · intro h
    cases cs with
    | nil => simp [number?] at h
    | cons c cs =>
        cases hc : c.isDigit with
        | false =>
            rw [number?_of_not_isDigit hc] at h
            contradiction
        | true =>
            obtain ⟨whole, tail, hcs, hwhole, hend⟩ := exists_digits hc cs
            rw [hcs, number?_digits hwhole hend] at h
            obtain rfl := Option.some.inj h
            by_cases hfraction : StartsFraction tail
            · obtain ⟨d, rest, rfl, hd⟩ := hfraction
              obtain ⟨fraction, tail', hrest, hdigits, hend'⟩ := exists_digits hd rest
              rw [hrest, fractionOf_append hdigits hend']
              refine ⟨tail', ?_, .fraction hwhole hdigits, hend', .inl (by simp)⟩
              rw [hcs, hrest, List.append_assoc, List.cons_append]
            · rw [fractionOf_eq_nil_of_not_startsFraction hfraction, List.append_nil]
              exact ⟨tail, hcs, .whole hwhole, hend, .inr hfraction⟩
  · rintro ⟨tail, rfl, hnumber, hend, hpoint⟩
    cases hnumber with
    | whole hwhole =>
        have hfraction := hpoint.resolve_left hwhole.point_not_mem
        rw [number?_digits hwhole hend,
          fractionOf_eq_nil_of_not_startsFraction hfraction, List.append_nil]
    | @fraction whole fraction hwhole hdigits =>
        rw [List.append_assoc, List.cons_append, number?_digits hwhole (by simp),
          fractionOf_append hdigits hend]

/-! ## What separates tokens -/

/-- One or more blank characters. -/
def IsBlanks (cs : List Char) : Prop :=
  cs ≠ [] ∧ ∀ c ∈ cs, Text.isBlank c = true

/-- A single blank is a run of blanks. -/
theorem isBlanks_singleton {c : Char} (h : Text.isBlank c = true) : IsBlanks [c] :=
  ⟨by simp, by simpa using h⟩

/-- Two runs of blanks are a run of blanks. -/
theorem IsBlanks.append {xs ys : List Char} (hxs : IsBlanks xs) (hys : IsBlanks ys) :
    IsBlanks (xs ++ ys) := by
  refine ⟨by simp [hxs.1], ?_⟩
  intro c hc
  exact (List.mem_append.1 hc).elim (hxs.2 c) (hys.2 c)

/-- Two slashes and a text without a line break. -/
def IsComment (cs : List Char) : Prop :=
  ∃ line, cs = '/' :: '/' :: line ∧ '\n' ∉ line

/-- What is found as a run of blanks does not go on behind it. -/
theorem blank?_eq_some_iff :
    blank? cs = some lexeme ↔
      ∃ tail, cs = lexeme ++ tail ∧ IsBlanks lexeme ∧ EndsRun Text.isBlank tail := by
  constructor
  · intro h
    simp only [blank?] at h
    split at h
    · simp at h
    · rename_i hne
      obtain rfl := Option.some.inj h
      obtain ⟨tail, htail, hrun, hend⟩ :=
        takeWhile_eq_iff.1 (Eq.refl (cs.takeWhile Text.isBlank))
      exact ⟨tail, htail, ⟨hne, hrun⟩, hend⟩
  · rintro ⟨tail, rfl, hblank, hend⟩
    have hrun := takeWhile_eq_iff.2 ⟨tail, rfl, hblank.2, hend⟩
    simp [blank?, hrun, hblank.1]

/-- A line ends before a text that is empty or starts with a line break. -/
abbrev EndsLine (tail : List Char) : Prop :=
  EndsRun (· != '\n') tail

/-- A line ends at a newline and at the end of the text. -/
theorem endsLine_iff : EndsLine tail ↔ tail = [] ∨ ∃ rest, tail = '\n' :: rest := by
  cases tail with
  | nil => simp
  | cons c rest => simp [EndsLine]

/-- A line can be taken up to the first newline. -/
theorem forall_ne_newline_iff {line : List Char} :
    (∀ c ∈ line, (c != '\n') = true) ↔ '\n' ∉ line := by
  constructor
  · intro h hmem
    simpa using h _ hmem
  · intro h c hc
    have hne : c ≠ '\n' := fun heq => h (heq ▸ hc)
    simpa using hne

/-- What is found as a comment goes up to the end of its line. -/
theorem comment?_eq_some_iff :
    comment? cs = some lexeme ↔
      ∃ tail, cs = lexeme ++ tail ∧ IsComment lexeme ∧ EndsLine tail := by
  constructor
  · intro h
    unfold comment? at h
    split at h
    · rename_i cs
      obtain rfl := Option.some.inj h
      obtain ⟨tail, htail, hrun, hend⟩ :=
        takeWhile_eq_iff.1 (Eq.refl (cs.takeWhile (· != '\n')))
      refine ⟨tail, ?_, ⟨_, rfl, forall_ne_newline_iff.1 hrun⟩, hend⟩
      rw [List.cons_append, List.cons_append, ← htail]
    · simp at h
  · rintro ⟨tail, rfl, ⟨line, rfl, hline⟩, hend⟩
    have hrun := takeWhile_eq_iff.2 ⟨tail, rfl, forall_ne_newline_iff.2 hline, hend⟩
    rw [List.cons_append, List.cons_append, comment?, hrun]

/-! ## Fixed texts -/

/-- A fixed lexeme is found exactly where its text stands. -/
theorem fixed?_eq_some_iff {text : List Char} :
    fixed? text cs = some lexeme ↔ lexeme = text ∧ ∃ tail, cs = text ++ tail := by
  unfold fixed?
  split
  · rename_i hfront
    obtain ⟨tail, rfl⟩ := List.isPrefixOf_iff_prefix.1 hfront
    simp [eq_comm]
  · rename_i hfront
    simp only [reduceCtorEq, false_iff, not_and, not_exists]
    rintro - tail rfl
    exact hfront (List.isPrefixOf_iff_prefix.2 (List.prefix_append _ _))

end ExprLang.Lexeme
