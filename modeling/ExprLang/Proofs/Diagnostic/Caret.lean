import ExprLang.Diagnostic.Report
import ExprLang.Proofs.Diagnostic.Offence
import ExprLang.Proofs.Source.Line

/-!
# The caret of a report

A report shows the line that a diagnostic stands in, and below it a caret.  What is
shown in front of the place is the text of the line without its indentation, and the
caret stands behind as many characters as this text has bytes.  So it is below the
place if every character of the text is a single byte, and to the right of it
otherwise.

Main results:

- Theorem `SourceLine.points_excerpt`: how the line and the caret are laid out.
- Theorem `Raises.report_points`: where the caret of a report stands.
-/

namespace ExprLang

open Text

variable {source file : String} {d : Diagnostic} {offset : UInt32} {c : Char}
  {cs before indent text behind shown : List Char}

/-! ## Indentation -/

/-- The indentation of a line, and the text behind it. -/
structure Indented (indent text : List Char) : Prop where
  spaces : ∀ c ∈ indent, c = ' '
  head_ne : ∀ c ∈ text.head?, c ≠ ' '

/-- Every line has an indentation and a text behind it. -/
theorem exists_indented (cs : List Char) :
    ∃ indent text, cs = indent ++ text ∧ Indented indent text := by
  rcases Lexeme.takeWhile_eq_iff.1 (Eq.refl (cs.takeWhile (· == ' '))) with
    ⟨text, hcs, hspaces, hend⟩
  exact ⟨_, text, hcs, by simpa using hspaces, by simpa [Lexeme.EndsRun] using hend⟩

namespace Indented

private theorem append_cons (h : Indented indent text) (hc : c ≠ ' ') (rest : List Char) :
    Indented indent (text ++ c :: rest) := by
  refine ⟨h.spaces, ?_⟩
  cases text with
  | nil => simpa using hc
  | cons d text => simpa using h.head_ne

private theorem indentation_eq (h : Indented indent text) :
    indentation (indent ++ text) = indent.length := by
  have hrun : (indent ++ text).takeWhile (· == ' ') = indent :=
    Lexeme.takeWhile_eq_iff.2 ⟨text, rfl, by simpa using h.spaces, by
      simpa [Lexeme.EndsRun] using h.head_ne⟩
  rw [indentation, hrun]

private theorem shownText_eq (h : Indented indent text) :
    (shownText (indent ++ text)).toList = trimBlankEnd text := by
  rw [shownText, String.toList_ofList,
    Lexeme.dropWhile_append_of_endsRun (by simpa using h.spaces)
      (by simpa [Lexeme.EndsRun] using h.head_ne)]

/-- A space is a single byte. -/
theorem byteLength_eq (h : Indented indent text) : byteLength indent = indent.length := by
  refine byteLength_eq_length_iff.2 fun c hc => ?_
  rw [h.spaces c hc]
  rfl

end Indented

/-! ## Layout -/

/-- The number of a line and the bar behind it. -/
def lineLabel (number : Nat) : List Char :=
  (toString number).toList ++ [' ', '|', ' ']

/-- A report ends in two lines: one that shows something, and one with a caret behind
a number of other characters. -/
def Points (report : String) (shown : List Char) (caret : Nat) : Prop :=
  ∃ header fill, report.toList = header ++ '\n' :: (shown ++ '\n' :: (fill ++ ['^', '\n'])) ∧
    '\n' ∉ shown ∧ '\n' ∉ fill ∧ '^' ∉ fill ∧ fill.length = caret

private theorem Points.append {report : String} {caret : Nat} (h : Points report shown caret)
    (head : String) : Points (head ++ report) shown caret := by
  rcases h with ⟨header, fill, hreport, hrest⟩
  exact ⟨head.toList ++ header, fill, by simp [hreport], hrest⟩

private theorem newline_not_mem_lineLabel (number : Nat) : '\n' ∉ lineLabel number := by
  intro hmem
  have hdigits : '\n' ∈ Nat.toDigits 10 number := by
    simpa [lineLabel, toString, Nat.repr] using hmem
  exact absurd (Nat.isDigit_of_mem_toDigits (by decide) (by decide) hdigits) (by decide)

/-- The line is shown behind its number, and the caret stands as many characters
behind the start of its text as the place is bytes behind the indentation. -/
theorem SourceLine.points_excerpt (line : SourceLine)
    (hshown : '\n' ∉ (shownText line.text.toList).toList) :
    Points line.excerpt (lineLabel line.number ++ (shownText line.text.toList).toList)
      ((lineLabel line.number).length +
        (line.column - indentation line.text.toList)) := by
  have hlabel := newline_not_mem_lineLabel line.number
  have hbar : "|".length = 1 := rfl
  have hcaret : "^".length = 1 := rfl
  simp only [lineLabel, excerpt] at hlabel ⊢
  generalize toString line.number = digits at hlabel ⊢
  generalize line.column - indentation line.text.toList = caret
  refine ⟨List.replicate (digits.length + 1) ' ' ++ ['|'],
    List.replicate (digits.length + 1) ' ' ++ ['|', ' '] ++ List.replicate caret '-',
    ?_, ?_, ?_, ?_, ?_⟩
  · simp [alignRight, hbar, hcaret]
  · intro hmem
    exact (List.mem_append.1 hmem).elim hlabel hshown
  · simp [List.mem_replicate]
  · simp [List.mem_replicate]
  · simp [String.length_toList]
    omega

/-! ## The line of a place -/

/-- What a report shows of the line that a place of a source is in, the text that it
shows in front of the place, and the column in which the place is shown. -/
inductive Shows (source : List Char) : Nat → List Char → List Char → Nat → Prop where
  /-- The place is in front of a character that is not blank. -/
  | character {before indent text after behind : List Char} {c : Char}
      (hline : IsLine source before (indent ++ (text ++ c :: after)) behind)
      (hindented : Indented indent text) (hc : isBlank c = false) :
      Shows source (byteLength (before ++ (indent ++ text)))
        (lineLabel (1 + before.count '\n') ++ (text ++ c :: trimBlankEnd after)) text
        ((lineLabel (1 + before.count '\n')).length + text.length)
  /-- The place is the end of the source, which is shown just behind the last line. -/
  | ending {before indent text behind : List Char}
      (hline : IsLine source before (indent ++ text) behind)
      (hlast : behind.drop 1 = []) (hne : indent ++ text ++ behind ≠ [])
      (hindented : Indented indent text) :
      Shows source (byteLength source)
        (lineLabel (1 + before.count '\n') ++ trimBlankEnd text) text
        ((lineLabel (1 + before.count '\n')).length + text.length)

/-- The text in front of a place is in the source. -/
theorem Shows.text_subset {source shown text : List Char} {offset column : Nat}
    (h : Shows source offset shown text column) : text ⊆ source := by
  cases h with
  | character hline =>
      intro x hx
      simp [hline.text_eq, hx]
  | ending hline =>
      intro x hx
      simp [hline.text_eq, hx]

/-- A line is shown without its indentation, and the caret stands as far behind the
start of what is shown as the place is bytes behind the indentation. -/
theorem IsLine.points_excerpt (hline : IsLine cs before (indent ++ text) behind)
    (hindented : Indented indent text) (number n : Nat) :
    Points (SourceLine.excerpt
        ⟨number, .ofList (indent ++ text ++ behind.take 1), byteLength indent + n⟩)
      (lineLabel number ++ trimBlankEnd text) ((lineLabel number).length + n) := by
  have hplain : '\n' ∉ trimBlankEnd text := fun hmem =>
    hline.body_plain (List.mem_append_right _ (trimBlankEnd_subset text hmem))
  -- The newline is the first blank that is cut off.
  have hwhole : Indented indent (text ++ behind.take 1) ∧
      trimBlankEnd (text ++ behind.take 1) = trimBlankEnd text := by
    cases behind with
    | nil => simpa using hindented
    | cons c rest =>
        obtain rfl := hline.behind_starts c rfl
        exact ⟨hindented.append_cons (by decide) [],
          trimBlankEnd_append_blank (by decide) text⟩
  rcases hwhole with ⟨hwhole, htrim⟩
  have hpoints := SourceLine.points_excerpt
    ⟨number, .ofList (indent ++ (text ++ behind.take 1)), byteLength indent + n⟩
  simp only [String.toList_ofList, hwhole.shownText_eq, htrim, hwhole.indentation_eq,
    hwhole.byteLength_eq, Nat.add_sub_cancel_left] at hpoints
  rw [List.append_assoc, hwhole.byteLength_eq]
  exact hpoints hplain

/-! ## The caret -/

/-- A report that points at an offset: the line of the offset is shown, and the caret
stands as many characters behind the label as the text in front of the place has
bytes. -/
def PointsAt (source : String) (offset : UInt32) : Prop :=
  ∃ line shown text column caret, lineAt? source offset = some line ∧
    Shows source.toList offset.toNat shown text column ∧
    Points line.excerpt shown caret ∧ caret + text.length = column + byteLength text

/-- A report points at any character that is not blank. -/
theorem pointsAt_of_character {front back : List Char}
    (hsource : source.toList = front ++ c :: back) (hc : isBlank c = false)
    (hoffset : offset.toNat = byteLength front) : PointsAt source offset := by
  rcases exists_isLine front (c :: back) with
    ⟨before, inner, after, behind, rfl, hback, hline⟩
  rcases exists_indented inner with ⟨indent, text, rfl, hindented⟩
  rw [← hsource] at hline
  rcases List.cons_eq_append_iff.1 hback with ⟨rfl, rfl⟩ | ⟨after, rfl, rfl⟩
  · rw [hline.behind_starts c rfl] at hc
    contradiction
  rw [List.append_assoc] at hline
  have hspace : c ≠ ' ' := by
    rintro rfl
    exact absurd hc (by decide)
  have hlt : byteLength indent + byteLength text <
      byteLength (indent ++ (text ++ c :: after) ++ behind.take 1) := by
    have hpos := c.utf8Size_pos
    simp only [byteLength_append, byteLength_cons]
    omega
  have hline_offset : offset.toNat =
      byteLength before + (byteLength indent + byteLength text) := by
    rw [hoffset, byteLength_append, byteLength_append]
  have hpoints := hline.points_excerpt (hindented.append_cons hspace after)
    (1 + before.count '\n') (byteLength text)
  rw [trimBlankEnd_append_cons hc] at hpoints
  refine ⟨_, _, text, _, _, lineAt?_of_lt hline hline_offset hlt, ?_, hpoints,
    Nat.add_right_comm ..⟩
  rw [hoffset]
  exact .character hline hindented hc

/-- A report points at the end of a source that is not empty. -/
theorem pointsAt_of_ending (hne : source ≠ "")
    (hoffset : offset.toNat = byteLength source.toList) : PointsAt source offset := by
  have hlist : source.toList ≠ [] := by simpa using hne
  rcases exists_last_line hlist with ⟨before, inner, behind, hline, hlast, hne⟩
  rcases exists_indented inner with ⟨indent, text, rfl, hindented⟩
  have htake : behind.take 1 = behind := by
    simpa [hlast] using List.take_append_drop 1 behind
  have hfound := lineAt?_of_le hline hlast hne (Nat.le_of_eq hoffset.symm)
  have hpoints := hline.points_excerpt hindented (1 + before.count '\n')
    (byteLength text)
  rw [htake, ← byteLength_append] at hpoints
  refine ⟨_, _, text, _, _, hfound, ?_, hpoints, Nat.add_right_comm ..⟩
  rw [hoffset]
  exact .ending hline hlast hne hindented

/-- A report points at an offence. -/
theorem IsOffence.pointsAt (hne : source ≠ "")
    (h : IsOffence source.toList offset.toNat) : PointsAt source offset := by
  generalize hn : offset.toNat = n at h
  cases h with
  | character hsource hc => exact pointsAt_of_character hsource hc hn
  | ending => exact pointsAt_of_ending hne hn

private theorem Diagnostic.report_of_lineAt? {line : SourceLine}
    (h : lineAt? source d.position.offset = some line) (name : String) :
    d.report source name =
      d.fault.headline ++ "-> " ++ name ++ "\n" ++ line.excerpt := by
  rw [report, h]

/-- A report shows the line of the diagnostic, and its caret stands behind as many
characters of the text in front of the place as the text has bytes: below the place
exactly if every one of these characters is a single byte. -/
theorem Raises.report_points (hne : source ≠ "")
    (hsize : source.utf8ByteSize < UInt32.size) (h : Raises source file d)
    (name : String) :
    ∃ shown text column caret,
      Shows source.toList d.position.offset.toNat shown text column ∧
        Points (d.report source name) shown caret ∧
          caret + text.length = column + byteLength text ∧
            (caret = column ↔ ∀ c ∈ text, c.utf8Size = 1) := by
  rcases (h.isOffence hsize).pointsAt hne with
    ⟨line, shown, text, column, caret, hfound, hshows, hpoints, hcaret⟩
  refine ⟨shown, text, column, caret, hshows, ?_, hcaret, ?_⟩
  · rw [d.report_of_lineAt? hfound name]
    exact hpoints.append _
  · rw [← byteLength_eq_length_iff]
    omega

/-- The case of `1 @` behind two spaces, where every character is a single byte. -/
theorem report_points_indented :
    ∃ d shown text column, "  1 @" ≠ "" ∧ "  1 @".utf8ByteSize < UInt32.size ∧
      Raises "  1 @" "shell" d ∧ d.position.offset = 4 ∧
        Shows "  1 @".toList 4 shown text column ∧
          Points (d.report "  1 @" "shell") shown column := by
  have hspace : Lexeme.IsBlanks [' '] := Lexeme.isBlanks_singleton (by decide)
  have hcut : Piece.CutBefore
      [⟨.blank, [' '] ++ [' '], hspace.append hspace, by decide⟩,
        ⟨.number, ['1'], .whole ⟨by decide, by simp⟩, by decide⟩,
        ⟨.blank, [' '], hspace, by decide⟩] ['@'] := by
    refine ⟨Lexeme.endsRun_cons.2 (by decide), ⟨Lexeme.endsRun_cons.2 (by decide), .inr ?_⟩,
      Lexeme.endsRun_cons.2 (by decide), trivial⟩
    rintro ⟨c, rest, h, hc⟩
    cases h
  have h : Raises "  1 @" "shell" ⟨.unrecognisedToken "@", .ofByte "shell" 4⟩ :=
    .rejecting (.scanning (tokenize_of_fault rfl hcut (.unrecognised (by decide))))
  have hascii : ∀ c ∈ "  1 @".toList, c.utf8Size = 1 :=
    byteLength_eq_length_iff.1 rfl
  rcases h.report_points (by decide) (by decide) "shell" with
    ⟨shown, text, column, caret, hshows, hpoints, -, hiff⟩
  obtain rfl := hiff.2 fun c hc => hascii c (hshows.text_subset hc)
  exact ⟨_, shown, text, caret, by decide, by decide, h, rfl, hshows, hpoints⟩

/-- In front of the sign of `"é" @` stand four characters, and the caret stands
behind five. -/
theorem report_points_beside :
    ∃ d, Raises "\"é\" @" "shell" d ∧
      d.report "\"é\" @" "shell" = "Error: UnrecognisedToken\n-> shell\n" ++
        "  |\n" ++ "1 | \"é\" @\n" ++ "  | -----^\n" ∧
      "1 | \"é\" @".toList[8]? = some '@' ∧ "  | -----^".toList[8]? = some '-' := by
  have hcut : Piece.CutBefore
      [⟨.stringLiteral, Lexeme.literalOf [.plain 'é' (by decide)], ⟨_, rfl⟩, by decide⟩,
        ⟨.blank, [' '], Lexeme.isBlanks_singleton (by decide), by decide⟩] ['@'] :=
    ⟨trivial, Lexeme.endsRun_cons.2 (by decide), trivial⟩
  have h : Raises "\"é\" @" "shell" ⟨.unrecognisedToken "@", .ofByte "shell" 5⟩ :=
    .rejecting (.scanning (tokenize_of_fault rfl hcut (.unrecognised (by decide))))
  exact ⟨_, h, rfl, rfl, rfl⟩

end ExprLang
