import ExprLang.Proofs.Lexeme.Shape
import ExprLang.Source.Line

/-!
# Lines of a text

A text is cut into lines behind its newlines.  Here a line is told by what stands
before and behind it, and the line of an offset is found from that: it is the one
that the byte at the offset is among, or the last one if there is no such byte.

Main results:

- Theorem `line_induction`: a text is built up line by line.
- Theorem `exists_isLine`: every place of a text is in a line.
- Theorem `lineAt?_of_lt`: the line of an offset inside a source.
- Theorem `lineAt?_of_le`: the line of an offset past the end.
-/

namespace ExprLang

open Text

variable {cs body before behind : List Char} {number n : Nat}

/-! ## Cutting off the first line -/

/-- A text without newlines is a single line. -/
theorem lines_of_not_mem (hbody : '\n' ∉ body) (hne : body ≠ []) : lines body = [body] := by
  induction body with
  | nil => exact absurd rfl hne
  | cons c body ih =>
      rcases List.ne_and_not_mem_of_not_mem_cons hbody with ⟨hc, hbody⟩
      rw [lines, if_neg (Ne.symm hc)]
      cases body with
      | nil => rfl
      | cons d body => rw [ih hbody (by simp)]

/-- A line ends at the first newline. -/
theorem lines_append_newline (hbody : '\n' ∉ body) (cs : List Char) :
    lines (body ++ '\n' :: cs) = (body ++ ['\n']) :: lines cs := by
  induction body with
  | nil => simp [lines]
  | cons c body ih =>
      rcases List.ne_and_not_mem_of_not_mem_cons hbody with ⟨hc, hbody⟩
      rw [List.cons_append, lines, if_neg (Ne.symm hc), ih hbody]
      rfl

/-- A text is empty, or a single line without a newline, or it starts with a line
that ends in one. -/
@[elab_as_elim]
theorem line_induction {motive : List Char → Prop} (cs : List Char) (nil : motive [])
    (last : ∀ body, body ≠ [] → '\n' ∉ body → motive body)
    (cons : ∀ body cs, '\n' ∉ body → motive cs → motive (body ++ '\n' :: cs)) :
    motive cs := by
  induction hlength : cs.length using Nat.strongRecOn generalizing cs with
  | ind length ih =>
      subst hlength
      by_cases hmem : '\n' ∈ cs
      · rcases List.eq_append_cons_of_mem hmem with ⟨body, rest, rfl, hbody⟩
        have hlt : rest.length < (body ++ '\n' :: rest).length := by
          simp only [List.length_append, List.length_cons]
          omega
        exact cons body rest hbody (ih _ hlt rest rfl)
      · by_cases hne : cs = []
        · exact hne ▸ nil
        · exact last cs hne hmem

/-! ## Lines inside a text -/

/-- A text is empty or ends in a newline, so a line can start behind it. -/
def WholeLines (before : List Char) : Prop :=
  ∀ c ∈ before.getLast?, c = '\n'

/-- A line of a text, between the lines before it and the newline that ends it, with
the lines behind that. -/
structure IsLine (cs before body behind : List Char) : Prop where
  text_eq : cs = before ++ (body ++ behind)
  before_ends : WholeLines before
  body_plain : '\n' ∉ body
  behind_starts : ∀ c ∈ behind.head?, c = '\n'

/-- The empty text is made of whole lines. -/
theorem wholeLines_nil : WholeLines [] := by
  simp [WholeLines]

private theorem wholeLines_append_newline {rest : List Char} :
    WholeLines (body ++ '\n' :: rest) ↔ WholeLines rest := by
  simp only [WholeLines, List.getLast?_append, List.getLast?_cons]
  cases rest.getLast? <;> simp

private theorem WholeLines.eq_nil (h : WholeLines before) (hplain : '\n' ∉ before) :
    before = [] := by
  cases hlast : before.getLast? with
  | none => exact List.getLast?_eq_none_iff.1 hlast
  | some c => exact absurd (h c hlast ▸ List.mem_of_getLast? hlast) hplain

/-- A line of a text is a line of it behind a further one. -/
theorem IsLine.append_line (h : IsLine cs before body behind) (first : List Char) :
    IsLine (first ++ '\n' :: cs) (first ++ '\n' :: before) body behind where
  text_eq := by simp [h.text_eq]
  before_ends := wholeLines_append_newline.2 h.before_ends
  body_plain := h.body_plain
  behind_starts := h.behind_starts

/-- The front of a text ends in the beginning of a line. -/
theorem exists_line_front (front : List Char) :
    ∃ before text, front = before ++ text ∧ WholeLines before ∧ '\n' ∉ text := by
  induction front using line_induction with
  | nil => exact ⟨[], [], rfl, wholeLines_nil, List.not_mem_nil⟩
  | last body hne hbody => exact ⟨[], body, rfl, wholeLines_nil, hbody⟩
  | cons body rest hbody ih =>
      rcases ih with ⟨before, text, rfl, hbefore, htext⟩
      exact ⟨body ++ '\n' :: before, text, by simp, wholeLines_append_newline.2 hbefore,
        htext⟩

/-- The back of a text starts with the end of a line. -/
theorem exists_line_back (back : List Char) :
    ∃ text behind, back = text ++ behind ∧ '\n' ∉ text ∧
      ∀ c ∈ behind.head?, c = '\n' := by
  induction back using line_induction with
  | nil => exact ⟨[], [], rfl, List.not_mem_nil, by simp⟩
  | last body hne hbody => exact ⟨body, [], by simp, hbody, by simp⟩
  | cons body rest hbody ih => exact ⟨body, '\n' :: rest, rfl, hbody, by simp⟩

/-- Every place of a text is in a line. -/
theorem exists_isLine (front back : List Char) :
    ∃ before text after behind, front = before ++ text ∧ back = after ++ behind ∧
      IsLine (front ++ back) before (text ++ after) behind := by
  rcases exists_line_front front with ⟨before, text, rfl, hbefore, htext⟩
  rcases exists_line_back back with ⟨after, behind, rfl, hafter, hbehind⟩
  refine ⟨before, text, after, behind, rfl, rfl, by simp, hbefore, ?_, hbehind⟩
  exact fun hmem => (List.mem_append.1 hmem).elim htext hafter

/-- A text that is not empty has a last line. -/
theorem exists_last_line (hne : cs ≠ []) :
    ∃ before body behind, IsLine cs before body behind ∧ behind.drop 1 = [] ∧
      body ++ behind ≠ [] := by
  induction cs using line_induction with
  | nil => exact absurd rfl hne
  | last body hbody hplain =>
      exact ⟨[], body, [], ⟨by simp, wholeLines_nil, hplain, by simp⟩, rfl, by simpa⟩
  | cons first rest hplain ih =>
      by_cases hrest : rest = []
      · subst hrest
        exact ⟨[], first, ['\n'], ⟨rfl, wholeLines_nil, hplain, by simp⟩, rfl, by simp⟩
      · rcases ih hrest with ⟨before, body, behind, hline, hlast⟩
        exact ⟨first ++ '\n' :: before, body, behind, hline.append_line first, hlast⟩

/-! ## The line of an offset -/

/-- An offset inside the first line is found there. -/
theorem lineFrom?_cons_of_lt {line : List Char} (h : n < byteLength line)
    (ls : List (List Char)) :
    lineFrom? number n (line :: ls) = some ⟨number, .ofList line, n⟩ := by
  unfold lineFrom?
  exact if_pos h

/-- An offset behind the first line is looked for in the others. -/
theorem lineFrom?_cons_add {line : List Char} {ls : List (List Char)} (hne : ls ≠ []) :
    lineFrom? number (byteLength line + n) (line :: ls) = lineFrom? (number + 1) n ls := by
  rcases List.exists_cons_of_ne_nil hne with ⟨next, rest, rfl⟩
  rw [lineFrom?, if_neg (by omega), Nat.add_sub_cancel_left]

/-- What is found behind whole lines is found as if they were not there, with their
number and their bytes added. -/
theorem lineFrom?_append (hbefore : WholeLines before) (hne : cs ≠ []) :
    lineFrom? number (byteLength before + n) (lines (before ++ cs)) =
      lineFrom? (number + before.count '\n') n (lines cs) := by
  induction before using line_induction generalizing number with
  | nil => simp
  | last body hbody hplain => exact absurd (hbefore.eq_nil hplain) hbody
  | cons body rest hplain ih =>
      have hrest : lines (rest ++ cs) ≠ [] := by simp [hne]
      have hcount : (body ++ '\n' :: rest).count '\n' = 1 + rest.count '\n' := by
        simp [List.count_eq_zero.2 hplain, Nat.add_comm]
      have hlength : byteLength (body ++ '\n' :: rest) + n =
          byteLength (body ++ ['\n']) + (byteLength rest + n) := by
        simp only [byteLength_append, byteLength_cons, byteLength_nil]
        omega
      rw [List.append_assoc, List.cons_append, lines_append_newline hplain, hlength,
        lineFrom?_cons_add hrest, ih (wholeLines_append_newline.1 hbefore), hcount,
        Nat.add_assoc]

/-- The first line of a text and what follows it. -/
theorem lines_append (hbody : '\n' ∉ body) (hbehind : ∀ c ∈ behind.head?, c = '\n')
    (hne : body ++ behind ≠ []) :
    lines (body ++ behind) = (body ++ behind.take 1) :: lines (behind.drop 1) := by
  cases behind with
  | nil =>
      rw [List.append_nil] at hne ⊢
      simpa [lines] using lines_of_not_mem hbody hne
  | cons c rest =>
      obtain rfl : c = '\n' := hbehind c rfl
      exact lines_append_newline hbody rest

/-- The line of an offset inside a text is the one that the byte there is in. -/
theorem lineFrom?_of_lt (h : IsLine cs before body behind)
    (hlt : n < byteLength (body ++ behind.take 1)) :
    lineFrom? number (byteLength before + n) (lines cs) =
      some ⟨number + before.count '\n', .ofList (body ++ behind.take 1), n⟩ := by
  have hne : body ++ behind ≠ [] := by
    intro hnil
    simp [List.append_eq_nil_iff.1 hnil] at hlt
  rw [h.text_eq, lineFrom?_append h.before_ends hne,
    lines_append h.body_plain h.behind_starts hne, lineFrom?_cons_of_lt hlt]

/-- The line of an offset past the end is the last one, and the place is in front of
its newline. -/
theorem lineFrom?_of_le (h : IsLine cs before body behind) (hlast : behind.drop 1 = [])
    (hne : body ++ behind ≠ []) (hle : byteLength (body ++ behind) ≤ n) :
    lineFrom? number (byteLength before + n) (lines cs) =
      some ⟨number + before.count '\n', .ofList (body ++ behind), byteLength body⟩ := by
  have htake : behind.take 1 = behind := by
    simpa [hlast] using List.take_append_drop 1 behind
  have htext : (body ++ behind).takeWhile (· != '\n') = body := by
    refine Lexeme.takeWhile_eq_iff.2 ⟨behind, rfl, ?_, fun c hc => ?_⟩
    · intro c hc
      exact bne_iff_ne.2 (ne_of_mem_of_not_mem hc h.body_plain)
    · simp [h.behind_starts c hc]
  rw [h.text_eq, lineFrom?_append h.before_ends hne,
    lines_append h.body_plain h.behind_starts hne, hlast, htake, lines, lineFrom?,
    if_neg (by omega), htext]

/-! ## Lines of a source -/

variable {source : String} {offset : UInt32}

/-- The line of an offset inside a source is the one that the byte there is in. -/
theorem lineAt?_of_lt (h : IsLine source.toList before body behind)
    (hoffset : offset.toNat = byteLength before + n)
    (hlt : n < byteLength (body ++ behind.take 1)) :
    lineAt? source offset =
      some ⟨1 + before.count '\n', .ofList (body ++ behind.take 1), n⟩ := by
  rw [lineAt?, hoffset]
  exact lineFrom?_of_lt h hlt

/-- The line of an offset past the end of a source is the last one. -/
theorem lineAt?_of_le (h : IsLine source.toList before body behind)
    (hlast : behind.drop 1 = []) (hne : body ++ behind ≠ [])
    (hle : byteLength source.toList ≤ offset.toNat) :
    lineAt? source offset =
      some ⟨1 + before.count '\n', .ofList (body ++ behind), byteLength body⟩ := by
  rw [h.text_eq, byteLength_append] at hle
  rcases Nat.exists_eq_add_of_le hle with ⟨more, hmore⟩
  rw [lineAt?, hmore, Nat.add_assoc]
  exact lineFrom?_of_le h hlast hne (Nat.le_add_right _ _)

end ExprLang
