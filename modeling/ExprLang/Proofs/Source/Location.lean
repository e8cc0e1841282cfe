import ExprLang.Proofs.Source.Encoding
import ExprLang.Proofs.Source.Line

/-!
# Lines told by bytes

The line of an offset can be told without cutting a source into lines: it is made of
the bytes around the offset, from behind the newline before it to the next newline,
and its number counts the newlines in front.  An offset past the end belongs to the
line of the last byte.

Main results:

- Theorem `lineAt?_eq_some_iff`: the line of an offset is the one told by the bytes.
- Theorem `number_le_of_le`: larger offsets are in later lines.
- Theorem `getElem?_lines_iff`: the lines found for the offsets are all lines of a
  source.
- Theorem `lineAt?_exact`: all of this about one source.
-/

namespace ExprLang

open Text

variable {bs : List UInt8} {cs before body behind : List Char} {line line' : SourceLine}
  {number n start start' stop stop' : Nat}

/-! ## Lines of bytes -/

/-- The bytes from a start up to a stop are the line that holds an offset. -/
structure LineBytes (bs : List UInt8) (offset start stop : Nat) : Prop where
  start_le : start ≤ offset
  lt_stop : offset < stop
  stop_le : stop ≤ bs.length
  starts : start = 0 ∨ bs[start - 1]? = some newline
  /-- Only the last byte of a line can be a newline. -/
  plain : ∀ i, start ≤ i → i + 1 < stop → bs[i]? ≠ some newline
  ends : stop = bs.length ∨ bs[stop - 1]? = some newline

/-- What is to be found for an offset, told by the bytes of a source. -/
inductive LineOf (bs : List UInt8) : Nat → SourceLine → Prop where
  | inside {offset start stop : Nat} {text : String} (hline : LineBytes bs offset start stop)
      (htext : bytesOf text.toList = (bs.take stop).drop start) :
      LineOf bs offset ⟨1 + (bs.take offset).count newline, text, offset - start⟩
  /-- Behind the end it is the line of the last byte, and the place in front of its
  newline. -/
  | past {offset number column : Nat} {text : String} (hle : bs.length ≤ offset)
      (hlast : LineOf bs (bs.length - 1) ⟨number, text, column⟩) :
      LineOf bs offset
        ⟨number, text, (bytesOf text.toList).length - (bytesOf text.toList).count newline⟩

/-- A line does not start later than another one of the same offset. -/
theorem LineBytes.start_le_start (h : LineBytes bs n start stop)
    (h' : LineBytes bs n start' stop') : start ≤ start' := by
  refine Nat.le_of_not_lt fun hlt => ?_
  have hle := h.start_le
  have hstop := h'.lt_stop
  rcases h.starts with hzero | hnewline
  · omega
  · exact h'.plain (start - 1) (by omega) (by omega) hnewline

/-- A line does not stop later than another one of the same offset. -/
theorem LineBytes.stop_le_stop (h : LineBytes bs n start stop)
    (h' : LineBytes bs n start' stop') : stop ≤ stop' := by
  refine Nat.le_of_not_lt fun hlt => ?_
  have hle := h.start_le
  have hstop := h'.lt_stop
  have hlength := h.stop_le
  rcases h'.ends with hend | hnewline
  · omega
  · exact h.plain (stop' - 1) (by omega) (by omega) hnewline

/-- An offset inside is in one line only. -/
theorem LineBytes.unique (h : LineBytes bs n start stop) (h' : LineBytes bs n start' stop') :
    start = start' ∧ stop = stop' :=
  ⟨Nat.le_antisymm (h.start_le_start h') (h'.start_le_start h),
    Nat.le_antisymm (h.stop_le_stop h') (h'.stop_le_stop h)⟩

private theorem LineBytes.lt_length (h : LineBytes bs n start stop) : n < bs.length :=
  Nat.lt_of_lt_of_le h.lt_stop h.stop_le

/-- The bytes tell one line only. -/
theorem LineOf.unique (h : LineOf bs n line) (h' : LineOf bs n line') : line = line' := by
  induction h generalizing line' with
  | inside hline htext =>
      have hlt := hline.lt_length
      cases h' with
      | inside hline' htext' =>
          rcases hline.unique hline' with ⟨rfl, rfl⟩
          rw [← htext, bytesOf_toList_inj] at htext'
          rw [htext']
      | past hle => omega
  | past hle hlast ih =>
      cases h' with
      | inside hline' =>
          have hlt := hline'.lt_length
          omega
      | past _ hlast' =>
          cases ih hlast'
          rfl

/-- The number of a line counts the newlines in front of the offset, or of the last
byte. -/
theorem LineOf.number_eq (h : LineOf bs n line) :
    line.number = 1 + (bs.take (min n (bs.length - 1))).count newline := by
  induction h with
  | inside hline =>
      have hlt := hline.lt_length
      rw [Nat.min_eq_left (by omega)]
  | past hle hlast ih =>
      rw [Nat.min_self] at ih
      rw [Nat.min_eq_right (by omega)]
      exact ih

/-- Larger offsets are in later lines. -/
theorem LineOf.number_le {m : Nat} (h : LineOf bs m line) (h' : LineOf bs n line')
    (hle : m ≤ n) : line.number ≤ line'.number := by
  have hmin : min m (bs.length - 1) ≤ min n (bs.length - 1) := by omega
  rw [h.number_eq, h'.number_eq]
  exact Nat.add_le_add_left ((List.take_sublist_take_left hmin).count_le newline) 1

/-! ## Lines of characters -/

/-- An offset inside a text is in one of its lines. -/
theorem exists_isLine_of_lt (h : n < byteLength cs) :
    ∃ before body behind, IsLine cs before body behind ∧ byteLength before ≤ n ∧
      n < byteLength (before ++ (body ++ behind.take 1)) := by
  induction cs using line_induction generalizing n with
  | nil => simp at h
  | last body hne hbody =>
      exact ⟨[], body, [], ⟨by simp, wholeLines_nil, hbody, by simp⟩, Nat.zero_le _, by simpa⟩
  | cons first rest hplain ih =>
      rw [byteLength_append, byteLength_cons] at h
      by_cases hlt : n < byteLength first + Char.utf8Size '\n'
      · refine ⟨[], first, '\n' :: rest, ⟨rfl, wholeLines_nil, hplain, by simp⟩,
          Nat.zero_le _, ?_⟩
        simpa using hlt
      · rcases ih (n := n - (byteLength first + Char.utf8Size '\n')) (by omega) with
          ⟨before, body, behind, hline, hle, hstop⟩
        refine ⟨first ++ '\n' :: before, body, behind, hline.append_line first, ?_, ?_⟩
        · simp only [byteLength_append, byteLength_cons]
          omega
        · simp only [byteLength_append, byteLength_cons] at hstop ⊢
          omega

/-- What ends a line is a single byte, if there is anything. -/
theorem IsLine.byteLength_take_one_le (h : IsLine cs before body behind) :
    byteLength (behind.take 1) ≤ 1 := by
  cases behind with
  | nil => simp
  | cons c rest =>
      obtain rfl := h.behind_starts c rfl
      exact Nat.le_refl 1

/-- A line starts behind a newline, unless it is the first one. -/
theorem IsLine.starts (h : IsLine cs before body behind) :
    byteLength before = 0 ∨ (bytesOf cs)[byteLength before - 1]? = some newline := by
  cases hlast : before.getLast? with
  | none => exact .inl (by rw [List.getLast?_eq_none_iff.1 hlast, byteLength_nil])
  | some c =>
      rcases List.getLast?_eq_some_iff.1 hlast with ⟨front, rfl⟩
      obtain rfl := h.before_ends c hlast
      refine .inr ?_
      rw [byteLength_append_newline, Nat.add_sub_cancel, h.text_eq, List.append_assoc]
      exact getElem?_bytesOf_newline front _

/-- A line ends in a newline, unless it is the last one. -/
theorem IsLine.ends (h : IsLine cs before body behind) :
    byteLength (before ++ (body ++ behind.take 1)) = (bytesOf cs).length ∨
      (bytesOf cs)[byteLength (before ++ (body ++ behind.take 1)) - 1]? = some newline := by
  cases behind with
  | nil => exact .inl (by simp [h.text_eq])
  | cons c rest =>
      obtain rfl := h.behind_starts c rfl
      refine .inr ?_
      rw [List.take_one, List.head?_cons, Option.toList_some, ← List.append_assoc,
        byteLength_append_newline, Nat.add_sub_cancel, h.text_eq, ← List.append_assoc]
      exact getElem?_bytesOf_newline _ rest

/-- The bytes of a line of characters are a line of bytes. -/
theorem IsLine.lineBytes (h : IsLine cs before body behind) (hle : byteLength before ≤ n)
    (hlt : n < byteLength (before ++ (body ++ behind.take 1))) :
    LineBytes (bytesOf cs) n (byteLength before)
      (byteLength (before ++ (body ++ behind.take 1))) := by
  have hend := h.byteLength_take_one_le
  refine ⟨hle, hlt, ?_, h.starts, ?_, h.ends⟩
  · rw [length_bytesOf, h.text_eq]
    cases behind <;> simp
  · intro i hstart hstop hfound
    simp only [byteLength_append] at hstop
    have hbody : i - byteLength before < (bytesOf body).length := by
      rw [length_bytesOf]
      omega
    rw [h.text_eq, bytesOf_append, List.getElem?_append_right (by simpa using hstart),
      length_bytesOf, bytesOf_append, List.getElem?_append_left hbody] at hfound
    exact h.body_plain (newline_mem_bytesOf_iff.1 (List.mem_of_getElem? hfound))

/-- Without what ends it a line has the length of its text. -/
theorem IsLine.length_sub_count_newline (h : IsLine cs before body behind) :
    (bytesOf (body ++ behind.take 1)).length -
      (bytesOf (body ++ behind.take 1)).count newline = byteLength body := by
  rw [count_newline_bytesOf, List.count_append, List.count_eq_zero.2 h.body_plain,
    length_bytesOf, byteLength_append]
  cases behind with
  | nil => rfl
  | cons c rest =>
      obtain rfl := h.behind_starts c rfl
      exact Nat.add_sub_cancel _ 1

/-- The bytes of a line of characters are cut out of those of the text. -/
theorem IsLine.bytesOf_line (h : IsLine cs before body behind) :
    bytesOf (body ++ behind.take 1) =
      ((bytesOf cs).take (byteLength (before ++ (body ++ behind.take 1)))).drop
        (byteLength before) := by
  have hcs : cs = before ++ (body ++ behind.take 1) ++ behind.drop 1 := by
    rw [h.text_eq, List.append_assoc, List.append_assoc, List.take_append_drop]
  rw [congrArg bytesOf hcs, bytesOf_append _ (behind.drop 1),
    List.take_left' (length_bytesOf _), bytesOf_append before,
    List.drop_left' (length_bytesOf _)]

/-- The newlines in front of an offset are those in front of its line. -/
theorem IsLine.count_newline (h : IsLine cs before body behind) (hle : byteLength before ≤ n)
    (hlt : n < byteLength (before ++ (body ++ behind.take 1))) :
    ((bytesOf cs).take n).count newline = before.count '\n' := by
  have hend := h.byteLength_take_one_le
  simp only [byteLength_append] at hlt
  rcases Nat.exists_eq_add_of_le hle with ⟨m, rfl⟩
  have hbody : newline ∉ (bytesOf body).take m := fun hmem =>
    h.body_plain (newline_mem_bytesOf_iff.1 (List.mem_of_mem_take hmem))
  rw [h.text_eq, bytesOf_append, ← length_bytesOf, List.take_length_add_append, bytesOf_append,
    List.take_append_of_le_length (by rw [length_bytesOf]; omega), List.count_append,
    count_newline_bytesOf, List.count_eq_zero.2 hbody, Nat.add_zero]

/-- The line of an offset inside a text, told by the bytes. -/
theorem IsLine.lineOf (h : IsLine cs before body behind) (hle : byteLength before ≤ n)
    (hlt : n < byteLength (before ++ (body ++ behind.take 1))) :
    LineOf (bytesOf cs) n
      ⟨1 + before.count '\n', .ofList (body ++ behind.take 1), n - byteLength before⟩ := by
  rw [← h.count_newline hle hlt]
  exact .inside (h.lineBytes hle hlt) (by rw [String.toList_ofList, h.bytesOf_line])

/-! ## The line of an offset -/

variable {source : String} {offset : UInt32}

private theorem LineOf.ne_nil (h : LineOf bs n line) : bs ≠ [] := by
  induction h with
  | inside hline =>
      rintro rfl
      exact absurd hline.lt_length (Nat.not_lt_zero _)
  | past _ _ ih => exact ih

/-- The line of an offset inside a source is the one told by the bytes. -/
theorem exists_lineOf_of_lt (hlt : offset.toNat < byteLength source.toList) :
    ∃ line, lineAt? source offset = some line ∧
      LineOf (bytesOf source.toList) offset.toNat line := by
  rcases exists_isLine_of_lt hlt with ⟨before, body, behind, hline, hle, hstop⟩
  rcases Nat.exists_eq_add_of_le hle with ⟨m, hm⟩
  have hbound := hstop
  rw [byteLength_append] at hbound
  refine ⟨_, lineAt?_of_lt hline hm (by omega), ?_⟩
  rw [← Nat.add_sub_cancel_left (n := byteLength before) (m := m), ← hm]
  exact hline.lineOf hle hstop

/-- The line of an offset behind the end is the one told by the bytes. -/
theorem exists_lineOf_of_le (hne : source ≠ "")
    (hle : byteLength source.toList ≤ offset.toNat) :
    ∃ line, lineAt? source offset = some line ∧
      LineOf (bytesOf source.toList) offset.toNat line := by
  have hlist : source.toList ≠ [] := by simpa using hne
  rcases exists_last_line hlist with ⟨before, body, behind, hline, hlast, hne⟩
  have htake : behind.take 1 = behind := by
    simpa [hlast] using List.take_append_drop 1 behind
  have hlength : (bytesOf source.toList).length = byteLength (before ++ (body ++ behind)) := by
    rw [length_bytesOf, hline.text_eq]
  have hlength_le := Nat.le_of_eq (length_bytesOf source.toList)
  have hpos := byteLength_pos hne
  have hlineOf := hline.lineOf (n := (bytesOf source.toList).length - 1)
    (by rw [hlength, byteLength_append]; omega)
    (by rw [htake, hlength, byteLength_append]; omega)
  refine ⟨_, lineAt?_of_le hline hlast hne hle, ?_⟩
  have hpast := LineOf.past (Nat.le_trans hlength_le hle) hlineOf
  rwa [String.toList_ofList, hline.length_sub_count_newline, htake] at hpast

/-- The line of an offset is the one told by the bytes. -/
theorem lineAt?_eq_some_iff :
    lineAt? source offset = some line ↔
      LineOf (bytesOf source.toList) offset.toNat line := by
  have hexists (hne : source ≠ "") : ∃ line, lineAt? source offset = some line ∧
      LineOf (bytesOf source.toList) offset.toNat line := by
    rcases Nat.lt_or_ge offset.toNat (byteLength source.toList) with hlt | hle
    · exact exists_lineOf_of_lt hlt
    · exact exists_lineOf_of_le hne hle
  constructor
  · intro h
    have hne : source ≠ "" := fun hempty => by
      rw [lineAt?_eq_none_iff.2 hempty] at h
      cases h
    rcases hexists hne with ⟨line', hfound, hlineOf⟩
    rw [h, Option.some.injEq] at hfound
    exact hfound ▸ hlineOf
  · intro h
    have hne : source ≠ "" := by
      rintro rfl
      exact h.ne_nil rfl
    rcases hexists hne with ⟨line', hfound, hlineOf⟩
    rw [hfound, h.unique hlineOf]

/-- Larger offsets are in later lines. -/
theorem number_le_of_le {offset' : UInt32} (hle : offset ≤ offset')
    (h : lineAt? source offset = some line) (h' : lineAt? source offset' = some line') :
    line.number ≤ line'.number :=
  (lineAt?_eq_some_iff.1 h).number_le (lineAt?_eq_some_iff.1 h') (UInt32.le_iff_toNat_le.1 hle)

/-! ## All lines of a source -/

/-- No line is empty. -/
theorem ne_nil_of_mem_lines {text : List Char} (h : text ∈ lines cs) : text ≠ [] := by
  induction cs using line_induction with
  | nil => simp [lines] at h
  | last body hne hbody =>
      rw [lines_of_not_mem hbody hne, List.mem_singleton] at h
      exact h ▸ hne
  | cons first rest hplain ih =>
      rw [lines_append_newline hplain] at h
      rcases List.mem_cons.1 h with rfl | h
      · simp
      · exact ih h

/-- What is found is the line with the number that it has. -/
theorem getElem?_of_lineFrom? {ls : List (List Char)} (h : lineFrom? number n ls = some line) :
    ∃ i, line.number = number + i ∧ ls[i]? = some line.text.toList := by
  induction ls generalizing number n with
  | nil => simp [lineFrom?] at h
  | cons text rest ih =>
      unfold lineFrom? at h
      split at h
      · cases h
        exact ⟨0, rfl, by simp⟩
      · split at h
        · cases h
          exact ⟨0, rfl, by simp⟩
        · rcases ih h with ⟨i, hnumber, htext⟩
          exact ⟨i + 1, by omega, htext⟩

/-- A line is found at its first byte. -/
theorem lineFrom?_of_getElem? {ls : List (List Char)} {i : Nat} {text : List Char}
    (hne : ∀ text ∈ ls, text ≠ []) (h : ls[i]? = some text) :
    lineFrom? number (byteLength (ls.take i).flatten) ls =
      some ⟨number + i, .ofList text, 0⟩ := by
  induction i generalizing number ls with
  | zero =>
      cases ls with
      | nil => simp at h
      | cons first rest =>
          obtain rfl := Option.some.inj h
          exact lineFrom?_cons_of_lt (byteLength_pos (hne _ List.mem_cons_self)) rest
  | succ i ih =>
      cases ls with
      | nil => simp at h
      | cons first rest =>
          have hrest : rest ≠ [] := by
            rintro rfl
            simp at h
          rw [List.take_succ_cons, List.flatten_cons, byteLength_append,
            lineFrom?_cons_add hrest,
            ih (fun text hmem => hne text (List.mem_cons_of_mem _ hmem)) h,
            Nat.add_right_comm, Nat.add_assoc]

/-- The lines that are found for the offsets of a source are all its lines. -/
theorem getElem?_lines_iff (hsize : source.utf8ByteSize < UInt32.size) {i : Nat}
    {text : String} :
    (lines source.toList)[i]? = some text.toList ↔
      ∃ offset line, lineAt? source offset = some line ∧ line.number = i + 1 ∧
        line.text = text := by
  constructor
  · intro h
    -- The line is found at its first byte, which the size of the source makes an offset.
    let before := ((lines source.toList).take i).flatten
    have hbefore : byteLength before < UInt32.size := by
      have hsource : before ++ ((lines source.toList).drop i).flatten = source.toList := by
        rw [← List.flatten_append, List.take_append_drop, flatten_lines]
      have hlength := congrArg byteLength hsource
      rw [byteLength_append, byteLength_toList] at hlength
      omega
    refine ⟨.ofNat (byteLength before), ⟨1 + i, text, 0⟩, ?_, Nat.add_comm .., rfl⟩
    rw [lineAt?, UInt32.toNat_ofNat_of_lt' hbefore,
      lineFrom?_of_getElem? (fun _ => ne_nil_of_mem_lines) h, String.ofList_toList]
  · rintro ⟨offset, line, hfound, hnumber, rfl⟩
    rcases getElem?_of_lineFrom? hfound with ⟨j, hj, htext⟩
    obtain rfl : j = i := by omega
    exact htext

private theorem join_map_ofList_lines (source : String) :
    String.join ((lines source.toList).map String.ofList) = source := by
  apply String.toList_injective
  simp [String.toList_join, List.flatMap_def]

/-- An offset has no line in the empty source only, and in every other source the line
that the bytes tell.  Larger offsets are in later lines, and the lines that are found,
in the order of their numbers, are the source, unless it is too large for its offsets. -/
theorem lineAt?_exact (source : String) :
    (∀ offset, lineAt? source offset = none ↔ source = "") ∧
      (∀ offset line, lineAt? source offset = some line ↔
        LineOf (bytesOf source.toList) offset.toNat line) ∧
      (∀ offset offset' line line', offset ≤ offset' → lineAt? source offset = some line →
        lineAt? source offset' = some line' → line.number ≤ line'.number) ∧
      (source.utf8ByteSize < UInt32.size → ∃ texts, String.join texts = source ∧
        ∀ i text, texts[i]? = some text ↔ ∃ offset line, lineAt? source offset = some line ∧
          line.number = i + 1 ∧ line.text = text) := by
  refine ⟨fun _ => lineAt?_eq_none_iff, fun _ _ => lineAt?_eq_some_iff,
    fun _ _ _ _ => number_le_of_le, fun hsize => ?_⟩
  refine ⟨(lines source.toList).map String.ofList, join_map_ofList_lines source, ?_⟩
  intro i text
  rw [← getElem?_lines_iff hsize, List.getElem?_map, Option.map_eq_some_iff]
  constructor
  · rintro ⟨cs, hcs, rfl⟩
    rw [hcs, String.toList_ofList]
  · intro h
    exact ⟨text.toList, h, String.ofList_toList⟩

/-- The case of an offset in the middle of a character, of one at an empty line, and of
one far behind the end. -/
theorem lineAt?_exact_blank_line :
    LineOf (bytesOf "é\n\nb".toList) 1 ⟨1, "é\n", 1⟩ ∧
      LineOf (bytesOf "é\n\nb".toList) 3 ⟨2, "\n", 0⟩ ∧
      LineOf (bytesOf "é\n\nb".toList) 9 ⟨3, "b", 1⟩ ∧
      ∃ texts, String.join texts = "é\n\nb" ∧ texts[1]? = some "\n" := by
  rcases lineAt?_exact "é\n\nb" with ⟨-, hline, -, htexts⟩
  rcases htexts (by decide) with ⟨texts, hjoin, htext⟩
  exact ⟨(hline 1 _).1 rfl, (hline 3 _).1 rfl, (hline 9 _).1 rfl, texts, hjoin,
    (htext 1 _).2 ⟨3, ⟨2, "\n", 0⟩, rfl, rfl, rfl⟩⟩

end ExprLang
