/-!
# Text measured in bytes

Offsets into a source count the bytes of its UTF-8 encoding.  This module gives
the byte length of a list of characters and the cut at a byte offset, which is
defined only where the offset falls between two characters.

Main results:

- Theorem `byteLength_toList`: the byte length is the size of the encoding.
- Theorem `dropBytes?_append`: a cut behind a prefix leaves what follows it.
- Theorem `eq_append_of_dropBytes?`: a cut that succeeds splits the text there.
-/

namespace ExprLang.Text

/-- Number of bytes that the characters take in UTF-8. -/
def byteLength : List Char → Nat
  | [] => 0
  | c :: cs => c.utf8Size + byteLength cs

@[simp]
theorem byteLength_nil : byteLength [] = 0 :=
  rfl

@[simp]
theorem byteLength_cons (c : Char) (cs : List Char) :
    byteLength (c :: cs) = c.utf8Size + byteLength cs :=
  rfl

@[simp]
theorem byteLength_append (xs ys : List Char) :
    byteLength (xs ++ ys) = byteLength xs + byteLength ys := by
  induction xs with
  | nil => simp
  | cons c cs ih => simp [ih, Nat.add_assoc]

/-- The byte length of the characters of a string is its size in UTF-8. -/
theorem byteLength_toList (s : String) : byteLength s.toList = s.utf8ByteSize := by
  have hsize (cs : List Char) : (String.ofList cs).utf8ByteSize = byteLength cs := by
    induction cs with
    | nil => rfl
    | cons c cs ih =>
        have hcons : String.ofList (c :: cs) = String.singleton c ++ String.ofList cs := by
          apply String.toList_injective
          simp
        rw [hcons, String.utf8ByteSize_append, ih, byteLength_cons]
        simp
  rw [← hsize, String.ofList_toList]

/-- A text has at least as many bytes as characters. -/
theorem length_le_byteLength (cs : List Char) : cs.length ≤ byteLength cs := by
  induction cs with
  | nil => simp
  | cons c cs ih =>
      have := c.utf8Size_pos
      simp only [List.length_cons, byteLength_cons]
      omega

/-- It has as many bytes as characters if each of them is a single byte. -/
theorem byteLength_eq_length_iff {cs : List Char} :
    byteLength cs = cs.length ↔ ∀ c ∈ cs, c.utf8Size = 1 := by
  induction cs with
  | nil => simp
  | cons c cs ih =>
      have hpos := c.utf8Size_pos
      have hle := length_le_byteLength cs
      rw [List.forall_mem_cons, ← ih, byteLength_cons, List.length_cons]
      omega

/-- Only the empty text takes no bytes. -/
theorem byteLength_pos {cs : List Char} (h : cs ≠ []) : 0 < byteLength cs := by
  have := length_le_byteLength cs
  have := List.length_pos_iff.2 h
  omega

/-- The text behind the first `n` bytes, or `none` if offset `n` lies inside a
character or past the end. -/
def dropBytes? : Nat → List Char → Option (List Char)
  | 0, cs => some cs
  | _ + 1, [] => none
  | n + 1, c :: cs =>
      if c.utf8Size ≤ n + 1 then dropBytes? (n + 1 - c.utf8Size) cs else none

@[simp]
theorem dropBytes?_zero (cs : List Char) : dropBytes? 0 cs = some cs := by
  simp [dropBytes?]

/-- One whole character may be cut off in front of a larger cut. -/
theorem dropBytes?_cons_add (c : Char) (cs : List Char) (n : Nat) :
    dropBytes? (c.utf8Size + n) (c :: cs) = dropBytes? n cs := by
  have hpos := c.utf8Size_pos
  obtain ⟨k, hk⟩ : ∃ k, c.utf8Size + n = k + 1 := ⟨c.utf8Size + n - 1, by omega⟩
  rw [hk, dropBytes?, if_pos (by omega), ← hk]
  congr 1
  omega

/-- Cutting behind a prefix leaves the rest of the text. -/
theorem dropBytes?_append (xs ys : List Char) :
    dropBytes? (byteLength xs) (xs ++ ys) = some ys := by
  induction xs with
  | nil => simp
  | cons c cs ih =>
      rw [byteLength_cons, List.cons_append, dropBytes?_cons_add]
      exact ih

/-- A successful cut splits the text at that many bytes. -/
theorem eq_append_of_dropBytes? {n : Nat} {cs rest : List Char}
    (h : dropBytes? n cs = some rest) :
    ∃ front, cs = front ++ rest ∧ byteLength front = n := by
  induction cs generalizing n with
  | nil =>
      cases n with
      | zero => exact ⟨[], by simpa using h, rfl⟩
      | succ n => simp [dropBytes?] at h
  | cons c cs ih =>
      cases n with
      | zero => exact ⟨[], by simpa using h, rfl⟩
      | succ n =>
          simp only [dropBytes?] at h
          split at h
          · obtain ⟨front, hcs, hlen⟩ := ih h
            exact ⟨c :: front, by simp [hcs], by simp only [byteLength_cons]; omega⟩
          · simp at h

end ExprLang.Text
