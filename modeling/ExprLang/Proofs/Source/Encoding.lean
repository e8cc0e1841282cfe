import ExprLang.Text.Bytes

/-!
# Bytes of a text

Offsets count the bytes of the encoding of a text.  A newline is a single byte, and
that byte is part of no other character, so newlines can be counted and looked for
among the bytes without reading characters.

Main results:

- Theorem `bytesOf_toList`: the bytes of a text are those of its encoding.
- Theorem `newline_mem_bytesOf_iff`: a byte that ends a line is a newline of the text.
- Theorem `count_newline_bytesOf`: there are as many of them as newlines.
-/

namespace ExprLang.Text

/-- The bytes that the characters take in UTF-8. -/
def bytesOf (cs : List Char) : List UInt8 :=
  cs.flatMap String.utf8EncodeChar

@[simp]
theorem bytesOf_cons (c : Char) (cs : List Char) :
    bytesOf (c :: cs) = String.utf8EncodeChar c ++ bytesOf cs :=
  rfl

@[simp]
theorem bytesOf_append (xs ys : List Char) : bytesOf (xs ++ ys) = bytesOf xs ++ bytesOf ys :=
  List.flatMap_append

@[simp]
theorem length_bytesOf (cs : List Char) : (bytesOf cs).length = byteLength cs := by
  induction cs with
  | nil => rfl
  | cons c cs ih => simp [ih]

/-- The bytes of the characters of a string are those of the string. -/
theorem bytesOf_toList (s : String) : bytesOf s.toList = s.toUTF8.data.toList := by
  rw [String.toUTF8_eq_toByteArray, ← String.utf8Encode_toList]
  simp [List.utf8Encode, bytesOf]

/-- A string is told by the bytes of its characters. -/
theorem bytesOf_toList_inj {s t : String} : bytesOf s.toList = bytesOf t.toList ↔ s = t := by
  simp [bytesOf_toList, Array.toList_inj, ← ByteArray.ext_iff, String.toByteArray_inj]

/-! ## Newlines -/

/-- The byte that ends a line. -/
def newline : UInt8 :=
  10

/-- A byte with a high bit is no newline. -/
theorem newline_ne_ofNat {n width high : Nat} (hhigh : 10 < high)
    (hle : width + high ≤ 256) (hpos : 0 < width) :
    newline ≠ UInt8.ofNat (n % width + high) := by
  intro heq
  have hlt := Nat.mod_lt n hpos
  have hnat := congrArg UInt8.toNat heq
  simp only [newline, UInt8.reduceToNat, UInt8.toNat_ofNat'] at hnat
  omega

/-- A newline is part of no other character. -/
theorem newline_mem_utf8EncodeChar_iff {c : Char} :
    newline ∈ String.utf8EncodeChar c ↔ c = '\n' := by
  constructor
  · intro h
    simp only [String.utf8EncodeChar] at h
    by_cases hascii : c.val.toNat ≤ 127
    · rw [if_pos hascii] at h
      have hnat := congrArg UInt8.toNat (List.mem_singleton.1 h)
      rw [UInt8.toNat_ofNat', Nat.mod_eq_of_lt (by omega)] at hnat
      exact Char.ext (UInt32.toNat_inj.1 hnat.symm)
    · -- All bytes of a longer encoding have a high bit.
      exfalso
      rw [if_neg hascii] at h
      split at h
      · simp (disch := decide) only [List.mem_cons, List.not_mem_nil, newline_ne_ofNat,
          or_false] at h
      · split at h <;>
          simp (disch := decide) only [List.mem_cons, List.not_mem_nil, newline_ne_ofNat,
            or_false] at h
  · rintro rfl
    decide

private theorem count_newline_utf8EncodeChar (c : Char) :
    (String.utf8EncodeChar c).count newline = [c].count '\n' := by
  by_cases hc : c = '\n'
  · subst hc
    decide
  · rw [List.count_eq_zero.2 (mt newline_mem_utf8EncodeChar_iff.1 hc),
      List.count_eq_zero.2 (by simpa [eq_comm] using hc)]

/-- A byte that ends a line is a newline of the text. -/
theorem newline_mem_bytesOf_iff {cs : List Char} : newline ∈ bytesOf cs ↔ '\n' ∈ cs := by
  simp [bytesOf, List.mem_flatMap, newline_mem_utf8EncodeChar_iff]

/-- A newline is a single byte. -/
theorem byteLength_append_newline (cs : List Char) :
    byteLength (cs ++ ['\n']) = byteLength cs + 1 := by
  rw [byteLength_append]
  rfl

/-- The byte of a newline stands behind those of the text in front of it. -/
theorem getElem?_bytesOf_newline (front rest : List Char) :
    (bytesOf (front ++ '\n' :: rest))[byteLength front]? = some newline := by
  rw [bytesOf_append, ← length_bytesOf, List.getElem?_append_right (Nat.le_refl _),
    Nat.sub_self]
  rfl

/-- There are as many bytes that end a line as newlines. -/
@[simp]
theorem count_newline_bytesOf (cs : List Char) :
    (bytesOf cs).count newline = cs.count '\n' := by
  induction cs with
  | nil => rfl
  | cons c cs ih =>
      rw [bytesOf_cons, List.count_append, count_newline_utf8EncodeChar, ih,
        ← List.count_append, List.singleton_append]

end ExprLang.Text
