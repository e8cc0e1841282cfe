import ExprLang.Text.CodePoint

/-!
# Blank characters

A character is blank if it has the Unicode property White_Space.  The 25 such
characters have been stable since Unicode 6.3.  Blanks separate tokens, and
they are cut off at the end of a line that is shown.
-/

namespace ExprLang.Text

/-- The characters with the property White_Space. -/
def blankRanges : List CodePointRange :=
  [(0x09, 0x0D), (0x20, 0x20), (0x85, 0x85), (0xA0, 0xA0), (0x1680, 0x1680),
   (0x2000, 0x200A), (0x2028, 0x2029), (0x202F, 0x202F), (0x205F, 0x205F),
   (0x3000, 0x3000)]

/-- Whether the character is white space. -/
def isBlank (c : Char) : Bool :=
  inRanges blankRanges c

/-- The text without the blanks at its end. -/
def trimBlankEnd (cs : List Char) : List Char :=
  (cs.reverse.dropWhile isBlank).reverse

/-- A blank at the end is cut off. -/
theorem trimBlankEnd_append_blank {c : Char} (hc : isBlank c = true) (cs : List Char) :
    trimBlankEnd (cs ++ [c]) = trimBlankEnd cs := by
  simp [trimBlankEnd, hc]

/-- What stands in front of a character that is not blank is kept. -/
theorem trimBlankEnd_append_cons {c : Char} (hc : isBlank c = false) (cs rest : List Char) :
    trimBlankEnd (cs ++ c :: rest) = cs ++ c :: trimBlankEnd rest := by
  have hstop : (c :: cs.reverse).dropWhile isBlank = c :: cs.reverse := by
    simp [hc]
  have hreverse : (cs ++ c :: rest).reverse = rest.reverse ++ (c :: cs.reverse) := by
    simp
  rw [trimBlankEnd, trimBlankEnd, hreverse, List.dropWhile_append, hstop]
  split
  · rename_i hnil
    simp [List.isEmpty_iff.1 hnil]
  · simp

/-- Nothing is added where blanks are cut off. -/
theorem trimBlankEnd_subset (cs : List Char) : trimBlankEnd cs ⊆ cs := by
  intro c hc
  exact List.mem_reverse.1 ((List.dropWhile_suffix _).subset (List.mem_reverse.1 hc))

end ExprLang.Text
