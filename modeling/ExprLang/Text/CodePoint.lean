/-!
# Ranges of code points

Properties of characters beyond ASCII are tables of closed ranges of code
points.  This module fixes their shape and the lookup.
-/

namespace ExprLang.Text

/-- A closed range of code points. -/
abbrev CodePointRange := Nat × Nat

/-- Whether a character lies in one of the ranges. -/
def inRanges (ranges : List CodePointRange) (c : Char) : Bool :=
  ranges.any fun range => range.1 ≤ c.toNat && c.toNat ≤ range.2

end ExprLang.Text
