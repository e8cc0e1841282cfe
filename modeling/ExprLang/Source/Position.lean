/-!
# Positions and spans

A position is a byte offset into a named source, and a span is a pair of
positions.  Offsets are 32-bit words: the offset of a byte behind the first
`2 ^ 32` wraps around.
-/

namespace ExprLang

/-- A byte offset into a named source. -/
structure Position where
  /-- Offset in bytes, modulo `2 ^ 32`. -/
  offset : UInt32
  /-- Name of the source. -/
  file : String
deriving DecidableEq, Repr, Inhabited

/-- The source between two positions, the end not included. -/
structure Span where
  start : Position
  stop : Position
deriving DecidableEq, Repr, Inhabited

/-- The position of things that come from no source. -/
def Position.null : Position :=
  ⟨0, "<null>"⟩

/-- The position of a byte of a named source. -/
def Position.ofByte (file : String) (byte : Nat) : Position :=
  ⟨byte.toUInt32, file⟩

/-- Below `2 ^ 32` an offset is the number of the byte. -/
theorem Position.toNat_offset_ofByte {file : String} {byte : Nat}
    (h : byte < UInt32.size) : (Position.ofByte file byte).offset.toNat = byte := by
  simp only [ofByte, Nat.toUInt32, UInt32.toNat_ofNat']
  exact Nat.mod_eq_of_lt h

/-- The span of things that come from no source. -/
def Span.null : Span :=
  ⟨.null, .null⟩

/-- The empty span at a position. -/
def Span.empty (position : Position) : Span :=
  ⟨position, position⟩

/-- From the start of the first span to the end of the second. -/
def Span.to (first last : Span) : Span :=
  ⟨first.start, last.stop⟩

end ExprLang
