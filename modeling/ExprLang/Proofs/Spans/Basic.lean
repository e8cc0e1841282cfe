import ExprLang.Source.Position

/-!
# Spans in the order of a source

Spans of a file are laid out between two of its offsets if none of them is empty
and each starts no earlier than the one before it ends.  What is laid out can be
cut, and some of it can be left out.

Main results:

- Theorem `laid_append_iff`: spans in a row are laid out up to an offset between
  them and from there on.
- Theorem `laid_iff`: spans that are laid out are in order and do not overlap.
- Theorem `Laid.tighten`: spans are laid out from the start of the first to the
  end of the last.
-/

namespace ExprLang

namespace Span

/-- A span covers at least one byte of a file. -/
structure Proper (file : String) (span : Span) : Prop where
  start_file : span.start.file = file
  stop_file : span.stop.file = file
  lt : span.start.offset.toNat < span.stop.offset.toNat

/-- A span ends before another one starts. -/
def Before (first second : Span) : Prop :=
  first.stop.offset.toNat ≤ second.start.offset.toNat

/-- A span lies inside another one. -/
structure Inside (inner outer : Span) : Prop where
  start_le : outer.start.offset.toNat ≤ inner.start.offset.toNat
  stop_le : inner.stop.offset.toNat ≤ outer.stop.offset.toNat

/-- A span lies inside itself. -/
theorem Inside.refl (span : Span) : span.Inside span :=
  ⟨Nat.le_refl _, Nat.le_refl _⟩

/-- What lies inside a part lies inside the whole. -/
theorem Inside.trans {a b c : Span} (hab : a.Inside b) (hbc : b.Inside c) : a.Inside c :=
  ⟨Nat.le_trans hbc.start_le hab.start_le, Nat.le_trans hab.stop_le hbc.stop_le⟩

end Span

/-- Spans of a file are laid out one behind another between two offsets. -/
def Laid (file : String) : Nat → List Span → Nat → Prop
  | first, [], last => first ≤ last
  | first, span :: spans, last =>
      first ≤ span.start.offset.toNat ∧ span.Proper file ∧
        Laid file span.stop.offset.toNat spans last

section Laid

variable {file : String} {first first' last last' : Nat} {span a b : Span}
  {spans spans' : List Span}

private theorem Laid.mono (h : Laid file first spans last) (hfirst : first' ≤ first)
    (hlast : last ≤ last') : Laid file first' spans last' := by
  induction spans generalizing first first' with
  | nil => exact Nat.le_trans hfirst (Nat.le_trans h hlast)
  | cons span spans ih =>
      exact ⟨Nat.le_trans hfirst h.1, h.2.1, ih h.2.2 (Nat.le_refl _)⟩

/-- Spans without the first one are laid out in the same place. -/
theorem Laid.tail (h : Laid file first (span :: spans) last) :
    Laid file first spans last := by
  have hle : first ≤ span.stop.offset.toNat := Nat.le_trans h.1 (Nat.le_of_lt h.2.1.lt)
  exact h.2.2.mono hle (Nat.le_refl _)

/-- Spans in a row are laid out up to an offset between them and from there on. -/
theorem laid_append_iff :
    Laid file first (spans ++ spans') last ↔
      ∃ mid, Laid file first spans mid ∧ Laid file mid spans' last := by
  induction spans generalizing first with
  | nil =>
      constructor
      · intro h
        exact ⟨first, Nat.le_refl _, h⟩
      · rintro ⟨mid, hle, h⟩
        exact h.mono hle (Nat.le_refl _)
  | cons span spans ih => simp [Laid, ih, and_assoc]

/-- Spans that are laid out are in order and do not overlap. -/
theorem laid_iff :
    Laid file first spans last ↔
      first ≤ last ∧
        (∀ span ∈ spans, span.Proper file ∧ first ≤ span.start.offset.toNat ∧
          span.stop.offset.toNat ≤ last) ∧
        spans.Pairwise Span.Before := by
  induction spans generalizing first with
  | nil => simp [Laid]
  | cons span spans ih =>
      simp only [Laid, ih, List.forall_mem_cons, List.pairwise_cons]
      constructor
      · rintro ⟨hfirst, hspan, hle, hspans, hpairwise⟩
        have hlt := hspan.lt
        refine ⟨by omega, ⟨⟨hspan, hfirst, hle⟩, ?_⟩, ?_, hpairwise⟩
        · intro other hother
          rcases hspans other hother with ⟨hproper, hstart, hstop⟩
          exact ⟨hproper, by omega, hstop⟩
        · intro other hother
          exact (hspans other hother).2.1
      · rintro ⟨-, ⟨⟨hspan, hfirst, hle⟩, hspans⟩, hbefore, hpairwise⟩
        refine ⟨hfirst, hspan, hle, ?_, hpairwise⟩
        intro other hother
        rcases hspans other hother with ⟨hproper, -, hstop⟩
        exact ⟨hproper, hbefore other hother, hstop⟩

/-- Spans are laid out from the start of the first to the end of the last, and so
is the span that these two make. -/
theorem Laid.tighten (h : Laid file first spans last) (hhead : spans.head? = some a)
    (hlast : spans.getLast? = some b) :
    Laid file first [a.to b] last ∧
      Laid file a.start.offset.toNat spans b.stop.offset.toNat := by
  rcases List.getLast?_eq_some_iff.1 hlast with ⟨front, hfront⟩
  rcases List.head?_eq_some_iff.1 hhead with ⟨rest, hrest⟩
  have hshort : Laid file first spans b.stop.offset.toNat := by
    rw [hfront] at h ⊢
    rcases laid_append_iff.1 h with ⟨mid, hmid, hb⟩
    exact laid_append_iff.2 ⟨mid, hmid, hb.1, hb.2.1, Nat.le_refl _⟩
  rcases (laid_iff.1 h).2.1 b (List.mem_of_getLast? hlast) with ⟨hb, -, hb_last⟩
  rw [hrest] at hshort ⊢
  rcases hshort with ⟨hfirst, ha, htail⟩
  have hlt : a.start.offset.toNat < b.stop.offset.toNat :=
    Nat.lt_of_lt_of_le ha.lt (laid_iff.1 htail).1
  exact ⟨⟨hfirst, ⟨ha.start_file, hb.stop_file, hlt⟩, hb_last⟩, Nat.le_refl _, ha, htail⟩

end Laid

end ExprLang
