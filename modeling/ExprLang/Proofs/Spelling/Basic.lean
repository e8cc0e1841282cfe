import ExprLang.Parser.Expression
import Mathlib.Data.List.Forall2

/-!
# Spellings of expressions

Which lists of tokens spell an expression.  A tree keeps some tokens, drops the
punctuation that its shape implies, and holds the value of a constant instead
of its token; walking the tree in order and putting back what it dropped gives
one mark for each token of a spelling.

Main results:

- Theorem `fits_append_iff`: a list fits marks in a row exactly if it is cut
  into parts that fit them.
- Theorems `spells_binary_iff` and so on: what the spellings of a node are made
  of.
-/

namespace ExprLang

/-! ## Constants and targets -/

/-- What value a token denotes. -/
inductive Token.Denotes : Token → Value → Prop where
  | number {t : Token} {x : Float} (hkind : t.kind = .number)
      (hread : Decimal.read? t.text = some x) : t.Denotes (.number x)
  | string {t : Token} (hkind : t.kind = .string) : t.Denotes (.string t.text)
  | true {t : Token} (hkind : t.kind = .kwTrue) : t.Denotes (.boolean true)
  | false {t : Token} (hkind : t.kind = .kwFalse) : t.Denotes (.boolean false)
  | nil {t : Token} (hkind : t.kind = .kwNil) : t.Denotes .nil

/-- The constants are the tokens that denote a value. -/
theorem Token.constant?_eq_ok_iff {t : Token} {value : Value} :
    t.constant? = some (.ok value) ↔ t.Denotes value := by
  constructor
  · intro h
    unfold constant? at h
    split at h
    · rename_i hkind
      cases hread : Decimal.read? t.text with
      | none => simp [hread] at h
      | some x =>
          simp only [hread, Option.some.injEq, Except.ok.injEq] at h
          subst h
          exact .number hkind hread
    all_goals
      rename_i hkind
      cases h
    · exact .string hkind
    · exact .true hkind
    · exact .false hkind
    · exact .nil hkind
  · intro h
    cases h with
    | number hkind hread => simp [constant?, hkind, hread]
    | string hkind => simp [constant?, hkind]
    | true hkind => simp [constant?, hkind]
    | false hkind => simp [constant?, hkind]
    | nil hkind => simp [constant?, hkind]

/-- The expressions of one token. -/
theorem Token.leaf_eq_ok_iff {t : Token} {e : Expr} :
    t.leaf = .ok e ↔
      (∃ value, t.Denotes value ∧ e = .literal value t.span) ∨
        t.kind = .identifier ∧ e = .var t := by
  simp only [← constant?_eq_ok_iff]
  cases hconstant : t.constant? with
  | some value? =>
      have hkind : t.kind ≠ .identifier := by
        intro hkind
        simp [constant?, hkind] at hconstant
      cases value? with
      | error d => simp [leaf, hconstant, Except.map, hkind]
      | ok value => simp [leaf, hconstant, Except.map, hkind, eq_comm]
  | none =>
      by_cases hkind : t.kind = .identifier
      · simp [leaf, hconstant, hkind, eq_comm]
      · simp [leaf, hconstant, hkind]

/-- Only variables and properties can be assigned to. -/
theorem Expr.assigned?_eq_some_iff {value left e : Expr} :
    Expr.assigned? value left = some e ↔
      (∃ name, left = .var name ∧ e = .assign name value) ∨
        ∃ object name, left = .get object name ∧ e = .set object name value := by
  cases left <;> simp [Expr.assigned?, eq_comm]

/-! ## Marks -/

/-- What stands at one place of a spelling. -/
inductive Mark where
  /-- The very token that the tree keeps. -/
  | kept (t : Token)
  /-- Any token of a kind, which the tree drops. -/
  | dropped (kind : TokenKind)
  /-- Any token that denotes a constant value. -/
  | constant (value : Value) (span : Span)

/-- Whether a token may stand at a place. -/
inductive Mark.Fits : Mark → Token → Prop where
  | kept (t : Token) : Fits (.kept t) t
  | dropped (t : Token) : Fits (.dropped t.kind) t
  | constant {t : Token} {value : Value} (h : t.Denotes value) :
      Fits (.constant value t.span) t

/-- Whether tokens fit marks one by one. -/
abbrev Fits (marks : List Mark) (ts : List Token) : Prop :=
  List.Forall₂ Mark.Fits marks ts

/-- Only the token that is kept fits its mark. -/
@[simp]
theorem fits_kept_iff {t u : Token} : (Mark.kept t).Fits u ↔ u = t := by
  constructor
  · rintro ⟨⟩
    rfl
  · rintro rfl
    exact .kept u

/-- Any token of its kind fits the mark of a token that is dropped. -/
@[simp]
theorem fits_dropped_iff {kind : TokenKind} {u : Token} :
    (Mark.dropped kind).Fits u ↔ u.kind = kind := by
  constructor
  · rintro ⟨⟩
    rfl
  · rintro rfl
    exact .dropped u

/-- A token fits the mark of a constant if it denotes its value where the constant is. -/
@[simp]
theorem fits_constant_iff {value : Value} {span : Span} {u : Token} :
    (Mark.constant value span).Fits u ↔
      u.Denotes value ∧ u.span = span := by
  constructor
  · rintro ⟨⟩
    rename_i h
    exact ⟨h, rfl⟩
  · rintro ⟨h, rfl⟩
    exact .constant h

/-- Marks fit tokens one by one. -/
theorem fits_cons_iff {mark : Mark} {marks : List Mark} {ts : List Token} :
    Fits (mark :: marks) ts ↔
      ∃ t rest, ts = t :: rest ∧ mark.Fits t ∧ Fits marks rest := by
  rw [Fits, List.forall₂_cons_left_iff]
  constructor
  · rintro ⟨t, rest, h, hrest, rfl⟩
    exact ⟨t, rest, rfl, h, hrest⟩
  · rintro ⟨t, rest, rfl, h, hrest⟩
    exact ⟨t, rest, h, hrest, rfl⟩

/-- A list fits marks in a row exactly if it is cut into parts that fit them. -/
theorem fits_append_iff {marks marks' : List Mark} {ts : List Token} :
    Fits (marks ++ marks') ts ↔
      ∃ us vs, ts = us ++ vs ∧ Fits marks us ∧ Fits marks' vs := by
  induction marks generalizing ts with
  | nil =>
      constructor
      · intro h
        exact ⟨[], ts, rfl, .nil, h⟩
      · rintro ⟨us, vs, rfl, hus, hvs⟩
        cases hus
        exact hvs
  | cons mark marks ih =>
      rw [List.cons_append, fits_cons_iff]
      constructor
      · rintro ⟨t, rest, rfl, hmark, hrest⟩
        obtain ⟨us, vs, rfl, hus, hvs⟩ := ih.1 hrest
        exact ⟨t :: us, vs, rfl, .cons hmark hus, hvs⟩
      · rintro ⟨us, vs, rfl, hus, hvs⟩
        obtain ⟨t, rest, rfl, hmark, hrest⟩ := fits_cons_iff.1 hus
        exact ⟨t, rest ++ vs, rfl, hmark, ih.2 ⟨rest, vs, rfl, hrest, hvs⟩⟩

/-! ## The marks of an expression -/

namespace Expr

mutual

/-- The marks of an expression from left to right. -/
def marks : Expr → List Mark
  | .binary left operator right => left.marks ++ .kept operator :: right.marks
  | .group inner => .dropped .openParen :: (inner.marks ++ [.dropped .closeParen])
  | .literal value span => [.constant value span]
  | .unary operator operand => .kept operator :: operand.marks
  | .var name => [.kept name]
  | .assign name value => .kept name :: .dropped .assignment :: value.marks
  | .logical left operator right => left.marks ++ .kept operator :: right.marks
  | .call callee paren arguments =>
      callee.marks ++ .dropped .openParen :: (marksAll arguments ++ [.kept paren])
  | .get object name => object.marks ++ [.dropped .dot, .kept name]
  | .set object name value =>
      object.marks ++
        .dropped .dot :: .kept name :: .dropped .assignment :: value.marks
  | .this keyword => [.kept keyword]
  | .super keyword method => [.kept keyword, .dropped .dot, .kept method]

/-- The marks of expressions between commas. -/
def marksAll : List Expr → List Mark
  | [] => []
  | [e] => e.marks
  | e :: e' :: es => e.marks ++ .dropped .comma :: marksAll (e' :: es)

end

/-- Whether tokens spell an expression. -/
def Spells (e : Expr) (ts : List Token) : Prop :=
  Fits e.marks ts

/-- Whether tokens spell expressions between commas. -/
def SpellsAll (es : List Expr) (ts : List Token) : Prop :=
  Fits (marksAll es) ts

section Spells

variable {left right inner operand value callee object e e' : Expr}
  {operator name paren keyword method : Token} {arguments es : List Expr}
  {ts : List Token}

/-- A binary operator stands between its operands. -/
theorem spells_binary_iff :
    (Expr.binary left operator right).Spells ts ↔
      ∃ us vs, ts = us ++ operator :: vs ∧ left.Spells us ∧ right.Spells vs := by
  simp only [Spells, marks, fits_append_iff, fits_cons_iff, fits_kept_iff]
  grind

/-- A logical operator stands between its operands. -/
theorem spells_logical_iff :
    (Expr.logical left operator right).Spells ts ↔
      ∃ us vs, ts = us ++ operator :: vs ∧ left.Spells us ∧ right.Spells vs := by
  simp only [Spells, marks, fits_append_iff, fits_cons_iff, fits_kept_iff]
  grind

/-- A group is spelled with parentheses around what is in it. -/
theorem spells_group_iff :
    (Expr.group inner).Spells ts ↔
      ∃ opening us closing, ts = opening :: (us ++ [closing]) ∧
        opening.kind = .openParen ∧ inner.Spells us ∧ closing.kind = .closeParen := by
  simp only [Spells, marks, fits_append_iff, fits_cons_iff, fits_dropped_iff,
    List.forall₂_nil_left_iff]
  grind

/-- A constant is spelled by a token that denotes it. -/
theorem spells_literal_iff {v : Value} {span : Span} :
    (Expr.literal v span).Spells ts ↔
      ∃ t, ts = [t] ∧ t.Denotes v ∧ t.span = span := by
  simp only [Spells, marks, fits_cons_iff, fits_constant_iff,
    List.forall₂_nil_left_iff]
  grind

/-- A unary operator stands in front of its operand. -/
theorem spells_unary_iff :
    (Expr.unary operator operand).Spells ts ↔
      ∃ us, ts = operator :: us ∧ operand.Spells us := by
  simp only [Spells, marks, fits_cons_iff, fits_kept_iff]
  grind

/-- A variable is spelled by its name. -/
theorem spells_var_iff : (Expr.var name).Spells ts ↔ ts = [name] := by
  simp only [Spells, marks, fits_cons_iff, fits_kept_iff, List.forall₂_nil_left_iff]
  grind

/-- An assignment is spelled with a sign between the name and the value. -/
theorem spells_assign_iff :
    (Expr.assign name value).Spells ts ↔
      ∃ equals us, ts = name :: equals :: us ∧ equals.kind = .assignment ∧
        value.Spells us := by
  simp only [Spells, marks, fits_cons_iff, fits_kept_iff, fits_dropped_iff]
  grind

/-- A call is spelled with its arguments between parentheses. -/
theorem spells_call_iff :
    (Expr.call callee paren arguments).Spells ts ↔
      ∃ us opening vs, ts = us ++ opening :: (vs ++ [paren]) ∧ callee.Spells us ∧
        opening.kind = .openParen ∧ SpellsAll arguments vs := by
  simp only [Spells, SpellsAll, marks, fits_append_iff, fits_cons_iff, fits_kept_iff,
    fits_dropped_iff, List.forall₂_nil_left_iff]
  grind

/-- A property is spelled with a dot in front of its name. -/
theorem spells_get_iff :
    (Expr.get object name).Spells ts ↔
      ∃ us dot, ts = us ++ [dot, name] ∧ object.Spells us ∧ dot.kind = .dot := by
  simp only [Spells, marks, fits_append_iff, fits_cons_iff, fits_kept_iff,
    fits_dropped_iff, List.forall₂_nil_left_iff]
  grind

/-- An assignment to a property is spelled with a dot and a sign. -/
theorem spells_set_iff :
    (Expr.set object name value).Spells ts ↔
      ∃ us dot equals vs, ts = us ++ dot :: name :: equals :: vs ∧
        object.Spells us ∧ dot.kind = .dot ∧ equals.kind = .assignment ∧
        value.Spells vs := by
  simp only [Spells, marks, fits_append_iff, fits_cons_iff, fits_kept_iff,
    fits_dropped_iff]
  grind

/-- `this` is spelled by its keyword. -/
theorem spells_this_iff : (Expr.this keyword).Spells ts ↔ ts = [keyword] := by
  simp only [Spells, marks, fits_cons_iff, fits_kept_iff, List.forall₂_nil_left_iff]
  grind

/-- `super` is spelled with a dot and the name of a method. -/
theorem spells_super_iff :
    (Expr.super keyword method).Spells ts ↔
      ∃ dot, ts = [keyword, dot, method] ∧ dot.kind = .dot := by
  simp only [Spells, marks, fits_cons_iff, fits_kept_iff, fits_dropped_iff,
    List.forall₂_nil_left_iff]
  grind

@[simp]
theorem spellsAll_nil_iff : SpellsAll [] ts ↔ ts = [] := by
  simp [SpellsAll, marksAll]

@[simp]
theorem spellsAll_singleton_iff : SpellsAll [e] ts ↔ e.Spells ts := by
  simp [SpellsAll, marksAll, Spells]

/-- Arguments are spelled with a comma between any two. -/
theorem spellsAll_cons_cons_iff :
    SpellsAll (e :: e' :: es) ts ↔
      ∃ us comma vs, ts = us ++ comma :: vs ∧ e.Spells us ∧ comma.kind = .comma ∧
        SpellsAll (e' :: es) vs := by
  simp only [SpellsAll, Spells, marksAll, fits_append_iff, fits_cons_iff,
    fits_dropped_iff]
  grind

end Spells

end Expr

end ExprLang
