import ExprLang.Proofs.Decimal.Nearest
import ExprLang.Proofs.Printing.Expression
import ExprLang.Proofs.Spans.Nesting

/-!
# The printed form of a source

Strings are shown without quotes, so their text may look like anything, and a number
that is too large for a finite one looks like a variable.  Apart from these the printed
form tells what was parsed: the shape of the tree, its operators, names and keywords,
and the values of its constants.

Main result:

- Theorem `printed_eq_iff`: expressions without such constants that were parsed from
  sources are printed alike exactly if they differ in their spans at most.
-/

namespace ExprLang

open Piece TokenStream

variable {source file source' file' : String} {tokens : List Token} {e e' : Expr}

/-- No constant of an expression is a string or an infinite number. -/
def Expr.ConstantsFinite (e : Expr) : Prop :=
  ∀ (C : Context) (value : Value) (span : Span), e = C.plug (.literal value span) →
    (∀ text, value ≠ .string text) ∧ ∀ x, value = .number x → x.isInf = false

/-- What is scanned before the end of the input has a text of its kind, strings apart. -/
theorem hasText_of_mem_beforeEnd (h : tokenize source file = .ok tokens) {t : Token}
    (ht : t ∈ beforeEnd tokens) (hkind : t.kind ≠ .string) : t.kind.HasText t.text := by
  rcases tokenize_eq_ok_iff.1 h with ⟨ps, -, -, rfl⟩
  have hmem := (List.takeWhile_prefix _).subset ht
  rcases List.mem_append.1 hmem with hmem | hmem
  · exact hasText_of_mem_tokensOf hmem hkind
  · have hend := List.mem_takeWhile_imp ht
    rw [List.mem_singleton.1 hmem] at hend
    cases hend

/-- A token that a tree keeps is one of those that spell it. -/
theorem mem_of_fits {marks : List Mark} {ts : List Token} {t : Token} (h : Fits marks ts)
    (ht : Mark.kept t ∈ marks) : t ∈ ts := by
  induction h with
  | nil => cases ht
  | cons hmark _ ih =>
      rcases List.mem_cons.1 ht with rfl | ht
      · rw [fits_kept_iff.1 hmark]
        exact List.mem_cons_self ..
      · exact List.mem_cons_of_mem _ (ih ht)

/-- A number of a source is a number, though it may be infinite. -/
theorem isNaN_of_denotes {t : Token} {x : Float} (htext : t.kind.HasText t.text)
    (h : t.Denotes (.number x)) : x.isNaN = false := by
  cases h with
  | number hkind hread =>
      rw [hkind] at htext
      cases htext with
      | fixed hfixed => cases hfixed
      | number hnumber =>
          rw [Decimal.read?_of_isNumber hnumber] at hread
          cases hread
          exact Decimal.isNaN_nearestFloat ..

/-- An expression of a source is legible if its constants are. -/
theorem legible_of_parseSource (h : parseSource source file = .ok e)
    (hfinite : e.ConstantsFinite) : e.Legible := by
  rcases exists_tokens_of_parseSource h with ⟨tokens, htokens, hparse⟩
  have hspells := spells_of_parse hparse
  refine ⟨form_of_parse hparse, ?_, ?_⟩
  · intro t ht hkind
    exact hasText_of_mem_beforeEnd htokens (mem_of_fits hspells ht) hkind
  · rintro C value span rfl
    rcases hfinite C value span rfl with ⟨hstring, hinfinite⟩
    cases value with
    | number x =>
        rcases Context.spells_plug_iff.1 hspells with ⟨us, ns, ws, hcut, -, hnode, -⟩
        rcases Expr.spells_literal_iff.1 hnode with ⟨t, rfl, hdenotes, -⟩
        have hkind : t.kind ≠ .string := by
          cases hdenotes with
          | number hkind => simp [hkind]
        have htext := hasText_of_mem_beforeEnd htokens (hcut ▸ by simp) hkind
        rw [Value.Legible, Decimal.isFinite_eq, isNaN_of_denotes htext hdenotes,
          hinfinite x rfl]
        rfl
    | string text => exact hstring text rfl
    | boolean b => trivial
    | nil => trivial

/-- Expressions that were parsed from sources are printed alike exactly if they differ
in their spans at most, unless some constant is a string or an infinite number: they
have the same shape, the same operators, names and keywords, and the same values. -/
theorem printed_eq_iff (h : parseSource source file = .ok e)
    (h' : parseSource source' file' = .ok e') (hfinite : e.ConstantsFinite)
    (hfinite' : e'.ConstantsFinite) :
    e.printed = e'.printed ↔ e.unplaced = e'.unplaced := by
  have hlegible := legible_of_parseSource h hfinite
  have hlegible' := legible_of_parseSource h' hfinite'
  constructor
  · exact hlegible.unplaced_eq hlegible'
  · intro hunplaced
    have hprinted := congrArg Expr.printed hunplaced
    rwa [Expr.unplaced, Expr.unplaced, Expr.printed_relocate, Expr.printed_relocate]
      at hprinted

/-- The constants of an expression are among its marks. -/
theorem Expr.constant_mem_marks_plug (C : Context) (value : Value) (span : Span) :
    Mark.constant value span ∈ (C.plug (.literal value span)).marks := by
  rw [Context.marks_plug]
  simp [marks]

/-- The case of `-a-1.5` and `-a -1.50`, where one minus stands in front of an operand and
one between two, and the numbers are equal. -/
theorem printed_eq_iff_minus :
    ∃ e e', parseSource "-a-1.5" "shell" = .ok e ∧ parseSource "-a -1.50" "shell" = .ok e' ∧
      e.ConstantsFinite ∧ e'.ConstantsFinite ∧ e.unplaced = e'.unplaced := by
  have hone : Lexeme.IsDigits ['1'] := ⟨by simp, by simp⟩
  have hcut : CutBefore
      [⟨.fixed .dash "-", ['-'], ⟨by decide, rfl⟩, by decide⟩,
        ⟨.word, ['a'], (by decide : Lexeme.IsWord ['a']), by decide⟩,
        ⟨.fixed .dash "-", ['-'], ⟨by decide, rfl⟩, by decide⟩,
        ⟨.number, ['1', '.', '5'], .fraction hone ⟨by simp, by simp⟩, by decide⟩] [] :=
    ⟨by simp [Rule.EndsBefore, Rule.longer?], Lexeme.endsRun_cons.2 (by decide),
      by simp [Rule.EndsBefore, Rule.longer?], ⟨Lexeme.endsRun_nil _, .inl (by simp)⟩,
      trivial⟩
  have hcut' : CutBefore
      [⟨.fixed .dash "-", ['-'], ⟨by decide, rfl⟩, by decide⟩,
        ⟨.word, ['a'], (by decide : Lexeme.IsWord ['a']), by decide⟩,
        ⟨.blank, [' '], Lexeme.isBlanks_singleton (by decide), by decide⟩,
        ⟨.fixed .dash "-", ['-'], ⟨by decide, rfl⟩, by decide⟩,
        ⟨.number, ['1', '.', '5', '0'], .fraction hone ⟨by simp, by simp⟩, by decide⟩]
      [] :=
    ⟨by simp [Rule.EndsBefore, Rule.longer?], Lexeme.endsRun_cons.2 (by decide),
      Lexeme.endsRun_cons.2 (by decide), by simp [Rule.EndsBefore, Rule.longer?],
      ⟨Lexeme.endsRun_nil _, .inl (by simp)⟩, trivial⟩
  have htokens : tokenize "-a-1.5" "shell" =
      .ok [⟨.dash, "-", ⟨.ofByte "shell" 0, .ofByte "shell" 1⟩⟩,
        ⟨.identifier, "a", ⟨.ofByte "shell" 1, .ofByte "shell" 2⟩⟩,
        ⟨.dash, "-", ⟨.ofByte "shell" 2, .ofByte "shell" 3⟩⟩,
        ⟨.number, "1.5", ⟨.ofByte "shell" 3, .ofByte "shell" 6⟩⟩,
        ⟨.eof, "EOF", ⟨.ofByte "shell" 6, .ofByte "shell" 6⟩⟩] :=
    tokenize_of_pieces rfl hcut
  have htokens' : tokenize "-a -1.50" "shell" =
      .ok [⟨.dash, "-", ⟨.ofByte "shell" 0, .ofByte "shell" 1⟩⟩,
        ⟨.identifier, "a", ⟨.ofByte "shell" 1, .ofByte "shell" 2⟩⟩,
        ⟨.dash, "-", ⟨.ofByte "shell" 3, .ofByte "shell" 4⟩⟩,
        ⟨.number, "1.50", ⟨.ofByte "shell" 4, .ofByte "shell" 8⟩⟩,
        ⟨.eof, "EOF", ⟨.ofByte "shell" 8, .ofByte "shell" 8⟩⟩] :=
    tokenize_of_pieces rfl hcut'
  have h : parseSource "-a-1.5" "shell" = .ok
      (.binary (.unary ⟨.dash, "-", ⟨.ofByte "shell" 0, .ofByte "shell" 1⟩⟩
          (.var ⟨.identifier, "a", ⟨.ofByte "shell" 1, .ofByte "shell" 2⟩⟩))
        ⟨.dash, "-", ⟨.ofByte "shell" 2, .ofByte "shell" 3⟩⟩
        (.literal (.number (Decimal.nearestFloat 15 (-1)))
          ⟨.ofByte "shell" 3, .ofByte "shell" 6⟩)) := by
    rw [parseSource, htokens]
    rfl
  have h' : parseSource "-a -1.50" "shell" = .ok
      (.binary (.unary ⟨.dash, "-", ⟨.ofByte "shell" 0, .ofByte "shell" 1⟩⟩
          (.var ⟨.identifier, "a", ⟨.ofByte "shell" 1, .ofByte "shell" 2⟩⟩))
        ⟨.dash, "-", ⟨.ofByte "shell" 3, .ofByte "shell" 4⟩⟩
        (.literal (.number (Decimal.nearestFloat 150 (-2)))
          ⟨.ofByte "shell" 4, .ofByte "shell" 8⟩)) := by
    rw [parseSource, htokens']
    rfl
  have hequal : Decimal.nearestFloat 150 (-2) = Decimal.nearestFloat 15 (-1) := by
    decide +kernel
  have hfinite : (Decimal.nearestFloat 15 (-1)).isInf = false := by
    decide +kernel
  rw [hequal] at h'
  refine ⟨_, _, h, h', ?_, ?_, (printed_eq_iff h h' ?_ ?_).1 rfl⟩
  all_goals
    intro C value span heq
    have hmem := Expr.constant_mem_marks_plug C value span
    rw [← heq] at hmem
    simp only [Expr.marks, List.cons_append, List.nil_append, List.mem_cons, reduceCtorEq,
      Mark.constant.injEq, List.not_mem_nil, or_false, false_or] at hmem
    rw [hmem.1]
    constructor
    · rintro text ⟨⟩
    · rintro x ⟨⟩
      exact hfinite

end ExprLang
