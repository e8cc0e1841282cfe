import ExprLang.Proofs.Evaluation.Replacement

/-!
# Folding constants

A part of an expression that has a value is folded into a literal of that value, and a
group into what stands in its parentheses.  A literal has no place in the source, so
folding forgets where the values of operands come from; but the faults of evaluation
stand at operators and names, which folding keeps.

Main result:

- Theorem `eval_folded`: folding any parts of an expression changes neither its value
  nor its fault.
-/

namespace ExprLang

namespace Expr

/-- What an expression may be folded into: a literal of its value, or, if it is a group,
what stands in the parentheses, of which any parts may be folded themselves. -/
inductive FoldsTo : Expr → Expr → Prop where
  | constant {e : Expr} {v : Value} (h : e.eval = .ok v) : FoldsTo e (.literal v .null)
  | group {inner : Expr} {f : Context → Option Expr}
      (h : ∀ C n n', inner = Context.plug C n → f C = some n' → FoldsTo n n') :
      FoldsTo (.group inner) (inner.replace f)

/-- An expression is folded into one that ends as it does. -/
theorem FoldsTo.eval_eq {e e' : Expr} (h : e.FoldsTo e') : e'.eval = e.eval := by
  induction h with
  | constant h => exact h.symm
  | @group inner f h ih =>
      rw [eval_group]
      apply eval_replace
      intro C n n' hplace _ hput
      exact ih C n n' hplace hput

end Expr

/-- Parts of an expression are folded at any number of places at once.  What a part is
folded into stands where the part stood, unless it belongs to another part that is
folded, and evaluation ends as before: with the same value, or with the same fault at
the same position. -/
theorem eval_folded {e : Expr} {f : Context → Option Expr}
    (hf : ∀ C n n', e = Context.plug C n → f C = some n' → n.FoldsTo n') :
    (e.replace f).eval = e.eval ∧
      ∀ (C : Context) n n', e = C.plug n → f C = some n' →
        (∀ D : Context, D <+: C → D ≠ C → f D = none) →
          ∃ C' : Context, C'.path = C.path ∧ e.replace f = C'.plug n' := by
  constructor
  · apply Expr.eval_replace
    intro C n n' hplace _ hput
    exact (hf C n n' hplace hput).eval_eq
  · rintro C n n' rfl hput hdisjoint
    rcases Expr.exists_replace_plug hdisjoint n with ⟨C', hpath, hplug⟩
    refine ⟨C', hpath, ?_⟩
    rw [hplug, Expr.replace_of_root (by rwa [List.append_nil])]

/-- A literal for the operand of a unary operator on the left, and one for the left side
of a short-circuit operator on the right. -/
def bothFolded : Context → Option Expr
  | [.binaryLeft _ _, .unary _] => some (.literal (.string "ab") .null)
  | [.binaryRight _ _, .logicalLeft _ _] => some (.literal (.boolean true) .null)
  | _ => none

/-- The case of `-("a" + "b") * ((true) or x)`, where what is in the first group is
folded as well and the minus fails as before. -/
theorem eval_folded_groups :
    ∃ plus dash star or x : Token,
      (Expr.binary
        (.unary dash (.group (.binary (.literal (.string "a") .null) plus
          (.literal (.string "b") .null)))) star
        (.logical (.group (.literal (.boolean true) .null)) or (.var x))).replace bothFolded =
        .binary (.unary dash (.literal (.string "ab") .null)) star
          (.logical (.literal (.boolean true) .null) or (.var x)) ∧
      (Expr.binary (.unary dash (.literal (.string "ab") .null)) star
        (.logical (.literal (.boolean true) .null) or (.var x))).eval =
          .error (dash.operandFault "a number") := by
  let plus := Token.synthetic .plus "+"
  let dash := Token.synthetic .dash "-"
  let star := Token.synthetic .star "*"
  let or := Token.synthetic .kwOr "or"
  let x := Token.synthetic .identifier "x"
  let joined : Expr := .binary (.literal (.string "a") .null) plus
    (.literal (.string "b") .null)
  let constant : Expr := .literal (.boolean true) .null
  have hleft : (Expr.group joined).FoldsTo (.literal (.string "ab") .null) := by
    have hjoined : joined.FoldsTo (.literal (.string "ab") .null) := .constant rfl
    have hput : joined.replace (fun C => if C.isEmpty then
        some (.literal (.string "ab") .null) else none) = .literal (.string "ab") .null := rfl
    rw [← hput]
    apply Expr.FoldsTo.group
    rintro (_ | ⟨F, C⟩) n n' hplace hn'
    · cases hn'
      exact (show joined = n from hplace) ▸ hjoined
    · cases hn'
  have hright : (Expr.group constant).FoldsTo constant :=
    .group (f := fun _ => none) fun C n n' _ hn' => by cases hn'
  have h := eval_folded (e := .binary (.unary dash (.group joined)) star
    (.logical (.group constant) or (.var x))) (f := bothFolded) ?_
  · exact ⟨plus, dash, star, or, x, rfl, h.1⟩
  · intro C n n' hplace hput
    unfold bothFolded at hput
    split at hput
    · cases hplace
      cases hput
      exact hleft
    · cases hplace
      cases hput
      exact hright
    · cases hput

end ExprLang
