import ExprLang.Proofs.Context.Basic

/-!
# What evaluation reaches

Evaluation goes from a node to its children, but not below a node that depends on a
state, and to the right operand of a logical operator only if the left one has a
value that leaves the outcome open.  Which nodes it reaches therefore depends on
values that it has found before.

Main results:

- Theorem `Expr.mem_reached_iff`: the nodes that evaluation reaches are those whose
  place it reaches.
- Theorem `Frame.eval_fill_of_not_entered`: a node does not depend on a child that
  is not reached.
-/

namespace ExprLang

/-! ## Places -/

/-- Whether evaluation goes on from a left operand to the right one of a logical
operator. -/
def Expr.goesOn (left : Expr) (operator : Token) : Bool :=
  match left.eval with
  | .error _ => false
  | .ok l =>
      operator.kind = .kwOr && !l.isTruthy || operator.kind = .kwAnd && l.isTruthy

/-- Behind a value evaluation goes on exactly if the right operand is not skipped. -/
theorem Expr.goesOn_iff {left : Expr} {operator : Token} {l : Value}
    (hleft : left.eval = .ok l) :
    left.goesOn operator = true ↔ skipsRight operator l = .ok false := by
  simp only [goesOn, hleft, skipsRight]
  split <;> simp_all

/-- A logical operator depends on its right operand only if evaluation goes on to
it. -/
theorem Expr.eval_logical_congr {left left' right right' : Expr} {operator : Token}
    (hleft : left.eval = left'.eval)
    (hright : left.goesOn operator = true → right.eval = right'.eval) :
    (logical left operator right).eval = (logical left' operator right').eval := by
  simp only [eval, ← hleft]
  cases hl : left.eval with
  | error d => rfl
  | ok l =>
      cases hskips : skipsRight operator l with
      | error d => simp [bind, Except.bind, hskips]
      | ok skips =>
          cases skips with
          | true => simp [bind, Except.bind, hskips]
          | false => simp [bind, Except.bind, hskips, hright ((goesOn_iff hl).2 hskips)]

/-- Whether evaluation of a node goes on to the missing child. -/
def Frame.Entered : Frame → Prop
  | .binaryLeft .. | .binaryRight .. | .group | .unary _ | .logicalLeft .. => True
  | .logicalRight left operator => left.goesOn operator = true
  | .assign _ | .call .. | .argument .. | .get _ | .setObject .. | .setValue .. => False

/-- Whether evaluation of a tree reaches a place in it. -/
def Context.Reached (C : Context) : Prop :=
  ∀ F ∈ C, F.Entered

@[simp]
theorem Context.reached_nil : Context.Reached [] :=
  List.forall_mem_nil _

/-- A place is reached exactly if its frames are entered one after another. -/
theorem Context.reached_cons_iff {F : Frame} {C : Context} :
    Context.Reached (F :: C) ↔ F.Entered ∧ C.Reached :=
  List.forall_mem_cons

/-! ## Nodes -/

namespace Expr

/-- The nodes that evaluation reaches: from left to right, each behind its own
children. -/
def reached : Expr → List Expr
  | .binary left operator right =>
      left.reached ++ right.reached ++ [.binary left operator right]
  | .group inner => inner.reached ++ [.group inner]
  | .unary operator operand => operand.reached ++ [.unary operator operand]
  | .logical left operator right =>
      left.reached ++ (if left.goesOn operator then right.reached else []) ++
        [.logical left operator right]
  | e => [e]

private theorem mem_reached_self (e : Expr) : e ∈ e.reached := by
  cases e <;> simp [reached]

/-- What is reached in a child that is entered is reached in the node. -/
theorem reached_subset_fill {F : Frame} (hF : F.Entered) (c : Expr) :
    c.reached ⊆ (F.fill c).reached := by
  cases F with
  | logicalRight left operator =>
      have hgoesOn : left.goesOn operator = true := hF
      simp [Frame.fill, reached, hgoesOn]
  | assign | call | argument | get | setObject | setValue => exact hF.elim
  | _ => simp [Frame.fill, reached]

/-- What is reached in a node, but for the node itself, is reached in a child that
is entered. -/
theorem exists_frame_of_mem_reached {e n : Expr} (h : n ∈ e.reached) :
    n = e ∨ ∃ F c, e = Frame.fill F c ∧ F.Entered ∧ n ∈ c.reached := by
  cases e with
  | binary left operator right =>
      simp only [reached, List.mem_append, List.mem_singleton] at h
      rcases h with (hleft | hright) | rfl
      · exact .inr ⟨.binaryLeft operator right, left, rfl, trivial, hleft⟩
      · exact .inr ⟨.binaryRight left operator, right, rfl, trivial, hright⟩
      · exact .inl rfl
  | logical left operator right =>
      simp only [reached, List.mem_append, List.mem_singleton] at h
      rcases h with (hleft | hright) | rfl
      · exact .inr ⟨.logicalLeft operator right, left, rfl, trivial, hleft⟩
      · split at hright
        · rename_i hgoesOn
          exact .inr ⟨.logicalRight left operator, right, rfl, hgoesOn, hright⟩
        · cases hright
      · exact .inl rfl
  | group inner =>
      simp only [reached, List.mem_append, List.mem_singleton] at h
      rcases h with hinner | rfl
      · exact .inr ⟨.group, inner, rfl, trivial, hinner⟩
      · exact .inl rfl
  | unary operator operand =>
      simp only [reached, List.mem_append, List.mem_singleton] at h
      rcases h with hoperand | rfl
      · exact .inr ⟨.unary operator, operand, rfl, trivial, hoperand⟩
      · exact .inl rfl
  | _ => exact .inl (List.mem_singleton.1 h)

/-- The nodes that evaluation reaches are those whose place it reaches. -/
theorem mem_reached_iff {e n : Expr} :
    n ∈ e.reached ↔ ∃ C : Context, C.Reached ∧ e = C.plug n := by
  constructor
  · intro h
    induction e using induct_parts with
    | node e ih =>
        rcases exists_frame_of_mem_reached h with rfl | ⟨F, c, rfl, hF, hmem⟩
        · exact ⟨[], Context.reached_nil, rfl⟩
        · rcases ih c (Part.child_mem_parts_iff.2 ⟨F, rfl⟩) hmem with ⟨C, hC, rfl⟩
          exact ⟨F :: C, Context.reached_cons_iff.2 ⟨hF, hC⟩, rfl⟩
  · rintro ⟨C, hC, rfl⟩
    induction C with
    | nil => exact mem_reached_self n
    | cons F C ih =>
        rcases Context.reached_cons_iff.1 hC with ⟨hF, hC⟩
        exact reached_subset_fill hF _ (ih hC)

end Expr

/-! ## Children that are not reached -/

/-- A node does not depend on a child that is not entered. -/
theorem Frame.eval_fill_of_not_entered {F : Frame} (hF : ¬ F.Entered) (c c' : Expr) :
    (F.fill c).eval = (F.fill c').eval := by
  cases F with
  | logicalRight left operator =>
      exact Expr.eval_logical_congr rfl fun hgoesOn => absurd hgoesOn hF
  | assign | call | argument | get | setObject | setValue => rfl
  | _ => exact absurd trivial hF

/-- What stands at a place that is not reached does not matter. -/
theorem Context.eval_plug_of_not_reached {C : Context} (hC : ¬ C.Reached) (n n' : Expr) :
    (C.plug n).eval = (C.plug n').eval := by
  induction C with
  | nil => exact absurd reached_nil hC
  | cons F C ih =>
      by_cases hF : F.Entered
      · apply F.eval_fill_congr
        exact ih fun hC' => hC (reached_cons_iff.2 ⟨hF, hC'⟩)
      · exact F.eval_fill_of_not_entered hF _ _

end ExprLang
