import ExprLang.Proofs.Evaluation.Reached

/-!
# Replacing parts of an expression

Parts of an expression are replaced at several places at once.  A place is the
context that the part stands in; where a part and a part of it are both to be
replaced, the outer one is.  Evaluation ends as before if what is put in at the
places that it reaches has the values of what stood there.

Main results:

- Theorem `Expr.exists_replace_plug`: what is put in at a place stands where the part
  stood.
- Theorem `Expr.eval_replace`: evaluation sees of a part that is replaced no more
  than its value, and nothing where it is not reached.
-/

namespace ExprLang

namespace Expr

mutual

/-- The expression with other ones put in at the places where there are any. -/
def replace (f : Context → Option Expr) (e : Expr) : Expr :=
  (f []).getD <|
    match e with
    | .binary left operator right =>
        .binary (left.replace fun C => f (.binaryLeft operator right :: C)) operator
          (right.replace fun C => f (.binaryRight left operator :: C))
    | .group inner => .group (inner.replace fun C => f (.group :: C))
    | .literal value span => .literal value span
    | .unary operator operand =>
        .unary operator (operand.replace fun C => f (.unary operator :: C))
    | .var name => .var name
    | .assign name value => .assign name (value.replace fun C => f (.assign name :: C))
    | .logical left operator right =>
        .logical (left.replace fun C => f (.logicalLeft operator right :: C)) operator
          (right.replace fun C => f (.logicalRight left operator :: C))
    | .call callee paren arguments =>
        .call (callee.replace fun C => f (.call paren arguments :: C)) paren
          (replaceAll (fun before after C => f (.argument callee paren before after :: C))
            [] arguments)
    | .get object name => .get (object.replace fun C => f (.get name :: C)) name
    | .set object name value =>
        .set (object.replace fun C => f (.setObject name value :: C)) name
          (value.replace fun C => f (.setValue object name :: C))
    | .this keyword => .this keyword
    | .super keyword method => .super keyword method

/-- Expressions in a row, each with its places told by those before and behind
it. -/
def replaceAll (f : List Expr → List Expr → Context → Option Expr)
    (before : List Expr) : List Expr → List Expr
  | [] => []
  | e :: after => e.replace (f before after) :: replaceAll f (before ++ [e]) after

end

/-- An expression is replaced as a whole where something is put in for it. -/
theorem replace_of_root {f : Context → Option Expr} {n' : Expr} (h : f [] = some n')
    (e : Expr) : e.replace f = n' := by
  cases e <;> simp [replace, h]

private theorem length_replaceAll (f : List Expr → List Expr → Context → Option Expr)
    (before es : List Expr) : (replaceAll f before es).length = es.length := by
  induction es generalizing before with
  | nil => rfl
  | cons e es ih => simp [replaceAll, ih]

/-- Parts are replaced in each half of a row, told by the other half. -/
theorem replaceAll_append (f : List Expr → List Expr → Context → Option Expr)
    (before es es' : List Expr) :
    replaceAll f before (es ++ es') =
      replaceAll (fun before after => f before (after ++ es')) before es ++
        replaceAll f (before ++ es) es' := by
  induction es generalizing before with
  | nil => simp [replaceAll]
  | cons e es ih => simp [replaceAll, ih]

end Expr

/-! ## Where a part stands -/

/-- Which of the children of a node is missing. -/
def Frame.index : Frame → Nat
  | .binaryLeft .. | .group | .unary _ | .assign _ | .logicalLeft .. | .call .. | .get _ |
    .setObject .. => 0
  | .binaryRight .. | .logicalRight .. | .setValue .. => 1
  | .argument _ _ before _ => before.length + 1

/-- The way from the root of a tree to its missing node. -/
def Context.path (C : Context) : List Nat :=
  C.map Frame.index

namespace Expr

/-- In a node that is not replaced as a whole, each child has its parts replaced. -/
theorem exists_replace_fill {f : Context → Option Expr} (hroot : f [] = none) (F : Frame)
    (c : Expr) :
    ∃ F' : Frame, F'.index = F.index ∧
      (F.fill c).replace f = F'.fill (c.replace fun C => f (F :: C)) := by
  cases F with
  | binaryLeft operator right =>
      let right' := right.replace fun C => f (.binaryRight c operator :: C)
      exact ⟨.binaryLeft operator right', rfl, by simp [Frame.fill, replace, hroot, right']⟩
  | binaryRight left operator =>
      let left' := left.replace fun C => f (.binaryLeft operator c :: C)
      exact ⟨.binaryRight left' operator, rfl, by simp [Frame.fill, replace, hroot, left']⟩
  | logicalLeft operator right =>
      let right' := right.replace fun C => f (.logicalRight c operator :: C)
      exact ⟨.logicalLeft operator right', rfl, by simp [Frame.fill, replace, hroot, right']⟩
  | logicalRight left operator =>
      let left' := left.replace fun C => f (.logicalLeft operator c :: C)
      exact ⟨.logicalRight left' operator, rfl, by simp [Frame.fill, replace, hroot, left']⟩
  | setObject name value =>
      let value' := value.replace fun C => f (.setValue c name :: C)
      exact ⟨.setObject name value', rfl, by simp [Frame.fill, replace, hroot, value']⟩
  | setValue object name =>
      let object' := object.replace fun C => f (.setObject name c :: C)
      exact ⟨.setValue object' name, rfl, by simp [Frame.fill, replace, hroot, object']⟩
  | call paren arguments =>
      let arguments' :=
        replaceAll (fun before after C => f (.argument c paren before after :: C)) [] arguments
      exact ⟨.call paren arguments', rfl, by simp [Frame.fill, replace, hroot, arguments']⟩
  | argument callee paren before after =>
      let callee' := callee.replace fun C => f (.call paren (before ++ c :: after) :: C)
      let place (before after : List Expr) (C : Context) :=
        f (.argument callee paren before after :: C)
      let before' := replaceAll (fun xs ys => place xs (ys ++ c :: after)) [] before
      let after' := replaceAll place (before ++ [c]) after
      refine ⟨.argument callee' paren before' after', ?_, ?_⟩
      · simp [Frame.index, length_replaceAll, before']
      · simp [Frame.fill, replace, hroot, replaceAll_append, replaceAll, callee', before',
          after', place]
  | group => exact ⟨.group, rfl, by simp [Frame.fill, replace, hroot]⟩
  | unary operator => exact ⟨.unary operator, rfl, by simp [Frame.fill, replace, hroot]⟩
  | assign name => exact ⟨.assign name, rfl, by simp [Frame.fill, replace, hroot]⟩
  | get name => exact ⟨.get name, rfl, by simp [Frame.fill, replace, hroot]⟩

/-- Where nothing is put in for what a part belongs to, the part stands where it stood,
with its own parts replaced. -/
theorem exists_replace_plug {f : Context → Option Expr} {C : Context}
    (h : ∀ D : Context, D <+: C → D ≠ C → f D = none) (n : Expr) :
    ∃ C' : Context, C'.path = C.path ∧
      (C.plug n).replace f = C'.plug (n.replace fun D : Context => f (C ++ D)) := by
  induction C generalizing f with
  | nil => exact ⟨[], rfl, rfl⟩
  | cons F C ih =>
      have hroot : f [] = none := h [] List.nil_prefix (List.cons_ne_nil F C).symm
      rcases exists_replace_fill hroot F (Context.plug C n) with ⟨F', hindex, hfill⟩
      have hbelow : ∀ D : Context, D <+: C → D ≠ C → f (F :: D) = none := by
        intro D hprefix hne
        exact h (F :: D) ((List.prefix_cons_inj F).2 hprefix) fun heq =>
          hne (List.cons.inj heq).2
      rcases ih hbelow with ⟨C', hpath, hplug⟩
      refine ⟨F' :: C', ?_, ?_⟩
      · simp only [Context.path, List.map_cons, hindex] at hpath ⊢
        rw [hpath]
      · rw [Context.plug_cons, hfill, hplug, Context.plug_cons]
        rfl

/-! ## Evaluation -/

/-- What is put in at the places that evaluation reaches ends as what stood there
does. -/
def ReplacesAlike (f : Context → Option Expr) (e : Expr) : Prop :=
  ∀ C n n', e = Context.plug C n → Context.Reached C → f C = some n' → n'.eval = n.eval

/-- What is put in below a part that is entered evaluates as what stood there. -/
theorem ReplacesAlike.child {f : Context → Option Expr} {F : Frame} {c : Expr}
    (h : ReplacesAlike f (F.fill c)) (hF : F.Entered) :
    ReplacesAlike (fun C => f (F :: C)) c := by
  rintro C n n' rfl hC hput
  exact h (F :: C) n n' rfl (Context.reached_cons_iff.2 ⟨hF, hC⟩) hput

/-- Evaluation ends as before, if what is put in at the places that it reaches ends
as what stood there does. -/
theorem eval_replace {f : Context → Option Expr} {e : Expr} (h : ReplacesAlike f e) :
    (e.replace f).eval = e.eval := by
  induction e using induct_parts generalizing f with
  | node e ih =>
      have hchild : ∀ (F : Frame) (c : Expr), e = F.fill c → F.Entered →
          (c.replace fun C => f (F :: C)).eval = c.eval := by
        rintro F c rfl hF
        exact ih c (Part.child_mem_parts_iff.2 ⟨F, rfl⟩) (h.child hF)
      -- Either the whole is replaced, and its place is reached, or its children are.
      cases hroot : f [] with
      | some n' =>
          rw [replace_of_root hroot]
          exact h [] e n' rfl Context.reached_nil hroot
      | none =>
          cases e with
          | binary left operator right =>
              have hleft := hchild (.binaryLeft operator right) left rfl trivial
              have hright := hchild (.binaryRight left operator) right rfl trivial
              simp [replace, hroot, eval, hleft, hright]
          | logical left operator right =>
              have hleft := hchild (.logicalLeft operator right) left rfl trivial
              have hright := hchild (.logicalRight left operator) right rfl
              simp only [replace, hroot, Option.getD_none]
              exact (eval_logical_congr hleft.symm fun hgoesOn =>
                (hright hgoesOn).symm).symm
          | group inner =>
              have hinner := hchild .group inner rfl trivial
              simp [replace, hroot, hinner]
          | unary operator operand =>
              have hoperand := hchild (.unary operator) operand rfl trivial
              simp [replace, hroot, eval, hoperand]
          | _ => simp [replace, hroot, eval]

end Expr

end ExprLang
