import ExprLang.Expr.Eval
import ExprLang.Expr.Names
import ExprLang.Proofs.Spelling.Precedence

/-!
# Contexts of expressions

A frame is a node of which one child is missing, and a context is a tree of
which one node is missing: the frames on the way from the root to the hole.  The
places at which a node stands in a tree are the contexts that give back the tree
when they are filled with that node.

Main results:

- Theorem `Expr.induct_parts`: induction from the children of a node to the node.
- Theorem `Part.child_mem_parts_iff`: the children of a node are what its frames
  can be filled with.
- Theorem `Context.marks_plug`: a spelling of a tree is one of the node inside a
  front and a back that depend on the context only.
- Theorem `Context.form_plug`: a node may be replaced by a tighter one.
- Theorems `Context.eval_plug_congr` and `Context.names_plug_congr`: a tree has
  the value and the names that those of a node give it.
-/

namespace ExprLang

/-! ## Parts of a node -/

/-- What a node is made of. -/
inductive Part where
  | child (e : Expr)
  /-- A token that the node itself keeps. -/
  | token (t : Token)

/-- The parts of a node in the order of the source. -/
def Expr.parts : Expr → List Part
  | .binary left operator right => [.child left, .token operator, .child right]
  | .group inner => [.child inner]
  | .literal .. => []
  | .unary operator operand => [.token operator, .child operand]
  | .var name => [.token name]
  | .assign name value => [.token name, .child value]
  | .logical left operator right => [.child left, .token operator, .child right]
  | .call callee paren arguments =>
      .child callee :: (arguments.map .child ++ [.token paren])
  | .get object name => [.child object, .token name]
  | .set object name value => [.child object, .token name, .child value]
  | .this keyword => [.token keyword]
  | .super keyword method => [.token keyword, .token method]

/-- What passes from the children of every node to the node holds of all
expressions. -/
theorem Expr.induct_parts {motive : Expr → Prop}
    (node : ∀ e : Expr, (∀ c, Part.child c ∈ e.parts → motive c) → motive e)
    (e : Expr) : motive e := by
  induction e with
  | call callee paren arguments hcallee harguments =>
      apply node
      intro c hmem
      have hc : c = callee ∨ c ∈ arguments := by simpa [parts] using hmem
      rcases hc with rfl | hc
      · exact hcallee
      · exact harguments c hc
  | _ =>
      apply node
      simp_all [parts]

/-! ## Frames -/

/-- A node of which one child is missing. -/
inductive Frame where
  | binaryLeft (operator : Token) (right : Expr)
  | binaryRight (left : Expr) (operator : Token)
  | group
  | unary (operator : Token)
  /-- An assignment without its value. -/
  | assign (name : Token)
  | logicalLeft (operator : Token) (right : Expr)
  | logicalRight (left : Expr) (operator : Token)
  /-- A call without what is called. -/
  | call (paren : Token) (arguments : List Expr)
  /-- A call without one of its arguments, between those before and behind it. -/
  | argument (callee : Expr) (paren : Token) (before after : List Expr)
  /-- A property without the object that it is read from. -/
  | get (name : Token)
  | setObject (name : Token) (value : Expr)
  | setValue (object : Expr) (name : Token)

namespace Frame

/-- The node with the missing child put in. -/
def fill : Frame → Expr → Expr
  | binaryLeft operator right, e => .binary e operator right
  | binaryRight left operator, e => .binary left operator e
  | group, e => .group e
  | unary operator, e => .unary operator e
  | assign name, e => .assign name e
  | logicalLeft operator right, e => .logical e operator right
  | logicalRight left operator, e => .logical left operator e
  | call paren arguments, e => .call e paren arguments
  | argument callee paren before after, e => .call callee paren (before ++ e :: after)
  | get name, e => .get e name
  | setObject name value, e => .set e name value
  | setValue object name, e => .set object name e

/-- The marks in front of the missing child. -/
def front : Frame → List Mark
  | binaryLeft .. | logicalLeft .. | call .. | get _ | setObject .. => []
  | binaryRight left operator | logicalRight left operator =>
      left.marks ++ [.kept operator]
  | group => [.dropped .openParen]
  | unary operator => [.kept operator]
  | assign name => [.kept name, .dropped .assignment]
  | argument callee _ before _ =>
      callee.marks ++ .dropped .openParen ::
        before.flatMap fun e => e.marks ++ [.dropped .comma]
  | setValue object name =>
      object.marks ++ [.dropped .dot, .kept name, .dropped .assignment]

/-- The marks behind the missing child. -/
def back : Frame → List Mark
  | binaryLeft operator right | logicalLeft operator right =>
      .kept operator :: right.marks
  | binaryRight .. | unary _ | assign _ | logicalRight .. | setValue .. => []
  | group => [.dropped .closeParen]
  | call paren arguments =>
      .dropped .openParen :: (Expr.marksAll arguments ++ [.kept paren])
  | argument _ paren _ after =>
      after.flatMap (fun e => .dropped .comma :: e.marks) ++ [.kept paren]
  | get name => [.dropped .dot, .kept name]
  | setObject name value =>
      .dropped .dot :: .kept name :: .dropped .assignment :: value.marks

end Frame

/-- The children of a node are what its frames can be filled with. -/
theorem Part.child_mem_parts_iff {e c : Expr} :
    Part.child c ∈ e.parts ↔ ∃ F : Frame, e = F.fill c := by
  constructor
  · intro h
    cases e with
    | binary left operator right =>
        have hc : c = left ∨ c = right := by simpa [Expr.parts] using h
        rcases hc with rfl | rfl
        · exact ⟨.binaryLeft operator right, rfl⟩
        · exact ⟨.binaryRight left operator, rfl⟩
    | logical left operator right =>
        have hc : c = left ∨ c = right := by simpa [Expr.parts] using h
        rcases hc with rfl | rfl
        · exact ⟨.logicalLeft operator right, rfl⟩
        · exact ⟨.logicalRight left operator, rfl⟩
    | group inner =>
        obtain rfl : c = inner := by simpa [Expr.parts] using h
        exact ⟨.group, rfl⟩
    | unary operator operand =>
        obtain rfl : c = operand := by simpa [Expr.parts] using h
        exact ⟨.unary operator, rfl⟩
    | assign name value =>
        obtain rfl : c = value := by simpa [Expr.parts] using h
        exact ⟨.assign name, rfl⟩
    | call callee paren arguments =>
        have hc : c = callee ∨ c ∈ arguments := by simpa [Expr.parts] using h
        rcases hc with rfl | hc
        · exact ⟨.call paren arguments, rfl⟩
        · rcases List.append_of_mem hc with ⟨before, after, rfl⟩
          exact ⟨.argument callee paren before after, rfl⟩
    | get object name =>
        obtain rfl : c = object := by simpa [Expr.parts] using h
        exact ⟨.get name, rfl⟩
    | set object name value =>
        have hc : c = object ∨ c = value := by simpa [Expr.parts] using h
        rcases hc with rfl | rfl
        · exact ⟨.setObject name value, rfl⟩
        · exact ⟨.setValue object name, rfl⟩
    | _ => simp [Expr.parts] at h
  · rintro ⟨F, rfl⟩
    cases F <;> simp [Frame.fill, Expr.parts]

/-- Each further expression stands behind a comma. -/
theorem Expr.marksAll_cons (e : Expr) (es : List Expr) :
    marksAll (e :: es) = e.marks ++ es.flatMap fun e => .dropped .comma :: e.marks := by
  induction es generalizing e with
  | nil => simp [marksAll]
  | cons e' es ih => simp [marksAll, ih]

/-- One expression among others between commas. -/
theorem Expr.marksAll_append_cons (before after : List Expr) (e : Expr) :
    marksAll (before ++ e :: after) =
      (before.flatMap fun e => e.marks ++ [.dropped .comma]) ++ e.marks ++
        after.flatMap fun e => .dropped .comma :: e.marks := by
  induction before with
  | nil => simp [marksAll_cons]
  | cons e' before ih =>
      cases before with
      | nil => simpa [marksAll] using ih
      | cons e'' before => simpa [marksAll] using ih

private theorem Expr.namesAll_append_cons_congr {e e' : Expr} (before after : List Expr)
    (h : e.names = e'.names) :
    namesAll (before ++ e :: after) = namesAll (before ++ e' :: after) := by
  induction before with
  | nil => simp [namesAll, h]
  | cons e'' before ih => simp [namesAll, ih]

namespace Frame

variable {F : Frame} {e e' : Expr}

/-- The marks of a filled frame are those around its place and those of what is in it. -/
theorem marks_fill (F : Frame) (e : Expr) :
    (F.fill e).marks = F.front ++ e.marks ++ F.back := by
  cases F with
  | argument callee paren before after =>
      simp [fill, front, back, Expr.marks, Expr.marksAll_append_cons]
  | _ => simp [fill, front, back, Expr.marks]

/-- How tightly a node holds its parts together does not depend on these. -/
theorem power_fill (F : Frame) (e e' : Expr) : (F.fill e).power = (F.fill e').power := by
  cases F <;> rfl

/-- What fills a frame of a tree in precedence form is in precedence form. -/
theorem form_of_fill (h : (F.fill e).InPrecedenceForm) : e.InPrecedenceForm := by
  cases F with
  | argument callee paren before after =>
      cases h with
      | call _ _ _ hforms => exact hforms e (by simp)
  | _ =>
      cases h
      assumption

/-- A child may be replaced by a tighter one. -/
theorem form_fill (h : (F.fill e).InPrecedenceForm) (hle : e.power ≤ e'.power)
    (hform : e'.InPrecedenceForm) : (F.fill e').InPrecedenceForm := by
  cases F with
  | binaryLeft operator right =>
      cases h with
      | binary hrule hleft hright _ right_form =>
          exact .binary hrule (Nat.le_trans hleft hle) hright hform right_form
  | binaryRight left operator =>
      cases h with
      | binary hrule hleft hright left_form _ =>
          exact .binary hrule hleft (Nat.lt_of_lt_of_le hright hle) left_form hform
  | logicalLeft operator right =>
      cases h with
      | logical hrule hleft hright _ right_form =>
          exact .logical hrule (Nat.le_trans hleft hle) hright hform right_form
  | logicalRight left operator =>
      cases h with
      | logical hrule hleft hright left_form _ =>
          exact .logical hrule hleft (Nat.lt_of_lt_of_le hright hle) left_form hform
  | group => exact .group hform
  | unary operator =>
      cases h with
      | unary hrule hoperand _ => exact .unary hrule (Nat.le_trans hoperand hle) hform
  | assign name =>
      cases h with
      | assign hname _ => exact .assign hname hform
  | call paren arguments =>
      cases h with
      | call hcallee hparen _ hforms =>
          exact .call (Nat.le_trans hcallee hle) hparen hform hforms
  | argument callee paren before after =>
      cases h with
      | call hcallee hparen callee_form hforms =>
          refine .call hcallee hparen callee_form ?_
          intro argument hmem
          rcases List.mem_append.1 hmem with hbefore | hrest
          · exact hforms argument (List.mem_append_left _ hbefore)
          · rcases List.mem_cons.1 hrest with rfl | hafter
            · exact hform
            · exact hforms argument
                (List.mem_append_right _ (List.mem_cons_of_mem _ hafter))
  | get name =>
      cases h with
      | get hobject hname _ => exact .get (Nat.le_trans hobject hle) hname hform
  | setObject name value =>
      cases h with
      | set hobject hname _ value_form =>
          exact .set (Nat.le_trans hobject hle) hname hform value_form
  | setValue object name =>
      cases h with
      | set hobject hname object_form _ => exact .set hobject hname object_form hform

/-- A node has the value that the value of a child gives it. -/
theorem eval_fill_congr (F : Frame) (h : e.eval = e'.eval) :
    (F.fill e).eval = (F.fill e').eval := by
  cases F <;> simp [fill, Expr.eval, h]

/-- A node has the names that those of a child give it. -/
theorem names_fill_congr (F : Frame) (h : e.names = e'.names) :
    (F.fill e).names = (F.fill e').names := by
  cases F with
  | argument callee paren before after =>
      simp [fill, Expr.names, Expr.namesAll_append_cons_congr before after h]
  | _ => simp [fill, Expr.names, h]

end Frame

/-! ## Contexts -/

/-- A tree of which one node is missing: the frames on the way from the root to
the hole. -/
abbrev Context :=
  List Frame

namespace Context

/-- The tree with the missing node put in. -/
def plug (C : Context) (n : Expr) : Expr :=
  C.foldr Frame.fill n

/-- The marks in front of the missing node. -/
def front : Context → List Mark
  | [] => []
  | F :: C => F.front ++ front C

/-- The marks behind the missing node. -/
def back : Context → List Mark
  | [] => []
  | F :: C => back C ++ F.back

variable {C : Context} {n n' : Expr} {tokens : List Token}

@[simp]
theorem plug_nil (n : Expr) : plug [] n = n :=
  rfl

@[simp]
theorem plug_cons (F : Frame) (C : Context) (n : Expr) :
    plug (F :: C) n = F.fill (plug C n) :=
  rfl

/-- A spelling of a tree is one of the node between a front and a back that
depend on the context only. -/
theorem marks_plug (C : Context) (n : Expr) :
    (C.plug n).marks = C.front ++ n.marks ++ C.back := by
  induction C with
  | nil => simp [front, back]
  | cons F C ih => simp [front, back, Frame.marks_fill, ih]

/-- The tokens of a tree are those of a node between those of its context. -/
theorem spells_plug_iff :
    (C.plug n).Spells tokens ↔
      ∃ us ns ws, tokens = us ++ ns ++ ws ∧ Fits C.front us ∧ n.Spells ns ∧
        Fits C.back ws := by
  simp only [Expr.Spells, marks_plug, fits_append_iff]
  constructor
  · rintro ⟨_, ws, rfl, ⟨us, ns, rfl, hus, hns⟩, hws⟩
    exact ⟨us, ns, ws, rfl, hus, hns, hws⟩
  · rintro ⟨us, ns, ws, rfl, hus, hns, hws⟩
    exact ⟨_, ws, rfl, ⟨us, ns, rfl, hus, hns⟩, hws⟩

/-- What fills a context of a tree in precedence form is in precedence form. -/
theorem form_of_plug (h : (C.plug n).InPrecedenceForm) : n.InPrecedenceForm := by
  induction C with
  | nil => exact h
  | cons F C ih => exact ih (Frame.form_of_fill h)

/-- A node may be replaced by a tighter one. -/
theorem form_plug (h : (C.plug n).InPrecedenceForm) (hle : n.power ≤ n'.power)
    (hform : n'.InPrecedenceForm) : (C.plug n').InPrecedenceForm := by
  induction C with
  | nil => exact hform
  | cons F C ih =>
      -- Only the frame around the hole can see how tight the node is.
      have hpower : (plug C n).power ≤ (plug C n').power := by
        cases C with
        | nil => exact hle
        | cons G C => exact Nat.le_of_eq (congrArg _ (Frame.power_fill G _ _))
      exact Frame.form_fill h hpower (ih (Frame.form_of_fill h))

/-- What has the same value can be put in the same place. -/
theorem eval_plug_congr (C : Context) (h : n.eval = n'.eval) :
    (C.plug n).eval = (C.plug n').eval := by
  induction C with
  | nil => exact h
  | cons F C ih => exact F.eval_fill_congr ih

/-- What has the same names can be put in the same place. -/
theorem names_plug_congr (C : Context) (h : n.names = n'.names) :
    (C.plug n).names = (C.plug n').names := by
  induction C with
  | nil => exact h
  | cons F C ih => exact F.names_fill_congr ih

end Context

end ExprLang
