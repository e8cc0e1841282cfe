import ExprLang.Proofs.Context.Basic
import ExprLang.Proofs.Printing.Outline
import ExprLang.Proofs.Relocation.Basic

/-!
# The outlines of expressions

The printed form of an expression is the text of an outline.  The word in front of the
parts of a node and the number of its parts tell what node it is: a minus with one part
stands in front of an operand and a minus with two parts between them, and the words for
nodes without an operator have nodes of their own even where a name is spelled like
them, because a name has no parts.  So an outline is read as an expression again, apart
from the places in the source.

Main results:

- Theorem `Expr.text_outline`: the printed form is the text of the outline.
- Theorem `Expr.Legible.shows`: the outline of an expression is read as the expression.
- Theorem `Expr.Legible.unplaced_eq`: legible expressions with the same printed form
  differ in their spans at most.
-/

namespace ExprLang

open Lexeme

/-! ## Outlines of expressions -/

/-- The word of a token. -/
def Token.word (t : Token) : Outline.Word :=
  .token t.kind t.text

/-- The word of a constant.  A string is shown as it is, although it may be no word. -/
def Value.word : Value → Outline.Word
  | .number x => .number x
  | .string text => .token .string text
  | .boolean true => .token .kwTrue "true"
  | .boolean false => .token .kwFalse "false"
  | .nil => .token .kwNil "nil"

namespace Expr

mutual

/-- The outline of an expression. -/
def outline : Expr → Outline
  | .binary left operator right => .node operator.word [left.outline, right.outline]
  | .group inner => .node (.token .identifier "group") [inner.outline]
  | .literal value _ => .word value.word
  | .unary operator operand => .node operator.word [operand.outline]
  | .var name => .word name.word
  | .assign name value => .node (.token .assignment "=") [.word name.word, value.outline]
  | .logical left operator right => .node operator.word [left.outline, right.outline]
  | .call callee _ arguments =>
      .node (.token .identifier "call") (callee.outline :: outlineAll arguments)
  | .get object name => .node (.token .identifier "get") [object.outline, .word name.word]
  | .set object name value =>
      .node (.token .identifier "set") [object.outline, .word name.word, value.outline]
  | .this _ => .word (.token .kwThis "this")
  | .super _ method => .node (.token .kwSuper "super") [.word method.word]

/-- The outlines of a list of expressions. -/
def outlineAll : List Expr → List Outline
  | [] => []
  | e :: es => e.outline :: outlineAll es

end

private theorem text_word (value : Value) : value.word.text = value.text.toList := by
  cases value with
  | boolean b => cases b <;> rfl
  | _ => rfl

/-- The printed form of an expression is the text of its outline. -/
theorem text_outline (e : Expr) : e.outline.text = e.printed.toList := by
  induction e with
  | call callee paren arguments hcallee harguments =>
      have hall : Outline.textAll (outlineAll arguments) =
          (printedAll arguments).toList := by
        induction arguments with
        | nil => rfl
        | cons e es ih => simp_all [outlineAll, Outline.textAll, printedAll]
      simp [outline, printed, Outline.text, Outline.textAll, Outline.Word.text, hcallee, hall]
  | literal value => simp [outline, printed, Outline.text, text_word]
  | _ =>
      simp_all [outline, printed, Outline.text, Outline.textAll, Outline.Word.text,
        Token.word]

end Expr

/-! ## Reading outlines -/

namespace Outline

/-- The expression that is a word by itself. -/
def Word.leaf : Word → Expr
  | .number x => .literal (.number x) .null
  | .token .kwTrue _ => .literal (.boolean true) .null
  | .token .kwFalse _ => .literal (.boolean false) .null
  | .token .kwNil _ => .literal .nil .null
  | .token .kwThis text => .this (.synthetic .kwThis text)
  | .token kind text => .var (.synthetic kind text)

/-- The expression whose parts stand behind a word.  Where a name belongs there stands
the variable of that name. -/
def Word.node? : Word → List Expr → Option Expr
  | .token .identifier "group", [inner] => some (.group inner)
  | .token .identifier "call", callee :: arguments =>
      some (.call callee (.synthetic .closeParen ")") arguments)
  | .token .identifier "get", [object, .var name] => some (.get object name)
  | .token .identifier "set", [object, .var name, value] => some (.set object name value)
  | .token .assignment _, [.var name, value] => some (.assign name value)
  | .token .kwSuper text, [.var method] => some (.super (.synthetic .kwSuper text) method)
  | .token kind text, [operand] => some (.unary (.synthetic kind text) operand)
  | .token kind text, [left, right] =>
      if kind = .kwAnd ∨ kind = .kwOr then
        some (.logical left (.synthetic kind text) right)
      else
        some (.binary left (.synthetic kind text) right)
  | _, _ => none

mutual

/-- The expression of an outline. -/
def read? : Outline → Option Expr
  | .word w => some w.leaf
  | .node head items => (readAll? items).bind head.node?

/-- The expressions of outlines. -/
def readAll? : List Outline → Option (List Expr)
  | [] => some []
  | o :: os => o.read?.bind fun e => (readAll? os).map (e :: ·)

end

namespace Word

variable {kind : TokenKind} {text : String} {left right operand : Expr}

private theorem node?_of_binary (h : Grammar.standard.infixRule? kind = some .binary) :
    node? (.token kind text) [left, right] =
      some (.binary left (.synthetic kind text) right) := by
  cases kind <;> first
    | rfl
    | exact absurd h (by decide)

private theorem node?_of_logical (h : Grammar.standard.infixRule? kind = some .logical) :
    node? (.token kind text) [left, right] =
      some (.logical left (.synthetic kind text) right) := by
  cases kind <;> first
    | rfl
    | exact absurd h (by decide)

private theorem node?_of_operator (h : Grammar.standard.prefixRule? kind = some .operator) :
    node? (.token kind text) [operand] = some (.unary (.synthetic kind text) operand) := by
  cases kind <;> first
    | rfl
    | exact absurd h (by decide)

end Word

end Outline

/-! ## Legible expressions -/

/-- The constants whose text is a word: all but strings and what is no finite number. -/
def Value.Legible : Value → Prop
  | .number x => x.isFinite = true
  | .string _ => False
  | .boolean _ | .nil => True

/-- An expression as it is parsed, whose constants are legible. -/
structure Expr.Legible (e : Expr) : Prop where
  form : e.InPrecedenceForm
  texts : ∀ t, Mark.kept t ∈ e.marks → t.kind ≠ .string → t.kind.HasText t.text
  constants : ∀ (C : Context) value span, e = C.plug (.literal value span) → value.Legible

namespace Expr.Legible

/-- The children of a legible node are legible. -/
theorem of_fill {F : Frame} {e : Expr} (h : (F.fill e).Legible) : e.Legible where
  form := Frame.form_of_fill h.form
  texts := by
    intro t ht
    refine h.texts t ?_
    rw [Frame.marks_fill]
    exact List.mem_append_left _ (List.mem_append_right _ ht)
  constants := by
    rintro C value span rfl
    exact h.constants (F :: C) value span rfl

private theorem argument {callee e : Expr} {paren : Token} {arguments : List Expr}
    (h : (Expr.call callee paren arguments).Legible) (he : e ∈ arguments) : e.Legible := by
  rcases List.append_of_mem he with ⟨before, after, rfl⟩
  exact of_fill (F := .argument callee paren before after) h

/-- A token that is kept and is no number, string or parenthesis is a word. -/
theorem word {e : Expr} (h : e.Legible) {t : Token} (ht : Mark.kept t ∈ e.marks)
    (hkind : t.kind ∉ [TokenKind.string, .number, .openParen, .closeParen]) :
    t.word.Legible := by
  simp only [List.mem_cons, List.not_mem_nil, or_false, not_or] at hkind
  exact .token (h.texts t ht hkind.1) hkind.2.1 hkind.2.2

private theorem nameWord {e : Expr} (h : e.Legible) {t : Token} (ht : Mark.kept t ∈ e.marks)
    (hname : t.kind = .identifier) : t.word.Legible :=
  h.word ht (by rw [hname]; decide)

end Expr.Legible

/-- An expression without its places in the source. -/
def Expr.unplaced (e : Expr) : Expr :=
  e.relocate fun _ => .null

/-- An outline has legible words only, and is read as an expression. -/
structure Outline.Shows (o : Outline) (e : Expr) : Prop where
  legible : o.Legible
  read : o.read? = some e

namespace Outline.Shows

variable {head : Word} {items : List Outline} {parts : List Expr} {t : Token} {e : Expr}

private theorem all (hitems : List.Forall₂ Shows items parts) :
    (∀ item ∈ items, item.Legible) ∧ readAll? items = some parts := by
  induction hitems with
  | nil => exact ⟨by simp, rfl⟩
  | cons hitem _ ih =>
      refine ⟨List.forall_mem_cons.2 ⟨hitem.legible, ih.1⟩, ?_⟩
      rw [readAll?, hitem.read, ih.2, Option.bind_some, Option.map_some]

/-- A node shows what its word makes of the parts that its items show. -/
theorem node (hhead : head.Legible) (hitems : List.Forall₂ Shows items parts)
    (hnode : head.node? parts = some e) : (Outline.node head items).Shows e := by
  rcases all hitems with ⟨hlegible, hread⟩
  refine ⟨legible_node_iff.2 ⟨hhead, hlegible⟩, ?_⟩
  rw [read?, hread, Option.bind_some, hnode]

/-- The word of a name shows the variable of that name. -/
theorem name (hword : t.word.Legible) (hname : t.kind = .identifier) :
    (Outline.word t.word).Shows (.var (t.relocate fun _ => .null)) := by
  refine ⟨legible_word_iff.2 hword, ?_⟩
  rcases t with ⟨kind, text, span⟩
  cases hname
  rfl

end Outline.Shows

/-- A name is a word unless it is reserved. -/
theorem Outline.Word.legible_name {name : String} (h : IsWord name.toList)
    (hreserved : TokenKind.reserved? name = none) : (token .identifier name).Legible :=
  .token (.identifier h hreserved) (by decide) (by decide)

/-- Operators are shown as words. -/
theorem Grammar.not_mem_of_operator {kind : TokenKind}
    (h : standard.infixRule? kind = some .binary ∨ standard.infixRule? kind = some .logical ∨
      standard.prefixRule? kind = some .operator) :
    kind ∉ [TokenKind.string, .number, .openParen, .closeParen] := by
  cases kind <;> revert h <;> decide

/-- Tokens of a kind with one spelling differ in their spans at most. -/
theorem Token.relocate_of_fixedText? {t : Token} {kind : TokenKind} {text : String}
    (htext : t.kind.HasText t.text) (hkind : t.kind = kind)
    (hfixed : kind.fixedText? = some text) :
    t.relocate (fun _ => .null) = .synthetic kind text := by
  subst hkind
  rw [← htext.eq_of_fixedText? hfixed]
  rfl

private theorem Expr.shows_all {es : List Expr} (h : ∀ e ∈ es, e.outline.Shows e.unplaced) :
    List.Forall₂ Outline.Shows (outlineAll es) (relocateAll (fun _ => .null) es) := by
  induction es with
  | nil => exact .nil
  | cons e es ih =>
      rw [List.forall_mem_cons] at h
      exact .cons h.1 (ih h.2)

/-- The word of a legible constant shows that constant. -/
theorem Value.Legible.shows {value : Value} (h : value.Legible) :
    (Outline.word value.word).Shows (.literal value .null) := by
  cases value with
  | number x => exact ⟨Outline.legible_word_iff.2 (.number h), rfl⟩
  | string text => exact h.elim
  | boolean b =>
      cases b with
      | false =>
          have hword : (Outline.Word.token .kwFalse "false").Legible :=
            .token (.fixed rfl) (by decide) (by decide)
          exact ⟨Outline.legible_word_iff.2 hword, rfl⟩
      | true =>
          have hword : (Outline.Word.token .kwTrue "true").Legible :=
            .token (.fixed rfl) (by decide) (by decide)
          exact ⟨Outline.legible_word_iff.2 hword, rfl⟩
  | nil =>
      have hword : (Outline.Word.token .kwNil "nil").Legible :=
        .token (.fixed rfl) (by decide) (by decide)
      exact ⟨Outline.legible_word_iff.2 hword, rfl⟩

/-- The outline of an expression is read as the expression. -/
theorem Expr.Legible.shows {e : Expr} (h : e.Legible) : e.outline.Shows e.unplaced := by
  induction e with
  | binary left operator right hleft hright =>
      cases h.form with
      | binary hrule =>
          have hword := h.word (t := operator) (by simp [marks])
            (Grammar.not_mem_of_operator (.inl hrule))
          have hleft := hleft (.of_fill (F := .binaryLeft operator right) h)
          have hright := hright (.of_fill (F := .binaryRight left operator) h)
          exact .node hword (.cons hleft (.cons hright .nil))
            (Outline.Word.node?_of_binary hrule)
  | group inner hinner =>
      have hword : (Outline.Word.token .identifier "group").Legible :=
        Outline.Word.legible_name (by decide) rfl
      have hinner := hinner (.of_fill (F := .group) h)
      exact .node hword (.cons hinner .nil) rfl
  | literal value span => exact (h.constants [] value span rfl).shows
  | unary operator operand hoperand =>
      cases h.form with
      | unary hrule =>
          have hword := h.word (t := operator) (by simp [marks])
            (Grammar.not_mem_of_operator (.inr (.inr hrule)))
          have hoperand := hoperand (.of_fill (F := .unary operator) h)
          exact .node hword (.cons hoperand .nil) (Outline.Word.node?_of_operator hrule)
  | var name =>
      cases h.form with
      | var hname => exact .name (h.nameWord (by simp [marks]) hname) hname
  | assign name value hvalue =>
      cases h.form with
      | assign hname =>
          have hword : (Outline.Word.token .assignment "=").Legible :=
            .token (.fixed rfl) (by decide) (by decide)
          have hname := Outline.Shows.name (h.nameWord (by simp [marks]) hname) hname
          have hvalue := hvalue (.of_fill (F := .assign name) h)
          exact .node hword (.cons hname (.cons hvalue .nil)) rfl
  | logical left operator right hleft hright =>
      cases h.form with
      | logical hrule =>
          have hword := h.word (t := operator) (by simp [marks])
            (Grammar.not_mem_of_operator (.inr (.inl hrule)))
          have hleft := hleft (.of_fill (F := .logicalLeft operator right) h)
          have hright := hright (.of_fill (F := .logicalRight left operator) h)
          exact .node hword (.cons hleft (.cons hright .nil))
            (Outline.Word.node?_of_logical hrule)
  | call callee paren arguments hcallee harguments =>
      cases h.form with
      | call _ hparen =>
          have hword : (Outline.Word.token .identifier "call").Legible :=
            Outline.Word.legible_name (by decide) rfl
          have hcallee := hcallee (.of_fill (F := .call paren arguments) h)
          have hall := shows_all fun e he => harguments e he (h.argument he)
          have htext := h.texts paren (by simp [marks]) (by simp [hparen])
          refine .node hword (.cons hcallee hall) ?_
          simp only [unplaced, relocate, Token.relocate_of_fixedText? htext hparen rfl]
          rfl
  | get object name hobject =>
      cases h.form with
      | get _ hname =>
          have hword : (Outline.Word.token .identifier "get").Legible :=
            Outline.Word.legible_name (by decide) rfl
          have hobject := hobject (.of_fill (F := .get name) h)
          have hname := Outline.Shows.name (h.nameWord (by simp [marks]) hname) hname
          exact .node hword (.cons hobject (.cons hname .nil)) rfl
  | set object name value hobject hvalue =>
      cases h.form with
      | set _ hname =>
          have hword : (Outline.Word.token .identifier "set").Legible :=
            Outline.Word.legible_name (by decide) rfl
          have hobject := hobject (.of_fill (F := .setObject name value) h)
          have hname := Outline.Shows.name (h.nameWord (by simp [marks]) hname) hname
          have hvalue := hvalue (.of_fill (F := .setValue object name) h)
          exact .node hword (.cons hobject (.cons hname (.cons hvalue .nil))) rfl
  | this keyword =>
      cases h.form with
      | this hkeyword =>
          have hword : (Outline.Word.token .kwThis "this").Legible :=
            .token (.fixed rfl) (by decide) (by decide)
          have htext := h.texts keyword (by simp [marks]) (by simp [hkeyword])
          refine ⟨Outline.legible_word_iff.2 hword, ?_⟩
          simp only [unplaced, relocate, Token.relocate_of_fixedText? htext hkeyword rfl]
          rfl
  | super keyword method =>
      cases h.form with
      | super hkeyword hmethod =>
          have hword : (Outline.Word.token .kwSuper "super").Legible :=
            .token (.fixed rfl) (by decide) (by decide)
          have hmethod := Outline.Shows.name (h.nameWord (by simp [marks]) hmethod) hmethod
          have htext := h.texts keyword (by simp [marks]) (by simp [hkeyword])
          refine .node hword (.cons hmethod .nil) ?_
          simp only [unplaced, relocate, Token.relocate_of_fixedText? htext hkeyword rfl]
          rfl

/-- Legible expressions with the same printed form differ in their spans at most. -/
theorem Expr.Legible.unplaced_eq {e e' : Expr} (h : e.Legible) (h' : e'.Legible)
    (hprinted : e.printed = e'.printed) : e.unplaced = e'.unplaced := by
  have htext : e.outline.text = e'.outline.text := by
    rw [text_outline, text_outline, hprinted]
  have hread := h.shows.read
  rw [Outline.eq_of_text_eq h.shows.legible h'.shows.legible htext, h'.shows.read] at hread
  exact (Option.some.inj hread).symm

end ExprLang
