import ExprLang.Proofs.Evaluation.Fault
import ExprLang.Proofs.Evaluation.Replacement

/-!
# The first fault of evaluation

Among the nodes that evaluation reaches, each behind its own children, the first
that fails on the values of its own operands is the one whose fault evaluation ends
with.  If none of them fails, there is a value.

Main results:

- Theorem `Expr.fault?_eval`: evaluation ends with the first fault that it reaches.
- Theorem `eval_first_fault`: what evaluation depends on, and where its fault stands.
-/

namespace ExprLang

/-- The fault, if there is one in place of a result. -/
def fault? {α : Type} : Except Diagnostic α → Option Diagnostic
  | .error d => some d
  | .ok _ => none

private theorem fault?_eq_some_iff {α : Type} {r : Except Diagnostic α} {d : Diagnostic} :
    fault? r = some d ↔ r = .error d := by
  cases r <;> simp [fault?]

namespace Expr

/-- The fault of a node by itself, where its operands have values: that these are
not what its operator needs, that its operator does not belong there, or that the
node depends on a state. -/
def ownFault? : Expr → Option Diagnostic
  | .binary left operator right =>
      match left.eval, right.eval with
      | .ok l, .ok r => fault? (binaryValue operator l r)
      | _, _ => none
  | .unary operator operand =>
      match operand.eval with
      | .ok value => fault? (unaryValue operator value)
      | .error _ => none
  | .logical left operator _ =>
      match left.eval with
      | .ok l => fault? (skipsRight operator l)
      | .error _ => none
  | .group _ | .literal .. => none
  | .var name => some (name.notConstant ("variable `" ++ name.text ++ "`"))
  | .assign name _ => some (name.notConstant ("assignment to `" ++ name.text ++ "`"))
  | .call _ paren _ => some (paren.notConstant "call")
  | .get _ name => some (name.notConstant ("property `" ++ name.text ++ "`"))
  | .set _ name _ =>
      some (name.notConstant ("assignment to property `" ++ name.text ++ "`"))
  | .this keyword => some (keyword.notConstant "`this`")
  | .super keyword _ => some (keyword.notConstant "`super`")

/-- The token that a node is shown by where it fails. -/
def ownToken? : Expr → Option Token
  | .binary _ operator _ | .unary operator _ | .logical _ operator _ => some operator
  | .group _ | .literal .. => none
  | .var name | .assign name _ | .get _ name | .set _ name _ => some name
  | .call _ paren _ => some paren
  | .this keyword | .super keyword _ => some keyword

/-- A node fails at the start of its own token. -/
theorem position_of_ownFault? {n : Expr} {d : Diagnostic} (h : n.ownFault? = some d) :
    ∃ t, n.ownToken? = some t ∧ d.position = t.start := by
  cases n with
  | binary left operator right =>
      simp only [ownFault?] at h
      split at h
      · exact ⟨operator, rfl, (binaryValue_blamed (fault?_eq_some_iff.1 h)).position_eq⟩
      · cases h
  | unary operator operand =>
      simp only [ownFault?] at h
      split at h
      · exact ⟨operator, rfl, (unaryValue_blamed (fault?_eq_some_iff.1 h)).position_eq⟩
      · cases h
  | logical left operator right =>
      simp only [ownFault?] at h
      split at h
      · exact ⟨operator, rfl, (skipsRight_blamed (fault?_eq_some_iff.1 h)).position_eq⟩
      · cases h
  | group | literal => cases h
  | var name | assign name | get _ name | set _ name =>
      cases h
      exact ⟨name, rfl, rfl⟩
  | call _ paren =>
      cases h
      exact ⟨paren, rfl, rfl⟩
  | this keyword | super keyword =>
      cases h
      exact ⟨keyword, rfl, rfl⟩

/-! ## The first of the nodes that fail -/

/-- Evaluation ends with the fault of the first node that it reaches and that fails
on the values of its own operands. -/
theorem fault?_eval (e : Expr) : fault? e.eval = e.reached.findSome? ownFault? := by
  induction e with
  | binary left operator right ihleft ihright =>
      simp only [reached, List.findSome?_append, ← ihleft, ← ihright]
      cases hleft : left.eval with
      | error d => simp [eval, hleft, bind, Except.bind, fault?]
      | ok l =>
          cases hright : right.eval with
          | error d => simp [eval, hleft, hright, bind, Except.bind, fault?]
          | ok r => simp [eval, ownFault?, hleft, hright, bind, Except.bind, fault?]
  | unary operator operand ih =>
      simp only [reached, List.findSome?_append, ← ih]
      cases hoperand : operand.eval with
      | error d => simp [eval, hoperand, bind, Except.bind, fault?]
      | ok value => simp [eval, ownFault?, hoperand, bind, Except.bind, fault?]
  | group inner ih => simp [reached, List.findSome?_append, ← ih, ownFault?]
  | logical left operator right ihleft ihright =>
      simp only [reached, List.findSome?_append, ← ihleft]
      cases hleft : left.eval with
      | error d => simp [eval, hleft, bind, Except.bind, fault?]
      | ok l =>
          -- Where evaluation goes on, the operator has no fault of its own.
          cases hskips : skipsRight operator l with
          | error d =>
              simp [eval, ownFault?, goesOn_iff hleft, hleft, hskips, bind, Except.bind,
                fault?]
          | ok skips =>
              cases skips with
              | true =>
                  simp [eval_logical_of_skips hleft hskips, ownFault?, goesOn_iff hleft,
                    hleft, hskips, fault?]
              | false =>
                  simp [eval, ownFault?, goesOn_iff hleft, hleft, hskips, bind,
                    Except.bind, ← ihright, fault?]
  | _ => simp [reached, eval, ownFault?, fault?]

end Expr

/-- The nodes that evaluation of a tree reaches, in order, are those whose places it
reaches.  It fails exactly if one of them fails on the values of its own operands,
and then with the fault of the first one that does, at the start of that node's own
token.  What stands at the places that are not reached may be replaced, at one of
them or at any number of them at once, and evaluation ends as before. -/
theorem eval_first_fault (e : Expr) :
    (∀ n, n ∈ e.reached ↔ ∃ C : Context, C.Reached ∧ e = C.plug n) ∧
      ((∃ d, e.eval = .error d) ↔ ∃ n ∈ e.reached, ∃ d, n.ownFault? = some d) ∧
      (∀ d, e.eval = .error d ↔
        ∃ before n after, e.reached = before ++ n :: after ∧
          (∀ m ∈ before, m.ownFault? = none) ∧ n.ownFault? = some d) ∧
      (∀ (n : Expr) d, n.ownFault? = some d →
        ∃ t, n.ownToken? = some t ∧ d.position = t.start) ∧
      (∀ (C : Context) n n', e = C.plug n → ¬ C.Reached → (C.plug n').eval = e.eval) ∧
      ∀ f : Context → Option Expr,
        (∀ C n, e = Context.plug C n → Context.Reached C → f C = none) →
          (e.replace f).eval = e.eval := by
  refine ⟨fun n => Expr.mem_reached_iff, ?_, ?_, fun n d => Expr.position_of_ownFault?,
    ?_, ?_⟩
  · simp only [← fault?_eq_some_iff, e.fault?_eval]
    rw [← Option.isSome_iff_exists, List.findSome?_isSome_iff]
    simp only [Option.isSome_iff_exists]
  · intro d
    rw [← fault?_eq_some_iff, e.fault?_eval, List.findSome?_eq_some_iff]
    constructor
    · rintro ⟨before, n, after, hreached, hfault, hbefore⟩
      exact ⟨before, n, after, hreached, hbefore, hfault⟩
    · rintro ⟨before, n, after, hreached, hbefore, hfault⟩
      exact ⟨before, n, after, hreached, hfault, hbefore⟩
  · rintro C n n' rfl hC
    exact Context.eval_plug_of_not_reached hC n' n
  · intro f hf
    apply Expr.eval_replace
    intro C n n' he hC hput
    rw [hf C n he hC] at hput
    cases hput

/-- The case of `(true or e) + -nil`, where the minus is reached before the plus and
`e` is not reached at all. -/
theorem eval_first_fault_behind_or :
    ∃ or plus dash : Token, ∀ e : Expr,
      (Expr.binary (.logical (.literal (.boolean true) .null) or e) plus
        (.unary dash (.literal .nil .null))).eval =
          .error (dash.operandFault "a number") := by
  refine ⟨.synthetic .kwOr "or", .synthetic .plus "+", .synthetic .dash "-", ?_⟩
  intro e
  let C : Context :=
    [.binaryLeft (.synthetic .plus "+")
        (.unary (.synthetic .dash "-") (.literal .nil .null)),
      .logicalRight (.literal (.boolean true) .null) (.synthetic .kwOr "or")]
  have hC : ¬ C.Reached := by
    intro h
    cases h _ (List.mem_cons_of_mem _ (List.mem_cons_self ..))
  have hlaw := eval_first_fault (C.plug (.var (.synthetic .identifier "x")))
  have hfirst := (hlaw.2.2.1 ((Token.synthetic .dash "-").operandFault "a number")).2
    ⟨[_, _, _], _, [_], rfl, by decide, rfl⟩
  exact (hlaw.2.2.2.2.1 C _ e rfl hC).trans hfirst

end ExprLang
