import ExprLang.Proofs.Context.Basic
import ExprLang.Proofs.Spelling.Completeness
import ExprLang.Proofs.Spelling.Soundness

/-!
# Redundant parentheses

Parentheses may be put around any part of an expression.  The part is spelled by
a row of tokens of its own, and in parentheses it is tighter than any operator
around it, so the rest of the expression is grouped as before; and neither the
value nor the names of an expression depend on its groups.

Main results:

- Theorem `Context.exists_cut`: a list that is parsed is cut around the tokens of
  each node.
- Theorem `parse_parenthesized`: what becomes of a list in which a node is put in
  parentheses.
-/

namespace ExprLang

private theorem BindingPower.le_primary (p : BindingPower) : p ≤ .primary := by
  cases p <;> decide

/-- A list of tokens is cut into those of a node and those of the context that the
node stands in, which are followed by the end of the input. -/
structure Context.Cuts (C : Context) (n : Expr) (tokens us ns vs : List Token) :
    Prop where
  tokens_eq : tokens = us ++ ns ++ vs
  front : Fits C.front us
  node : n.Spells ns
  back : ∃ ws rest, vs = ws ++ rest ∧ Fits C.back ws ∧ (headToken rest).kind = .eof

namespace Context

variable {C : Context} {n : Expr} {tokens us ns vs ws : List Token}

/-- A list that is parsed is cut around the tokens of each node. -/
theorem exists_cut (h : parse tokens = .ok (C.plug n)) :
    ∃ us ns vs, C.Cuts n tokens us ns vs := by
  rcases spells_plug_iff.1 (spells_of_parse h) with ⟨us, ns, ws, hbefore, hus, hns, hws⟩
  rcases exists_eq_beforeEnd_append tokens with ⟨rest, htokens, hend⟩
  refine ⟨us, ns, ws ++ rest, ?_, hus, hns, ws, rest, rfl, hws, hend⟩
  rw [htokens, hbefore, List.append_assoc]

/-- A node in parentheses is tighter than any operator around it. -/
theorem form_plug_group (h : (C.plug n).InPrecedenceForm) :
    (C.plug (.group n)).InPrecedenceForm := by
  have hpower : n.power ≤ (Expr.group n).power := BindingPower.le_primary _
  exact form_plug h hpower (.group (form_of_plug h))

/-- The tokens of a node are put in parentheses where they stand. -/
theorem Cuts.parse_group (hcut : C.Cuts n tokens us ns vs)
    (hform : (C.plug n).InPrecedenceForm) {opening closing : Token}
    (hopening : opening.kind = .openParen) (hclosing : closing.kind = .closeParen) :
    parse (us ++ opening :: ns ++ closing :: vs) = .ok (C.plug (.group n)) := by
  rcases hcut.back with ⟨ws, rest, rfl, hws, hend⟩
  have hgroup : (Expr.group n).Spells (opening :: (ns ++ [closing])) :=
    Expr.spells_group_iff.2 ⟨opening, ns, closing, rfl, hopening, hcut.node, hclosing⟩
  have hspells : (C.plug (.group n)).Spells (us ++ opening :: (ns ++ [closing]) ++ ws) :=
    spells_plug_iff.2 ⟨us, _, ws, rfl, hcut.front, hgroup, hws⟩
  have hparse := hspells.parse_append (form_plug_group hform) hend
  simpa using hparse

end Context

/-- A list that is parsed is cut around the tokens of each node, and by themselves
they are parsed as that node.  With parentheses around them the list is parsed as
the tree in which the node is a group, and this tree has the value, or the fault,
and the names that the tree had before. -/
theorem parse_parenthesized {tokens : List Token} {C : Context} {n : Expr}
    (h : parse tokens = .ok (C.plug n)) :
    (∃ us ns vs, C.Cuts n tokens us ns vs) ∧
      ∀ us ns vs, C.Cuts n tokens us ns vs →
        parse ns = .ok n ∧
          ∀ opening closing : Token, opening.kind = .openParen →
            closing.kind = .closeParen →
              parse (us ++ opening :: ns ++ closing :: vs) = .ok (C.plug (.group n)) ∧
                (C.plug (.group n)).eval = (C.plug n).eval ∧
                  (C.plug (.group n)).names = (C.plug n).names := by
  refine ⟨Context.exists_cut h, ?_⟩
  intro us ns vs hcut
  have hform := form_of_parse h
  refine ⟨hcut.node.parse_eq (Context.form_of_plug hform), ?_⟩
  intro opening closing hopening hclosing
  exact ⟨hcut.parse_group hform hopening hclosing, C.eval_plug_congr (Expr.eval_group n),
    C.names_plug_congr rfl⟩

/-- The case of `f(a).b = -c`, where parentheses around `f` do not call anything.  Both
trees are refused at `b`, and their names are `f`, `a` and `c`. -/
theorem parse_parenthesized_callee :
    ∃ (f opening a closing dot b equals dash c : Token) (e e' : Expr),
      e = .set (.call (.var f) closing [.var a]) b (.unary dash (.var c)) ∧
      e' = .set (.call (.group (.var f)) closing [.var a]) b (.unary dash (.var c)) ∧
      parse [f, opening, a, closing, dot, b, equals, dash, c] = .ok e ∧
      parse [opening, f, closing, opening, a, closing, dot, b, equals, dash, c] = .ok e' ∧
      e'.eval = e.eval ∧
      e'.eval = .error ⟨.notConstant "assignment to property `b`", b.start⟩ ∧
      e'.names = e.names ∧ e'.names.reads = [f, a, c] := by
  let f : Token := .synthetic .identifier "f"
  let opening : Token := .synthetic .openParen "("
  let a : Token := .synthetic .identifier "a"
  let closing : Token := .synthetic .closeParen ")"
  let dot : Token := .synthetic .dot "."
  let b : Token := .synthetic .identifier "b"
  let equals : Token := .synthetic .assignment "="
  let dash : Token := .synthetic .dash "-"
  let c : Token := .synthetic .identifier "c"
  let C : Context := [.setObject b (.unary dash (.var c)), .call closing [.var a]]
  have hback : Fits C.back [opening, a, closing, dot, b, equals, dash, c] :=
    .cons (.dropped opening) <| .cons (.kept a) <| .cons (.kept closing) <|
      .cons (.dropped dot) <| .cons (.kept b) <| .cons (.dropped equals) <|
        .cons (.kept dash) <| .cons (.kept c) .nil
  have hnode : (Expr.var f).Spells [f] := Expr.spells_var_iff.2 rfl
  have hform : (C.plug (.var f)).InPrecedenceForm :=
    .set (by decide) rfl
      (.call (by decide) rfl (.var rfl) (List.forall_mem_singleton.2 (.var rfl)))
      (.unary rfl (by decide) (.var rfl))
  have h : parse [f, opening, a, closing, dot, b, equals, dash, c] =
      .ok (C.plug (.var f)) :=
    (Context.spells_plug_iff.2 ⟨[], _, _, rfl, .nil, hnode, hback⟩).parse_eq hform
  have hcut : C.Cuts (.var f) [f, opening, a, closing, dot, b, equals, dash, c] [] [f]
      [opening, a, closing, dot, b, equals, dash, c] :=
    ⟨rfl, .nil, hnode, _, [], rfl, hback, rfl⟩
  rcases ((parse_parenthesized h).2 [] [f] _ hcut).2 opening closing rfl rfl with
    ⟨hparse, heval, hnames⟩
  exact ⟨f, opening, a, closing, dot, b, equals, dash, c, _, _, rfl, rfl, h, hparse, heval,
    heval.trans rfl, hnames, (congrArg Names.reads hnames).trans rfl⟩

end ExprLang
