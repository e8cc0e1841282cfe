import ExprLang.Proofs.Reading.Bounded
import ExprLang.Proofs.Spelling.Precedence

/-!
# Completeness of the parser

A spelling of an expression in precedence form is read back as that expression,
whatever follows it, as long as the next token does not belong to its last part.
An expression may be the left operand of what follows, so the statement is that
the loop goes on with it.

Main results:

- Theorem `Unbounded.readsBack`: spellings are read back in front of other
  tokens.
- Theorem `parse_complete`: spellings are parsed, and no list spells two
  expressions in precedence form.
-/

namespace ExprLang

namespace Unbounded

open ReadM Ending

variable {power : BindingPower} {us k ts : List Token} {e : Expr} {t : Token}

/-- Spellings of an expression are read in front of other tokens, and the loop
goes on with the expression. -/
def ReadsBack (e : Expr) : Prop :=
  ∀ ⦃power : BindingPower⦄ ⦃us k : List Token⦄, e.Spells us →
    power < e.power ∨ e.power = .unary →
    Grammar.standard.power (headToken k).kind ≤ e.bound →
      expr .standard power (us ++ k) = extend .standard power e k

/-- The loop stops at once if the next token binds loosely enough. -/
theorem ReadsBack.done (h : ReadsBack e) (hspells : e.Spells us)
    (hpower : power < e.power ∨ e.power = .unary)
    (hbound : Grammar.standard.power (headToken k).kind ≤ e.bound)
    (hhead : Grammar.standard.power (headToken k).kind ≤ power) :
    expr .standard power (us ++ k) = done e k := by
  rw [h hspells hpower hbound]
  exact extend_of_not_lt (Nat.not_lt_of_le hhead)

/-- Nothing that is in parentheses or between commas needs to be tight. -/
theorem ReadsBack.done_default (h : ReadsBack e) (hform : e.InPrecedenceForm)
    (hspells : e.Spells us)
    (hhead : Grammar.standard.power (headToken k).kind ≤ .default) :
    expr .standard .default (us ++ k) = Ending.done e k :=
  h.done hspells (.inl hform.default_lt_power)
    (Nat.le_trans hhead (Nat.zero_le _)) hhead

/-- The expressions of one token are read as they are. -/
theorem expr_of_leaf (h : t.leaf = .ok e) (k : List Token) :
    expr .standard power (t :: k) = extend .standard power e k := by
  have hrule := Grammar.prefixRule?_of_leaf h
  apply expr_of_start hrule
  rw [start_primary (Grammar.ne_eof_of_prefixRule? hrule), h]
  rfl

private theorem ReadsBack.var {name : Token} (hname : name.kind = .identifier) :
    ReadsBack (.var name) := by
  intro power us k hspells _ _
  rcases Expr.spells_var_iff.1 hspells with rfl
  exact expr_of_leaf (Token.leaf_eq_ok_iff.2 (.inr ⟨hname, rfl⟩)) k

/-! ## Operators -/

/-- An operator between two operands. -/
theorem ReadsBack.of_operands {left right : Expr} {operator : Token}
    {node : Expr → Expr}
    (hoperator : .assignment < Grammar.standard.power operator.kind ∧
      Grammar.standard.power operator.kind < .unary)
    (hspells : ∀ us, (node right).Spells us →
      ∃ vs ws, us = vs ++ operator :: ws ∧ left.Spells vs ∧ right.Spells ws)
    (hpower : (node right).power = Grammar.standard.power operator.kind)
    (hextend : ∀ power, power < Grammar.standard.power operator.kind → ∀ ts,
      extend .standard power left (operator :: ts) =
        (expr .standard (Grammar.standard.power operator.kind) >>= fun e =>
          extend .standard power (node e)) ts)
    (hleft : Grammar.standard.power operator.kind ≤ left.power)
    (hright : Grammar.standard.power operator.kind < right.power)
    (ihleft : ReadsBack left) (ihright : ReadsBack right) : ReadsBack (node right) := by
  intro power us k hus htight hbound
  rcases hspells us hus with ⟨vs, ws, rfl, hvs, hws⟩
  rcases hoperator with ⟨hassignment, hunary⟩
  rw [Expr.bound_eq_power (hpower ▸ hassignment), hpower] at hbound
  have hlt : power < Grammar.standard.power operator.kind := by
    rcases htight with hlt | heq
    · rwa [hpower] at hlt
    · exact absurd (hpower.symm.trans heq) (Grammar.power_standard_ne_unary _)
  have hreadleft : expr .standard power (vs ++ operator :: (ws ++ k)) =
      extend .standard power left (operator :: (ws ++ k)) :=
    ihleft hvs (.inl (Nat.lt_of_lt_of_le hlt hleft)) (Expr.le_bound hassignment hleft)
  have hclosed := Nat.le_trans hbound
    (Expr.le_bound hassignment (Nat.le_of_lt hright))
  have hreadright := ihright.done hws (.inl hright) hclosed hbound
  rw [List.append_assoc, List.cons_append, hreadleft, hextend power hlt]
  exact bind_of_done hreadright

/-- A unary operator is read back if its operand is. -/
theorem ReadsBack.unary {operator : Token} {operand : Expr}
    (hrule : Grammar.standard.prefixRule? operator.kind = some .operator)
    (hoperand : .unary ≤ operand.power) (ih : ReadsBack operand) :
    ReadsBack (.unary operator operand) := by
  intro power us k hspells _ hbound
  rcases Expr.spells_unary_iff.1 hspells with ⟨vs, rfl, hvs⟩
  have htight : .unary < operand.power ∨ operand.power = .unary := by
    rcases Nat.lt_or_eq_of_le hoperand with hlt | heq
    · exact .inl hlt
    · exact .inr (BindingPower.rank_injective heq.symm)
  have hclosed := Nat.le_trans hbound
    (Expr.le_bound (by decide : BindingPower.assignment < .unary) hoperand)
  have hreadoperand := ih.done hvs htight hclosed hbound
  rw [List.cons_append, expr_operator hrule (Grammar.ne_eof_of_prefixRule? hrule)]
  exact bind_of_done hreadoperand

/-- A group is read back if what is in it is. -/
theorem ReadsBack.group {inner : Expr} (hform : inner.InPrecedenceForm)
    (ih : ReadsBack inner) : ReadsBack (.group inner) := by
  intro power us k hspells _ _
  rcases Expr.spells_group_iff.1 hspells with
    ⟨opening, vs, closing, rfl, hopening, hvs, hclosing⟩
  have hrule := Grammar.prefixRule?_eq_group_iff.2 hopening
  have hhead : Grammar.standard.power closing.kind ≤ .default := by
    rw [hclosing]
    decide
  have hreadinner : expr .standard .default (vs ++ closing :: k) =
      Ending.done inner (closing :: k) := ih.done_default hform hvs hhead
  have hlist : opening :: (vs ++ [closing]) ++ k = opening :: (vs ++ closing :: k) := by
    simp
  rw [hlist, expr_group hrule (Grammar.ne_eof_of_prefixRule? hrule),
    bind_of_done hreadinner]
  exact bind_of_done (expectDetailed_cons hclosing (by decide) _ k)

/-! ## Calls and assignments -/

/-- Arguments are read up to a token that does not go on with them. -/
theorem arguments_of_spellsAll {es : List Expr} (hes : es ≠ [])
    (ih : ∀ e ∈ es, ReadsBack e) (hforms : ∀ e ∈ es, e.InPrecedenceForm)
    (hspells : Expr.SpellsAll es us)
    (hhead : Grammar.standard.power (headToken k).kind ≤ .default)
    (hcomma : (headToken k).kind ≠ .comma) :
    arguments .standard (us ++ k) = Ending.done es k := by
  induction es generalizing us with
  | nil => exact absurd rfl hes
  | cons e es ihes =>
      have hread := ih e (List.mem_cons_self ..)
      have hform := hforms e (List.mem_cons_self ..)
      cases es with
      | nil =>
          have hlast :=
            hread.done_default hform (Expr.spellsAll_singleton_iff.1 hspells) hhead
          exact arguments_last hlast hcomma
      | cons e' es =>
          rcases Expr.spellsAll_cons_cons_iff.1 hspells with
            ⟨vs, comma, ws, rfl, hvs, hkind, hws⟩
          have hpower : Grammar.standard.power comma.kind ≤ .default := by
            rw [hkind]
            decide
          have hfirst : expr .standard .default (vs ++ comma :: (ws ++ k)) =
              Ending.done e (comma :: (ws ++ k)) :=
            hread.done_default hform hvs hpower
          have hothers : arguments .standard (ws ++ k) = Ending.done (e' :: es) k :=
            ihes (List.cons_ne_nil _ _) (fun _ h => ih _ (List.mem_cons_of_mem _ h))
              (fun _ h => hforms _ (List.mem_cons_of_mem _ h)) hws
          rw [List.append_assoc, List.cons_append, arguments_cons hfirst hkind]
          exact bind_of_done hothers

/-- What is called, or has a property, is read up to the token that says so. -/
theorem ReadsBack.of_call_le {object : Expr} (ih : ReadsBack object)
    (hobject : .call ≤ object.power) (hspells : object.Spells us) (hlt : power < .call)
    (ht : Grammar.standard.power t.kind = .call) :
    expr .standard power (us ++ t :: k) = extend .standard power object (t :: k) := by
  apply ih hspells (.inl (Nat.lt_of_lt_of_le hlt hobject))
  rw [headToken_cons, ht]
  exact Expr.le_bound (by decide) hobject

/-- A property is read back if its object is. -/
theorem ReadsBack.get {object : Expr} {name : Token} (hobject : .call ≤ object.power)
    (hname : name.kind = .identifier) (ih : ReadsBack object) :
    ReadsBack (.get object name) := by
  intro power us k hspells htight _
  rcases Expr.spells_get_iff.1 hspells with ⟨vs, dot, rfl, hvs, hdot⟩
  have hlt : power < .call := htight.resolve_right nofun
  have hpower : Grammar.standard.power dot.kind = .call := by
    rw [hdot]
    rfl
  have hreadobject : expr .standard power (vs ++ dot :: name :: k) =
      extend .standard power object (dot :: name :: k) :=
    ih.of_call_le hobject hvs hlt hpower
  have hrule := Grammar.infixRule?_eq_get_iff.2 hdot
  rw [List.append_assoc, List.cons_append, List.cons_append, List.nil_append, hreadobject,
    extend_get object (hpower ▸ hlt) hrule (Grammar.ne_eof_of_infixRule? hrule)]
  exact bind_of_done (expectDetailed_cons hname (by decide) _ k)

/-- A call is read back if its callee and its arguments are. -/
theorem ReadsBack.call {callee : Expr} {paren : Token} {es : List Expr}
    (hcallee : .call ≤ callee.power) (hparen : paren.kind = .closeParen)
    (hforms : ∀ e ∈ es, e.InPrecedenceForm) (ih : ReadsBack callee)
    (ihes : ∀ e ∈ es, ReadsBack e) : ReadsBack (.call callee paren es) := by
  intro power us k hspells htight _
  rcases Expr.spells_call_iff.1 hspells with ⟨vs, opening, ws, rfl, hvs, hopening, hws⟩
  have hlt : power < .call := htight.resolve_right nofun
  have hpower : Grammar.standard.power opening.kind = .call := by
    rw [hopening]
    rfl
  have hreadcallee : expr .standard power (vs ++ opening :: (ws ++ paren :: k)) =
      extend .standard power callee (opening :: (ws ++ paren :: k)) :=
    ih.of_call_le hcallee hvs hlt hpower
  have hlist : vs ++ opening :: (ws ++ [paren]) ++ k =
      vs ++ opening :: (ws ++ paren :: k) := by simp
  have hrule := Grammar.infixRule?_eq_call_iff.2 hopening
  have ht := Grammar.ne_eof_of_infixRule? hrule
  rw [hlist, hreadcallee]
  cases es with
  | nil =>
      rcases Expr.spellsAll_nil_iff.1 hws with rfl
      exact extend_call_nil callee (hpower ▸ hlt) hrule ht hparen k
  | cons e es =>
      have harguments : arguments .standard (ws ++ paren :: k) =
          Ending.done (e :: es) (paren :: k) :=
        arguments_of_spellsAll (List.cons_ne_nil _ _) ihes hforms hws
          (by rw [headToken_cons, hparen]; decide) (by simp [hparen])
      have hhead : (headToken (ws ++ paren :: k)).kind ≠ .closeParen := by
        intro hclose
        apply prefixRule?_ne_none_of_arguments harguments
        rw [hclose]
        rfl
      rw [extend_call callee (hpower ▸ hlt) hrule ht hhead, bind_of_done harguments]
      exact bind_of_done (expectDetailed_cons hparen (by decide) _ k)

/-- What stands in front of an assignment is read as a whole, then the value, and
only then is it seen whether there is anything to assign to. -/
theorem ReadsBack.assignment {equals : Token} (ih : ReadsBack e) (hspells : e.Spells us)
    (htight : power < e.power) (hlt : power < .assignment) (hbound : .assignment ≤ e.bound)
    (hequals : equals.kind = .assignment) (k : List Token) :
    expr .standard power (us ++ equals :: k) = (do
      let value ← expr .standard .default
      match Expr.assigned? value e with
      | some e' => extend .standard power e'
      | none => fail ⟨.invalidAssignmentTarget, equals.start⟩) k := by
  have hpower : Grammar.standard.power equals.kind = .assignment := by
    rw [hequals]
    rfl
  have hread : expr .standard power (us ++ equals :: k) =
      extend .standard power e (equals :: k) := by
    apply ih hspells (.inl htight)
    rwa [headToken_cons, hpower]
  have hrule := Grammar.infixRule?_eq_assignment_iff.2 hequals
  rw [hread]
  exact extend_assignment e (hpower ▸ hlt) hrule (Grammar.ne_eof_of_infixRule? hrule) k

/-- An assignment is read back if its target and its value are. -/
theorem ReadsBack.of_assigned {value target : Expr}
    (hassigned : Expr.assigned? value target = some e) (hform : value.InPrecedenceForm)
    (ihtarget : ReadsBack target) (ihvalue : ReadsBack value) : ReadsBack e := by
  intro power us k hspells htight hbound
  rw [Expr.power_of_assigned? hassigned] at htight
  rw [Expr.bound_of_assigned? hassigned] at hbound
  rcases (Expr.spells_iff_of_assigned? hassigned).1 hspells with
    ⟨vs, equals, ws, rfl, hvs, hequals, hws⟩
  have hlt : power < .assignment := htight.resolve_right (by decide)
  have htarget := Expr.assignment_lt_power_of_assigned? hassigned
  have hclosed := Expr.assignment_le_bound_of_assigned? hassigned
  rw [List.append_assoc, List.cons_append,
    ihtarget.assignment hvs (Nat.lt_trans hlt htarget) hlt hclosed hequals,
    bind_of_done (ihvalue.done_default hform hws hbound), hassigned]

/-! ## All expressions -/

/-- Spellings of expressions in precedence form are read back. -/
theorem readsBack (hform : e.InPrecedenceForm) : ReadsBack e := by
  induction hform with
  | @binary left right operator hrule hleft hright _ _ ihleft ihright =>
      have ht := Grammar.ne_eof_of_infixRule? hrule
      exact ReadsBack.of_operands (Grammar.power_standard_of_operator (.inl hrule))
        (fun _ h => Expr.spells_binary_iff.1 h) rfl
        (fun _ hlt => extend_binary left hlt hrule ht) hleft hright ihleft ihright
  | @logical left right operator hrule hleft hright _ _ ihleft ihright =>
      have ht := Grammar.ne_eof_of_infixRule? hrule
      exact ReadsBack.of_operands (Grammar.power_standard_of_operator (.inr hrule))
        (fun _ h => Expr.spells_logical_iff.1 h) rfl
        (fun _ hlt => extend_logical left hlt hrule ht) hleft hright ihleft ihright
  | unary hrule hoperand _ ih => exact ReadsBack.unary hrule hoperand ih
  | group form ih => exact ReadsBack.group form ih
  | literal value span =>
      intro power us k hspells _ _
      rcases Expr.spells_literal_iff.1 hspells with ⟨t, rfl, hdenotes, rfl⟩
      exact expr_of_leaf (Token.leaf_eq_ok_iff.2 (.inl ⟨value, hdenotes, rfl⟩)) k
  | var hname => exact ReadsBack.var hname
  | this hkeyword =>
      intro power us k hspells _ _
      rcases Expr.spells_this_iff.1 hspells with rfl
      exact expr_of_start (Grammar.prefixRule?_eq_this_iff.2 hkeyword)
        (start_this hkeyword)
  | super hkeyword hmethod =>
      intro power us k hspells _ _
      rcases Expr.spells_super_iff.1 hspells with ⟨dot, rfl, hdot⟩
      exact expr_of_start (Grammar.prefixRule?_eq_super_iff.2 hkeyword)
        (start_super hkeyword hdot hmethod)
  | assign hname form ih => exact ReadsBack.of_assigned rfl form (ReadsBack.var hname) ih
  | call hcallee hparen _ arguments_form ih ihes =>
      exact ReadsBack.call hcallee hparen arguments_form ih ihes
  | get hobject hname _ ih => exact ReadsBack.get hobject hname ih
  | set hobject hname _ form ih ihvalue =>
      exact ReadsBack.of_assigned rfl form (ReadsBack.get hobject hname ih) ihvalue

/-- A spelling is read up to the end of the input. -/
theorem expr_of_spells (hform : e.InPrecedenceForm) (hspells : e.Spells us)
    (hend : (headToken k).kind = .eof) :
    expr .standard .default (us ++ k) = Ending.done e k := by
  apply (readsBack hform).done_default hform hspells
  rw [hend]
  decide

/-- A tree in precedence form is read back as a whole from its spelling. -/
theorem whole_of_spells (hform : e.InPrecedenceForm) (hspells : e.Spells us)
    (hend : (headToken k).kind = .eof) : whole (us ++ k) = Ending.done e k := by
  rw [whole, bind_of_done (expr_of_spells hform hspells hend),
    bind_of_done (expectDetailed_eof hend _)]
  rfl

end Unbounded

/-! ## Whole lists of tokens -/

namespace Expr

variable {e : Expr} {us rest : List Token}

/-- No part of a spelling is an end of the input. -/
theorem Spells.kind_ne_eof (hspells : e.Spells us) (hform : e.InPrecedenceForm) :
    ∀ t ∈ us, t.kind ≠ .eof := by
  have hread := Unbounded.expr_of_spells hform hspells kind_headToken_nil
  exact (Unbounded.advances_of_expr Grammar.stopsAtEnd_standard hread).leaves.ne_eof

/-- A spelling is parsed, whatever stands behind the end of the input. -/
theorem Spells.parse_append (hspells : e.Spells us) (hform : e.InPrecedenceForm)
    (hend : (headToken rest).kind = .eof) : parse (us ++ rest) = .ok e := by
  rcases exists_eq_beforeEnd_append (TokenStream.complete (us ++ rest)) with
    ⟨last, hcomplete, hlast⟩
  rw [TokenStream.beforeEnd_complete,
    beforeEnd_append (hspells.kind_ne_eof hform) hend] at hcomplete
  apply parse_eq_ok_iff.2
  rw [hcomplete]
  exact ⟨last, Unbounded.whole_of_spells hform hspells hlast⟩

/-- A spelling of a tree in precedence form is parsed as the tree. -/
theorem Spells.parse_eq (hspells : e.Spells us) (hform : e.InPrecedenceForm) :
    parse us = .ok e := by
  have hparse := hspells.parse_append hform kind_headToken_nil
  rwa [List.append_nil] at hparse

end Expr

/-- Every spelling of an expression in precedence form is parsed as that
expression, with or without an end of the input behind it.  So no list spells
two such expressions, and what is rejected spells none. -/
theorem parse_complete :
    (∀ (e : Expr) (tokens : List Token), e.InPrecedenceForm → e.Spells tokens →
        parse tokens = .ok e ∧
          ∀ rest, (headToken rest).kind = .eof → parse (tokens ++ rest) = .ok e) ∧
      (∀ (e e' : Expr) (tokens : List Token), e.InPrecedenceForm →
        e'.InPrecedenceForm → e.Spells tokens → e'.Spells tokens → e = e') ∧
      ∀ (tokens : List Token) (d : Diagnostic), parse tokens = .error d →
        ∀ e : Expr, e.InPrecedenceForm →
          ¬ e.Spells tokens ∧ ¬ e.Spells (beforeEnd tokens) := by
  refine ⟨?_, ?_, ?_⟩
  · intro e tokens hform hspells
    exact ⟨hspells.parse_eq hform, fun rest hend => hspells.parse_append hform hend⟩
  · intro e e' tokens hform hform' hspells hspells'
    have heq : Except.ok e = Except.ok e' :=
      (hspells.parse_eq hform).symm.trans (hspells'.parse_eq hform')
    exact Except.ok.inj heq
  · intro tokens d herror e hform
    constructor
    · intro hspells
      rw [hspells.parse_eq hform] at herror
      cases herror
    · intro hspells
      rcases exists_eq_beforeEnd_append tokens with ⟨rest, htokens, hend⟩
      rw [htokens, hspells.parse_append hform hend] at herror
      cases herror

/-- The case of `f(a)`, where the text of the parenthesis that the tree drops is
another one. -/
theorem parse_complete_call :
    ∃ f opening a closing : Token, opening.text ≠ "(" ∧
      parse [f, opening, a, closing] = .ok (.call (.var f) closing [.var a]) := by
  refine ⟨.synthetic .identifier "f", .synthetic .openParen "<",
    .synthetic .identifier "a", .synthetic .closeParen ")", by decide, ?_⟩
  refine (parse_complete.1 _ _ ?_ ?_).1
  · exact .call (by decide) rfl (.var rfl) (List.forall_mem_singleton.2 (.var rfl))
  · apply Expr.spells_call_iff.2
    exact ⟨[_], _, [_], rfl, Expr.spells_var_iff.2 rfl, rfl,
      Expr.spellsAll_singleton_iff.2 (Expr.spells_var_iff.2 rfl)⟩

end ExprLang
