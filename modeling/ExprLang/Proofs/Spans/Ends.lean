import ExprLang.Proofs.Spans.Nesting

/-!
# Where spans start and end

A group keeps neither of its parentheses, and its span is that of what is in it.  So
the span of an expression leaves out the parentheses of the groups that it starts with
and of those that it ends with.  It runs from the first to the last of its other
tokens.

Main results:

- Theorem `Expr.Spells.exists_ends`: the tokens between which the span of an expression
  runs.
- Theorem `Behind.start_eq_iff`: what is left out makes a difference.
- Theorem `parseSource_span_exact`: the spans of a parsed source cover the tokens that
  the nodes were parsed from, but for parentheses of groups at either end.
-/

namespace ExprLang

namespace Expr

/-- Number of groups that start where the expression starts. -/
def groupsAtStart : Expr → Nat
  | .group inner => inner.groupsAtStart + 1
  | .binary left _ _ | .logical left _ _ => left.groupsAtStart
  | .call callee _ _ => callee.groupsAtStart
  | .get object _ | .set object _ _ => object.groupsAtStart
  | .literal .. | .unary .. | .var _ | .assign .. | .this _ | .super .. => 0

/-- Number of groups that end where the expression ends. -/
def groupsAtEnd : Expr → Nat
  | .group inner => inner.groupsAtEnd + 1
  | .binary _ _ right | .logical _ _ right => right.groupsAtEnd
  | .unary _ operand => operand.groupsAtEnd
  | .assign _ value | .set _ _ value => value.groupsAtEnd
  | .literal .. | .var _ | .call .. | .get .. | .this _ | .super .. => 0

end Expr

/-! ## Behind parentheses -/

/-- A token stands in a list behind a number of tokens of a kind, which are all that is
in front of it. -/
inductive Behind (kind : TokenKind) : Nat → Token → List Token → Prop where
  | head (t : Token) (us : List Token) : Behind kind 0 t (t :: us)
  | paren {n : Nat} {t u : Token} {us : List Token} (hu : u.kind = kind)
      (h : Behind kind n t us) : Behind kind (n + 1) t (u :: us)

section Behind

variable {kind : TokenKind} {n : Nat} {t u : Token} {us : List Token}

private theorem Behind.append (h : Behind kind n t us) (vs : List Token) :
    Behind kind n t (us ++ vs) := by
  induction h with
  | head t us => exact .head t (us ++ vs)
  | paren hu _ ih => exact .paren hu ih

private theorem Behind.mem (h : Behind kind n t us) : t ∈ us := by
  induction h with
  | head t us => exact List.mem_cons_self
  | paren _ _ ih => exact List.mem_cons_of_mem _ ih

private theorem Behind.head?_eq (h : Behind kind 0 t us) : us.head? = some t := by
  cases h
  rfl

/-- A token that is behind others is behind the first one. -/
theorem Behind.sublist (h : Behind kind (n + 1) t us) (hhead : us.head? = some u) :
    [u, t].Sublist us := by
  cases h with
  | paren _ h =>
      obtain rfl := Option.some.inj hhead
      exact (List.singleton_sublist.2 h.mem).cons_cons _

end Behind

/-! ## Spans between tokens -/

/-- The span of an expression runs from the first to the last of its tokens that are no
parentheses of groups at its start or its end. -/
theorem Expr.Spells.exists_ends {e : Expr} {us : List Token} (h : e.Spells us) :
    ∃ a b, Behind .openParen e.groupsAtStart a us ∧
      Behind .closeParen e.groupsAtEnd b us.reverse ∧ e.span = a.span.to b.span := by
  induction e generalizing us with
  | binary left operator right ihleft ihright =>
      rcases spells_binary_iff.1 h with ⟨us, vs, rfl, hleft, hright⟩
      rcases ihleft hleft with ⟨a, _, ha, -, hstart⟩
      rcases ihright hright with ⟨_, b, -, hb, hstop⟩
      refine ⟨a, b, ha.append _, ?_, by rw [span, hstart, hstop]; rfl⟩
      simpa [groupsAtEnd] using hb.append (operator :: us.reverse)
  | logical left operator right ihleft ihright =>
      rcases spells_logical_iff.1 h with ⟨us, vs, rfl, hleft, hright⟩
      rcases ihleft hleft with ⟨a, _, ha, -, hstart⟩
      rcases ihright hright with ⟨_, b, -, hb, hstop⟩
      refine ⟨a, b, ha.append _, ?_, by rw [span, hstart, hstop]; rfl⟩
      simpa [groupsAtEnd] using hb.append (operator :: us.reverse)
  | group inner ih =>
      rcases spells_group_iff.1 h with ⟨opening, us, closing, rfl, hopening, hinner, hclosing⟩
      rcases ih hinner with ⟨a, b, ha, hb, hspan⟩
      refine ⟨a, b, .paren hopening (ha.append _), ?_, hspan⟩
      simpa [groupsAtEnd] using Behind.paren hclosing (hb.append [opening])
  | literal value span =>
      rcases spells_literal_iff.1 h with ⟨t, rfl, -, rfl⟩
      exact ⟨t, t, .head t [], .head t [], rfl⟩
  | unary operator operand ih =>
      rcases spells_unary_iff.1 h with ⟨us, rfl, hoperand⟩
      rcases ih hoperand with ⟨_, b, -, hb, hstop⟩
      refine ⟨operator, b, .head operator us, ?_, by rw [span, hstop]; rfl⟩
      simpa [groupsAtEnd] using hb.append [operator]
  | var name =>
      obtain rfl := spells_var_iff.1 h
      exact ⟨name, name, .head name [], .head name [], rfl⟩
  | assign name value ih =>
      rcases spells_assign_iff.1 h with ⟨equals, us, rfl, -, hvalue⟩
      rcases ih hvalue with ⟨_, b, -, hb, hstop⟩
      refine ⟨name, b, .head name _, ?_, by rw [span, hstop]; rfl⟩
      simpa [groupsAtEnd] using hb.append [equals, name]
  | call callee paren arguments ihcallee _ =>
      rcases spells_call_iff.1 h with ⟨us, opening, vs, rfl, hcallee, -, -⟩
      rcases ihcallee hcallee with ⟨a, _, ha, -, hstart⟩
      refine ⟨a, paren, ha.append _, ?_, by rw [span, hstart]; rfl⟩
      simpa [groupsAtEnd] using Behind.head paren _
  | get object name ih =>
      rcases spells_get_iff.1 h with ⟨us, dot, rfl, hobject, -⟩
      rcases ih hobject with ⟨a, _, ha, -, hstart⟩
      refine ⟨a, name, ha.append _, ?_, by rw [span, hstart]; rfl⟩
      simpa [groupsAtEnd] using Behind.head name _
  | set object name value ihobject ihvalue =>
      rcases spells_set_iff.1 h with ⟨us, dot, equals, vs, rfl, hobject, -, -, hvalue⟩
      rcases ihobject hobject with ⟨a, _, ha, -, hstart⟩
      rcases ihvalue hvalue with ⟨_, b, -, hb, hstop⟩
      refine ⟨a, b, ha.append _, ?_, by rw [span, hstart, hstop]; rfl⟩
      simpa [groupsAtEnd] using hb.append (equals :: name :: dot :: us.reverse)
  | this keyword =>
      obtain rfl := spells_this_iff.1 h
      exact ⟨keyword, keyword, .head keyword [], .head keyword [], rfl⟩
  | super keyword method =>
      rcases spells_super_iff.1 h with ⟨dot, rfl, -⟩
      exact ⟨keyword, method, .head keyword _, .head method _, rfl⟩

section Laid

variable {file : String} {first last n : Nat} {kind : TokenKind} {t u : Token}
  {us : List Token}

/-- Of two tokens that are laid out the first one starts and ends earlier. -/
theorem Laid.lt_of_sublist (h : Laid file first (us.map Token.span) last)
    (hsub : [t, u].Sublist us) :
    t.span.start.offset.toNat < u.span.start.offset.toNat ∧
      t.span.stop.offset.toNat < u.span.stop.offset.toNat := by
  rcases laid_iff.1 h with ⟨-, hproper, hordered⟩
  rcases List.forall_mem_cons.1 fun v hv => hproper v ((hsub.map Token.span).subset hv) with
    ⟨⟨ht, -⟩, hrest⟩
  have hu := (hrest _ (List.mem_singleton_self _)).1.lt
  have hbefore : t.span.Before u.span := by
    simpa using hordered.sublist (hsub.map Token.span)
  exact ⟨Nat.lt_of_lt_of_le ht.lt hbefore, Nat.lt_of_le_of_lt hbefore hu⟩

/-- A token starts where the first one does only if there is none in front of it. -/
theorem Behind.start_eq_iff (h : Behind kind n t us) (hhead : us.head? = some u)
    (hlaid : Laid file first (us.map Token.span) last) :
    t.span.start = u.span.start ↔ n = 0 := by
  cases n with
  | zero =>
      rw [h.head?_eq, Option.some.injEq] at hhead
      simp [hhead]
  | succ n =>
      have hlt := (hlaid.lt_of_sublist (h.sublist hhead)).1
      simp only [Nat.add_one_ne_zero, iff_false]
      intro heq
      rw [heq] at hlt
      exact Nat.lt_irrefl _ hlt

/-- A token ends where the last one does only if there is none behind it. -/
theorem Behind.stop_eq_iff (h : Behind kind n t us.reverse) (hlast : us.getLast? = some u)
    (hlaid : Laid file first (us.map Token.span) last) :
    t.span.stop = u.span.stop ↔ n = 0 := by
  rw [← List.head?_reverse] at hlast
  cases n with
  | zero =>
      rw [h.head?_eq, Option.some.injEq] at hlast
      simp [hlast]
  | succ n =>
      have hsub : [t, u].Sublist us := by
        simpa using List.reverse_sublist.2 (h.sublist hlast)
      have hlt := (hlaid.lt_of_sublist hsub).2
      simp only [Nat.add_one_ne_zero, iff_false]
      intro heq
      rw [heq] at hlt
      exact Nat.lt_irrefl _ hlt

end Laid

/-! ## Trees of a source -/

/-- The span of a node runs from the first to the last of the tokens that it was parsed
from, but for the parentheses of the groups that it starts with and of those that it
ends with.  So it covers its tokens exactly if it neither starts nor ends with a group.
-/
theorem parseSource_span_exact {source file : String} {e : Expr}
    (hsize : source.utf8ByteSize < UInt32.size) (h : parseSource source file = .ok e) :
    ∃ tokens, tokenize source file = .ok tokens ∧ ∀ (C : Context) (n : Expr), e = C.plug n →
      ∃ ns first last a b, C.ParsedFrom n (beforeEnd tokens) ns ∧
        ns.head? = some first ∧ ns.getLast? = some last ∧
        Behind .openParen n.groupsAtStart a ns ∧
        Behind .closeParen n.groupsAtEnd b ns.reverse ∧
        n.span = a.span.to b.span ∧
        (n.span.start = first.span.start ↔ n.groupsAtStart = 0) ∧
        (n.span.stop = last.span.stop ↔ n.groupsAtEnd = 0) := by
  rcases exists_laid_of_parseSource hsize h with ⟨tokens, htokens, hparse, hlaid⟩
  refine ⟨tokens, htokens, ?_⟩
  rintro C n rfl
  rcases Context.exists_parsedFrom (spells_of_parse hparse) hlaid with
    ⟨ns, _, _, hns, hlaid, -⟩
  rcases hns.spells.exists_ends with ⟨a, b, ha, hb, hspan⟩
  have hne : ns ≠ [] := List.ne_nil_of_mem ha.mem
  have hhead := List.head?_eq_some_head hne
  have hlast := List.getLast?_eq_some_getLast hne
  refine ⟨ns, _, _, a, b, hns, hhead, hlast, ha, hb, hspan, ?_, ?_⟩
  · rw [hspan]
    exact ha.start_eq_iff hhead hlaid
  · rw [hspan]
    exact hb.stop_eq_iff hlast hlaid

/-- The case of `-(a)`, where the span of the tree starts with the first token and ends
in front of the last one. -/
theorem parseSource_span_exact_negation :
    ∃ e ns first last, "-(a)".utf8ByteSize < UInt32.size ∧
      parseSource "-(a)" "shell" = .ok e ∧ e.Spells ns ∧
      ns.head? = some first ∧ ns.getLast? = some last ∧
      e.span.start = first.span.start ∧ e.span.stop ≠ last.span.stop := by
  have hcut : Piece.CutBefore
      [⟨.fixed .dash "-", ['-'], ⟨by decide, rfl⟩, by decide⟩,
        ⟨.fixed .openParen "(", ['('], ⟨by decide, rfl⟩, by decide⟩,
        ⟨.word, ['a'], (by decide : Lexeme.IsWord ['a']), by decide⟩,
        ⟨.fixed .closeParen ")", [')'], ⟨by decide, rfl⟩, by decide⟩] [] :=
    ⟨by simp [Rule.EndsBefore, Rule.longer?], by simp [Rule.EndsBefore, Rule.longer?],
      Lexeme.endsRun_cons.2 (by decide), by simp [Rule.EndsBefore, Rule.longer?], trivial⟩
  have htokens : tokenize "-(a)" "shell" =
      .ok [⟨.dash, "-", ⟨.ofByte "shell" 0, .ofByte "shell" 1⟩⟩,
        ⟨.openParen, "(", ⟨.ofByte "shell" 1, .ofByte "shell" 2⟩⟩,
        ⟨.identifier, "a", ⟨.ofByte "shell" 2, .ofByte "shell" 3⟩⟩,
        ⟨.closeParen, ")", ⟨.ofByte "shell" 3, .ofByte "shell" 4⟩⟩,
        ⟨.eof, "EOF", ⟨.ofByte "shell" 4, .ofByte "shell" 4⟩⟩] :=
    tokenize_of_pieces rfl hcut
  have h : parseSource "-(a)" "shell" = .ok
      (.unary ⟨.dash, "-", ⟨.ofByte "shell" 0, .ofByte "shell" 1⟩⟩
        (.group (.var ⟨.identifier, "a", ⟨.ofByte "shell" 2, .ofByte "shell" 3⟩⟩))) := by
    rw [parseSource, htokens]
    rfl
  rcases parseSource_span_exact (by decide) h with ⟨tokens, -, hnodes⟩
  rcases hnodes [] _ rfl with
    ⟨ns, first, last, a, b, hns, hfirst, hlast, -, -, -, hstart, hstop⟩
  exact ⟨_, ns, first, last, by decide, h, hns.spells, hfirst, hlast, hstart.2 rfl,
    mt hstop.1 (Nat.succ_ne_zero 0)⟩

/-- Neither parenthesis of `(1)` is in the span of the tree. -/
theorem group_span_short :
    ∃ tokens e first last, tokenize "(1)" "shell" = .ok tokens ∧
      parseSource "(1)" "shell" = .ok e ∧
      (beforeEnd tokens).head? = some first ∧ (beforeEnd tokens).getLast? = some last ∧
      first.span.start = .ofByte "shell" 0 ∧ last.span.stop = .ofByte "shell" 3 ∧
      e.span = ⟨.ofByte "shell" 1, .ofByte "shell" 2⟩ ∧
      e.span.start ≠ first.span.start ∧ e.span.stop ≠ last.span.stop := by
  have hcut : Piece.CutBefore
      [⟨.fixed .openParen "(", ['('], ⟨by decide, rfl⟩, by decide⟩,
        ⟨.number, ['1'], .whole ⟨by decide, by simp⟩, by decide⟩,
        ⟨.fixed .closeParen ")", [')'], ⟨by decide, rfl⟩, by decide⟩] [] := by
    refine ⟨by simp [Rule.EndsBefore, Rule.longer?],
      ⟨Lexeme.endsRun_cons.2 (by decide), .inr ?_⟩,
      by simp [Rule.EndsBefore, Rule.longer?], trivial⟩
    rintro ⟨c, rest, h, -⟩
    cases h
  have htokens : tokenize "(1)" "shell" =
      .ok [⟨.openParen, "(", ⟨.ofByte "shell" 0, .ofByte "shell" 1⟩⟩,
        ⟨.number, "1", ⟨.ofByte "shell" 1, .ofByte "shell" 2⟩⟩,
        ⟨.closeParen, ")", ⟨.ofByte "shell" 2, .ofByte "shell" 3⟩⟩,
        ⟨.eof, "EOF", ⟨.ofByte "shell" 3, .ofByte "shell" 3⟩⟩] :=
    tokenize_of_pieces rfl hcut
  have h : ∃ x, parseSource "(1)" "shell" = .ok
      (.group (.literal x ⟨.ofByte "shell" 1, .ofByte "shell" 2⟩)) := by
    rw [parseSource, htokens]
    exact ⟨_, rfl⟩
  rcases h with ⟨x, h⟩
  have hstart : Position.ofByte "shell" 1 ≠ .ofByte "shell" 0 := by decide
  have hstop : Position.ofByte "shell" 2 ≠ .ofByte "shell" 3 := by decide
  exact ⟨_, _, _, _, htokens, h, rfl, rfl, rfl, rfl, rfl, hstart, hstop⟩

end ExprLang
