import ExprLang.Proofs.Names.Occurrence
import ExprLang.Proofs.Spans.Nesting

/-!
# The order of what is written

The variables that an expression writes are listed in the order of evaluation.
Of most nodes this is the order of the source, but the value of an assignment
stands behind the variable that it is written to and is evaluated before.  So the
two orders are the same as long as no value of an assignment writes a variable
itself.

Main results:

- Theorem `Expr.Spells.writes_sublist`: what is written in the order of the tokens.
- Theorem `Context.writes_sublist_plug`: what a node writes, its tree writes in the
  same order.
- Theorem `writes_ordered_iff`: when the writes of a source are in its order.
-/

namespace ExprLang

/-! ## Writes of the parts of a node -/

/-- The variables that a part writes. -/
def Part.writes : Part → List Token
  | .child e => e.names.writes
  | .token _ => []

namespace Expr

variable {e c : Expr} {us : List Token}

private theorem writes_namesAll (es : List Expr) :
    (namesAll es).writes = (es.map Part.child).flatMap Part.writes := by
  induction es with
  | nil => rfl
  | cons e es ih => simp [namesAll, Part.writes, ih]

/-- A node writes what its parts write, from left to right, unless it is an
assignment to a variable. -/
theorem writes_eq_flatMap (h : ∀ name value, e ≠ .assign name value) :
    e.names.writes = e.parts.flatMap Part.writes := by
  cases e with
  | assign name value => exact absurd rfl (h name value)
  | call callee paren arguments =>
      simp [names, parts, Part.writes, writes_namesAll]
  | _ => simp [names, parts, Part.writes, Names.empty, Names.read, Names.classRef]

/-- What a child writes, the node writes in the same order. -/
theorem writes_sublist_of_child (h : .child c ∈ e.parts) :
    c.names.writes.Sublist e.names.writes := by
  by_cases hassign : ∃ name value, e = .assign name value
  · rcases hassign with ⟨name, value, rfl⟩
    obtain rfl : c = value := by simpa [parts] using h
    exact List.sublist_append_left _ _
  · rw [writes_eq_flatMap fun name value heq => hassign ⟨name, value, heq⟩]
    rcases List.append_of_mem h with ⟨before, after, hparts⟩
    rw [hparts, List.flatMap_append, List.flatMap_cons]
    exact (List.sublist_append_left _ _).trans (List.sublist_append_right _ _)

end Expr

/-- What a node writes, its tree writes in the same order. -/
theorem Context.writes_sublist_plug (C : Context) (n : Expr) :
    n.names.writes.Sublist (C.plug n).names.writes := by
  induction C with
  | nil => exact .refl _
  | cons F C ih =>
      exact ih.trans (Expr.writes_sublist_of_child (Part.child_mem_parts_iff.2 ⟨F, rfl⟩))

/-! ## Values that write nothing -/

/-- No value of an assignment to a variable writes a variable itself. -/
def Expr.ValuesWriteNothing (e : Expr) : Prop :=
  ∀ (C : Context) (name : Token) (value : Expr), e = C.plug (.assign name value) →
    value.names.writes = []

private theorem Expr.ValuesWriteNothing.child {e c : Expr} (h : e.ValuesWriteNothing)
    (hc : .child c ∈ e.parts) : c.ValuesWriteNothing := by
  rcases Part.child_mem_parts_iff.1 hc with ⟨F, rfl⟩
  intro C name value heq
  exact h (F :: C) name value (congrArg F.fill heq)

/-- Parts write in the order of the tokens, if each child does. -/
theorem SpellParts.writes_sublist {parts : List Part} {us : List Token}
    (h : SpellParts parts us)
    (hchild : ∀ c, .child c ∈ parts → ∀ vs, c.Spells vs → c.names.writes.Sublist vs) :
    (parts.flatMap Part.writes).Sublist us := by
  induction h with
  | nil => exact .slnil
  | @child e us parts vs hspells hrest ih =>
      rw [List.flatMap_cons]
      exact (hchild e (List.mem_cons_self ..) us hspells).append
        (ih fun c hc => hchild c (List.mem_cons_of_mem _ hc))
  | token t hrest ih =>
      exact (ih fun c hc => hchild c (List.mem_cons_of_mem _ hc)).cons t
  | dropped t hrest ih => exact (ih hchild).cons t

/-- What is written in the order of the tokens. -/
theorem Expr.Spells.writes_sublist {e : Expr} {us : List Token} (h : e.Spells us)
    (hvalues : e.ValuesWriteNothing) : e.names.writes.Sublist us := by
  induction e using induct_parts generalizing us with
  | node e ih =>
      by_cases hassign : ∃ name value, e = .assign name value
      · rcases hassign with ⟨name, value, rfl⟩
        rcases spells_assign_iff.1 h with ⟨equals, vs, rfl, -, -⟩
        have hvalue : value.names.writes = [] := hvalues [] name value rfl
        simp [names, Names.written, hvalue]
      · rw [writes_eq_flatMap fun name value heq => hassign ⟨name, value, heq⟩]
        exact h.spellParts.writes_sublist fun c hc _ hspells =>
          ih c hc hspells (hvalues.child hc)

/-- What is written is among the tokens. -/
theorem Expr.Spells.mem_of_mem_writes {e : Expr} {us : List Token} {t : Token}
    (h : e.Spells us) (hform : e.InPrecedenceForm) (ht : t ∈ e.names.writes) : t ∈ us := by
  have hplain : Plain none none := ⟨by simp, by simp⟩
  have hmem := (namesLikeTokens hform h hplain).writes.mem_iff.2 ht
  rcases List.mem_map.1 hmem with ⟨o, ho, rfl⟩
  have htoken := List.mem_map_of_mem (f := Occurrence.token) (List.mem_of_mem_filter ho)
  rwa [map_token_occurrences] at htoken

/-! ## Writes of a source -/

/-- A token starts before another one. -/
def Token.Precedes (t u : Token) : Prop :=
  t.start.offset.toNat < u.start.offset.toNat

/-- What the value of an assignment writes is listed before the variable itself and
stands behind it. -/
theorem Expr.Spells.not_pairwise_writes {us : List Token} {C : Context} {name : Token}
    {value : Expr} (h : (C.plug (.assign name value)).Spells us)
    (hform : value.InPrecedenceForm) (hus : us.Pairwise Token.Precedes)
    (hne : value.names.writes ≠ []) :
    ¬ (C.plug (.assign name value)).names.writes.Pairwise Token.Precedes := by
  intro hpairwise
  rcases List.exists_mem_of_ne_nil _ hne with ⟨t, ht⟩
  have hlisted : [t, name].Sublist (C.plug (.assign name value)).names.writes :=
    ((List.singleton_sublist.2 ht).append (.refl [name])).trans
      (C.writes_sublist_plug (.assign name value))
  have hbefore : t.Precedes name := by
    simpa using hpairwise.sublist hlisted
  rcases Context.spells_plug_iff.1 h with ⟨front, vs, back, rfl, -, hassign, -⟩
  rcases spells_assign_iff.1 hassign with ⟨equals, ws, rfl, -, hvalue⟩
  have hmem : t ∈ ws := Spells.mem_of_mem_writes hvalue hform ht
  have hspelled : [name, t].Sublist (front ++ name :: equals :: ws ++ back) :=
    (((List.singleton_sublist.2 hmem).cons equals).cons_cons name).trans
      ((List.sublist_append_right front _).trans (List.sublist_append_left _ back))
  have hbehind : name.Precedes t := by
    simpa using hus.sublist hspelled
  exact absurd hbefore (Nat.lt_asymm hbehind)

/-- What is parsed from a source is spelled by tokens that start one behind another
in it. -/
theorem exists_spelled_of_parseSource {source file : String} {e : Expr}
    (hsize : source.utf8ByteSize < UInt32.size) (h : parseSource source file = .ok e) :
    ∃ us, e.Spells us ∧ e.InPrecedenceForm ∧ us.Pairwise Token.Precedes := by
  rcases exists_laid_of_parseSource hsize h with ⟨tokens, -, hparse, hlaid⟩
  rcases laid_iff.1 hlaid with ⟨-, hproper, hordered⟩
  refine ⟨_, spells_of_parse hparse, form_of_parse hparse, ?_⟩
  refine (List.pairwise_map.1 hordered).imp_of_mem ?_
  intro t u ht hu hbefore
  have hlt := (hproper t.span (List.mem_map_of_mem ht)).1.lt
  exact Nat.lt_of_lt_of_le hlt hbefore

/-- The variables that a source writes are listed in the order in which they stand
in it exactly if no assignment stands in the value of another one. -/
theorem writes_ordered_iff {source file : String} {e : Expr}
    (hsize : source.utf8ByteSize < UInt32.size) (h : parseSource source file = .ok e) :
    (e.names.writes.Pairwise fun t u => t.start.offset.toNat < u.start.offset.toNat) ↔
      ∀ (C : Context) (name : Token) (value : Expr), e = C.plug (.assign name value) →
        value.names.writes = [] := by
  rcases exists_spelled_of_parseSource hsize h with ⟨us, hspells, hform, hus⟩
  constructor
  · rintro hpairwise C name value rfl
    by_contra hne
    cases Context.form_of_plug hform with
    | assign hname value_form =>
        exact hspells.not_pairwise_writes value_form hus hne hpairwise
  · intro hvalues
    exact hus.sublist (hspells.writes_sublist hvalues)

/-- The case of `f(a=b,c=d)`, where the assignments stand side by side. -/
theorem writes_ordered_iff_arguments :
    ∃ e, "f(a=b,c=d)".utf8ByteSize < UInt32.size ∧
      parseSource "f(a=b,c=d)" "shell" = .ok e ∧
      e.names.writes.map (fun t => (t.text, t.start.offset)) = [("a", 2), ("c", 6)] ∧
      ∀ (C : Context) (name : Token) (value : Expr), e = C.plug (.assign name value) →
        value.names.writes = [] := by
  have hcut : Piece.CutBefore
      [⟨.word, ['f'], (by decide : Lexeme.IsWord ['f']), by decide⟩,
        ⟨.fixed .openParen "(", ['('], ⟨by decide, rfl⟩, by decide⟩,
        ⟨.word, ['a'], (by decide : Lexeme.IsWord ['a']), by decide⟩,
        ⟨.fixed .assignment "=", ['='], ⟨by decide, rfl⟩, by decide⟩,
        ⟨.word, ['b'], (by decide : Lexeme.IsWord ['b']), by decide⟩,
        ⟨.fixed .comma ",", [','], ⟨by decide, rfl⟩, by decide⟩,
        ⟨.word, ['c'], (by decide : Lexeme.IsWord ['c']), by decide⟩,
        ⟨.fixed .assignment "=", ['='], ⟨by decide, rfl⟩, by decide⟩,
        ⟨.word, ['d'], (by decide : Lexeme.IsWord ['d']), by decide⟩,
        ⟨.fixed .closeParen ")", [')'], ⟨by decide, rfl⟩, by decide⟩] [] :=
    ⟨Lexeme.endsRun_cons.2 (by decide), by simp [Rule.EndsBefore, Rule.longer?],
      Lexeme.endsRun_cons.2 (by decide), by simp [Rule.EndsBefore, Rule.longer?],
      Lexeme.endsRun_cons.2 (by decide), by simp [Rule.EndsBefore, Rule.longer?],
      Lexeme.endsRun_cons.2 (by decide), by simp [Rule.EndsBefore, Rule.longer?],
      Lexeme.endsRun_cons.2 (by decide), by simp [Rule.EndsBefore, Rule.longer?], trivial⟩
  have htokens : tokenize "f(a=b,c=d)" "shell" = .ok _ := tokenize_of_pieces rfl hcut
  have h : parseSource "f(a=b,c=d)" "shell" = .ok
      (.call (.var ⟨.identifier, "f", ⟨.ofByte "shell" 0, .ofByte "shell" 1⟩⟩)
        ⟨.closeParen, ")", ⟨.ofByte "shell" 9, .ofByte "shell" 10⟩⟩
        [.assign ⟨.identifier, "a", ⟨.ofByte "shell" 2, .ofByte "shell" 3⟩⟩
          (.var ⟨.identifier, "b", ⟨.ofByte "shell" 4, .ofByte "shell" 5⟩⟩),
        .assign ⟨.identifier, "c", ⟨.ofByte "shell" 6, .ofByte "shell" 7⟩⟩
          (.var ⟨.identifier, "d", ⟨.ofByte "shell" 8, .ofByte "shell" 9⟩⟩)]) := by
    rw [parseSource, htokens]
    rfl
  refine ⟨_, by decide, h, rfl, (writes_ordered_iff (by decide) h).1 ?_⟩
  decide

/-- In `a=b=c` the variable `b` is listed before `a`. -/
theorem writes_unordered_chain :
    ∃ e, parseSource "a=b=c" "shell" = .ok e ∧
      e.names.writes.map (fun t => (t.text, t.start.offset)) = [("b", 2), ("a", 0)] ∧
      ¬ e.names.writes.Pairwise fun t u => t.start.offset.toNat < u.start.offset.toNat := by
  have hcut : Piece.CutBefore
      [⟨.word, ['a'], (by decide : Lexeme.IsWord ['a']), by decide⟩,
        ⟨.fixed .assignment "=", ['='], ⟨by decide, rfl⟩, by decide⟩,
        ⟨.word, ['b'], (by decide : Lexeme.IsWord ['b']), by decide⟩,
        ⟨.fixed .assignment "=", ['='], ⟨by decide, rfl⟩, by decide⟩,
        ⟨.word, ['c'], (by decide : Lexeme.IsWord ['c']), by decide⟩] [] :=
    ⟨Lexeme.endsRun_cons.2 (by decide), by simp [Rule.EndsBefore, Rule.longer?],
      Lexeme.endsRun_cons.2 (by decide), by simp [Rule.EndsBefore, Rule.longer?],
      Lexeme.endsRun_nil _, trivial⟩
  have htokens : tokenize "a=b=c" "shell" = .ok _ := tokenize_of_pieces rfl hcut
  have h : parseSource "a=b=c" "shell" = .ok
      (.assign ⟨.identifier, "a", ⟨.ofByte "shell" 0, .ofByte "shell" 1⟩⟩
        (.assign ⟨.identifier, "b", ⟨.ofByte "shell" 2, .ofByte "shell" 3⟩⟩
          (.var ⟨.identifier, "c", ⟨.ofByte "shell" 4, .ofByte "shell" 5⟩⟩))) := by
    rw [parseSource, htokens]
    rfl
  exact ⟨_, h, rfl, by decide⟩

end ExprLang
