import ExprLang.Expr.Span
import ExprLang.Proofs.Evaluation.Fault
import ExprLang.Proofs.Phase.Basic
import ExprLang.Proofs.Scanning.Tiling
import ExprLang.Proofs.Spans.Basic
import ExprLang.Proofs.Spelling.Soundness

/-!
# Spans of a parsed tree

The span of a node is made of the start of its first part and the end of its last.
The parts of a node are spelled one behind another, with tokens between them that
the node drops, and the tokens of a source are laid out in it; so the spans of the
parts are in order inside the span of the node.

Main results:

- Theorem `Expr.Spells.laid`: the span of a tree and those of its parts are laid
  out where its tokens are.
- Theorem `Context.inside_plug`: the span of a node lies inside that of the tree.
- Theorem `parseSource_spans`: spans of a parsed source nest, and what evaluation
  is refused at stands inside them.
-/

namespace ExprLang

/-- The span of a part. -/
def Part.span : Part → Span
  | .child e => e.span
  | .token t => t.span

/-- The spans of the parts of a node. -/
def Expr.partSpans (e : Expr) : List Span :=
  e.parts.map Part.span

/-- A node has its span from its first and its last part, unless it is a
constant. -/
theorem Expr.exists_ends (e : Expr) :
    (∃ value span, e = .literal value span) ∨
      ∃ a b, e.partSpans.head? = some a ∧ e.partSpans.getLast? = some b ∧
        e.span = a.to b := by
  cases e with
  | literal value span => exact .inl ⟨value, span, rfl⟩
  | call callee paren arguments =>
      refine .inr ⟨callee.span, paren.span, rfl, ?_, rfl⟩
      simp only [partSpans, parts, List.map_cons, List.map_append, List.map_nil]
      rw [← List.cons_append]
      exact List.getLast?_concat
  | _ => exact .inr ⟨_, _, rfl, rfl, rfl⟩

/-! ## Tokens of the parts -/

/-- Tokens are those that spell parts, in order, and some that belong to none. -/
inductive SpellParts : List Part → List Token → Prop where
  | nil : SpellParts [] []
  | child {e : Expr} {us : List Token} {parts : List Part} {vs : List Token}
      (h : e.Spells us) (hrest : SpellParts parts vs) :
      SpellParts (.child e :: parts) (us ++ vs)
  | token (t : Token) {parts : List Part} {vs : List Token}
      (hrest : SpellParts parts vs) : SpellParts (.token t :: parts) (t :: vs)
  | dropped (t : Token) {parts : List Part} {vs : List Token}
      (hrest : SpellParts parts vs) : SpellParts parts (t :: vs)

section SpellParts

variable {parts parts' : List Part} {us vs : List Token} {e : Expr}

private theorem SpellParts.single (h : e.Spells us) : SpellParts [.child e] us := by
  have hchild := SpellParts.child h .nil
  rwa [List.append_nil] at hchild

/-- Tokens of parts one behind another are those of all parts. -/
theorem SpellParts.append (h : SpellParts parts us) (h' : SpellParts parts' vs) :
    SpellParts (parts ++ parts') (us ++ vs) := by
  induction h with
  | nil => exact h'
  | child hspells hrest ih =>
      rw [List.append_assoc]
      exact .child hspells ih
  | token t hrest ih => exact .token t ih
  | dropped t hrest ih => exact .dropped t ih

/-- Arguments are parts between commas. -/
theorem spellParts_of_spellsAll {es : List Expr} (h : Expr.SpellsAll es us) :
    SpellParts (es.map .child) us := by
  induction es generalizing us with
  | nil =>
      rw [Expr.spellsAll_nil_iff.1 h]
      exact .nil
  | cons e es ih =>
      cases es with
      | nil => exact .single (Expr.spellsAll_singleton_iff.1 h)
      | cons e' es =>
          rcases Expr.spellsAll_cons_cons_iff.1 h with ⟨us, comma, vs, rfl, he, -, hes⟩
          exact .child he (.dropped comma (ih hes))

/-- The tokens of a node are those of its parts and some that it drops. -/
theorem Expr.Spells.spellParts (h : e.Spells us) : SpellParts e.parts us := by
  cases e with
  | binary left operator right =>
      rcases spells_binary_iff.1 h with ⟨us, vs, rfl, hleft, hright⟩
      exact .child hleft (.token operator (.single hright))
  | logical left operator right =>
      rcases spells_logical_iff.1 h with ⟨us, vs, rfl, hleft, hright⟩
      exact .child hleft (.token operator (.single hright))
  | group inner =>
      rcases spells_group_iff.1 h with ⟨opening, us, closing, rfl, -, hinner, -⟩
      exact .dropped opening (.child hinner (.dropped closing .nil))
  | literal value span =>
      rcases spells_literal_iff.1 h with ⟨t, rfl, -, -⟩
      exact .dropped t .nil
  | unary operator operand =>
      rcases spells_unary_iff.1 h with ⟨us, rfl, hoperand⟩
      exact .token operator (.single hoperand)
  | var name =>
      rw [spells_var_iff.1 h]
      exact .token name .nil
  | assign name value =>
      rcases spells_assign_iff.1 h with ⟨equals, us, rfl, -, hvalue⟩
      exact .token name (.dropped equals (.single hvalue))
  | call callee paren arguments =>
      rcases spells_call_iff.1 h with ⟨us, opening, vs, rfl, hcallee, -, harguments⟩
      have hbehind : SpellParts [.token paren] [paren] := .token paren .nil
      exact .child hcallee
        (.dropped opening ((spellParts_of_spellsAll harguments).append hbehind))
  | get object name =>
      rcases spells_get_iff.1 h with ⟨us, dot, rfl, hobject, -⟩
      exact .child hobject (.dropped dot (.token name .nil))
  | set object name value =>
      rcases spells_set_iff.1 h with ⟨us, dot, equals, vs, rfl, hobject, -, -, hvalue⟩
      exact .child hobject (.dropped dot (.token name (.dropped equals (.single hvalue))))
  | this keyword =>
      rw [spells_this_iff.1 h]
      exact .token keyword .nil
  | super keyword method =>
      rcases spells_super_iff.1 h with ⟨dot, rfl, -⟩
      exact .token keyword (.dropped dot (.token method .nil))

end SpellParts

/-! ## Spans of the parts -/

section Laid

variable {file : String} {first last : Nat} {parts : List Part} {us : List Token}
  {e : Expr}

/-- Parts are laid out where their tokens are, if each child is laid out where its
tokens are. -/
theorem SpellParts.laid (h : SpellParts parts us)
    (hchild : ∀ c, .child c ∈ parts → ∀ vs first last, c.Spells vs →
      Laid file first (vs.map Token.span) last → Laid file first [c.span] last)
    (hlaid : Laid file first (us.map Token.span) last) :
    Laid file first (parts.map Part.span) last := by
  induction h generalizing first with
  | nil => exact hlaid
  | @child e us parts vs hspells hrest ih =>
      rw [List.map_append] at hlaid
      rcases laid_append_iff.1 hlaid with ⟨mid, hus, hvs⟩
      have he := hchild e (List.mem_cons_self ..) us first mid hspells hus
      have hparts := ih (fun c hc => hchild c (List.mem_cons_of_mem _ hc)) hvs
      exact laid_append_iff.2 ⟨mid, he, hparts⟩
  | token t hrest ih =>
      exact ⟨hlaid.1, hlaid.2.1,
        ih (fun c hc => hchild c (List.mem_cons_of_mem _ hc)) hlaid.2.2⟩
  | dropped t hrest ih => exact ih hchild hlaid.tail

/-- The span of a tree is laid out where its tokens are, and the spans of its parts
are laid out inside it. -/
theorem Expr.Spells.laid (h : e.Spells us)
    (hlaid : Laid file first (us.map Token.span) last) :
    Laid file first [e.span] last ∧
      Laid file e.span.start.offset.toNat e.partSpans e.span.stop.offset.toNat := by
  induction e using induct_parts generalizing us first last with
  | node e ih =>
      have hparts : Laid file first e.partSpans last :=
        h.spellParts.laid (fun c hc _ _ _ hspells hlaid => (ih c hc hspells hlaid).1) hlaid
      rcases e.exists_ends with ⟨value, span, rfl⟩ | ⟨a, b, hhead, hlast, hspan⟩
      · -- A constant keeps no token, but its span is that of the only one there was.
        rcases spells_literal_iff.1 h with ⟨t, rfl, -, rfl⟩
        exact ⟨hlaid, Nat.le_of_lt hlaid.2.1.lt⟩
      · rw [hspan]
        exact hparts.tighten hhead hlast

end Laid

/-! ## Nodes of a tree -/

/-- The span of a node is not empty, and those of its parts are not empty either,
lie inside it, and follow each other without overlaps. -/
structure Expr.SpansNest (file : String) (n : Expr) : Prop where
  proper : n.span.Proper file
  parts_proper : ∀ part ∈ n.parts, part.span.Proper file
  inside : ∀ part ∈ n.parts, part.span.Inside n.span
  ordered : n.parts.Pairwise fun p q => p.span.Before q.span

/-- A tree nests if its tokens are laid out. -/
theorem Expr.Spells.spansNest {file : String} {first last : Nat} {e : Expr}
    {us : List Token} (h : e.Spells us)
    (hlaid : Laid file first (us.map Token.span) last) :
    e.SpansNest file ∧ e.span.stop.offset.toNat ≤ last := by
  rcases h.laid hlaid with ⟨⟨-, hproper, hlast⟩, hparts⟩
  rcases laid_iff.1 hparts with ⟨-, hwithin, hordered⟩
  have hwithin (part : Part) (hpart : part ∈ e.parts) :=
    hwithin part.span (List.mem_map_of_mem hpart)
  refine ⟨⟨hproper, ?_, ?_, List.pairwise_map.1 hordered⟩, hlast⟩
  · intro part hpart
    exact (hwithin part hpart).1
  · intro part hpart
    exact ⟨(hwithin part hpart).2.1, (hwithin part hpart).2.2⟩

namespace Context

variable {file : String} {C : Context} {n : Expr}

/-- The span of a node lies inside that of the tree, if all its nodes nest. -/
theorem inside_plug
    (h : ∀ (D : Context) (m : Expr), C.plug n = D.plug m → m.SpansNest file) :
    n.span.Inside (C.plug n).span := by
  induction C with
  | nil => exact .refl _
  | cons F C ih =>
      have hchild : n.span.Inside (plug C n).span := by
        apply ih
        rintro D m heq
        exact h (F :: D) m (congrArg F.fill heq)
      have hpart : .child (plug C n) ∈ (F.fill (plug C n)).parts :=
        Part.child_mem_parts_iff.2 ⟨F, rfl⟩
      exact hchild.trans ((h [] _ rfl).inside _ hpart)

/-- The tokens that the node at a place of a tree was parsed from: what is left of the
tokens of the tree without those of the context. -/
def ParsedFrom (C : Context) (n : Expr) (tokens ns : List Token) : Prop :=
  ∃ us ws, tokens = us ++ ns ++ ws ∧ Fits C.front us ∧ n.Spells ns ∧ Fits C.back ws

/-- The tokens that a node was parsed from spell it. -/
theorem ParsedFrom.spells {tokens ns : List Token} (h : C.ParsedFrom n tokens ns) :
    n.Spells ns := by
  rcases h with ⟨us, ws, -, -, hspells, -⟩
  exact hspells

/-- The tokens of a node are laid out among those of the tree. -/
theorem exists_parsedFrom {tokens : List Token} {first last : Nat}
    (h : (C.plug n).Spells tokens) (hlaid : Laid file first (tokens.map Token.span) last) :
    ∃ ns first' last', C.ParsedFrom n tokens ns ∧
      Laid file first' (ns.map Token.span) last' ∧ last' ≤ last := by
  rcases spells_plug_iff.1 h with ⟨us, ns, ws, rfl, hfront, hspells, hback⟩
  rw [List.map_append, List.map_append] at hlaid
  rcases laid_append_iff.1 hlaid with ⟨last', hnode, hbehind⟩
  rcases laid_append_iff.1 hnode with ⟨first', -, hnode⟩
  exact ⟨ns, first', last', ⟨us, ws, rfl, hfront, hspells, hback⟩, hnode,
    (laid_iff.1 hbehind).1⟩

end Context

/-! ## Trees of a source -/

/-- The tokens before the end of the input are laid out in the source that they
tile. -/
theorem Tiles.laid {source file : String} {tokens : List Token}
    (h : Tiles source file tokens) :
    Laid file 0 ((beforeEnd tokens).map Token.span) source.utf8ByteSize := by
  rcases h.ends with ⟨us, eof, rfl, heof, -, -, hne⟩
  have hrest : (headToken [eof]).kind = .eof := heof
  rw [beforeEnd_append hne hrest]
  refine laid_iff.2 ⟨Nat.zero_le _, ?_, ?_⟩
  · intro span hspan
    rcases List.mem_map.1 hspan with ⟨t, ht, rfl⟩
    have hmem := List.mem_append_left [eof] ht
    rcases h.bounds t hmem with ⟨hstop, hlt⟩
    rcases h.files t hmem with ⟨hstart_file, hstop_file⟩
    exact ⟨⟨hstart_file, hstop_file, hlt (hne t ht)⟩, Nat.zero_le _, hstop⟩
  · exact List.pairwise_map.2 (h.ordered.sublist (List.sublist_append_left us [eof]))

/-- A source that is parsed has tokens, which are parsed alike. -/
theorem exists_tokens_of_parseSource {source file : String} {e : Expr}
    (h : parseSource source file = .ok e) :
    ∃ tokens, tokenize source file = .ok tokens ∧ parse tokens = .ok e := by
  rcases accepts_iff.2 h with ⟨htokens, hparse⟩
  exact ⟨_, htokens, hparse⟩

/-- The tokens of a parsed source are laid out in it. -/
theorem exists_laid_of_parseSource {source file : String} {e : Expr}
    (hsize : source.utf8ByteSize < UInt32.size) (h : parseSource source file = .ok e) :
    ∃ tokens, tokenize source file = .ok tokens ∧ parse tokens = .ok e ∧
      Laid file 0 ((beforeEnd tokens).map Token.span) source.utf8ByteSize := by
  rcases exists_tokens_of_parseSource h with ⟨tokens, htokens, hparse⟩
  refine ⟨tokens, htokens, hparse, ?_⟩
  rcases tokenize_eq_ok_iff.1 htokens with ⟨ps, hsource, hcut, rfl⟩
  have htiles : Tiles source file _ := tiles_of_pieces hsource hcut hsize
  exact htiles.laid

/-- The nodes of a parsed source nest. -/
theorem spansNest_of_parseSource {source file : String} {C : Context} {n : Expr}
    (hsize : source.utf8ByteSize < UInt32.size)
    (h : parseSource source file = .ok (C.plug n)) :
    n.SpansNest file ∧ n.span.stop.offset.toNat ≤ source.utf8ByteSize := by
  rcases exists_laid_of_parseSource hsize h with ⟨tokens, -, hparse, hlaid⟩
  rcases Context.exists_parsedFrom (spells_of_parse hparse) hlaid with
    ⟨ns, first, last, hns, hnode, hle⟩
  rcases hns.spells.spansNest hnode with ⟨hnest, hlast⟩
  exact ⟨hnest, Nat.le_trans hlast hle⟩

/-- The spans of a parsed source nest, at all nodes of the tree, and lie inside the
source.  What evaluation is refused at is the start of a token that some node
keeps, inside the span of the tree. -/
theorem parseSource_spans {source file : String} {e : Expr}
    (hsize : source.utf8ByteSize < UInt32.size) (h : parseSource source file = .ok e) :
    (∀ (C : Context) (n : Expr), e = C.plug n →
      n.SpansNest file ∧ n.span.stop.offset.toNat ≤ source.utf8ByteSize) ∧
    ∀ d, e.eval = .error d →
      e.span.start.offset.toNat ≤ d.position.offset.toNat ∧
        d.position.offset.toNat < e.span.stop.offset.toNat ∧
        ∃ (C : Context) (n : Expr) (t : Token), e = C.plug n ∧ .token t ∈ n.parts ∧
          d.position = t.start := by
  have hnodes (C : Context) (n : Expr) (heq : e = C.plug n) :=
    spansNest_of_parseSource hsize (heq ▸ h)
  refine ⟨hnodes, ?_⟩
  intro d hd
  rcases Expr.exists_culprit hd with ⟨C, n, t, rfl, ht, hblamed⟩
  have hnest := (hnodes C n rfl).1
  have hproper := hnest.parts_proper _ ht
  have hinside := (hnest.inside _ ht).trans
    (Context.inside_plug fun D m heq => (hnodes D m heq).1)
  rw [hblamed.position_eq]
  exact ⟨hinside.start_le, Nat.lt_of_lt_of_le hproper.lt hinside.stop_le, C, n, t, rfl,
    ht, rfl⟩

/-- The case of `(a)`, where the parentheses stand outside the span of the tree. -/
theorem parseSource_spans_group :
    ∃ e d, "(a)".utf8ByteSize < UInt32.size ∧ parseSource "(a)" "shell" = .ok e ∧
      e.span = ⟨.ofByte "shell" 1, .ofByte "shell" 2⟩ ∧ e.SpansNest "shell" ∧
      e.eval = .error d ∧ d.position.offset.toNat < e.span.stop.offset.toNat := by
  have hcut : Piece.CutBefore
      [⟨.fixed .openParen "(", ['('], ⟨by decide, rfl⟩, by decide⟩,
        ⟨.word, ['a'], (by decide : Lexeme.IsWord ['a']), by decide⟩,
        ⟨.fixed .closeParen ")", [')'], ⟨by decide, rfl⟩, by decide⟩] [] :=
    ⟨by simp [Rule.EndsBefore, Rule.longer?], Lexeme.endsRun_cons.2 (by decide),
      by simp [Rule.EndsBefore, Rule.longer?], trivial⟩
  have htokens : tokenize "(a)" "shell" =
      .ok [⟨.openParen, "(", ⟨.ofByte "shell" 0, .ofByte "shell" 1⟩⟩,
        ⟨.identifier, "a", ⟨.ofByte "shell" 1, .ofByte "shell" 2⟩⟩,
        ⟨.closeParen, ")", ⟨.ofByte "shell" 2, .ofByte "shell" 3⟩⟩,
        ⟨.eof, "EOF", ⟨.ofByte "shell" 3, .ofByte "shell" 3⟩⟩] :=
    tokenize_of_pieces rfl hcut
  have h : parseSource "(a)" "shell" = .ok
      (.group (.var ⟨.identifier, "a", ⟨.ofByte "shell" 1, .ofByte "shell" 2⟩⟩)) := by
    rw [parseSource, htokens]
    rfl
  rcases parseSource_spans (by decide) h with ⟨hnodes, hfault⟩
  rcases hfault _ rfl with ⟨-, hlt, -⟩
  exact ⟨_, _, by decide, h, rfl, (hnodes [] _ rfl).1, rfl, hlt⟩

end ExprLang
