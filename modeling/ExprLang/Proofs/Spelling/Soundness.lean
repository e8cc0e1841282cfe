import ExprLang.Proofs.Reading.Bounded
import ExprLang.Proofs.Spelling.Precedence

/-!
# Soundness of the parser

Every expression that is read is spelled by exactly the tokens that were taken
away for it, and it is in precedence form.  The invariant of the loop that goes
on with an expression also says that the next token binds no more tightly than
the expression does; it is what makes the expression a left operand of that
token.

Main results:

- Theorem `Unbounded.step_sound`: one turn of the loop keeps the invariant.
- Theorem `Unbounded.expr_sound`: what a parser of expressions ensures.
- Theorem `parse_sound`: a parsed list spells the expression up to the end of
  the input.
-/

namespace ExprLang

/-! ## The invariant -/

/-- What is known of an expression that has been read from some tokens, in front
of others, for a place that asks for more than a power. -/
structure HasRead (power : BindingPower) (us : List Token) (e : Expr)
    (rest : List Token) : Prop where
  spells : e.Spells us
  form : e.InPrecedenceForm
  /-- Only operators in front of their operand are read without regard to the
  power. -/
  tight : power < e.power ∨ .unary ≤ e.power
  /-- The next token does not belong to the last part of the expression. -/
  closed : Grammar.standard.power (headToken rest).kind ≤ e.bound

/-- What is known of arguments that have been read from some tokens, in front of
others. -/
structure HasReadArguments (us : List Token) (es : List Expr) (rest : List Token) :
    Prop where
  ne_nil : es ≠ []
  spells : Expr.SpellsAll es us
  forms : ∀ e ∈ es, e.InPrecedenceForm
  /-- The next token neither goes on with the last argument nor with the list. -/
  closed : Grammar.standard.power (headToken rest).kind ≤ .default
  ne_comma : (headToken rest).kind ≠ .comma

namespace HasRead

variable {power : BindingPower} {us rest : List Token} {e : Expr}

/-- An expression that is at least as tight as a call may stand anywhere. -/
theorem of_call_le (hspells : e.Spells us) (hform : e.InPrecedenceForm)
    (hpower : .call ≤ e.power) : HasRead power us e rest := by
  have hunary : BindingPower.unary ≤ e.power :=
    Nat.le_trans (by decide : BindingPower.unary ≤ .call) hpower
  have hbound : e.bound = e.power :=
    Expr.bound_eq_power
      (Nat.lt_of_lt_of_le (by decide : BindingPower.assignment < .unary) hunary)
  refine ⟨hspells, hform, .inr hunary, ?_⟩
  rw [hbound]
  exact Nat.le_trans (Grammar.power_standard_le_call _) hpower

private theorem of_primary (hspells : e.Spells us) (hform : e.InPrecedenceForm)
    (hpower : e.power = .primary) : HasRead power us e rest := by
  apply of_call_le hspells hform
  rw [hpower]
  decide

/-- The next token can take the expression as its left operand. -/
theorem power_le (h : HasRead power us e rest) :
    Grammar.standard.power (headToken rest).kind ≤ e.power :=
  Nat.le_trans h.closed e.bound_le_power

/-- In front of an opening parenthesis or a dot stands an expression that is at
least as tight as a call. -/
theorem call_le_power {t : Token} (h : HasRead power us e (t :: rest))
    (ht : t.kind = .openParen ∨ t.kind = .dot) : .call ≤ e.power := by
  have hle := h.power_le
  rcases ht with hkind | hkind
  · rwa [headToken_cons, hkind] at hle
  · rwa [headToken_cons, hkind] at hle

private theorem lt_power (h : HasRead power us e rest) (hpower : power < .unary) :
    power < e.power := by
  rcases h.tight with hlt | hunary
  · exact hlt
  · exact Nat.lt_of_lt_of_le hpower hunary

private theorem unary_le_power (h : HasRead .unary us e rest) : .unary ≤ e.power := by
  rcases h.tight with hlt | hunary
  · exact Nat.le_of_lt hlt
  · exact hunary

/-- A left operand that is assigned to is taken apart again. -/
theorem assigned {equals : Token} {vs : List Token} {value e' : Expr}
    (h : HasRead power us e (equals :: (vs ++ rest))) (hequals : equals.kind = .assignment)
    (hpower : power < .assignment) (hvalue : HasRead .default vs value rest)
    (hhead : Grammar.standard.power (headToken rest).kind ≤ .default)
    (hassigned : Expr.assigned? value e = some e') :
    HasRead power (us ++ equals :: vs) e' rest where
  spells := (Expr.spells_iff_of_assigned? hassigned).2
    ⟨us, equals, vs, rfl, h.spells, hequals, hvalue.spells⟩
  form := (Expr.form_iff_of_assigned? hassigned).2 ⟨h.form, hvalue.form⟩
  tight := .inl (by rwa [Expr.power_of_assigned? hassigned])
  closed := by rwa [Expr.bound_of_assigned? hassigned]

end HasRead

namespace Unbounded

open ReadM Ending

/-- An expression has been read from the front of a list, up to a token that
binds no more tightly than a power. -/
def ReadsFrom (power : BindingPower) (ts : List Token) (e : Expr) (rest : List Token) :
    Prop :=
  (∃ us, ts = us ++ rest ∧ HasRead power us e rest) ∧
    Grammar.standard.power (headToken rest).kind ≤ power

/-- Expressions are read soundly from all lists of fewer tokens than a number. -/
def SoundBelow (n : Nat) : Prop :=
  ∀ ts : List Token, ts.length < n → ∀ power,
    Ensures (expr .standard power) ts (ReadsFrom power ts)

variable {n : Nat} {power : BindingPower} {ts : List Token} {t : Token}

/-- An operand is read behind a token that is taken away. -/
theorem operand_sound (ih : SoundBelow (t :: ts).length) (ht : t.kind ≠ .eof)
    {f : Token → Expr → ReadM Expr} {Q : Expr → List Token → Prop}
    (h : ∀ us e rest, ts = us ++ rest → HasRead power us e rest →
      Grammar.standard.power (headToken rest).kind ≤ power → Ensures (f t e) rest Q) :
    Ensures (do let t ← next; let e ← expr .standard power; f t e) (t :: ts) Q := by
  apply ensures_bind
  apply ensures_next_cons ht
  apply ensures_bind
  apply (ih ts (Nat.lt_succ_self _) power).mono
  intro e rest hread
  rcases hread with ⟨⟨us, hts, hread⟩, hhead⟩
  exact h us e rest hts hread hhead

/-! ## How an expression starts -/

/-- What a rule of prefixes reads is spelled by the tokens that it takes, and in
precedence form. -/
theorem start_sound {rule : PrefixRule} (ih : SoundBelow (t :: ts).length)
    (hrule : Grammar.standard.prefixRule? t.kind = some rule) :
    Ensures (start .standard rule) (t :: ts) fun e rest =>
      ∃ us, t :: ts = us ++ rest ∧ HasRead power us e rest := by
  have ht : t.kind ≠ .eof := Grammar.ne_eof_of_prefixRule? hrule
  cases rule with
  | primary =>
      rw [start]
      apply ensures_bind
      apply ensures_next_cons ht
      apply ensures_found
      intro e he
      refine ⟨[t], rfl, ?_⟩
      rcases Token.leaf_eq_ok_iff.1 he with ⟨value, hvalue, rfl⟩ | ⟨hkind, rfl⟩
      · apply HasRead.of_primary _ (.literal value t.span) rfl
        exact Expr.spells_literal_iff.2 ⟨t, rfl, hvalue, rfl⟩
      · apply HasRead.of_primary _ (.var hkind) rfl
        exact Expr.spells_var_iff.2 rfl
  | this =>
      rw [start]
      apply ensures_bind
      apply ensures_expect (by decide)
      rintro keyword rest ⟨⟩ hkind
      refine ensures_pure ⟨[t], rfl, ?_⟩
      apply HasRead.of_primary _ (.this hkind) rfl
      exact Expr.spells_this_iff.2 rfl
  | super =>
      rw [start]
      apply ensures_bind
      apply ensures_expect (by decide)
      rintro keyword rest ⟨⟩ hkeyword
      apply ensures_bind
      apply ensures_expectDetailed (by decide)
      rintro dot rest rfl hdot
      apply ensures_bind
      apply ensures_expectDetailed (by decide)
      rintro method rest rfl hmethod
      refine ensures_pure ⟨[t, dot, method], rfl, ?_⟩
      apply HasRead.of_primary _ (.super hkeyword hmethod) rfl
      exact Expr.spells_super_iff.2 ⟨dot, rfl, hdot⟩
  | operator =>
      rw [start]
      apply operand_sound ih ht
      rintro us operand rest rfl hread hhead
      refine ensures_pure ⟨t :: us, rfl, ?_⟩
      exact
        { spells := Expr.spells_unary_iff.2 ⟨us, rfl, hread.spells⟩
          form := .unary hrule hread.unary_le_power hread.form
          tight := .inr (Nat.le_refl _)
          closed := hhead }
  | group =>
      have hopening := Grammar.prefixRule?_eq_group_iff.1 hrule
      rw [start]
      apply operand_sound ih ht
      rintro us inner mid rfl hread -
      apply ensures_bind
      apply ensures_expectDetailed (by decide)
      rintro closing rest rfl hclosing
      refine ensures_pure ⟨t :: (us ++ [closing]), by simp, ?_⟩
      apply HasRead.of_primary _ (.group hread.form) rfl
      exact Expr.spells_group_iff.2
        ⟨t, us, closing, rfl, hopening, hread.spells, hclosing⟩

/-! ## How it goes on -/

/-- Arguments are read from the front of a list. -/
theorem arguments_sound (ih : SoundBelow n) (hlen : ts.length < n) :
    Ensures (arguments .standard) ts fun es rest =>
      ∃ us, ts = us ++ rest ∧ HasReadArguments us es rest := by
  induction hlength : ts.length using Nat.strongRecOn generalizing ts with
  | ind length ihlength =>
      subst hlength
      rw [arguments]
      apply ensures_bind
      apply ((ih ts hlen .default).and
        (expr_advances Grammar.stopsAtEnd_standard .default ts)).mono
      intro first mid hfirst
      rcases hfirst with ⟨⟨⟨us, hts, hread⟩, hhead⟩, hadvances⟩
      apply ensures_bind
      apply ensures_peek
      by_cases hcomma : (headToken mid).kind = .comma
      · rw [if_pos hcomma]
        apply ensures_bind
        apply ensures_next
        · intro hend
          rw [hcomma] at hend
          cases hend
        · rintro comma rest rfl -
          have hlt := hadvances.length_lt
          simp only [List.length_cons] at hlt
          apply ensures_bind
          apply (ihlength rest.length (by omega) (by omega) rfl).mono
          intro others last hothers
          rcases hothers with ⟨vs, rfl, hrest⟩
          refine ensures_pure ⟨us ++ comma :: vs, by simp [hts], ?_⟩
          rcases List.exists_cons_of_ne_nil hrest.ne_nil with ⟨e, es, rfl⟩
          exact
            { ne_nil := List.cons_ne_nil _ _
              spells := Expr.spellsAll_cons_cons_iff.2
                ⟨us, comma, vs, rfl, hread.spells, hcomma, hrest.spells⟩
              forms := List.forall_mem_cons.2 ⟨hread.form, hrest.forms⟩
              closed := hrest.closed
              ne_comma := hrest.ne_comma }
      · rw [if_neg hcomma]
        refine ensures_pure ⟨us, hts, ?_⟩
        exact
          { ne_nil := List.cons_ne_nil _ _
            spells := Expr.spellsAll_singleton_iff.2 hread.spells
            forms := List.forall_mem_singleton.2 hread.form
            closed := hhead
            ne_comma := hcomma }

/-- The arguments of a call are read up to the closing parenthesis. -/
theorem call_sound {us mid : List Token} (vs : List Token) {callee : Expr}
    {es : List Expr} (hcallee : HasRead power us callee (t :: (vs ++ mid)))
    (ht : t.kind = .openParen) (hspells : Expr.SpellsAll es vs)
    (hforms : ∀ e ∈ es, e.InPrecedenceForm) :
    Ensures
      (do
        let paren ← expectDetailed .closeParen "expected `)` after arguments"
        return Expr.call callee paren es)
      mid fun e rest =>
        ∃ ws, t :: (vs ++ mid) = ws ++ rest ∧ HasRead power (us ++ ws) e rest := by
  have hpower : .call ≤ callee.power := hcallee.call_le_power (.inl ht)
  apply ensures_bind
  apply ensures_expectDetailed (by decide)
  rintro paren rest rfl hparen
  refine ensures_pure ⟨t :: (vs ++ [paren]), by simp, ?_⟩
  apply HasRead.of_call_le _ (.call hpower hparen hcallee.form hforms) (Nat.le_refl _)
  exact Expr.spells_call_iff.2 ⟨us, t, vs, rfl, hcallee.spells, ht, hspells⟩

/-- One turn of the loop: a token that binds more tightly than the power takes
what has been read as its left operand, and the result is read soundly again. -/
theorem step_sound (ih : SoundBelow (t :: ts).length) {rule : InfixRule}
    (hrule : Grammar.standard.infixRule? t.kind = some rule)
    (hlt : power < Grammar.standard.power t.kind) {us : List Token} {left : Expr}
    (hleft : HasRead power us left (t :: ts)) :
    Ensures (step .standard left (Grammar.standard.power t.kind) rule) (t :: ts)
      fun e rest => ∃ vs, t :: ts = vs ++ rest ∧ HasRead power (us ++ vs) e rest := by
  have ht : t.kind ≠ .eof := Grammar.ne_eof_of_infixRule? hrule
  have hleft_power : Grammar.standard.power t.kind ≤ left.power := hleft.power_le
  cases rule with
  | binary =>
      have hunary := (Grammar.power_standard_of_operator (.inl hrule)).2
      rw [step]
      apply operand_sound ih ht
      rintro vs right rest rfl hread hhead
      refine ensures_pure ⟨t :: vs, rfl, ?_⟩
      exact
        { spells := Expr.spells_binary_iff.2 ⟨us, vs, rfl, hleft.spells, hread.spells⟩
          form := .binary hrule hleft_power (hread.lt_power hunary) hleft.form hread.form
          tight := .inl hlt
          closed := hhead }
  | logical =>
      have hunary := (Grammar.power_standard_of_operator (.inr hrule)).2
      rw [step]
      apply operand_sound ih ht
      rintro vs right rest rfl hread hhead
      refine ensures_pure ⟨t :: vs, rfl, ?_⟩
      exact
        { spells := Expr.spells_logical_iff.2 ⟨us, vs, rfl, hleft.spells, hread.spells⟩
          form := .logical hrule hleft_power (hread.lt_power hunary) hleft.form hread.form
          tight := .inl hlt
          closed := hhead }
  | assignment =>
      have hequals := Grammar.infixRule?_eq_assignment_iff.1 hrule
      rw [hequals] at hlt
      rw [step]
      apply operand_sound ih ht
      rintro vs value rest rfl hread hhead
      split
      · rename_i e hassigned
        refine ensures_pure ⟨t :: vs, rfl, ?_⟩
        exact hleft.assigned hequals hlt hread hhead hassigned
      · exact ensures_fail
  | call =>
      have hopening := Grammar.infixRule?_eq_call_iff.1 hrule
      rw [step]
      apply ensures_bind
      apply ensures_next_cons ht
      apply ensures_bind
      apply ensures_peek
      split
      · apply ensures_bind
        apply ensures_pure
        exact call_sound [] hleft hopening (Expr.spellsAll_nil_iff.2 rfl)
          (List.forall_mem_nil _)
      · apply ensures_bind
        apply (arguments_sound ih (Nat.lt_succ_self _)).mono
        rintro es mid ⟨vs, rfl, hread⟩
        exact call_sound vs hleft hopening hread.spells hread.forms
  | get =>
      have hdot := Grammar.infixRule?_eq_get_iff.1 hrule
      have hcall : .call ≤ left.power := hleft.call_le_power (.inr hdot)
      rw [step]
      apply ensures_bind
      apply ensures_next_cons ht
      apply ensures_bind
      apply ensures_expectDetailed (by decide)
      rintro name rest rfl hname
      refine ensures_pure ⟨[t, name], rfl, ?_⟩
      apply HasRead.of_call_le _ (.get hcall hname hleft.form) (Nat.le_refl _)
      exact Expr.spells_get_iff.2 ⟨us, t, rfl, hleft.spells, hdot⟩

/-- The loop stops in front of a token that binds no more tightly than the
power. -/
theorem extend_sound (ih : SoundBelow n) {us : List Token} {left : Expr}
    (hlen : ts.length ≤ n) (hleft : HasRead power us left ts) :
    Ensures (extend .standard power left) ts fun e rest =>
      ReadsFrom power (us ++ ts) e rest := by
  induction hlength : ts.length using Nat.strongRecOn generalizing us left ts with
  | ind length ihlength =>
      subst hlength
      by_cases hlt : power < Grammar.standard.power (headToken ts).kind
      · rcases Grammar.exists_infixRule_of_lt hlt with ⟨rule, hrule⟩
        cases ts with
        | nil => exact absurd rfl (Grammar.ne_eof_of_infixRule? hrule)
        | cons t ts =>
            have ihlist : SoundBelow (t :: ts).length := fun ws hws =>
              ih ws (Nat.lt_of_lt_of_le hws hlen)
            have hstep := (step_sound ihlist hrule hlt hleft).and
              (step_advances Grammar.stopsAtEnd_standard left _ rule
                (advancesBelow Grammar.stopsAtEnd_standard _))
            unfold Ensures
            rw [extend_of_lt hlt hrule]
            apply ensures_bind
            apply hstep.mono
            intro longer mid hlonger
            rcases hlonger with ⟨⟨vs, hts, hread⟩, hadvances⟩
            have hmid := hadvances.length_lt
            rw [hts, ← List.append_assoc]
            exact ihlength mid.length hmid (by omega) hread rfl
      · exact ensures_of_done (extend_of_not_lt hlt)
          ⟨⟨us, rfl, hleft⟩, Nat.le_of_not_lt hlt⟩

/-! ## All expressions -/

/-- A parser of an expression reads it soundly, and leaves only a token that
binds no more tightly than the power. -/
theorem expr_sound (power : BindingPower) (ts : List Token) :
    Ensures (expr .standard power) ts (ReadsFrom power ts) := by
  induction hlength : ts.length using Nat.strongRecOn generalizing ts power with
  | ind length ihlength =>
      subst hlength
      have ih : SoundBelow ts.length := fun us hus power =>
        ihlength us.length hus power us rfl
      cases hrule : Grammar.standard.prefixRule? (headToken ts).kind with
      | none => exact ensures_of_failed (expr_of_no_rule hrule)
      | some rule =>
          cases ts with
          | nil => exact absurd rfl (Grammar.ne_eof_of_prefixRule? hrule)
          | cons t ts =>
              have hstart : Ensures (start .standard rule) (t :: ts) fun e rest =>
                  ∃ us, t :: ts = us ++ rest ∧ HasRead power us e rest :=
                start_sound ih hrule
              have hadvances := start_advances Grammar.stopsAtEnd_standard rule
                (advancesBelow Grammar.stopsAtEnd_standard (t :: ts).length)
              unfold Ensures
              rw [expr_of_rule hrule]
              apply ensures_bind
              apply (hstart.and hadvances).mono
              intro left mid hleft
              rcases hleft with ⟨⟨us, hts, hread⟩, hadvances⟩
              rw [hts]
              exact extend_sound ih (Nat.le_of_lt hadvances.length_lt) hread

/-- What is read as an expression is spelled by the tokens that are taken. -/
theorem readsFrom_of_expr {e : Expr} {rest : List Token}
    (h : expr .standard power ts = done e rest) : ReadsFrom power ts e rest :=
  (expr_sound power ts).of_done h

/-- By induction on the number of tokens, what is read is spelled by what is taken. -/
theorem soundBelow (n : Nat) : SoundBelow n :=
  fun ts _ power => expr_sound power ts

end Unbounded

/-! ## Whole lists of tokens -/

open Ending

/-- What the unbounded parser reads up to the end of the input. -/
theorem Unbounded.whole_sound {ts rest : List Token} {e : Expr}
    (h : whole ts = done e rest) :
    e.Spells (beforeEnd ts) ∧ e.InPrecedenceForm := by
  rcases ReadM.exists_of_bind_done h with ⟨e', mid, hexpr, hend⟩
  rcases ReadM.exists_of_bind_done hend with ⟨_, _, hend, hpure⟩
  cases hpure
  have hmid : (headToken mid).kind = .eof := by
    by_contra hne
    rw [ReadM.expectDetailed_of_ne hne] at hend
    cases hend
  rcases readsFrom_of_expr hexpr with ⟨⟨us, rfl, hread⟩, -⟩
  have hleaves := (advances_of_expr Grammar.stopsAtEnd_standard hexpr).leaves
  rw [beforeEnd_append hleaves.ne_eof hmid]
  exact ⟨hread.spells, hread.form⟩

/-- What is parsed is in precedence form. -/
theorem form_of_parse {tokens : List Token} {e : Expr} (h : parse tokens = .ok e) :
    e.InPrecedenceForm := by
  rcases parse_eq_ok_iff.1 h with ⟨rest, hwhole⟩
  exact (Unbounded.whole_sound hwhole).2

/-- What is parsed is spelled up to the end of the input. -/
theorem spells_of_parse {tokens : List Token} {e : Expr} (h : parse tokens = .ok e) :
    e.Spells (beforeEnd tokens) := by
  rcases parse_eq_ok_iff.1 h with ⟨rest, hwhole⟩
  rw [← TokenStream.beforeEnd_complete]
  exact (Unbounded.whole_sound hwhole).1

/-- An expression that has been parsed is spelled by the tokens before the end
of the input, token for token, and grouped as the precedences say. -/
theorem parse_sound {tokens : List Token} {e : Expr} (h : parse tokens = .ok e) :
    e.Spells (beforeEnd tokens) ∧ e.InPrecedenceForm := by
  rcases parse_eq_ok_iff.1 h with ⟨rest, hwhole⟩
  rw [← TokenStream.beforeEnd_complete]
  exact Unbounded.whole_sound hwhole

/-- The case of `-a.b`, in a list without an end of the input. -/
theorem parse_sound_unary_get :
    ∃ dash a dot b : Token,
      parse [dash, a, dot, b] = .ok (.unary dash (.get (.var a) b)) ∧
        Expr.Spells (.unary dash (.get (.var a) b)) (beforeEnd [dash, a, dot, b]) ∧
          Expr.InPrecedenceForm (.unary dash (.get (.var a) b)) :=
  ⟨.synthetic .dash "-", .synthetic .identifier "a", .synthetic .dot ".",
    .synthetic .identifier "b", rfl, parse_sound rfl⟩

end ExprLang
