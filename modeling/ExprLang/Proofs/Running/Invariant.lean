import ExprLang.Parser.Parse

/-!
# What a parser keeps

A property of streams that reading a token keeps is kept by every parser of
expressions, whether it has a result or not, and the faults that the rules of a
grammar meet by themselves are all that the parser has.  The recursion of the
parser is followed once here, for any grammar, property and class of faults.

Main results:

- Theorem `keeps_bind`: what both parsers of a sequence keep, the sequence keeps.
- Theorem `parseExpr_keeps`: parsers of expressions keep what reading a token
  keeps.
- Theorem `parse_error_allowed`: what a list of tokens can be rejected for.
-/

namespace ExprLang

open ParseM

/-- A parser leaves a stream of some property behind, however it ends, and a fault
that it ends with is an allowed one. -/
def Keeps {α : Type} (I : TokenStream → Prop) (A : Diagnostic → Prop) :
    EStateM.Result Stop TokenStream α → Prop
  | .ok _ s => I s
  | .error (.fault d) s => A d ∧ I s
  | .error .exhausted s => I s

section Sequence

variable {α β : Type} {I : TokenStream → Prop} {A : Diagnostic → Prop} {x : ParseM α}
  {f : α → ParseM β} {s : TokenStream}

/-- A sequence keeps an invariant if both of its parts do. -/
theorem keeps_bind (hx : Keeps I A (x s)) (hf : ∀ a s', I s' → Keeps I A (f a s')) :
    Keeps I A ((x >>= f) s) := by
  simp only [bind, EStateM.bind]
  cases hrun : x s with
  | ok a s' =>
      rw [hrun] at hx
      exact hf a s' hx
  | error stop s' =>
      rw [hrun] at hx
      cases stop with
      | fault d => exact hx
      | exhausted => exact hx

private theorem keeps_pure {a : α} (hs : I s) : Keeps I A ((pure a : ParseM α) s) :=
  hs

private theorem keeps_exhausted (hs : I s) : Keeps I A ((throw .exhausted : ParseM α) s) :=
  hs

private theorem keeps_fail {d : Diagnostic} (hs : I s) (hd : A d) :
    Keeps I A ((fail d : ParseM α) s) :=
  ⟨hd, hs⟩

private theorem keeps_ofExcept {r : Except Diagnostic α} (hs : I s)
    (hd : ∀ d, r = .error d → A d) : Keeps I A (ofExcept r s) := by
  cases r with
  | ok a => exact hs
  | error d => exact ⟨hd d rfl, hs⟩

/-- The current token is what the rest of a sequence depends on. -/
theorem keeps_peek_bind {f : Token → ParseM β} (h : Keeps I A (f s.current s)) :
    Keeps I A ((peek >>= f) s) :=
  h

private theorem keeps_next_bind {f : Token → ParseM β} (h : Keeps I A (f s.current s.advance)) :
    Keeps I A ((next >>= f) s) :=
  h

end Sequence

/-! ## Rules of a grammar -/

/-- The faults that a rule meets at its first token are allowed. -/
def PrefixRule.Allowed (A : Diagnostic → Prop) (t : Token) : PrefixRule → Prop
  | .primary => ∀ d, t.leaf = .error d → A d
  | .this => t.kind ≠ .kwThis → A ⟨.unexpectedToken t.text, t.start⟩
  | .super => t.kind ≠ .kwSuper → A ⟨.unexpectedToken t.text, t.start⟩
  | .operator | .group => True

/-- Reading a token keeps a property of streams, and the faults that the rules of
a grammar meet by themselves in such streams are allowed. -/
structure Grammar.Admits (g : Grammar) (I : TokenStream → Prop) (A : Diagnostic → Prop) :
    Prop where
  advance : ∀ s, I s → I s.advance
  expected : ∀ t : Token, A t.expectedExpression
  detailed : ∀ (t : Token) (message : String),
    A ⟨.unexpectedTokenDetailed t.text message, t.start⟩
  target : ∀ t : Token, A ⟨.invalidAssignmentTarget, t.start⟩
  start : ∀ s rule, I s → g.prefixRule? s.current.kind = some rule →
    rule.Allowed A s.current
  /-- What binds without a rule to go on by. -/
  unruled : ∀ (t : Token) (power : BindingPower), power < g.power t.kind →
    g.infixRule? t.kind = none → A ⟨.unexpectedToken t.text, t.start⟩

section Rules

variable {I : TokenStream → Prop} {A : Diagnostic → Prop} {g : Grammar}
  {operand : BindingPower → ParseM Expr} {s : TokenStream}

/-- A token that is wanted is read, and any other is left where it is. -/
theorem keeps_expectOr (hg : g.Admits I A) (hs : I s) {kind : TokenKind} {d : Diagnostic}
    (hd : s.current.kind ≠ kind → A d) : Keeps I A (expectOr kind d s) := by
  rw [expectOr_eq]
  split
  · exact hg.advance s hs
  · rename_i hkind
    exact ⟨hd hkind, hs⟩

/-- Reading a token of a kind keeps the invariant, if its fault is allowed. -/
theorem keeps_expect (hg : g.Admits I A) (hs : I s) {kind : TokenKind}
    (hd : s.current.kind ≠ kind → A ⟨.unexpectedToken s.current.text, s.current.start⟩) :
    Keeps I A (expect kind s) :=
  keeps_peek_bind (keeps_expectOr hg hs hd)

/-- Reading a token of a kind with a message keeps the invariant. -/
theorem keeps_expectDetailed (hg : g.Admits I A) (hs : I s) (kind : TokenKind)
    (message : String) : Keeps I A (expectDetailed kind message s) :=
  keeps_peek_bind (keeps_expectOr hg hs fun _ => hg.detailed _ _)

/-- A result is made of a last token that is expected. -/
theorem keeps_expected {α : Type} (hg : g.Admits I A) (hs : I s) (kind : TokenKind)
    (message : String) (f : Token → α) :
    Keeps I A ((do let t ← expectDetailed kind message; return f t : ParseM α) s) :=
  keeps_bind (keeps_expectDetailed hg hs kind message) fun _ _ hs' => keeps_pure hs'

variable (hg : g.Admits I A) (hoperand : ∀ power s, I s → Keeps I A (operand power s))

include hg hoperand

/-- Rules of prefixes keep the invariant if their operands do. -/
theorem PrefixRule.run_keeps {rule : PrefixRule} (hs : I s)
    (hallowed : rule.Allowed A s.current) : Keeps I A (rule.run operand s) := by
  cases rule with
  | primary =>
      apply keeps_next_bind
      exact keeps_ofExcept (hg.advance s hs) hallowed
  | this =>
      apply keeps_bind (keeps_expect hg hs hallowed)
      intro keyword s' hs'
      exact keeps_pure hs'
  | super =>
      apply keeps_bind (keeps_expect hg hs hallowed)
      intro keyword s' hs'
      apply keeps_bind (keeps_expectDetailed hg hs' .dot _)
      intro dot s'' hs''
      exact keeps_expected hg hs'' .identifier _ _
  | operator =>
      apply keeps_next_bind
      apply keeps_bind (hoperand _ _ (hg.advance s hs))
      intro right s' hs'
      exact keeps_pure hs'
  | group =>
      apply keeps_next_bind
      apply keeps_bind (hoperand _ _ (hg.advance s hs))
      intro inner s' hs'
      exact keeps_expected hg hs' .closeParen _ _

/-- Arguments keep the invariant if expressions do. -/
theorem parseArguments_keeps (turns : Nat) (hs : I s) :
    Keeps I A (parseArguments operand turns s) := by
  induction turns generalizing s with
  | zero => exact keeps_exhausted hs
  | succ turns ih =>
      apply keeps_bind (hoperand .default s hs)
      intro first s' hs'
      apply keeps_peek_bind
      split
      · apply keeps_next_bind
        apply keeps_bind (ih (hg.advance s' hs'))
        intro others s'' hs''
        exact keeps_pure hs''
      · exact keeps_pure hs'

/-- Rules of operators keep the invariant if their operands do. -/
theorem InfixRule.run_keeps (turns : Nat) (left : Expr) (power : BindingPower)
    (rule : InfixRule) (hs : I s) : Keeps I A (rule.run operand turns left power s) := by
  cases rule with
  | binary | logical =>
      apply keeps_next_bind
      apply keeps_bind (hoperand _ _ (hg.advance s hs))
      intro right s' hs'
      exact keeps_pure hs'
  | assignment =>
      apply keeps_next_bind
      apply keeps_bind (hoperand _ _ (hg.advance s hs))
      intro value s' hs'
      cases Expr.assigned? value left with
      | some e => exact keeps_pure hs'
      | none => exact keeps_fail hs' (hg.target s.current)
  | call =>
      apply keeps_next_bind
      apply keeps_peek_bind
      split
      · exact keeps_expected hg (hg.advance s hs) .closeParen _ _
      · apply keeps_bind (parseArguments_keeps hg hoperand turns (hg.advance s hs))
        intro arguments s' hs'
        exact keeps_expected hg hs' .closeParen _ _
  | get =>
      apply keeps_next_bind
      exact keeps_expected hg (hg.advance s hs) .identifier _ _

/-- The loop over operators keeps the invariant if operands do. -/
theorem extend_keeps (turns : Nat) (power : BindingPower) (count : Nat) (left : Expr)
    (hs : I s) : Keeps I A (extend g operand turns power count left s) := by
  induction count generalizing s left with
  | zero => exact keeps_exhausted hs
  | succ count ih =>
      apply keeps_peek_bind
      split
      · rename_i hlt
        cases hrule : g.infixRule? s.current.kind with
        | none => exact keeps_fail hs (hg.unruled s.current power hlt hrule)
        | some rule =>
            apply keeps_bind (rule.run_keeps hg hoperand turns left _ hs)
            intro longer s' hs'
            exact ih longer hs'
      · exact keeps_pure hs

end Rules

/-! ## Expressions -/

/-- Parsers of expressions keep what reading a token keeps, and have the faults
that the rules of the grammar meet by themselves. -/
theorem parseExpr_keeps {I : TokenStream → Prop} {A : Diagnostic → Prop} {g : Grammar}
    (hg : g.Admits I A) (depth : Nat) (power : BindingPower) {s : TokenStream}
    (hs : I s) : Keeps I A (parseExpr g depth power s) := by
  induction depth generalizing s power with
  | zero => exact keeps_exhausted hs
  | succ depth ih =>
      have hoperand : ∀ power s, I s → Keeps I A (parseExpr g depth power s) :=
        fun power _ hs => ih power hs
      apply keeps_peek_bind
      cases hrule : g.prefixRule? s.current.kind with
      | none => exact keeps_fail hs (hg.expected s.current)
      | some rule =>
          apply keeps_bind (rule.run_keeps hg hoperand hs (hg.start s rule hs hrule))
          intro left s' hs'
          exact extend_keeps hg hoperand depth power depth left hs'

/-! ## Whole lists of tokens -/

/-- A list of tokens is rejected for a fault that is allowed in its stream. -/
theorem parse_error_allowed {I : TokenStream → Prop} {A : Diagnostic → Prop}
    (hg : Grammar.standard.Admits I A) {tokens : List Token}
    (hs : I (.ofTokens tokens)) {d : Diagnostic} (h : parse tokens = .error d) : A d := by
  have hkeeps (depth : Nat) : Keeps I A (parseWhole depth (.ofTokens tokens)) := by
    apply keeps_bind (parseExpr_keeps hg depth .default hs)
    intro e s' hs'
    exact keeps_expected hg hs' .eof _ _
  simp only [parse] at h
  split at h
  · cases h
  · rename_i hrun
    cases h
    have hfault := hkeeps (TokenStream.ofTokens tokens).tokens.size
    rw [hrun] at hfault
    exact hfault.1
  · cases h
    exact hg.expected _

end ExprLang
