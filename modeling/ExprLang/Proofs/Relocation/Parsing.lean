import ExprLang.Parser.Parse
import ExprLang.Proofs.Relocation.Basic

/-!
# Relocated tokens are parsed to relocated trees

Parsers look at the kinds and the texts of tokens and hand their spans on.  On a
stream whose tokens are relocated a parser does what it does on the stream itself,
and all that it results in is relocated.  The end of the input that is added to a
list is placed by its last token; only for the empty list is there nothing to
place it by.

Main results:

- Theorem `mirrors_bind`: sequences of parsers that relocate relocate.
- Theorem `parseExpr_mirrors`: parsers of expressions relocate.
- Theorem `parse_map_relocate`: relocated tokens are parsed with the relocated result.
- Theorem `parse_relocate`: what relocated tokens are parsed as and what that
  means.
-/

namespace ExprLang

open ParseM

variable {φ : Position → Position}

/-! ## Streams -/

namespace TokenStream

/-- Relocates the tokens of a stream. -/
def relocate (φ : Position → Position) (s : TokenStream) : TokenStream :=
  { s with tokens := s.tokens.map (Token.relocate φ) }

/-- The current token of a relocated stream is the relocated one, unless there is none. -/
theorem current_relocate {s : TokenStream} (hs : s.tokens ≠ #[]) :
    (s.relocate φ).current = s.current.relocate φ := by
  have hpos : 0 < s.tokens.size := Array.size_pos_iff.2 hs
  have hlt : min s.cursor (s.tokens.size - 1) < s.tokens.size := by omega
  simp [current, relocate, hlt]

private theorem advance_relocate {s : TokenStream} (hs : s.tokens ≠ #[]) :
    (s.relocate φ).advance = s.advance.relocate φ := by
  unfold advance
  rw [current_relocate hs, Token.kind_relocate]
  split <;> rfl

/-- The end of the input is placed by the last token. -/
theorem complete_relocate {tokens : List Token} (hne : tokens ≠ []) :
    complete (tokens.map (Token.relocate φ)) =
      (complete tokens).map (Token.relocate φ) := by
  unfold complete
  rw [List.getLast?_map, List.getLast?_eq_some_getLast hne, Option.map_some]
  rw [apply_ite (List.map (Token.relocate φ)), List.map_append]
  rfl

/-- A stream of relocated tokens is the relocated stream. -/
theorem ofTokens_relocate {tokens : List Token} (hne : tokens ≠ []) :
    ofTokens (tokens.map (Token.relocate φ)) = (ofTokens tokens).relocate φ := by
  simp [ofTokens, relocate, complete_relocate hne]

/-- A stream always holds a token. -/
theorem tokens_ofTokens_ne_empty (tokens : List Token) :
    (ofTokens tokens).tokens ≠ #[] := by
  rcases back?_tokens_ofTokens tokens with ⟨last, hlast, -⟩
  intro h
  simp [h] at hlast

end TokenStream

/-! ## Parsers -/

/-- Relocates the fault that a parser stops at. -/
def Stop.relocate (φ : Position → Position) : Stop → Stop
  | .fault d => .fault (d.relocate φ)
  | .exhausted => .exhausted

/-- How a parser ends, and how it ends when all is relocated, by a function that
relocates its result. -/
inductive Moves (φ : Position → Position) {α : Type} (move : α → α) :
    EStateM.Result Stop TokenStream α → EStateM.Result Stop TokenStream α → Prop where
  | ok (a : α) {s : TokenStream} (hs : s.tokens ≠ #[]) :
      Moves φ move (.ok a s) (.ok (move a) (s.relocate φ))
  | error (stop : Stop) {s : TokenStream} (hs : s.tokens ≠ #[]) :
      Moves φ move (.error stop s) (.error (stop.relocate φ) (s.relocate φ))

/-- On a relocated stream a parser does what another one does on the stream
itself. -/
def Mirrors (φ : Position → Position) {α : Type} (move : α → α) (x y : ParseM α) :
    Prop :=
  ∀ s : TokenStream, s.tokens ≠ #[] → Moves φ move (x s) (y (s.relocate φ))

section Parsers

variable {α β : Type} {move : α → α} {move' : β → β} {x y : ParseM α}

/-- Sequences of parsers that relocate relocate. -/
theorem mirrors_bind {f k : α → ParseM β} (h : Mirrors φ move x y)
    (hnext : ∀ a, Mirrors φ move' (f a) (k (move a))) :
    Mirrors φ move' (x >>= f) (y >>= k) := by
  intro s hs
  have hfirst := h s hs
  simp only [bind, EStateM.bind]
  generalize x s = r at hfirst
  generalize y (s.relocate φ) = r' at hfirst
  cases hfirst with
  | ok a hs' => exact hnext a _ hs'
  | error stop hs' => exact .error stop hs'

private theorem mirrors_pure (a : α) : Mirrors φ move (pure a) (pure (move a)) :=
  fun _ hs => .ok a hs

private theorem mirrors_exhausted : Mirrors φ move (throw .exhausted) (throw .exhausted) :=
  fun _ hs => .error .exhausted hs

private theorem mirrors_fail (d : Diagnostic) :
    Mirrors φ move (fail d) (fail (d.relocate φ)) :=
  fun _ hs => .error (.fault d) hs

private theorem mirrors_ofExcept (r : Except Diagnostic α) :
    Mirrors φ move (ofExcept r)
      (ofExcept ((r.map move).mapError (Diagnostic.relocate φ))) := by
  cases r with
  | ok a => exact mirrors_pure a
  | error d => exact mirrors_fail d

private theorem mirrors_peek : Mirrors φ (Token.relocate φ) peek peek := by
  intro s hs
  have hpeek : Moves φ (Token.relocate φ) (.ok s.current s)
      (.ok (s.current.relocate φ) (s.relocate φ)) :=
    .ok s.current hs
  rwa [← TokenStream.current_relocate hs] at hpeek

/-- Reading the current token relocates. -/
theorem mirrors_next : Mirrors φ (Token.relocate φ) next next := by
  intro s hs
  have hadvance : s.advance.tokens ≠ #[] := by
    rwa [TokenStream.tokens_advance]
  have hnext : Moves φ (Token.relocate φ) (.ok s.current s.advance)
      (.ok (s.current.relocate φ) (s.advance.relocate φ)) :=
    .ok s.current hadvance
  rwa [← TokenStream.current_relocate hs, ← TokenStream.advance_relocate hs] at hnext

/-- Reading a token of a kind relocates, with the fault that is given for others. -/
theorem mirrors_expectOr (kind : TokenKind) (d : Diagnostic) :
    Mirrors φ (Token.relocate φ) (expectOr kind d) (expectOr kind (d.relocate φ)) := by
  apply mirrors_bind mirrors_peek
  intro found
  rw [Token.kind_relocate]
  split
  · exact mirrors_next
  · exact mirrors_fail d

private theorem mirrors_expect (kind : TokenKind) :
    Mirrors φ (Token.relocate φ) (expect kind) (expect kind) :=
  mirrors_bind mirrors_peek fun _ => mirrors_expectOr kind _

private theorem mirrors_expectDetailed (kind : TokenKind) (message : String) :
    Mirrors φ (Token.relocate φ) (expectDetailed kind message)
      (expectDetailed kind message) :=
  mirrors_bind mirrors_peek fun _ => mirrors_expectOr kind _

end Parsers

/-! ## Rules -/

/-- A token has the same constant at every position, or is refused at the new one. -/
theorem Token.constant?_relocate (t : Token) :
    (t.relocate φ).constant? =
      t.constant?.map fun value? => value?.mapError (Diagnostic.relocate φ) := by
  unfold constant?
  rw [kind_relocate, text_relocate]
  split
  · cases Decimal.read? t.text <;> rfl
  all_goals rfl

/-- A token makes the relocated expression, or is refused at its new position. -/
theorem Token.leaf_relocate (t : Token) :
    (t.relocate φ).leaf =
      (t.leaf.map (Expr.relocate φ)).mapError (Diagnostic.relocate φ) := by
  unfold leaf
  rw [constant?_relocate, kind_relocate]
  cases t.constant? with
  | some value? => cases value? <;> rfl
  | none =>
      simp only [Option.map_none]
      split <;> rfl

private theorem Expr.assigned?_relocate (value left : Expr) :
    Expr.assigned? (value.relocate φ) (left.relocate φ) =
      (Expr.assigned? value left).map (Expr.relocate φ) := by
  cases left <;> rfl

section Rules

variable {operand : BindingPower → ParseM Expr}
  (hoperand : ∀ power, Mirrors φ (Expr.relocate φ) (operand power) (operand power))

include hoperand

/-- Rules of prefixes relocate if their operands do. -/
theorem PrefixRule.run_mirrors (rule : PrefixRule) :
    Mirrors φ (Expr.relocate φ) (rule.run operand) (rule.run operand) := by
  cases rule with
  | primary =>
      apply mirrors_bind mirrors_next
      intro t
      rw [Token.leaf_relocate]
      exact mirrors_ofExcept t.leaf
  | this =>
      apply mirrors_bind (mirrors_expect .kwThis)
      intro keyword
      exact mirrors_pure (Expr.this keyword)
  | super =>
      apply mirrors_bind (mirrors_expect .kwSuper)
      intro keyword
      apply mirrors_bind (mirrors_expectDetailed .dot _)
      intro dot
      apply mirrors_bind (mirrors_expectDetailed .identifier _)
      intro method
      exact mirrors_pure (Expr.super keyword method)
  | operator =>
      apply mirrors_bind mirrors_next
      intro operator
      apply mirrors_bind (hoperand .unary)
      intro right
      exact mirrors_pure (Expr.unary operator right)
  | group =>
      apply mirrors_bind mirrors_next
      intro opening
      apply mirrors_bind (hoperand .default)
      intro inner
      apply mirrors_bind (mirrors_expectDetailed .closeParen _)
      intro closing
      exact mirrors_pure (Expr.group inner)

/-- Arguments relocate if expressions do. -/
theorem parseArguments_mirrors (turns : Nat) :
    Mirrors φ (Expr.relocateAll φ) (parseArguments operand turns)
      (parseArguments operand turns) := by
  induction turns with
  | zero => exact mirrors_exhausted
  | succ turns ih =>
      apply mirrors_bind (hoperand .default)
      intro first
      apply mirrors_bind mirrors_peek
      intro t
      rw [Token.kind_relocate]
      split
      · apply mirrors_bind mirrors_next
        intro comma
        apply mirrors_bind ih
        intro others
        exact mirrors_pure (first :: others)
      · exact mirrors_pure [first]

/-- Rules of operators relocate if their operands do. -/
theorem InfixRule.run_mirrors (turns : Nat) (left : Expr) (power : BindingPower)
    (rule : InfixRule) :
    Mirrors φ (Expr.relocate φ) (rule.run operand turns left power)
      (rule.run operand turns (left.relocate φ) power) := by
  cases rule with
  | binary =>
      apply mirrors_bind mirrors_next
      intro operator
      apply mirrors_bind (hoperand power)
      intro right
      exact mirrors_pure (Expr.binary left operator right)
  | logical =>
      apply mirrors_bind mirrors_next
      intro operator
      apply mirrors_bind (hoperand power)
      intro right
      exact mirrors_pure (Expr.logical left operator right)
  | assignment =>
      apply mirrors_bind mirrors_next
      intro equals
      apply mirrors_bind (hoperand .default)
      intro value
      rw [Expr.assigned?_relocate]
      cases Expr.assigned? value left with
      | some e => exact mirrors_pure e
      | none => exact mirrors_fail ⟨.invalidAssignmentTarget, equals.start⟩
  | call =>
      have hclose (arguments : List Expr) (message : String) :
          Mirrors φ (Expr.relocate φ)
            (expectDetailed .closeParen message >>= fun paren =>
              pure (.call left paren arguments))
            (expectDetailed .closeParen message >>= fun paren =>
              pure (.call (left.relocate φ) paren (Expr.relocateAll φ arguments))) :=
        mirrors_bind (mirrors_expectDetailed .closeParen message) fun paren =>
          mirrors_pure (Expr.call left paren arguments)
      apply mirrors_bind mirrors_next
      intro opening
      apply mirrors_bind mirrors_peek
      intro t
      rw [Token.kind_relocate]
      split
      · exact hclose [] _
      · apply mirrors_bind (parseArguments_mirrors hoperand turns)
        exact fun arguments => hclose arguments _
  | get =>
      apply mirrors_bind mirrors_next
      intro dot
      apply mirrors_bind (mirrors_expectDetailed .identifier _)
      intro name
      exact mirrors_pure (Expr.get left name)

/-- The loop over operators relocates if operands do. -/
theorem extend_mirrors (g : Grammar) (turns : Nat) (power : BindingPower) (count : Nat)
    (left : Expr) :
    Mirrors φ (Expr.relocate φ) (extend g operand turns power count left)
      (extend g operand turns power count (left.relocate φ)) := by
  induction count generalizing left with
  | zero => exact mirrors_exhausted
  | succ count ih =>
      apply mirrors_bind mirrors_peek
      intro t
      rw [Token.kind_relocate]
      split
      · cases g.infixRule? t.kind with
        | none => exact mirrors_fail ⟨.unexpectedToken t.text, t.start⟩
        | some rule =>
            apply mirrors_bind (rule.run_mirrors hoperand turns left _)
            exact ih
      · exact mirrors_pure left

end Rules

/-- Parsers of expressions relocate. -/
theorem parseExpr_mirrors (g : Grammar) (depth : Nat) (power : BindingPower) :
    Mirrors φ (Expr.relocate φ) (parseExpr g depth power) (parseExpr g depth power) := by
  induction depth generalizing power with
  | zero => exact mirrors_exhausted
  | succ depth ih =>
      apply mirrors_bind mirrors_peek
      intro t
      rw [Token.kind_relocate]
      cases g.prefixRule? t.kind with
      | none => exact mirrors_fail t.expectedExpression
      | some rule =>
          apply mirrors_bind (rule.run_mirrors ih)
          intro left
          exact extend_mirrors ih g depth power depth left

/-- The parser of whole lists relocates. -/
theorem parseWhole_mirrors (depth : Nat) :
    Mirrors φ (Expr.relocate φ) (parseWhole depth) (parseWhole depth) := by
  apply mirrors_bind (parseExpr_mirrors .standard depth .default)
  intro e
  apply mirrors_bind (mirrors_expectDetailed .eof _)
  intro eof
  exact mirrors_pure e

/-! ## Whole lists of tokens -/

/-- A result with all of it relocated. -/
def relocateResult {α : Type} (φ : Position → Position) (move : α → α)
    (r : Except Diagnostic α) : Except Diagnostic α :=
  (r.map move).mapError (Diagnostic.relocate φ)

/-- Relocated tokens are parsed with the relocated result. -/
theorem parse_map_relocate {tokens : List Token} (hne : tokens ≠ []) :
    parse (tokens.map (Token.relocate φ)) =
      relocateResult φ (Expr.relocate φ) (parse tokens) := by
  have hsize : ((TokenStream.ofTokens tokens).relocate φ).tokens.size =
      (TokenStream.ofTokens tokens).tokens.size := Array.size_map
  simp only [parse, TokenStream.ofTokens_relocate hne, hsize]
  have hstream := TokenStream.tokens_ofTokens_ne_empty tokens
  generalize TokenStream.ofTokens tokens = stream at hstream ⊢
  have hmoves : Moves φ (Expr.relocate φ) (parseWhole stream.tokens.size stream)
      (parseWhole stream.tokens.size (stream.relocate φ)) :=
    parseWhole_mirrors _ _ hstream
  generalize parseWhole _ stream = r at hmoves
  generalize parseWhole _ (stream.relocate φ) = r' at hmoves
  rcases hmoves with @⟨e, s, hs⟩ | @⟨d | -, s, hs⟩
  · rfl
  · rfl
  · -- The token that the parser stopped at is one of the stream.
    exact congrArg (fun t : Token => Except.error t.expectedExpression)
      (TokenStream.current_relocate hs)

/-- Relocated tokens are parsed as the relocated tree, or rejected with the
relocated diagnostic, by any relocation of positions.  A relocated tree is printed
as before, covers and names what is relocated, and has the value that it had
before, or the relocated fault. -/
theorem parse_relocate {tokens : List Token} (hne : tokens ≠ [])
    (φ : Position → Position) :
    parse (tokens.map (Token.relocate φ)) =
        ((parse tokens).map (Expr.relocate φ)).mapError (Diagnostic.relocate φ) ∧
      ∀ e : Expr, (e.relocate φ).printed = e.printed ∧
        (e.relocate φ).span = e.span.relocate φ ∧
        (e.relocate φ).names = e.names.relocate φ ∧
        (e.relocate φ).eval = e.eval.mapError (Diagnostic.relocate φ) := by
  refine ⟨parse_map_relocate hne, ?_⟩
  intro e
  exact ⟨e.printed_relocate, e.span_relocate, e.names_relocate, e.eval_relocate⟩

/-- The case of `-a`, of tokens that are placed in a file afterwards. -/
theorem parse_relocate_negation :
    ∃ (dash a : Token) (φ : Position → Position), [dash, a] ≠ [] ∧
      parse [dash.relocate φ, a.relocate φ] =
        .ok (.unary (dash.relocate φ) (.var (a.relocate φ))) ∧
      (Expr.unary (dash.relocate φ) (.var (a.relocate φ))).eval =
        .error ⟨.notConstant "variable `a`", ⟨0, "shell"⟩⟩ := by
  have hne : [Token.synthetic .dash "-", .synthetic .identifier "a"] ≠ [] :=
    List.cons_ne_nil _ _
  have hparse : parse [.synthetic .dash "-", .synthetic .identifier "a"] =
      .ok (.unary (.synthetic .dash "-") (.var (.synthetic .identifier "a"))) :=
    rfl
  rcases parse_relocate hne fun p => ⟨p.offset, "shell"⟩ with ⟨hmoved, hmeaning⟩
  rcases hmeaning (.unary (.synthetic .dash "-") (.var (.synthetic .identifier "a")))
    with ⟨-, -, -, heval⟩
  rw [hparse] at hmoved
  exact ⟨_, _, _, hne, hmoved, heval⟩

end ExprLang
