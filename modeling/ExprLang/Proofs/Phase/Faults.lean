import ExprLang.Proofs.Decimal.Notation
import ExprLang.Proofs.Evaluation.Fault
import ExprLang.Proofs.Running.Invariant
import ExprLang.Proofs.Scanning.Content
import ExprLang.Proofs.Spelling.Soundness

/-!
# Faults of the phases

A source is scanned, its tokens are parsed, and the expression is evaluated.  Each
of these phases has faults of its own: scanning knows nothing of expressions,
parsing leaves no token for evaluation to refuse, and what is scanned as a number
can be read as one.

Main results:

- Theorem `readable_of_tokenize`: the numbers of a source can be read.
- Theorem `fault_of_phase`: the faults that the phases end with.
-/

namespace ExprLang

open Lexeme Piece

/-! ## Numbers -/

/-- If a token is one of a number, its text can be read as one. -/
def Token.Readable (t : Token) : Prop :=
  t.kind = .number → ∃ x, Decimal.read? t.text = some x

private theorem Token.readable_endOfInput (span : Span) : (endOfInput span).Readable := by
  rintro ⟨⟩

/-- The numbers of a source can be read. -/
theorem readable_of_tokenize {source file : String} {ts : List Token}
    (h : tokenize source file = .ok ts) : ∀ t ∈ ts, t.Readable := by
  rcases tokenize_eq_ok_iff.1 h with ⟨ps, -, -, rfl⟩
  intro t ht hkind
  rcases List.mem_append.1 ht with ht | ht
  · have htext := hasText_of_mem_tokensOf ht (by simp [hkind])
    rw [hkind] at htext
    cases htext with
    | fixed hfixed => cases hfixed
    | number hnumber => exact ⟨_, Decimal.read?_of_isNumber hnumber⟩
  · obtain rfl := List.mem_singleton.1 ht
    cases hkind

/-! ## Classes of faults -/

/-- The faults of scanning. -/
inductive Fault.OfScanning : Fault → Prop where
  | unrecognisedToken (token : String) : OfScanning (.unrecognisedToken token)
  | unterminatedString : OfScanning .unterminatedString

/-- The faults of parsing what was scanned. -/
inductive Fault.OfParsing : Fault → Prop where
  | expectedExpression (token : String) : OfParsing (.expectedExpression token)
  | unexpectedTokenDetailed (token message : String) :
      OfParsing (.unexpectedTokenDetailed token message)
  | invalidAssignmentTarget : OfParsing .invalidAssignmentTarget

/-! ## Parsing -/

namespace TokenStream

/-- The numbers of a stream can be read. -/
def Readable (s : TokenStream) : Prop :=
  ∀ t ∈ s.tokens, t.Readable

private theorem Readable.current {s : TokenStream} (h : s.Readable) : s.current.Readable := by
  unfold TokenStream.current
  cases hget : s.tokens[min s.cursor (s.tokens.size - 1)]? with
  | none => exact Token.readable_endOfInput .null
  | some t => exact h t (Array.mem_of_getElem? hget)

/-- Only an end of the input is added to a list. -/
theorem mem_complete {tokens : List Token} {t : Token} (h : t ∈ complete tokens) :
    t ∈ tokens ∨ ∃ span, t = .endOfInput span := by
  unfold complete at h
  split at h
  · exact .inr ⟨_, List.mem_singleton.1 h⟩
  · split at h
    · exact .inl h
    · rcases List.mem_append.1 h with h | h
      · exact .inl h
      · exact .inr ⟨_, List.mem_singleton.1 h⟩

private theorem readable_ofTokens {tokens : List Token} (h : ∀ t ∈ tokens, t.Readable) :
    (ofTokens tokens).Readable := by
  intro t ht
  rcases mem_complete (List.mem_toArray.1 ht) with ht | ⟨span, rfl⟩
  · exact h t ht
  · exact Token.readable_endOfInput span

end TokenStream

/-- A token that denotes a constant or names a variable is one, if the numbers can
be read. -/
theorem Token.Readable.leaf {t : Token} (h : t.Readable) {d : Diagnostic}
    (hleaf : t.leaf = .error d) : d = t.expectedExpression := by
  unfold Token.leaf at hleaf
  split at hleaf
  · rename_i value? hconstant
    unfold Token.constant? at hconstant
    split at hconstant
    · rename_i hkind
      rcases h hkind with ⟨x, hx⟩
      rw [hx] at hconstant
      cases hconstant
      cases hleaf
    -- Constants other than numbers are never refused.
    all_goals cases hconstant <;> cases hleaf
  · split at hleaf
    · cases hleaf
    · exact (Except.error.inj hleaf).symm

/-- By the rules of the language only faults of parsing are met in readable
streams. -/
theorem Grammar.admits_standard :
    standard.Admits TokenStream.Readable fun d => d.fault.OfParsing where
  advance s hs := by
    rwa [TokenStream.Readable, TokenStream.tokens_advance]
  expected t := .expectedExpression t.text
  detailed t message := .unexpectedTokenDetailed t.text message
  target _ := .invalidAssignmentTarget
  start s rule hs hrule := by
    cases rule with
    | primary =>
        intro d hd
        rw [hs.current.leaf hd]
        exact .expectedExpression _
    | this => exact fun hne => absurd (prefixRule?_eq_this_iff.1 hrule) hne
    | super => exact fun hne => absurd (prefixRule?_eq_super_iff.1 hrule) hne
    | operator | group => exact trivial
  unruled t power hlt hnone := by
    rcases exists_infixRule_of_lt hlt with ⟨rule, hrule⟩
    rw [hrule] at hnone
    cases hnone

/-! ## The phases -/

/-- Each phase ends with faults of its own: scanning a source, parsing the tokens
of one, where every number can be read, and evaluating what any tokens are parsed
as. -/
theorem fault_of_phase :
    (∀ source file d, tokenize source file = .error d → d.fault.OfScanning) ∧
      (∀ source file tokens, tokenize source file = .ok tokens →
        (∀ t ∈ tokens, t.kind = .number → ∃ x, Decimal.read? t.text = some x) ∧
          ∀ d, parse tokens = .error d → d.fault.OfParsing) ∧
      ∀ tokens e d, parse tokens = .ok e → e.eval = .error d →
        d.fault.OfEvaluation := by
  refine ⟨?_, ?_, ?_⟩
  · intro source file d h
    rcases tokenize_eq_error_iff.1 h with ⟨ps, rest, fault, -, -, hfault, rfl⟩
    cases hfault with
    | unrecognised => exact .unrecognisedToken _
    | unterminated => exact .unterminatedString
  · intro source file tokens h
    have hreadable := readable_of_tokenize h
    refine ⟨hreadable, ?_⟩
    intro d hd
    exact parse_error_allowed Grammar.admits_standard
      (TokenStream.readable_ofTokens hreadable) hd
  · intro tokens e d hparse heval
    rcases Expr.exists_culprit heval with ⟨C, n, t, rfl, -, hblamed⟩
    exact hblamed.of_evaluation (Context.form_of_plug (form_of_parse hparse))

/-- The cases of a character without meaning, of a value that is missing, and of a
string that is negated. -/
theorem fault_of_phase_at_hash_and_dash :
    ∃ d tokens d' e d'', tokenize "#" "shell" = .error d ∧ d.fault.OfScanning ∧
      tokenize "1=" "shell" = .ok tokens ∧ parse tokens = .error d' ∧
      d'.fault.OfParsing ∧
      parse [.synthetic .dash "-", .synthetic .string "a"] = .ok e ∧
      e.eval = .error d'' ∧ d''.fault.OfEvaluation := by
  have hsource : "#".toList = textOf [] ++ ['#'] := rfl
  have hhash : tokenize "#" "shell" =
      .error ⟨.unrecognisedToken "#", .ofByte "shell" 0⟩ :=
    tokenize_of_fault hsource trivial (.unrecognised (by decide))
  have hcut : CutBefore
      [⟨.number, ['1'], .whole ⟨by decide, by simp⟩, by decide⟩,
        ⟨.fixed .assignment "=", ['='], ⟨by decide, rfl⟩, by decide⟩] [] := by
    refine ⟨⟨endsRun_cons.2 (by decide), .inr ?_⟩, by simp [Rule.EndsBefore, Rule.longer?],
      trivial⟩
    rintro ⟨c, rest, h, -⟩
    cases h
  have hequals : tokenize "1=" "shell" =
      .ok [⟨.number, "1", ⟨.ofByte "shell" 0, .ofByte "shell" 1⟩⟩,
        ⟨.assignment, "=", ⟨.ofByte "shell" 1, .ofByte "shell" 2⟩⟩,
        ⟨.eof, "EOF", ⟨.ofByte "shell" 2, .ofByte "shell" 2⟩⟩] :=
    tokenize_of_pieces rfl hcut
  have hvalue : parse [⟨.number, "1", ⟨.ofByte "shell" 0, .ofByte "shell" 1⟩⟩,
        ⟨.assignment, "=", ⟨.ofByte "shell" 1, .ofByte "shell" 2⟩⟩,
        ⟨.eof, "EOF", ⟨.ofByte "shell" 2, .ofByte "shell" 2⟩⟩] =
      .error ⟨.expectedExpression "EOF", .ofByte "shell" 2⟩ :=
    rfl
  have hdash : parse [.synthetic .dash "-", .synthetic .string "a"] =
      .ok (.unary (.synthetic .dash "-") (.literal (.string "a") .null)) :=
    rfl
  have hstring : (Expr.unary (.synthetic .dash "-") (.literal (.string "a") .null)).eval =
      .error ((Token.synthetic .dash "-").operandFault "a number") :=
    rfl
  exact ⟨_, _, _, _, _, hhash, fault_of_phase.1 _ _ _ hhash, hequals, hvalue,
    (fault_of_phase.2.1 _ _ _ hequals).2 _ hvalue, hdash, hstring,
    fault_of_phase.2.2 _ _ _ hdash hstring⟩

end ExprLang
