import ExprLang.Proofs.Scanning.FirstRule
import ExprLang.Scanner.Tokenize

/-!
# Pieces of a source

A source that is tokenized is cut into pieces, each with the rule that finds it:
those that become tokens and those that separate them.  The cursor, the spans
and the tokens of a scanner are sums over the pieces behind it, so a whole run
is told by the pieces and by where they end.

Main results:

- Theorem `tokenize_eq_ok_iff`: a source has tokens exactly if it is cut into
  pieces, and then they are the tokens of the pieces.
- Theorem `tokenize_eq_error_iff`: a source has a fault exactly if it is cut into
  pieces up to a place where no piece can be taken, and it is reported there.
-/

namespace ExprLang

open Lexeme Text

/-! ## Pieces -/

/-- A lexeme with the rule that finds it. -/
structure Piece where
  rule : Rule
  lexeme : List Char
  shapes : rule.Shapes lexeme
  /-- A quote that opens no literal is a fault. -/
  closed : rule ≠ .openQuote

/-- The kind and the text of the token that a rule makes of a lexeme, if it makes
one. -/
def Rule.content? : Rule → List Char → Option (TokenKind × String)
  | word, lexeme => some (.ofWord (String.ofList lexeme), String.ofList lexeme)
  | number, lexeme => some (.number, String.ofList lexeme)
  | stringLiteral, lexeme =>
      some (.string, String.ofList (unescape (contents lexeme)))
  | fixed kind text, _ => some (kind, text)
  | blank, _ | openQuote, _ | comment, _ => none

namespace Piece

/-- The piece that blanks are. -/
def ofBlanks (w : List Char) (h : IsBlanks w) : Piece :=
  ⟨.blank, w, h, by decide⟩

/-- The text that pieces cover one after another. -/
def textOf (ps : List Piece) : List Char :=
  ps.flatMap lexeme

@[simp]
theorem textOf_nil : textOf [] = [] :=
  rfl

@[simp]
theorem textOf_cons (p : Piece) (ps : List Piece) :
    textOf (p :: ps) = p.lexeme ++ textOf ps :=
  rfl

/-- The tokens of a piece at an offset: one, or none if it separates tokens. -/
def tokens (file : String) (offset : Nat) (p : Piece) : List Token :=
  (p.rule.content? p.lexeme).toList.map fun content =>
    ⟨content.1, content.2,
      ⟨.ofByte file offset, .ofByte file (offset + byteLength p.lexeme)⟩⟩

/-- The tokens of pieces from an offset on. -/
def tokensOf (file : String) : Nat → List Piece → List Token
  | _, [] => []
  | offset, p :: ps =>
      p.tokens file offset ++ tokensOf file (offset + byteLength p.lexeme) ps

/-- Pieces are cut before a text if each of them ends before what follows it. -/
def CutBefore : List Piece → List Char → Prop
  | [], _ => True
  | p :: ps, rest =>
      p.rule.EndsBefore p.lexeme (textOf ps ++ rest) ∧ CutBefore ps rest

section Tokens

variable {p : Piece} {ps : List Piece} {file : String} {offset : Nat} {t : Token}

/-- The token of a piece has the content of its lexeme and covers it. -/
theorem mem_tokens_iff :
    t ∈ p.tokens file offset ↔
      p.rule.content? p.lexeme = some (t.kind, t.text) ∧
        t.span = ⟨.ofByte file offset, .ofByte file (offset + byteLength p.lexeme)⟩ := by
  unfold tokens
  cases p.rule.content? p.lexeme with
  | none => simp
  | some content =>
      obtain ⟨kind, text⟩ := content
      obtain ⟨kind', text', span⟩ := t
      simp [eq_comm, and_assoc]

/-- A token of pieces is that of one of them, at its place. -/
theorem exists_of_mem_tokensOf (h : t ∈ tokensOf file offset ps) :
    ∃ before p after, ps = before ++ p :: after ∧
      t ∈ p.tokens file (offset + byteLength (textOf before)) := by
  induction ps generalizing offset with
  | nil => simp [tokensOf] at h
  | cons p ps ih =>
      rw [tokensOf, List.mem_append] at h
      rcases h with h | h
      · exact ⟨[], p, ps, rfl, h⟩
      · obtain ⟨before, q, after, rfl, hq⟩ := ih h
        refine ⟨p :: before, q, after, rfl, ?_⟩
        rwa [textOf_cons, byteLength_append, ← Nat.add_assoc]

end Tokens

end Piece

open Piece

/-- A place where no piece can be taken, with the fault that it is. -/
inductive FaultAt : List Char → Fault → Prop where
  | unrecognised {c : Char} {cs : List Char}
      (h : ∀ rule ∈ Rule.all, rule.starts c = false) :
      FaultAt (c :: cs) (.unrecognisedToken (String.singleton c))
  | unterminated {cs : List Char} (h : Unclosed cs) :
      FaultAt ('"' :: cs) .unterminatedString

/-- A text is cut into pieces up to its end or up to a fault. -/
theorem exists_pieces (cs : List Char) :
    ∃ ps rest, cs = textOf ps ++ rest ∧ CutBefore ps rest ∧
      (rest = [] ∨ ∃ fault, FaultAt rest fault) := by
  induction hlength : cs.length using Nat.strongRecOn generalizing cs with
  | _ n ih =>
      cases hfirst : Rule.first? cs with
      | none =>
          refine ⟨[], cs, rfl, trivial, ?_⟩
          cases cs with
          | nil => exact .inl rfl
          | cons c cs =>
              exact .inr ⟨_, .unrecognised (Rule.first?_cons_eq_none_iff.1 hfirst)⟩
      | some found =>
          obtain ⟨rule, lexeme⟩ := found
          obtain ⟨tail, rfl, hshape, hend⟩ := Rule.first?_eq_some_iff.1 hfirst
          by_cases hquote : rule = .openQuote
          · subst hquote
            obtain rfl := hshape
            exact ⟨[], _, rfl, trivial, .inr ⟨_, .unterminated hend⟩⟩
          · have hlt : tail.length < n := by
              have := List.length_pos_iff.2 hshape.ne_nil
              simp only [List.length_append] at hlength
              omega
            obtain ⟨ps, rest, rfl, hcut, hrest⟩ := ih _ hlt tail rfl
            refine ⟨⟨rule, lexeme, hshape, hquote⟩ :: ps, rest, ?_, ⟨hend, hcut⟩, hrest⟩
            rw [textOf_cons, List.append_assoc]

/-! ## Running over pieces -/

namespace Scanner

variable {s next : Scanner} {p : Piece} {ps : List Piece} {rest rest' : List Char}
  {d : Diagnostic} {fault : Fault}

/-- The scanner behind a piece. -/
def take (s : Scanner) (p : Piece) : Scanner :=
  match p.rule.content? p.lexeme with
  | none => s.advance (byteLength p.lexeme)
  | some (kind, text) => s.emit kind text (byteLength p.lexeme)

/-- The scanner behind pieces one after another. -/
def takeAll (s : Scanner) (ps : List Piece) : Scanner :=
  ps.foldl take s

@[simp]
theorem file_take : (s.take p).file = s.file := by
  unfold take
  split <;> rfl

@[simp]
theorem cursor_take : (s.take p).cursor = s.cursor + byteLength p.lexeme := by
  unfold take
  split <;> rfl

/-- Taking a piece adds its tokens. -/
theorem tokens_take :
    (s.take p).tokens.toList = s.tokens.toList ++ p.tokens s.file s.cursor := by
  unfold take Piece.tokens
  split
  · rename_i hcontent
    simp [hcontent, advance]
  · rename_i hcontent
    simp [hcontent, spanOf, position]

@[simp]
theorem file_takeAll : (s.takeAll ps).file = s.file := by
  induction ps generalizing s with
  | nil => rfl
  | cons p ps ih => exact ih.trans file_take

/-- Taking pieces moves the cursor behind their text. -/
@[simp]
theorem cursor_takeAll : (s.takeAll ps).cursor = s.cursor + byteLength (textOf ps) := by
  induction ps generalizing s with
  | nil => rfl
  | cons p ps ih =>
      refine ih.trans ?_
      rw [cursor_take, textOf_cons, byteLength_append, Nat.add_assoc]

/-- The tokens found behind pieces are theirs. -/
theorem tokens_takeAll :
    (s.takeAll ps).tokens.toList = s.tokens.toList ++ tokensOf s.file s.cursor ps := by
  induction ps generalizing s with
  | nil => simp [takeAll, tokensOf]
  | cons p ps ih =>
      refine ih.trans ?_
      rw [tokens_take, file_take, cursor_take, List.append_assoc, tokensOf]

/-- A rule that is no fault moves the scanner behind its lexeme. -/
theorem apply_piece (s : Scanner) (p : Piece) :
    p.rule.apply p.lexeme s = .ok (s.take p) := by
  obtain ⟨rule, lexeme, hshape, hclosed⟩ := p
  cases rule with
  | openQuote => exact absurd rfl hclosed
  | fixed kind text =>
      obtain ⟨-, rfl⟩ := hshape
      rfl
  | _ => rfl

/-- A step takes the piece at the cursor. -/
theorem step_piece (hend : p.rule.EndsBefore p.lexeme rest) :
    s.step (p.lexeme ++ rest) = .ok (s.take p, rest) := by
  have hfirst := Rule.first?_eq_some_iff.2 ⟨rest, rfl, p.shapes, hend⟩
  simp only [step, hfirst, apply_piece, Except.map, List.drop_left]

/-- A step fails at a fault. -/
theorem step_fault (h : FaultAt rest fault) :
    s.step rest = .error ⟨fault, s.position⟩ := by
  cases h with
  | unrecognised h =>
      simp only [step, Rule.first?_cons_eq_none_iff.2 h]
      rfl
  | @unterminated cs h =>
      have hfirst : Rule.first? ('"' :: cs) = some (.openQuote, ['"']) :=
        Rule.first?_eq_some_iff.2 ⟨cs, rfl, rfl, h⟩
      simp only [step, hfirst]
      rfl

/-- There is nothing to do at the end. -/
theorem run_nil : s.run [] = .ok s := by
  rw [run, if_pos rfl]

/-- A run goes on behind a step. -/
theorem run_of_step (hne : rest ≠ []) (h : s.step rest = .ok (next, rest')) :
    s.run rest = next.run rest' := by
  rw [run, if_neg hne]
  split <;> simp_all

/-- A run fails with its step. -/
theorem run_of_step_error (hne : rest ≠ []) (h : s.step rest = .error d) :
    s.run rest = .error d := by
  rw [run, if_neg hne]
  split <;> simp_all

/-- The scanner runs over pieces that are cut before what follows them. -/
theorem run_textOf (h : CutBefore ps rest) :
    s.run (textOf ps ++ rest) = (s.takeAll ps).run rest := by
  induction ps generalizing s with
  | nil => rfl
  | cons p ps ih =>
      have hne : p.lexeme ++ (textOf ps ++ rest) ≠ [] := by
        simp [p.shapes.ne_nil]
      rw [textOf_cons, List.append_assoc, run_of_step hne (step_piece h.1), ih h.2]
      rfl

/-- The scanner stops at a fault. -/
theorem run_fault (h : FaultAt rest fault) :
    s.run rest = .error ⟨fault, s.position⟩ := by
  refine run_of_step_error ?_ (step_fault h)
  rintro rfl
  cases h

end Scanner

/-! ## Whole sources -/

section Tokenize

variable {source file : String} {ps : List Piece} {rest : List Char} {fault : Fault}
  {ts : List Token} {d : Diagnostic}

/-- The end of the input, behind the last byte of a source. -/
def endOf (source file : String) : Token :=
  .endOfInput (.empty (.ofByte file source.utf8ByteSize))

/-- A source that is cut into pieces has the tokens of the pieces and the end. -/
theorem tokenize_of_pieces (hsource : source.toList = textOf ps)
    (hcut : CutBefore ps []) :
    tokenize source file = .ok (tokensOf file 0 ps ++ [endOf source file]) := by
  have hrun := Scanner.run_textOf (s := .ofSource source file) hcut
  rw [List.append_nil, ← hsource, Scanner.run_nil] at hrun
  have hcursor : (Scanner.ofSource source file).cursor + byteLength (textOf ps) =
      source.utf8ByteSize := by
    rw [← hsource, byteLength_toList]
    exact Nat.zero_add _
  have hfinish : ((Scanner.ofSource source file).takeAll ps).finish.tokens.toList =
      tokensOf file 0 ps ++ [endOf source file] := by
    simp only [Scanner.finish, Scanner.push, Array.toList_push, Scanner.tokens_takeAll,
      Scanner.spanOf, Scanner.position, Scanner.cursor_takeAll, hcursor,
      Scanner.file_takeAll]
    rfl
  simp only [tokenize]
  rw [show (Scanner.ofSource source file).source = source.toList from rfl, hrun]
  exact congrArg Except.ok hfinish

/-- A source with a fault behind pieces is refused there. -/
theorem tokenize_of_fault (hsource : source.toList = textOf ps ++ rest)
    (hcut : CutBefore ps rest) (hfault : FaultAt rest fault) :
    tokenize source file = .error ⟨fault, .ofByte file (byteLength (textOf ps))⟩ := by
  have hrun := Scanner.run_textOf (s := .ofSource source file) hcut
  rw [Scanner.run_fault hfault, ← hsource] at hrun
  simp only [tokenize]
  rw [show (Scanner.ofSource source file).source = source.toList from rfl, hrun]
  simp [Except.map, Scanner.position, Scanner.ofSource]

/-- A source has tokens exactly if it is cut into pieces, and they are the tokens
of the pieces and the end of the input. -/
theorem tokenize_eq_ok_iff :
    tokenize source file = .ok ts ↔
      ∃ ps, source.toList = textOf ps ∧ CutBefore ps [] ∧
        ts = tokensOf file 0 ps ++ [endOf source file] := by
  constructor
  · intro h
    obtain ⟨ps, rest, hsource, hcut, rfl | ⟨fault, hfault⟩⟩ := exists_pieces source.toList
    · rw [List.append_nil] at hsource
      rw [tokenize_of_pieces hsource hcut] at h
      exact ⟨ps, hsource, hcut, (Except.ok.inj h).symm⟩
    · rw [tokenize_of_fault hsource hcut hfault] at h
      cases h
  · rintro ⟨ps, hsource, hcut, rfl⟩
    exact tokenize_of_pieces hsource hcut

/-- A source has a fault exactly if it is cut into pieces up to one, which is
reported where the pieces end. -/
theorem tokenize_eq_error_iff :
    tokenize source file = .error d ↔
      ∃ ps rest fault, source.toList = textOf ps ++ rest ∧ CutBefore ps rest ∧
        FaultAt rest fault ∧ d = ⟨fault, .ofByte file (byteLength (textOf ps))⟩ := by
  constructor
  · intro h
    obtain ⟨ps, rest, hsource, hcut, rfl | ⟨fault, hfault⟩⟩ := exists_pieces source.toList
    · rw [List.append_nil] at hsource
      rw [tokenize_of_pieces hsource hcut] at h
      cases h
    · rw [tokenize_of_fault hsource hcut hfault] at h
      exact ⟨ps, rest, fault, hsource, hcut, hfault, (Except.error.inj h).symm⟩
  · rintro ⟨ps, rest, fault, hsource, hcut, hfault, rfl⟩
    exact tokenize_of_fault hsource hcut hfault

end Tokenize

end ExprLang
