import ExprLang.Diagnostic.Report
import ExprLang.Proofs.Relocation.Parsing
import ExprLang.Proofs.Scanning.Piece

/-!
# A source under another name

The name of a source is carried in every position of its tokens, of its tree and of
its diagnostics, and nowhere else.  So a source under another name is scanned and
parsed with the same result, in which all positions are of the other file.

Main results:

- Theorem `tokenize_inFile`: scanning under another name.
- Theorem `parseSource_inFile`: parsing under another name.
-/

namespace ExprLang

open Piece

/-- The same offset, in a file of another name. -/
def Position.inFile (file : String) (p : Position) : Position :=
  ⟨p.offset, file⟩

/-! ## Scanning -/

section Scanning

variable (source file name : String)

private theorem tokens_inFile (p : Piece) (offset : Nat) :
    p.tokens name offset =
      (p.tokens file offset).map (Token.relocate (Position.inFile name)) := by
  simp only [Piece.tokens, List.map_map]
  rfl

/-- The tokens of pieces carry the name of the source in their positions only. -/
theorem tokensOf_inFile (ps : List Piece) (offset : Nat) :
    tokensOf name offset ps =
      (tokensOf file offset ps).map (Token.relocate (Position.inFile name)) := by
  induction ps generalizing offset with
  | nil => rfl
  | cons p ps ih =>
      rw [tokensOf, tokensOf, List.map_append, ← ih, ← tokens_inFile]

/-- The tokens of a source under another name, or its fault. -/
theorem tokenize_inFile :
    tokenize source name =
      relocateResult (.inFile name) (List.map (Token.relocate (.inFile name)))
        (tokenize source file) := by
  cases htokens : tokenize source file with
  | ok ts =>
      rcases tokenize_eq_ok_iff.1 htokens with ⟨ps, hsource, hcut, rfl⟩
      have htokens_name : tokensOf name 0 ps ++ [endOf source name] =
          (tokensOf file 0 ps ++ [endOf source file]).map
            (Token.relocate (.inFile name)) := by
        rw [List.map_append, ← tokensOf_inFile]
        rfl
      rw [tokenize_of_pieces hsource hcut, htokens_name]
      rfl
  | error d =>
      rcases tokenize_eq_error_iff.1 htokens with
        ⟨ps, rest, fault, hsource, hcut, hfault, rfl⟩
      exact tokenize_of_fault hsource hcut hfault

end Scanning

private theorem ne_nil_of_tokenize {source file : String} {ts : List Token}
    (h : tokenize source file = .ok ts) : ts ≠ [] := by
  rcases tokenize_eq_ok_iff.1 h with ⟨ps, -, -, rfl⟩
  simp

/-! ## Parsing -/

/-- A source under another name is parsed with the same result, in the other file. -/
theorem parseSource_inFile (source file name : String) :
    parseSource source name =
      relocateResult (.inFile name) (Expr.relocate (.inFile name))
        (parseSource source file) := by
  simp only [parseSource]
  rw [tokenize_inFile source file name]
  cases htokens : tokenize source file with
  | error d => rfl
  | ok ts => exact parse_map_relocate (ne_nil_of_tokenize htokens)

end ExprLang
