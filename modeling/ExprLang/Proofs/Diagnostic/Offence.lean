import ExprLang.Proofs.Evaluation.Fault
import ExprLang.Proofs.Phase.Basic
import ExprLang.Proofs.Rejection.Earliest
import ExprLang.Proofs.Scanning.Boundary
import ExprLang.Proofs.Spans.Nesting

/-!
# Where diagnostics stand

Faults of scanning stand at a character that starts no lexeme or at a quote, and the
faults of the other phases at tokens.  So a diagnostic of a source stands in front of
a character that is not blank, or at the end.

Main results:

- Theorem `exists_token_of_parse_eq_error`: a fault of parsing stands at a token.
- Theorem `Raises.isOffence`: where a diagnostic of a source stands.
-/

namespace ExprLang

open Text Piece TokenStream

variable {source file : String} {d : Diagnostic} {tokens : List Token} {t : Token}
  {e : Expr} {ps : List Piece}

/-- A place where something can be wrong with a text: in front of a character that
is not blank, or the end. -/
inductive IsOffence (source : List Char) : Nat → Prop where
  | character {front back : List Char} {c : Char} (hsource : source = front ++ c :: back)
      (hc : isBlank c = false) : IsOffence source (byteLength front)
  | ending : IsOffence source (byteLength source)

/-! ## Tokens -/

/-- Tokens of pieces start in front of characters that are not blank. -/
theorem isOffence_of_mem_tokensOf (hsize : byteLength (textOf ps) < UInt32.size)
    (h : t ∈ tokensOf file 0 ps) : IsOffence (textOf ps) t.start.offset.toNat := by
  rcases exists_of_mem_tokensOf h with ⟨before, p, after, rfl, hp⟩
  rcases mem_tokens_iff.1 hp with ⟨hcontent, hspan⟩
  have hrule : p.rule ≠ .blank := by
    intro hblank
    rw [hblank] at hcontent
    cases hcontent
  have hsource : textOf (before ++ p :: after) =
      textOf before ++ (p.lexeme ++ textOf after) := by
    simp [textOf]
  have hoffset : t.start.offset.toNat = byteLength (textOf before) := by
    rw [hsource, byteLength_append] at hsize
    rw [Token.start, hspan, Nat.zero_add]
    exact Position.toNat_offset_ofByte (by omega)
  have hend := endsRun_isBlank hrule (textOf after)
  rcases List.exists_cons_of_ne_nil p.shapes.ne_nil with ⟨c, cs, hlexeme⟩
  rw [hlexeme, List.cons_append] at hsource hend
  rw [hoffset]
  exact .character hsource (Lexeme.endsRun_cons.1 hend)

/-- So do the tokens of a source, up to the end of the input. -/
theorem isOffence_of_mem_tokenize (hsize : source.utf8ByteSize < UInt32.size)
    (htokens : tokenize source file = .ok tokens) (ht : t ∈ tokens) :
    IsOffence source.toList t.start.offset.toNat := by
  rcases tokenize_eq_ok_iff.1 htokens with ⟨ps, hsource, -, rfl⟩
  rcases List.mem_append.1 ht with ht | ht
  · rw [hsource]
    refine isOffence_of_mem_tokensOf ?_ ht
    rwa [← hsource, byteLength_toList]
  · obtain rfl := List.mem_singleton.1 ht
    have hoffset : (endOf source file).start.offset.toNat = byteLength source.toList := by
      rw [byteLength_toList]
      exact Position.toNat_offset_ofByte hsize
    rw [hoffset]
    exact .ending

/-- The tokens of a source are a complete stream. -/
theorem complete_of_tokenize (htokens : tokenize source file = .ok tokens) :
    complete tokens = tokens := by
  rcases tokenize_eq_ok_iff.1 htokens with ⟨ps, -, -, rfl⟩
  exact complete_concat _ rfl

/-- A fault of parsing stands at a token. -/
theorem exists_token_of_parse_eq_error (h : parse tokens = .error d) :
    ∃ t ∈ complete tokens, d.position = t.start := by
  have hfailsAt := Unbounded.whole_failsAt (hasEnd_complete tokens)
    (parse_eq_error_iff.1 h)
  generalize complete tokens = ts at hfailsAt ⊢
  cases hfailsAt with
  | @blamed us w t _ k hfails hblames hcompletes => exact ⟨t, by simp, hblames.1⟩
  | @target us t equals k hmem hkind hfails =>
      exact ⟨equals, List.mem_append_left _ hmem, rfl⟩

/-- The tokens that the parts of a node keep are among those that spell it. -/
theorem SpellParts.mem_of_token_mem {parts : List Part} {us : List Token}
    (h : SpellParts parts us) (ht : .token t ∈ parts) : t ∈ us := by
  induction h with
  | nil => cases ht
  | child _ _ ih =>
      refine List.mem_append_right _ (ih ?_)
      simpa using ht
  | token u _ ih =>
      rcases List.mem_cons.1 ht with heq | ht
      · cases heq
        exact List.mem_cons_self
      · exact List.mem_cons_of_mem _ (ih ht)
  | dropped u _ ih => exact List.mem_cons_of_mem _ (ih ht)

/-- A fault of evaluation stands at a token that the expression was parsed from. -/
theorem exists_token_of_eval_eq_error (hparse : parse tokens = .ok e)
    (h : e.eval = .error d) : ∃ t ∈ tokens, d.position = t.start := by
  rcases Expr.exists_culprit h with ⟨C, n, t, rfl, ht, hblamed⟩
  rcases Context.spells_plug_iff.1 (spells_of_parse hparse) with
    ⟨front, us, back, hbefore, -, hspells, -⟩
  have hmem : t ∈ beforeEnd tokens := by
    rw [hbefore]
    have hnode := hspells.spellParts.mem_of_token_mem ht
    exact List.mem_append_left _ (List.mem_append_right _ hnode)
  exact ⟨t, (List.takeWhile_prefix _).subset hmem, hblamed.position_eq⟩

/-! ## Diagnostics -/

/-- A diagnostic of a source stands in front of a character that is not blank, or at
the end. -/
theorem Raises.isOffence (hsize : source.utf8ByteSize < UInt32.size)
    (h : Raises source file d) : IsOffence source.toList d.position.offset.toNat := by
  rcases h with (h | ⟨htokens, h⟩) | ⟨⟨htokens, hparse⟩, h⟩
  · rcases tokenize_eq_error_iff.1 h with ⟨ps, rest, fault, hsource, -, hfault, rfl⟩
    have hlength : byteLength (textOf ps) < UInt32.size := by
      rw [← byteLength_toList, hsource, byteLength_append] at hsize
      omega
    rw [Position.toNat_offset_ofByte hlength]
    cases hfault with
    | unrecognised hstarts => exact .character hsource (hstarts .blank (by decide))
    | unterminated => exact .character hsource (by decide)
  · rcases exists_token_of_parse_eq_error h with ⟨t, ht, hposition⟩
    rw [complete_of_tokenize htokens] at ht
    exact hposition ▸ isOffence_of_mem_tokenize hsize htokens ht
  · rcases exists_token_of_eval_eq_error hparse h with ⟨t, ht, hposition⟩
    exact hposition ▸ isOffence_of_mem_tokenize hsize htokens ht

end ExprLang
