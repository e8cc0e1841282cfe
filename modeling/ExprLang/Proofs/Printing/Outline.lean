import ExprLang.Proofs.Decimal.NumberText
import ExprLang.Proofs.Scanning.Content

/-!
# Outlines

A printed form is made of words, and of words with further parts behind them in a pair
of parentheses.  A word is the text of a token or that of a number, and no blank and no
parenthesis stands in it; so it is known where a word ends, and by that where a part
ends that has more words in it.

Main results:

- Theorem `Outline.Word.eq_of_text_eq`: no text belongs to two words.
- Theorem `Outline.Legible.told`: the front of a text belongs to one outline at most.
-/

namespace ExprLang

open Lexeme

/-! ## Words -/

/-- What stands between the blanks and the parentheses of a printed form. -/
inductive Outline.Word where
  | token (kind : TokenKind) (text : String)
  | number (value : Float)

namespace Outline.Word

/-- The characters of a word. -/
def text : Word → List Char
  | token _ text => text.toList
  | number value => (Decimal.numberText value).toList

/-- A token of a kind and text that is neither a number nor a parenthesis, or a finite
number. -/
inductive Legible : Word → Prop where
  | token {kind : TokenKind} {text : String} (h : kind.HasText text)
      (hnumber : kind ≠ .number) (hparen : kind ≠ .openParen ∧ kind ≠ .closeParen) :
      Legible (.token kind text)
  | number {value : Float} (h : value.isFinite = true) : Legible (.number value)

/-- Whether a character neither separates words nor encloses them. -/
def isPlain (c : Char) : Bool :=
  c ≠ ' ' && c ≠ '(' && c ≠ ')'

private theorem isPlain_of_isWordChar {c : Char} (h : isWordChar c = true) : isPlain c = true := by
  cases hplain : isPlain c with
  | true => rfl
  | false =>
      simp only [isPlain, ne_eq, Bool.and_eq_false_iff, decide_eq_false_iff_not,
        not_not] at hplain
      rcases hplain with (rfl | rfl) | rfl <;> exact absurd h (by decide)

private theorem isPlain_of_isDigit {c : Char} (h : c.isDigit = true) : isPlain c = true :=
  isPlain_of_isWordChar (isWordChar_iff.2 (.inr h))

/-- The characters of a number are plain. -/
theorem isPlain_of_mem_number {cs : List Char} (h : IsNumber cs) :
    ∀ c ∈ cs, isPlain c = true := by
  intro c hc
  cases h with
  | whole hwhole => exact isPlain_of_isDigit (hwhole.2 c hc)
  | fraction hwhole hfraction =>
      rcases List.mem_append.1 hc with hc | hc
      · exact isPlain_of_isDigit (hwhole.2 c hc)
      · rcases List.mem_cons.1 hc with rfl | hc
        · decide
        · exact isPlain_of_isDigit (hfraction.2 c hc)

/-- The characters of a word are plain. -/
theorem isPlain_of_mem_word {cs : List Char} (h : IsWord cs) :
    ∀ c ∈ cs, isPlain c = true := by
  intro c hc
  cases cs with
  | nil => exact h.elim
  | cons d cs =>
      rcases List.mem_cons.1 hc with rfl | hc
      · exact isPlain_of_isWordChar (isWordChar_iff.2 (.inl h.1))
      · exact isPlain_of_isWordChar (h.2 c hc)

variable {w w' : Word}

/-- No word is empty, and none has a blank or a parenthesis in it. -/
theorem Legible.isPlain (h : w.Legible) : w.text ≠ [] ∧ ∀ c ∈ w.text, isPlain c = true := by
  cases h with
  | @token kind text h hnumber hparen =>
      cases h with
      | fixed hfixed =>
          have hall : text.toList ≠ [] ∧ text.toList.all Word.isPlain = true := by
            revert hparen
            cases kind <;> cases hfixed <;> decide
          exact ⟨hall.1, List.all_eq_true.1 hall.2⟩
      | identifier hword =>
          refine ⟨?_, isPlain_of_mem_word hword⟩
          rintro hnil
          exact (hnil ▸ hword : IsWord [])
      | number => exact absurd rfl hnumber
  | number h =>
      have hnumber := Decimal.isNumber_magnitudeText
      rw [text, Decimal.toList_numberText h]
      refine ⟨fun hnil => (hnumber _).ne_nil (List.append_eq_nil_iff.1 hnil).2, ?_⟩
      intro c hc
      rcases List.mem_append.1 hc with hc | hc
      · unfold Decimal.signText at hc
        split at hc
        · rw [List.mem_singleton.1 hc]
          decide
        · cases hc
      · exact isPlain_of_mem_number (hnumber _) c hc

/-- No token starts with a minus and has more behind it. -/
theorem text_ne_dash_cons {kind : TokenKind} {text : String} {cs : List Char}
    (h : kind.HasText text) (hcs : cs ≠ []) : text.toList ≠ '-' :: cs := by
  intro htext
  cases h with
  | fixed hfixed =>
      have hhead : text.toList.head? = some '-' := by
        rw [htext, List.head?_cons]
      have hlength : text.toList.length ≠ 1 := by
        rw [htext, List.length_cons]
        exact fun h => hcs (List.eq_nil_of_length_eq_zero (Nat.succ.inj h))
      revert hhead hlength
      cases kind <;> cases hfixed <;> decide
  | identifier hword =>
      rw [htext] at hword
      exact absurd hword.1 (by decide)
  | number hnumber =>
      rw [htext] at hnumber
      exact absurd (isDigit_of_isNumber hnumber) (by decide)

/-- No token has the text of a number. -/
theorem token_text_ne {kind : TokenKind} {text : String} {value : Float}
    (h : kind.HasText text) (hkind : kind ≠ .number) (hvalue : value.isFinite = true) :
    text.toList ≠ (Decimal.numberText value).toList := by
  intro htext
  have hnumber := Decimal.isNumber_magnitudeText value
  rw [Decimal.toList_numberText hvalue, Decimal.signText] at htext
  split at htext
  · exact text_ne_dash_cons h hnumber.ne_nil htext
  · rw [List.nil_append] at htext
    rw [← htext] at hnumber
    exact hkind (h.unique (.number hnumber))

/-- No text belongs to two words. -/
theorem eq_of_text_eq (hw : w.Legible) (hw' : w'.Legible) (h : w.text = w'.text) :
    w = w' := by
  cases hw with
  | token htext hkind _ =>
      cases hw' with
      | token htext' =>
          obtain rfl := String.toList_inj.1 h
          rw [htext.unique htext']
      | number hvalue => exact absurd h (token_text_ne htext hkind hvalue)
  | number hvalue =>
      cases hw' with
      | token htext hkind _ => exact absurd h.symm (token_text_ne htext hkind hvalue)
      | number hvalue' =>
          rw [Decimal.numberText_injective hvalue hvalue' (String.toList_inj.1 h)]

/-- Where a word ends is known from what stands behind it. -/
theorem text_append_injective {rest rest' : List Char} (hw : w.Legible) (hw' : w'.Legible)
    (hrest : EndsRun Word.isPlain rest) (hrest' : EndsRun Word.isPlain rest')
    (h : w.text ++ rest = w'.text ++ rest') : w = w' ∧ rest = rest' := by
  have htake := takeWhile_eq_iff.2 ⟨rest, rfl, hw.isPlain.2, hrest⟩
  rw [h, takeWhile_eq_iff.2 ⟨rest', rfl, hw'.isPlain.2, hrest'⟩] at htake
  obtain rfl := eq_of_text_eq hw' hw htake
  exact ⟨rfl, List.append_cancel_left h⟩

end Outline.Word

/-! ## Outlines -/

/-- The structure of a printed form. -/
inductive Outline where
  | word (w : Outline.Word)
  | node (head : Outline.Word) (items : List Outline)

namespace Outline

/-- A property holds of every outline if it holds of each node whose items have it. -/
@[elab_as_elim, induction_eliminator]
theorem induct {motive : Outline → Prop} (word : ∀ w, motive (.word w))
    (node : ∀ head items, (∀ item ∈ items, motive item) → motive (.node head items))
    (o : Outline) : motive o :=
  @Outline.rec motive (fun items => ∀ item ∈ items, motive item) word node
    (by simp)
    (fun _ _ hitem hitems => List.forall_mem_cons.2 ⟨hitem, hitems⟩)
    o

mutual

/-- The characters of an outline. -/
def text : Outline → List Char
  | .word w => w.text
  | .node head items => '(' :: (head.text ++ (textAll items ++ [')']))

/-- The characters of outlines, each behind a blank. -/
def textAll : List Outline → List Char
  | [] => []
  | o :: os => ' ' :: (o.text ++ textAll os)

end

mutual

/-- The words of an outline from left to right. -/
def words : Outline → List Word
  | .word w => [w]
  | .node head items => head :: wordsAll items

/-- The words of outlines from left to right. -/
def wordsAll : List Outline → List Word
  | [] => []
  | o :: os => o.words ++ wordsAll os

end

/-- All words of an outline are legible. -/
def Legible (o : Outline) : Prop :=
  ∀ w ∈ o.words, w.Legible

/-- A single word is legible by itself. -/
theorem legible_word_iff {w : Word} : (word w).Legible ↔ w.Legible := by
  simp [Legible, words]

/-- A node is legible exactly if its head and its items are. -/
theorem legible_node_iff {head : Word} {items : List Outline} :
    (node head items).Legible ↔ head.Legible ∧ ∀ item ∈ items, item.Legible := by
  have hall : (∀ w ∈ wordsAll items, w.Legible) ↔ ∀ item ∈ items, item.Legible := by
    induction items with
    | nil => simp [wordsAll]
    | cons item items ih =>
        rw [wordsAll, List.forall_mem_append, List.forall_mem_cons, ih]
        rfl
  rw [Legible, words, List.forall_mem_cons, hall]

/-- An outline is told from any other one, whatever stands behind them. -/
def Told (o : Outline) : Prop :=
  ∀ o' : Outline, o'.Legible → ∀ rest rest', EndsRun Word.isPlain rest →
    EndsRun Word.isPlain rest' → o.text ++ rest = o'.text ++ rest' → o = o' ∧ rest = rest'

/-- Items end where a blank or the closing parenthesis stands. -/
theorem endsRun_textAll (items : List Outline) (rest : List Char) :
    EndsRun Word.isPlain (textAll items ++ ')' :: rest) := by
  cases items with
  | nil => exact endsRun_cons.2 (by decide)
  | cons item items => exact endsRun_cons.2 (by decide)

/-- Texts of items tell the items and what is behind the parenthesis that ends them. -/
theorem textAll_append_injective {items items' : List Outline} {rest rest' : List Char}
    (hitems : ∀ item ∈ items, item.Told) (hitems' : ∀ item ∈ items', item.Legible)
    (h : textAll items ++ ')' :: rest = textAll items' ++ ')' :: rest') :
    items = items' ∧ rest = rest' := by
  induction items generalizing items' with
  | nil =>
      cases items' with
      | nil => exact ⟨rfl, (List.cons.inj h).2⟩
      | cons item' items' => exact absurd (List.cons.inj h).1 (by decide)
  | cons item items ih =>
      rw [List.forall_mem_cons] at hitems
      cases items' with
      | nil => exact absurd (List.cons.inj h).1 (by decide)
      | cons item' items' =>
          rw [List.forall_mem_cons] at hitems'
          simp only [textAll, List.cons_append, List.cons.injEq, true_and,
            List.append_assoc] at h
          rcases hitems.1 item' hitems'.1 _ _ (endsRun_textAll items rest)
            (endsRun_textAll items' rest') h with ⟨rfl, hrest⟩
          rcases ih hitems.2 hitems'.2 hrest with ⟨rfl, rfl⟩
          exact ⟨rfl, rfl⟩

/-- A word does not start with the parenthesis of a node. -/
theorem word_text_ne_node {w head : Word} {items : List Outline} {rest rest' : List Char}
    (hw : w.Legible) : (word w).text ++ rest ≠ (node head items).text ++ rest' := by
  intro h
  rcases hw.isPlain with ⟨hne, hplain⟩
  cases hcs : w.text with
  | nil => exact hne hcs
  | cons c cs =>
      rw [text, hcs, text, List.cons_append, List.cons_append] at h
      have hc := hplain c (hcs ▸ List.mem_cons_self ..)
      rw [(List.cons.inj h).1] at hc
      exact absurd hc (by decide)

/-- The front of a text belongs to one outline at most. -/
theorem Legible.told {o : Outline} (ho : o.Legible) : o.Told := by
  induction o with
  | word w =>
      intro o' ho' rest rest' hrest hrest' h
      have hw := legible_word_iff.1 ho
      cases o' with
      | word w' =>
          rcases Word.text_append_injective hw (legible_word_iff.1 ho') hrest hrest' h with
            ⟨rfl, rfl⟩
          exact ⟨rfl, rfl⟩
      | node head' items' => exact absurd h (word_text_ne_node hw)
  | node head items ih =>
      intro o' ho' rest rest' hrest hrest' h
      rcases legible_node_iff.1 ho with ⟨hhead, hitems⟩
      cases o' with
      | word w' => exact absurd h.symm (word_text_ne_node (legible_word_iff.1 ho'))
      | node head' items' =>
          rcases legible_node_iff.1 ho' with ⟨hhead', hitems'⟩
          simp only [text, List.cons_append, List.cons.injEq, true_and,
            List.append_assoc, List.nil_append] at h
          rcases Word.text_append_injective hhead hhead' (endsRun_textAll items rest)
            (endsRun_textAll items' rest') h with ⟨rfl, hall⟩
          rcases textAll_append_injective (fun item hitem => ih item hitem (hitems item hitem))
            hitems' hall with ⟨rfl, rfl⟩
          exact ⟨rfl, rfl⟩

/-- No text belongs to two outlines. -/
theorem eq_of_text_eq {o o' : Outline} (ho : o.Legible) (ho' : o'.Legible)
    (h : o.text = o'.text) : o = o' := by
  have hnil := endsRun_nil Word.isPlain
  exact (ho.told o' ho' [] [] hnil hnil (congrArg (· ++ []) h)).1

end Outline

end ExprLang
