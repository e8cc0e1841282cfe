import ExprLang.Proofs.Lexeme.Item
import ExprLang.Proofs.Lexeme.Shape
import ExprLang.Scanner.Rule

/-!
# The first rule that fits

The order of the rules matters in few places: an operator that starts a longer
one, the slash that starts a comment, and the quote.  Everywhere else the first
character decides.  So the rule that is applied, and the lexeme it takes, can be
told from the shape of the lexeme and from what stands behind it.

Main results:

- Theorem `Rule.first?_eq_some_iff`: a rule is the first to fit, with a lexeme,
  exactly if the lexeme has the shape of the rule and cannot go on.
- Theorem `Rule.first?_cons_eq_none_iff`: no rule fits exactly if no lexeme
  starts with the first character.
-/

namespace ExprLang.Rule

open Lexeme

variable {rule r : Rule} {cs lexeme tail : List Char} {kind : TokenKind}
  {text : String} {c : Char}

/-! ## The order of the rules -/

/-- The rules that are tried before a rule. -/
def earlier (rule : Rule) : List Rule :=
  all.takeWhile fun r => r ≠ rule

private theorem not_mem_earlier (rule : Rule) : rule ∉ rule.earlier := by
  intro h
  simpa using List.all_eq_true.1 List.all_takeWhile rule h

/-- The rules in front of a rule are rules. -/
theorem mem_all_of_mem_earlier (h : r ∈ rule.earlier) : r ∈ all :=
  List.takeWhile_subset _ h

/-- The table is cut at one of its rules. -/
theorem exists_all_eq (h : rule ∈ all) :
    ∃ later, all = rule.earlier ++ rule :: later := by
  obtain ⟨before, later, hall, hbefore⟩ := List.eq_append_cons_of_mem h
  have hne : ∀ r ∈ before, decide (r ≠ rule) = true := by
    intro r hr
    simpa using fun heq : r = rule => hbefore (heq ▸ hr)
  refine ⟨later, ?_⟩
  rw [earlier, hall, List.takeWhile_append_of_pos hne]
  simp

/-- The first rule that fits is one that fits where no earlier one does. -/
theorem first?_eq_some_iff_earlier :
    first? cs = some (rule, lexeme) ↔
      rule ∈ all ∧ rule.lexeme? cs = some lexeme ∧
        ∀ r ∈ rule.earlier, r.lexeme? cs = none := by
  constructor
  · intro h
    have hfits := of_first? h
    refine ⟨hfits.1, hfits.2, ?_⟩
    obtain ⟨later, hall⟩ := exists_all_eq hfits.1
    rw [first?, hall, List.findSome?_append, Option.or_eq_some_iff] at h
    rcases h with hearlier | ⟨hearlier, -⟩
    · obtain ⟨found, hmem, hfound⟩ := List.exists_of_findSome?_eq_some hearlier
      obtain ⟨_, -, heq⟩ := Option.map_eq_some_iff.1 hfound
      obtain rfl : found = rule := congrArg Prod.fst heq
      exact absurd hmem (not_mem_earlier found)
    · intro r hr
      exact Option.map_eq_none_iff.1 (List.findSome?_eq_none_iff.1 hearlier r hr)
  · rintro ⟨hmem, hlexeme, hearlier⟩
    obtain ⟨later, hall⟩ := exists_all_eq hmem
    have hnone : rule.earlier.findSome?
        (fun r => (r.lexeme? cs).map fun lexeme => (r, lexeme)) = none := by
      apply List.findSome?_eq_none_iff.2
      intro r hr
      rw [hearlier r hr, Option.map_none]
    rw [first?, hall, List.findSome?_append, hnone, Option.none_or,
      List.findSome?_cons, hlexeme, Option.map_some]

/-- No rule is first exactly if none fits. -/
theorem first?_eq_none_iff : first? cs = none ↔ ∀ r ∈ all, r.lexeme? cs = none := by
  simp [first?, List.findSome?_eq_none_iff]

/-! ## Shapes -/

/-- What the lexemes of a rule look like. -/
def Shapes : Rule → List Char → Prop
  | word, cs => IsWord cs
  | number, cs => IsNumber cs
  | blank, cs => IsBlanks cs
  | stringLiteral, cs => ∃ items, cs = literalOf items
  | openQuote, cs => cs = ['"']
  | comment, cs => IsComment cs
  | fixed kind text, cs => fixed kind text ∈ all ∧ cs = text.toList

/-- The character that goes on with a lexeme of a rule to make one of an earlier
rule. -/
def longer? : Rule → Option Char
  | fixed _ "!" | fixed _ "=" | fixed _ "<" | fixed _ ">" => some '='
  | fixed _ "/" => some '/'
  | _ => none

/-- A lexeme of a rule ends before a text: it cannot go on, and no earlier rule
fits. -/
def EndsBefore : Rule → List Char → List Char → Prop
  | word, _, tail => EndsRun isWordChar tail
  | number, lexeme, tail => EndsNumber lexeme tail
  | blank, _, tail => EndsRun Text.isBlank tail
  | stringLiteral, _, _ => True
  | openQuote, _, tail => Unclosed tail
  | comment, _, tail => EndsLine tail
  | fixed kind text, _, tail => ∀ c ∈ tail.head?, (fixed kind text).longer? ≠ some c

/-- What a rule finds has its shape. -/
theorem shapes_of_lexeme? (hmem : rule ∈ all) (h : rule.lexeme? cs = some lexeme) :
    rule.Shapes lexeme := by
  cases rule with
  | word =>
      obtain ⟨_, -, hword, -⟩ := word?_eq_some_iff.1 h
      exact hword
  | number =>
      obtain ⟨_, -, hnumber, -⟩ := number?_eq_some_iff.1 h
      exact hnumber
  | blank =>
      obtain ⟨_, -, hblank, -⟩ := blank?_eq_some_iff.1 h
      exact hblank
  | stringLiteral =>
      obtain ⟨items, _, -, heq⟩ := stringLiteral?_eq_some_iff.1 h
      exact ⟨items, heq⟩
  | openQuote => exact (fixed?_eq_some_iff.1 h).1
  | comment =>
      obtain ⟨_, -, hcomment, -⟩ := comment?_eq_some_iff.1 h
      exact hcomment
  | fixed kind text => exact ⟨hmem, (fixed?_eq_some_iff.1 h).1⟩

/-- A rule finds a lexeme of its shape in front of a text before which the lexeme
ends. -/
theorem lexeme?_append (hshape : rule.Shapes lexeme)
    (hend : rule.EndsBefore lexeme tail) :
    rule.lexeme? (lexeme ++ tail) = some lexeme := by
  cases rule with
  | word => exact word?_eq_some_iff.2 ⟨tail, rfl, hshape, hend⟩
  | number => exact number?_eq_some_iff.2 ⟨tail, rfl, hshape, hend⟩
  | blank => exact blank?_eq_some_iff.2 ⟨tail, rfl, hshape, hend⟩
  | stringLiteral =>
      obtain ⟨items, rfl⟩ := hshape
      exact stringLiteral?_eq_some_iff.2 ⟨items, tail, rfl, rfl⟩
  | openQuote =>
      obtain rfl := hshape
      exact fixed?_eq_some_iff.2 ⟨rfl, tail, rfl⟩
  | comment => exact comment?_eq_some_iff.2 ⟨tail, rfl, hshape, hend⟩
  | fixed kind text =>
      obtain ⟨-, rfl⟩ := hshape
      exact fixed?_eq_some_iff.2 ⟨rfl, tail, rfl⟩

/-! ## What lexemes start with -/

/-- The characters with which every lexeme of a rule starts. -/
def opening : Rule → List Char
  | word | number | blank => []
  | stringLiteral | openQuote => ['"']
  | comment => ['/', '/']
  | fixed _ text => text.toList

/-- Whether a lexeme of a rule can start with a character. -/
def starts : Rule → Char → Bool
  | word, c => isWordStart c
  | number, c => c.isDigit
  | blank, c => Text.isBlank c
  | rule, c => rule.opening.head? == some c

/-- What a rule starts with is the first character of its opening. -/
theorem head?_opening (hopening : rule.opening ≠ []) (h : rule.starts c = true) :
    rule.opening.head? = some c := by
  cases rule with
  | word => exact absurd rfl hopening
  | number => exact absurd rfl hopening
  | blank => exact absurd rfl hopening
  | _ => exact beq_iff_eq.1 h

/-- A lexeme of a rule starts with the opening of the rule. -/
theorem opening_front (h : rule.Shapes lexeme) : rule.opening <+: lexeme := by
  cases rule with
  | word => exact List.nil_prefix
  | number => exact List.nil_prefix
  | blank => exact List.nil_prefix
  | stringLiteral =>
      obtain ⟨items, rfl⟩ := h
      exact ⟨_, rfl⟩
  | openQuote => exact ⟨[], h.symm⟩
  | comment =>
      obtain ⟨line, rfl, -⟩ := h
      exact ⟨line, rfl⟩
  | fixed kind text =>
      obtain ⟨-, rfl⟩ := h
      exact List.prefix_rfl

/-- Lexemes start with a character of their rule. -/
theorem starts_of_shapes (h : rule.Shapes (c :: cs)) : rule.starts c = true := by
  have hopening := opening_front h
  cases rule with
  | word => exact h.1
  | number => exact isDigit_of_isNumber h
  | blank => exact h.2 c (List.mem_cons_self ..)
  | fixed kind text =>
      obtain ⟨-, hcs⟩ := h
      simp [starts, opening, ← hcs]
  | _ =>
      obtain ⟨rest, hrest⟩ := hopening
      exact beq_iff_eq.2 (congrArg some (List.cons.inj hrest).1)

/-- A rule finds nothing where its lexemes do not start. -/
theorem lexeme?_cons_eq_none (hmem : rule ∈ all) (h : rule.starts c = false)
    (cs : List Char) :
    rule.lexeme? (c :: cs) = none := by
  cases hlexeme : rule.lexeme? (c :: cs) with
  | none => rfl
  | some lexeme =>
      obtain ⟨hne, tail, htail⟩ := lexeme?_front hmem hlexeme
      cases lexeme with
      | nil => exact absurd rfl hne
      | cons d run =>
          obtain rfl := (List.cons.inj htail).1
          rw [starts_of_shapes (shapes_of_lexeme? hmem hlexeme)] at h
          contradiction

/-! ## Facts about the table -/

/-- If an earlier rule has lexemes that start in the same way, it is the one
whose lexemes go on. -/
theorem opening_of_mem_earlier :
    ∀ rule ∈ all, rule ≠ openQuote → ∀ c ∈ rule.opening.head?, ∀ r ∈ rule.earlier,
      r.starts c = true → ∃ d ∈ rule.longer?, r.opening = rule.opening ++ [d] := by
  have htable : ∀ rule ∈ all, rule ≠ openQuote → ∀ r ∈ rule.earlier,
      rule.opening.head?.any r.starts = true →
        rule.longer?.any (fun d => r.opening = rule.opening ++ [d]) = true := by
    decide
  intro rule hrule hne c hc r hr hstarts
  have hany := htable rule hrule hne r hr ((Option.any_eq_true _ _).2 ⟨c, hc, hstarts⟩)
  simpa only [Option.any_eq_true, decide_eq_true_eq, Option.mem_def] using hany

/-- Lexemes that go on are those of an earlier rule. -/
theorem exists_earlier_of_longer? :
    ∀ rule ∈ all, ∀ d ∈ rule.longer?, ∃ r ∈ rule.earlier,
      r ≠ stringLiteral ∧ r.opening = rule.opening ++ [d] := by
  have htable : ∀ rule ∈ all, rule.longer?.all (fun d => ∃ r ∈ rule.earlier,
      r ≠ stringLiteral ∧ r.opening = rule.opening ++ [d]) = true := by
    decide
  intro rule hrule d hd
  simpa using (Option.all_eq_true _ _).1 (htable rule hrule) d hd

/-- Whatever starts the lexemes of a rule is a lexeme by itself. -/
theorem exists_opening_eq_singleton :
    ∀ rule ∈ all, ∀ c ∈ rule.opening.head?, ∃ r ∈ all,
      r ≠ stringLiteral ∧ r.opening = [c] := by
  have htable : ∀ rule ∈ all, rule.opening.head?.all (fun c => ∃ r ∈ all,
      r ≠ stringLiteral ∧ r.opening = [c]) = true := by
    decide
  intro rule hrule c hc
  simpa using (Option.all_eq_true _ _).1 (htable rule hrule) c hc

/-- A rule without a class of its own finds something wherever its opening
stands. -/
theorem lexeme?_opening_ne_none (h : r ≠ stringLiteral) (hopening : r.opening ≠ [])
    (cs : List Char) : r.lexeme? (r.opening ++ cs) ≠ none := by
  cases r with
  | word => exact absurd rfl hopening
  | number => exact absurd rfl hopening
  | blank => exact absurd rfl hopening
  | stringLiteral => exact absurd rfl h
  | openQuote => simp [lexeme?, fixed?, opening]
  | comment => simp [lexeme?, comment?, opening]
  | fixed kind text => simp [lexeme?, fixed?, opening]

/-- A rule with a class of its own finds something wherever a character of the
class stands. -/
theorem lexeme?_ne_none_of_starts (hopening : r.opening = [])
    (h : r.starts c = true) (cs : List Char) : r.lexeme? (c :: cs) ≠ none := by
  cases r with
  | word =>
      have hword : isWordStart c = true := h
      simp [lexeme?, word?, hword]
  | number => exact number?_ne_none h cs
  | blank =>
      have hblank : Text.isBlank c = true := h
      simp [lexeme?, blank?, hblank]
  | fixed kind text => simp [starts, hopening] at h
  | _ => contradiction

/-! ## Which rule is the first to fit -/

/-- No rule fits exactly if no lexeme starts with the first character. -/
theorem first?_cons_eq_none_iff :
    first? (c :: cs) = none ↔ ∀ r ∈ all, r.starts c = false := by
  rw [first?_eq_none_iff]
  constructor
  · intro hnone r hr
    cases hstarts : r.starts c with
    | false => rfl
    | true =>
        by_cases hopening : r.opening = []
        · exact absurd (hnone r hr) (lexeme?_ne_none_of_starts hopening hstarts cs)
        · obtain ⟨r', hr', hne, hsingle⟩ :=
            exists_opening_eq_singleton r hr c (head?_opening hopening hstarts)
          have hfits := lexeme?_opening_ne_none hne (by simp [hsingle]) cs
          rw [hsingle] at hfits
          exact absurd (hnone r' hr') hfits
  · intro hstarts r hr
    exact lexeme?_cons_eq_none hr (hstarts r hr) cs

/-- A rule with lexemes is one of the rules. -/
theorem Shapes.mem_all (h : rule.Shapes lexeme) : rule ∈ all := by
  cases rule with
  | fixed kind text => exact h.1
  | _ => decide

/-- No lexeme is empty. -/
theorem Shapes.ne_nil (h : rule.Shapes lexeme) : lexeme ≠ [] := by
  cases rule with
  | word =>
      rintro rfl
      exact h.elim
  | number => exact IsNumber.ne_nil h
  | blank => exact h.1
  | stringLiteral =>
      obtain ⟨items, rfl⟩ := h
      exact List.cons_ne_nil _ _
  | openQuote => exact h ▸ List.cons_ne_nil _ _
  | comment =>
      obtain ⟨line, rfl, -⟩ := h
      exact List.cons_ne_nil _ _
  | fixed kind text =>
      obtain ⟨hmem, rfl⟩ := h
      exact text_ne_empty hmem

/-- A rule finds nothing in a text that does not go on as its lexemes do. -/
theorem lexeme?_eq_none_of_head? (hmem : r ∈ all) (hopening : r.opening = cs ++ [c])
    (htail : tail.head? ≠ some c) : r.lexeme? (cs ++ tail) = none := by
  cases hlexeme : r.lexeme? (cs ++ tail) with
  | none => rfl
  | some lexeme =>
      have hprefix : r.opening <+: cs ++ tail :=
        (opening_front (shapes_of_lexeme? hmem hlexeme)).trans
          (lexeme?_front hmem hlexeme).2
      rw [hopening, List.prefix_append_right_inj] at hprefix
      obtain ⟨rest, rfl⟩ := hprefix
      exact absurd rfl htail

/-- A rule that shares a first character with an earlier one has no class of its own:
the classes of characters exclude each other. -/
theorem opening_ne_nil_of_mem_earlier (hr : r ∈ rule.earlier) (hc : rule.starts c = true)
    (hstarts : r.starts c = true) : rule.opening ≠ [] := by
  intro hopening
  cases rule with
  | word =>
      have hearlier : earlier word = [] := by decide
      simp [hearlier] at hr
  | number =>
      have hearlier : earlier number = [word] := by decide
      rw [hearlier, List.mem_singleton] at hr
      subst hr
      rw [starts, isWordStart_eq_false_of_isDigit hc] at hstarts
      contradiction
  | blank =>
      have hearlier : earlier blank = [word, number] := by decide
      have hc := starts_eq_false_of_isBlank hc
      simp only [hearlier, List.mem_cons, List.not_mem_nil, or_false] at hr
      rcases hr with rfl | rfl
      · rw [starts, hc.1] at hstarts
        contradiction
      · rw [starts, hc.2] at hstarts
        contradiction
  | fixed kind text => simp [starts, hopening] at hc
  | _ => cases hopening

/-- The one place where two rules have the same opening. -/
theorem eq_stringLiteral_of_mem_earlier (hr : r ∈ openQuote.earlier)
    (hstarts : r.starts '"' = true) : r = stringLiteral := by
  have htable : ∀ r ∈ earlier openQuote, r.starts '"' = true → r = stringLiteral := by
    decide
  exact htable r hr hstarts

/-- Where a lexeme has the shape of a rule and ends, no earlier rule fits. -/
theorem lexeme?_earlier_eq_none (hshape : rule.Shapes lexeme)
    (hend : rule.EndsBefore lexeme tail) (hr : r ∈ rule.earlier) :
    r.lexeme? (lexeme ++ tail) = none := by
  have hmem := mem_all_of_mem_earlier hr
  obtain ⟨c, run, rfl⟩ := List.exists_cons_of_ne_nil hshape.ne_nil
  have hc := starts_of_shapes hshape
  cases hstarts : r.starts c with
  | false => exact lexeme?_cons_eq_none hmem hstarts _
  | true =>
      have hhead := head?_opening (opening_ne_nil_of_mem_earlier hr hc hstarts) hc
      by_cases hquote : rule = openQuote
      · subst hquote
        obtain ⟨rfl, rfl⟩ := List.cons.inj hshape
        obtain rfl := eq_stringLiteral_of_mem_earlier hr hstarts
        exact stringLiteral?_quote_eq_none_iff.2 hend
      · obtain ⟨d, hd, hopening⟩ :=
          opening_of_mem_earlier rule hshape.mem_all hquote c hhead r hr hstarts
        cases rule with
        | fixed kind text =>
            obtain ⟨-, htext⟩ := hshape
            rw [htext]
            exact lexeme?_eq_none_of_head? hmem hopening fun htail => hend d htail hd
        | _ => cases hd

/-- A rule is the first to fit a text, with a lexeme, exactly if the lexeme has
its shape and ends before the rest of the text. -/
theorem first?_eq_some_iff :
    first? cs = some (rule, lexeme) ↔
      ∃ tail, cs = lexeme ++ tail ∧ rule.Shapes lexeme ∧ rule.EndsBefore lexeme tail := by
  constructor
  · intro h
    obtain ⟨hmem, hlexeme, hearlier⟩ := first?_eq_some_iff_earlier.1 h
    cases rule with
    | word => exact word?_eq_some_iff.1 hlexeme
    | number => exact number?_eq_some_iff.1 hlexeme
    | blank => exact blank?_eq_some_iff.1 hlexeme
    | comment => exact comment?_eq_some_iff.1 hlexeme
    | stringLiteral =>
        obtain ⟨items, tail, rfl, rfl⟩ := stringLiteral?_eq_some_iff.1 hlexeme
        exact ⟨tail, rfl, ⟨items, rfl⟩, trivial⟩
    | openQuote =>
        obtain ⟨rfl, tail, rfl⟩ := fixed?_eq_some_iff.1 hlexeme
        have hliteral := hearlier stringLiteral (by decide)
        exact ⟨tail, rfl, rfl, stringLiteral?_quote_eq_none_iff.1 hliteral⟩
    | fixed kind text =>
        obtain ⟨rfl, tail, rfl⟩ := fixed?_eq_some_iff.1 hlexeme
        refine ⟨tail, rfl, ⟨hmem, rfl⟩, ?_⟩
        intro d hd hlonger
        obtain ⟨r, hr, hne, hopening⟩ := exists_earlier_of_longer? _ hmem d hlonger
        obtain ⟨rest, rfl⟩ := List.head?_eq_some_iff.1 hd
        have hnone := hearlier r hr
        have hfits := lexeme?_opening_ne_none hne (by simp [hopening]) rest
        rw [hopening, List.append_assoc] at hfits
        exact hfits hnone
  · rintro ⟨tail, rfl, hshape, hend⟩
    exact first?_eq_some_iff_earlier.2 ⟨hshape.mem_all, lexeme?_append hshape hend,
      fun r hr => lexeme?_earlier_eq_none hshape hend hr⟩

end ExprLang.Rule
