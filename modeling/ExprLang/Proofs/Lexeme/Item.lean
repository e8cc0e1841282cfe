import ExprLang.Lexeme.StringLiteral

/-!
# Items of string literals

The body of a literal, told item by item.  Finding the end of a literal and
undoing its escapes are two readings of the same text; both pass over one item
at a time, so they pair every backslash with the same character.

Main results:

- Theorem `exists_items`: items can be read from any text up to a quote, or up
  to where no item and no quote can stand.
- Theorems `stringLiteral?_eq_some_iff` and `closing?_eq_none_iff`: a literal is
  found exactly if the items are followed by a quote.
- Theorem `unescape_spelling`: the value of a body is the values of its items.
-/

namespace ExprLang.Lexeme

/-- An item of the body of a string literal. -/
inductive Item where
  /-- A character by itself. -/
  | plain (c : Char) (h : c ≠ '"' ∧ c ≠ '\\')
  /-- A backslash and the character behind it. -/
  | pair (c : Char) (h : c ≠ '\n')

namespace Item

/-- The characters that an item is spelled with. -/
def spelling : Item → List Char
  | plain c _ => [c]
  | pair c _ => ['\\', c]

/-- The characters that an item denotes. -/
def value : Item → List Char
  | plain c _ => [c]
  | pair 'n' _ => ['\n']
  | pair 't' _ => ['\t']
  | pair 'r' _ => ['\r']
  | pair '\\' _ => ['\\']
  | pair '"' _ => ['"']
  | pair '0' _ => ['\x00']
  | pair c _ => ['\\', c]

end Item

/-- The characters that spell items one after another. -/
def bodyOf (items : List Item) : List Char :=
  items.flatMap Item.spelling

/-- The characters that items denote one after another. -/
def valueOf (items : List Item) : List Char :=
  items.flatMap Item.value

/-- The literal with a body of items. -/
def literalOf (items : List Item) : List Char :=
  '"' :: bodyOf items ++ ['"']

@[simp]
theorem bodyOf_nil : bodyOf [] = [] :=
  rfl

@[simp]
theorem bodyOf_cons (item : Item) (items : List Item) :
    bodyOf (item :: items) = item.spelling ++ bodyOf items :=
  rfl

@[simp]
theorem valueOf_nil : valueOf [] = [] :=
  rfl

@[simp]
theorem valueOf_cons (item : Item) (items : List Item) :
    valueOf (item :: items) = item.value ++ valueOf items :=
  rfl

/-- No item and no closing quote stands at the front of a text. -/
inductive BreaksOff : List Char → Prop where
  | atEnd : BreaksOff []
  | backslash : BreaksOff ['\\']
  | lineBreak (rest : List Char) : BreaksOff ('\\' :: '\n' :: rest)

/-- Reading a text item by item never comes to a quote. -/
def Unclosed (cs : List Char) : Prop :=
  ∃ items rest, cs = bodyOf items ++ rest ∧ BreaksOff rest

variable {cs lexeme rest : List Char}

/-! ## Reading item by item -/

/-- Items can be read from a text until a quote follows or reading breaks off. -/
theorem exists_items (cs : List Char) :
    ∃ items rest, cs = bodyOf items ++ rest ∧
      ((∃ tail, rest = '"' :: tail) ∨ BreaksOff rest) := by
  fun_induction closing? cs with
  | case1 => exact ⟨[], [], rfl, .inr .atEnd⟩
  | case2 tail => exact ⟨[], _, rfl, .inl ⟨tail, rfl⟩⟩
  | case3 => exact ⟨[], _, rfl, .inr .backslash⟩
  | case4 rest => exact ⟨[], _, rfl, .inr (.lineBreak rest)⟩
  | case5 c cs hc ih =>
      obtain ⟨items, rest, rfl, hrest⟩ := ih
      exact ⟨.pair c hc :: items, rest, rfl, hrest⟩
  | case6 c cs hquote hbackslash hpair ih =>
      obtain ⟨items, rest, rfl, hrest⟩ := ih
      have hc : c ≠ '"' ∧ c ≠ '\\' := by
        refine ⟨hquote, fun hc => ?_⟩
        cases hcs : bodyOf items ++ rest with
        | nil => exact hbackslash hc hcs
        | cons d ds => exact hpair d ds hc hcs
      exact ⟨.plain c hc :: items, rest, rfl, hrest⟩

/-- The end of a literal is looked for behind a whole item. -/
theorem closing?_item (item : Item) (cs : List Char) :
    closing? (item.spelling ++ cs) =
      (closing? cs).map fun body => item.spelling ++ body := by
  cases item with
  | plain c h => simp [Item.spelling, closing?, h.1, h.2]
  | pair c h => simp [Item.spelling, closing?, h]

/-- The closing quote is looked for behind the items. -/
theorem closing?_items (items : List Item) (cs : List Char) :
    closing? (bodyOf items ++ cs) =
      (closing? cs).map fun body => bodyOf items ++ body := by
  induction items with
  | nil => simp
  | cons item items ih =>
      rw [bodyOf_cons, List.append_assoc, closing?_item, ih, Option.map_map]
      congr 1
      funext body
      exact (List.append_assoc _ _ _).symm

private theorem closing?_of_breaksOff (h : BreaksOff cs) : closing? cs = none := by
  cases h <;> simp [closing?]

/-- The rest of a literal is its items and a quote. -/
theorem closing?_eq_some_iff :
    closing? cs = some rest ↔
      ∃ items tail, cs = bodyOf items ++ '"' :: tail ∧
        rest = bodyOf items ++ ['"'] := by
  constructor
  · intro h
    obtain ⟨items, rest', rfl, ⟨tail, rfl⟩ | hbreak⟩ := exists_items cs
    · rw [closing?_items, closing?, Option.map_some] at h
      exact ⟨items, tail, rfl, (Option.some.inj h).symm⟩
    · simp [closing?_items, closing?_of_breaksOff hbreak] at h
  · rintro ⟨items, tail, rfl, rfl⟩
    rw [closing?_items, closing?, Option.map_some]

/-- A literal is never closed if reading item by item never comes to a quote. -/
theorem closing?_eq_none_iff : closing? cs = none ↔ Unclosed cs := by
  constructor
  · intro h
    obtain ⟨items, rest', rfl, ⟨tail, rfl⟩ | hbreak⟩ := exists_items cs
    · simp [closing?_items, closing?] at h
    · exact ⟨items, rest', rfl, hbreak⟩
  · rintro ⟨items, rest', rfl, hbreak⟩
    rw [closing?_items, closing?_of_breaksOff hbreak, Option.map_none]

/-- A literal stands at the front of a text exactly if items between two quotes
do. -/
theorem stringLiteral?_eq_some_iff :
    stringLiteral? cs = some lexeme ↔
      ∃ items tail, cs = literalOf items ++ tail ∧ lexeme = literalOf items := by
  constructor
  · intro h
    unfold stringLiteral? at h
    split at h
    · obtain ⟨body, hbody, rfl⟩ := Option.map_eq_some_iff.1 h
      obtain ⟨items, tail, rfl, rfl⟩ := closing?_eq_some_iff.1 hbody
      exact ⟨items, tail, by simp [literalOf], by simp [literalOf]⟩
    · simp at h
  · rintro ⟨items, tail, rfl, rfl⟩
    have hclosing : closing? (bodyOf items ++ '"' :: tail) =
        some (bodyOf items ++ ['"']) :=
      closing?_eq_some_iff.2 ⟨items, tail, rfl, rfl⟩
    simp [literalOf, stringLiteral?, hclosing]

/-- A quote opens no literal if reading item by item never comes to another. -/
theorem stringLiteral?_quote_eq_none_iff :
    stringLiteral? ('"' :: cs) = none ↔ Unclosed cs := by
  rw [stringLiteral?, Option.map_eq_none_iff, closing?_eq_none_iff]

/-! ## Values -/

/-- Escapes are undone item by item. -/
theorem unescape_item (item : Item) (cs : List Char) :
    unescape (item.spelling ++ cs) = item.value ++ unescape cs := by
  cases item with
  | plain c h => simp [Item.spelling, Item.value, unescape, h.2]
  | pair c h =>
      unfold Item.spelling Item.value
      simp only [List.cons_append, List.nil_append]
      split <;> simp_all [unescape, escapedChar?]

/-- The body of a literal denotes the values of its items, one after another. -/
theorem unescape_spelling (items : List Item) :
    unescape (bodyOf items) = valueOf items := by
  induction items with
  | nil => rfl
  | cons item items ih => rw [bodyOf_cons, unescape_item, ih, valueOf_cons]

@[simp]
theorem unescape_contents_literalOf (items : List Item) :
    unescape (contents (literalOf items)) = valueOf items := by
  rw [literalOf, contents_quoted, unescape_spelling]

end ExprLang.Lexeme
