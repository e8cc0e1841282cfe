import ExprLang.Text.Blank

/-!
# Lexeme patterns

Each function recognises one shape of lexeme at the front of a text and returns
the lexeme, which is as long as the shape allows.  Words and numbers are made
of ASCII characters only.

Main results:

- Theorems `word?_front`, `number?_front`, `blank?_front`, `comment?_front` and
  `fixed?_front`: a lexeme is not empty and stands at the front of the text.
-/

namespace ExprLang.Lexeme

/-- A lexeme stands at the front of a text if the text starts with it and it is
not empty. -/
def Front (lexeme cs : List Char) : Prop :=
  lexeme ≠ [] ∧ lexeme <+: cs

/-! ## Words -/

/-- The characters that a word can start with. -/
def isWordStart (c : Char) : Bool :=
  c.isAlpha || c == '_'

/-- The characters that a word can go on with. -/
def isWordChar (c : Char) : Bool :=
  c.isAlphanum || c == '_'

/-- A letter or underscore and the letters, digits and underscores behind it. -/
def word? : List Char → Option (List Char)
  | [] => none
  | c :: cs => if isWordStart c then some (c :: cs.takeWhile isWordChar) else none

/-- A word stands at the front of the text. -/
theorem word?_front {cs lexeme : List Char} (h : word? cs = some lexeme) :
    Front lexeme cs := by
  unfold word? at h
  split at h
  · simp at h
  · split at h
    · rename_i c cs _
      obtain rfl := Option.some.inj h
      refine ⟨by simp, ?_⟩
      exact List.prefix_cons_inj c |>.2 (List.takeWhile_prefix _)
    · simp at h

/-! ## Numbers -/

/-- Digits, and a fraction if a point with a digit behind it follows. -/
def number? (cs : List Char) : Option (List Char) :=
  let whole := cs.takeWhile Char.isDigit
  if whole = [] then
    none
  else
    match cs.dropWhile Char.isDigit with
    | '.' :: rest =>
        let fraction := rest.takeWhile Char.isDigit
        if fraction = [] then some whole else some (whole ++ '.' :: fraction)
    | _ => some whole

/-- A number stands at the front of the text. -/
theorem number?_front {cs lexeme : List Char} (h : number? cs = some lexeme) :
    Front lexeme cs := by
  unfold number? at h
  have hsplit := List.takeWhile_append_dropWhile (p := Char.isDigit) (l := cs)
  have hwhole : cs.takeWhile Char.isDigit <+: cs := List.takeWhile_prefix _
  simp only at h
  split at h
  · simp at h
  · rename_i hne
    split at h
    · rename_i rest hdrop
      split at h
      · obtain rfl := Option.some.inj h
        exact ⟨hne, hwhole⟩
      · obtain rfl := Option.some.inj h
        refine ⟨by simp, ?_⟩
        rw [hdrop] at hsplit
        obtain ⟨tail, htail⟩ := List.takeWhile_prefix (l := rest) Char.isDigit
        exact ⟨tail, by rw [List.append_assoc, List.cons_append, htail, hsplit]⟩
    · obtain rfl := Option.some.inj h
      exact ⟨hne, hwhole⟩

/-! ## What separates tokens -/

/-- A run of blank characters. -/
def blank? (cs : List Char) : Option (List Char) :=
  let blanks := cs.takeWhile Text.isBlank
  if blanks = [] then none else some blanks

/-- A run of blanks stands at the front of the text. -/
theorem blank?_front {cs lexeme : List Char} (h : blank? cs = some lexeme) :
    Front lexeme cs := by
  unfold blank? at h
  simp only at h
  split at h
  · simp at h
  · rename_i hne
    obtain rfl := Option.some.inj h
    exact ⟨hne, List.takeWhile_prefix _⟩

/-- Two slashes and the rest of the line. -/
def comment? : List Char → Option (List Char)
  | '/' :: '/' :: cs => some ('/' :: '/' :: cs.takeWhile (· != '\n'))
  | _ => none

/-- A comment stands at the front of the text. -/
theorem comment?_front {cs lexeme : List Char} (h : comment? cs = some lexeme) :
    Front lexeme cs := by
  unfold comment? at h
  split at h
  · obtain rfl := Option.some.inj h
    refine ⟨by simp, ?_⟩
    exact List.prefix_cons_inj _ |>.2
      (List.prefix_cons_inj _ |>.2 (List.takeWhile_prefix _))
  · simp at h

/-! ## Fixed texts -/

/-- A text that is always spelled the same. -/
def fixed? (text cs : List Char) : Option (List Char) :=
  if text.isPrefixOf cs then some text else none

/-- A fixed lexeme stands at the front of the text. -/
theorem fixed?_front {text cs lexeme : List Char} (hne : text ≠ [])
    (h : fixed? text cs = some lexeme) : Front lexeme cs := by
  unfold fixed? at h
  split at h
  · rename_i hfront
    obtain rfl := Option.some.inj h
    exact ⟨hne, List.isPrefixOf_iff_prefix.1 hfront⟩
  · simp at h

end ExprLang.Lexeme
