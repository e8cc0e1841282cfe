import ExprLang.Lexeme.Pattern

/-!
# String literals

The body of a string literal is a sequence of items: a character other than
the quote and the backslash, or a backslash together with any character but a
newline.  The first quote that is no part of an item ends the literal.  Six
pairs denote another character; all other pairs denote their two characters.

Main results:

- Theorem `stringLiteral?_front`: a literal stands at the front of the text.
- Theorem `contents_quoted`: the contents of a literal are what its quotes
  enclose.
-/

namespace ExprLang.Lexeme

/-- The rest of a literal behind its opening quote, up to and including the
closing quote. -/
def closing? : List Char → Option (List Char)
  | [] => none
  | '"' :: _ => some ['"']
  | ['\\'] => none
  | '\\' :: c :: cs =>
      if c = '\n' then none else (closing? cs).map fun body => '\\' :: c :: body
  | c :: cs => (closing? cs).map fun body => c :: body

/-- A literal with both its quotes. -/
def stringLiteral? : List Char → Option (List Char)
  | '"' :: cs => (closing? cs).map fun body => '"' :: body
  | _ => none

/-- What stands between the quotes of a literal. -/
def contents (literal : List Char) : List Char :=
  literal.tail.dropLast

/-- The character that a backslash and a letter denote together. -/
def escapedChar? : Char → Option Char
  | 'n' => some '\n'
  | 't' => some '\t'
  | 'r' => some '\r'
  | '\\' => some '\\'
  | '"' => some '"'
  | '0' => some '\x00'
  | _ => none

/-- The text that the contents of a literal denote.  A backslash in front of a
character that it does not change stays. -/
def unescape : List Char → List Char
  | [] => []
  | ['\\'] => ['\\']
  | '\\' :: c :: cs =>
      match escapedChar? c with
      | some d => d :: unescape cs
      | none => '\\' :: unescape (c :: cs)
  | c :: cs => c :: unescape cs

/-- The rest of a literal stands at the front of the text behind its quote. -/
theorem closing?_front {cs rest : List Char} (h : closing? cs = some rest) :
    Front rest cs := by
  fun_induction closing? cs generalizing rest with
  | case1 => simp at h
  | case2 =>
      obtain rfl := Option.some.inj h
      exact ⟨by simp, by simp⟩
  | case3 => simp at h
  | case4 => simp at h
  | case5 c cs _ ih =>
      obtain ⟨body, hbody, rfl⟩ := Option.map_eq_some_iff.1 h
      refine ⟨by simp, ?_⟩
      exact List.prefix_cons_inj _ |>.2 (List.prefix_cons_inj _ |>.2 (ih hbody).2)
  | case6 c cs _ _ _ ih =>
      obtain ⟨body, hbody, rfl⟩ := Option.map_eq_some_iff.1 h
      exact ⟨by simp, List.prefix_cons_inj _ |>.2 (ih hbody).2⟩

/-- A string literal stands at the front of the text. -/
theorem stringLiteral?_front {cs lexeme : List Char}
    (h : stringLiteral? cs = some lexeme) : Front lexeme cs := by
  unfold stringLiteral? at h
  split at h
  · obtain ⟨body, hbody, rfl⟩ := Option.map_eq_some_iff.1 h
    exact ⟨by simp, List.prefix_cons_inj _ |>.2 (closing?_front hbody).2⟩
  · simp at h

/-- The contents of a literal are what its quotes enclose. -/
@[simp]
theorem contents_quoted (body : List Char) :
    contents ('"' :: body ++ ['"']) = body := by
  simp [contents]

end ExprLang.Lexeme
