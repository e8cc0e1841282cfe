import ExprLang.Text.ExtendingMark
import ExprLang.Text.Printable

/-!
# Quoted text

Messages show a text between double quotes, with every character that would be
lost or misread written as an escape: a letter behind a backslash where there
is one, otherwise the code point in hexadecimal.
-/

namespace ExprLang.Text

/-- The letter that stands for a character behind a backslash. -/
def escapeLetter? : Char → Option Char
  | '\x00' => some '0'
  | '\t' => some 't'
  | '\r' => some 'r'
  | '\n' => some 'n'
  | '\\' => some '\\'
  | '"' => some '"'
  | _ => none

/-- A code point in lower-case hexadecimal digits between braces. -/
def codePointEscape (c : Char) : List Char :=
  ['\\', 'u', '\x7b'] ++ Nat.toDigits 16 c.toNat ++ ['\x7d']

/-- One character as it is written between quotes. -/
def escaped (c : Char) : List Char :=
  match escapeLetter? c with
  | some letter => ['\\', letter]
  | none =>
      if isExtendingMark c || !isPrintable c then codePointEscape c else [c]

/-- The text between double quotes, with escapes. -/
def quoted (s : String) : String :=
  String.ofList ('"' :: s.toList.flatMap escaped ++ ['"'])

end ExprLang.Text
