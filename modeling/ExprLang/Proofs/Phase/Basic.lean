import ExprLang.Expr.Eval
import ExprLang.Parser.Parse

/-!
# Phases

A source is scanned, its tokens are parsed, and the expression is evaluated.  It is
rejected if one of the first two phases fails, and accepted as an expression
otherwise; the fault that it raises is that of the first phase that fails.

Main results:

- Theorems `rejects_iff` and `accepts_iff`: how the parser of sources ends.
-/

namespace ExprLang

variable {source file : String} {d : Diagnostic} {e : Expr} {tokens : List Token}

/-- A source is rejected, because scanning it fails or parsing its tokens. -/
inductive Rejects (source file : String) (d : Diagnostic) : Prop where
  | scanning (h : tokenize source file = .error d)
  | parsing {tokens : List Token} (htokens : tokenize source file = .ok tokens)
      (h : parse tokens = .error d)

/-- A source is accepted as an expression. -/
inductive Accepts (source file : String) (e : Expr) : Prop where
  | parsing {tokens : List Token} (htokens : tokenize source file = .ok tokens)
      (h : parse tokens = .ok e)

/-- A source raises a diagnostic, when it is read or when it is evaluated. -/
inductive Raises (source file : String) (d : Diagnostic) : Prop where
  | rejecting (h : Rejects source file d)
  | evaluating {e : Expr} (haccepts : Accepts source file e) (h : e.eval = .error d)

private theorem parseSource_of_tokens (h : tokenize source file = .ok tokens) :
    parseSource source file = parse tokens := by
  rw [parseSource, h]
  rfl

private theorem parseSource_of_fault (h : tokenize source file = .error d) :
    parseSource source file = .error d := by
  rw [parseSource, h]
  rfl

/-- A source is rejected exactly if it is not parsed. -/
theorem rejects_iff : Rejects source file d ↔ parseSource source file = .error d := by
  constructor
  · rintro (h | ⟨htokens, h⟩)
    · exact parseSource_of_fault h
    · rwa [parseSource_of_tokens htokens]
  · intro h
    cases htokens : tokenize source file with
    | error d' =>
        rw [parseSource_of_fault htokens] at h
        exact .scanning (Except.error.inj h ▸ htokens)
    | ok tokens =>
        rw [parseSource_of_tokens htokens] at h
        exact .parsing htokens h

/-- A source is accepted exactly if it is parsed. -/
theorem accepts_iff : Accepts source file e ↔ parseSource source file = .ok e := by
  constructor
  · rintro ⟨htokens, h⟩
    rwa [parseSource_of_tokens htokens]
  · intro h
    cases htokens : tokenize source file with
    | error d =>
        rw [parseSource_of_fault htokens] at h
        cases h
    | ok tokens =>
        rw [parseSource_of_tokens htokens] at h
        exact .parsing htokens h

end ExprLang
