import ExprLang.Proofs.Context.Basic

/-!
# Faults of evaluation

A fault that evaluation ends with is met at a token that some node of the tree
keeps.  It says that operands are not what an operator needs or that the
expression depends on a state, unless the node holds a token that does not belong
there.

Main results:

- Theorem `Expr.eval_eq_error`: a fault of a node is one of a child, or it is met
  at a token of the node.
- Theorem `Expr.exists_culprit`: every fault is met at a token of some node.
-/

namespace ExprLang

/-- The faults that evaluation can end with. -/
inductive Fault.OfEvaluation : Fault → Prop where
  | operandType (operator expected : String) :
      OfEvaluation (.operandType operator expected)
  | notConstant (what : String) : OfEvaluation (.notConstant what)

/-- A fault is met at a token, and it is one of evaluation if the token belongs
where it stands. -/
structure Token.Blamed (t : Token) (belongs : Prop) (d : Diagnostic) : Prop where
  position_eq : d.position = t.start
  of_evaluation : belongs → d.fault.OfEvaluation

namespace Token.Blamed

variable {belongs : Prop}

private theorem operandFault (t : Token) (expected : String) :
    t.Blamed belongs (t.operandFault expected) :=
  ⟨rfl, fun _ => .operandType ..⟩

private theorem notConstant (t : Token) (what : String) :
    t.Blamed belongs (t.notConstant what) :=
  ⟨rfl, fun _ => .notConstant what⟩

private theorem notOperator (t : Token) (message : String) (h : ¬ belongs) :
    t.Blamed belongs (t.notOperator message) :=
  ⟨rfl, fun hbelongs => absurd hbelongs h⟩

private theorem mono {belongs' : Prop} {t : Token} {d : Diagnostic} (h : t.Blamed belongs d)
    (himp : belongs' → belongs) : t.Blamed belongs' d :=
  ⟨h.position_eq, fun hbelongs => h.of_evaluation (himp hbelongs)⟩

end Token.Blamed

/-- A sequence fails in its first step or in the second. -/
theorem bind_eq_error {α β : Type} {x : Except Diagnostic α}
    {f : α → Except Diagnostic β} {d : Diagnostic} (h : x >>= f = .error d) :
    x = .error d ∨ ∃ a, x = .ok a ∧ f a = .error d := by
  cases x with
  | error d' => exact .inl (congrArg _ (Except.error.inj h))
  | ok a => exact .inr ⟨a, rfl, h⟩

/-! ## Operators -/

section Operators

variable {operator : Token} {l r : Value} {d : Diagnostic} {belongs : Prop}

/-- An operation on two numbers fails where one of the operands is no number. -/
theorem numbers_map_blamed {f : Float × Float → Value}
    (h : (numbers operator l r).map f = .error d) : operator.Blamed belongs d := by
  unfold numbers at h
  split at h
  · cases h
  · cases h
    exact .operandFault operator _

/-- A sum is refused at its operator. -/
theorem addition_blamed (h : addition operator l r = .error d) :
    operator.Blamed belongs d := by
  unfold addition at h
  split at h
  · cases h
  · cases h
  · cases h
    exact .operandFault operator _

/-- The binary operators are what goes on with an expression as one. -/
theorem binaryValue_blamed (h : binaryValue operator l r = .error d) :
    operator.Blamed (Grammar.standard.infixRule? operator.kind = some .binary) d := by
  unfold binaryValue at h
  split at h
  · exact addition_blamed h
  iterate 7 exact numbers_map_blamed h
  · cases h
  · cases h
  · cases h
    apply Token.Blamed.notOperator
    rw [Grammar.infixRule?_standard]
    split <;> simp_all

/-- The unary operators are what starts an expression as one. -/
theorem unaryValue_blamed {value : Value} (h : unaryValue operator value = .error d) :
    operator.Blamed (Grammar.standard.prefixRule? operator.kind = some .operator) d := by
  unfold unaryValue at h
  split at h
  · cases h
  · cases h
    exact .operandFault operator _
  · cases h
  · cases h
    apply Token.Blamed.notOperator
    rw [Grammar.prefixRule?_standard]
    split <;> simp_all

/-- The logical operators are what goes on with an expression as one. -/
theorem skipsRight_blamed (h : skipsRight operator l = .error d) :
    operator.Blamed (Grammar.standard.infixRule? operator.kind = some .logical) d := by
  unfold skipsRight at h
  split at h
  · cases h
  · cases h
  · cases h
    apply Token.Blamed.notOperator
    rw [Grammar.infixRule?_standard]
    split <;> simp_all

end Operators

/-! ## Expressions -/

namespace Expr

/-- A fault of a node is one of a child, or it is met at a token that the node
keeps. -/
theorem eval_eq_error {e : Expr} {d : Diagnostic} (h : e.eval = .error d) :
    (∃ c, .child c ∈ e.parts ∧ c.eval = .error d) ∨
      ∃ t, .token t ∈ e.parts ∧ t.Blamed e.InPrecedenceForm d := by
  cases e with
  | binary left operator right =>
      rcases bind_eq_error h with hleft | ⟨l, -, h⟩
      · exact .inl ⟨left, by simp [parts], hleft⟩
      · rcases bind_eq_error h with hright | ⟨r, -, h⟩
        · exact .inl ⟨right, by simp [parts], hright⟩
        · refine .inr ⟨operator, by simp [parts], (binaryValue_blamed h).mono ?_⟩
          rintro ⟨⟩
          assumption
  | logical left operator right =>
      rcases bind_eq_error h with hleft | ⟨l, -, h⟩
      · exact .inl ⟨left, by simp [parts], hleft⟩
      · rcases bind_eq_error h with hskips | ⟨skips, -, h⟩
        · refine .inr ⟨operator, by simp [parts], (skipsRight_blamed hskips).mono ?_⟩
          rintro ⟨⟩
          assumption
        · cases skips with
          | true => cases h
          | false => exact .inl ⟨right, by simp [parts], h⟩
  | unary operator operand =>
      rcases bind_eq_error h with hoperand | ⟨value, -, h⟩
      · exact .inl ⟨operand, by simp [parts], hoperand⟩
      · refine .inr ⟨operator, by simp [parts], (unaryValue_blamed h).mono ?_⟩
        rintro ⟨⟩
        assumption
  | group inner => exact .inl ⟨inner, by simp [parts], h⟩
  | literal value span => cases h
  | var name | get object name | set object name value | assign name value =>
      cases h
      exact .inr ⟨name, by simp [parts], .notConstant name _⟩
  | call callee paren arguments =>
      cases h
      exact .inr ⟨paren, by simp [parts], .notConstant paren _⟩
  | this keyword | super keyword method =>
      cases h
      exact .inr ⟨keyword, by simp [parts], .notConstant keyword _⟩

/-- Every fault is met at a token that some node of the tree keeps. -/
theorem exists_culprit {e : Expr} {d : Diagnostic} (h : e.eval = .error d) :
    ∃ (C : Context) (n : Expr) (t : Token), e = C.plug n ∧ .token t ∈ n.parts ∧
      t.Blamed n.InPrecedenceForm d := by
  induction e using induct_parts with
  | node e ih =>
      rcases eval_eq_error h with ⟨c, hc, herror⟩ | ⟨t, ht, hblamed⟩
      · rcases ih c hc herror with ⟨C, n, t, rfl, ht, hblamed⟩
        rcases Part.child_mem_parts_iff.1 hc with ⟨F, rfl⟩
        exact ⟨F :: C, n, t, rfl, ht, hblamed⟩
      · exact ⟨[], e, t, rfl, ht, hblamed⟩

end Expr

end ExprLang
