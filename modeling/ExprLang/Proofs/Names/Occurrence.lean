import ExprLang.Expr.Names
import ExprLang.Proofs.Spelling.Soundness

/-!
# Names in a list of tokens

What an identifier stands for can be told from the tokens next to it.  Behind a
dot it is a property or a method, in front of an assignment it is written, and
anywhere else it is read.  The tree that the tokens are parsed as says the same,
except that it lists what is written in another order.

Main results:

- Theorem `occurrences_append`: tokens in a row have the neighbours that they have
  apart, up to those where they meet.
- Theorem `Expr.namesLikeTokens`: the names of a tree are those of the tokens that
  spell it.
- Theorem `names_of_parse`: the names of what a list of tokens is parsed as.
-/

namespace ExprLang

/-! ## Tokens and their neighbours -/

/-- A token between its neighbours. -/
structure Occurrence where
  before : Option Token
  token : Token
  after : Option Token

/-- The tokens of a list with their neighbours, between two tokens. -/
def occurrences (before : Option Token) (ts : List Token) (after : Option Token) :
    List Occurrence :=
  match ts with
  | [] => []
  | t :: ts => ⟨before, t, ts.head?.or after⟩ :: occurrences (some t) ts after

section Occurrences

variable {before after : Option Token} {us vs : List Token}

@[simp]
theorem map_token_occurrences (before after : Option Token) (ts : List Token) :
    (occurrences before ts after).map Occurrence.token = ts := by
  induction ts generalizing before with
  | nil => rfl
  | cons t ts ih => simp [occurrences, ih]

/-- Tokens in a row meet where the first part ends and the second one starts. -/
theorem occurrences_append :
    occurrences before (us ++ vs) after =
      occurrences before us (vs.head?.or after) ++
        occurrences (us.getLast?.or before) vs after := by
  induction us generalizing before with
  | nil => rfl
  | cons t us ih =>
      have hlast : (t :: us).getLast?.or before = us.getLast?.or (some t) := by
        simp [List.getLast?_cons]
      simp only [List.cons_append, occurrences, ih, hlast, List.head?_append,
        Option.or_assoc]

end Occurrences

/-! ## What occurrences name -/

namespace Names

@[simp]
theorem append_empty (a : Names) : a ++ .empty = a := by
  cases a
  simp only [empty, HAppend.hAppend, Append.append]
  simp

@[simp]
theorem empty_append (a : Names) : .empty ++ a = a :=
  rfl

end Names

namespace Occurrence

/-- An identifier that is no property and no method. -/
def isVariable (o : Occurrence) : Bool :=
  o.token.kind == .identifier && o.before.map Token.kind != some .dot

/-- A variable that is read. -/
def isRead (o : Occurrence) : Bool :=
  o.isVariable && o.after.map Token.kind != some .assignment

/-- A variable that is written. -/
def isWritten (o : Occurrence) : Bool :=
  o.isVariable && o.after.map Token.kind == some .assignment

end Occurrence

/-- A keyword that needs a class around it. -/
def Token.isClassRef (t : Token) : Bool :=
  t.isOneOf [.kwThis, .kwSuper]

/-- The names among tokens, in the order of the tokens. -/
def namesAt (os : List Occurrence) : Names where
  reads := (os.filter Occurrence.isRead).map Occurrence.token
  writes := (os.filter Occurrence.isWritten).map Occurrence.token
  classRefs := (os.map Occurrence.token).filter Token.isClassRef

private theorem namesAt_append (os os' : List Occurrence) :
    namesAt (os ++ os') = namesAt os ++ namesAt os' := by
  simp only [namesAt, List.filter_append, List.map_append]
  rfl

private theorem namesAt_cons (o : Occurrence) (os : List Occurrence) :
    namesAt (o :: os) = namesAt [o] ++ namesAt os :=
  namesAt_append [o] os

/-- A token of the kind names nothing, whatever stands next to it. -/
def TokenKind.IsSilent (kind : TokenKind) : Prop :=
  kind ∉ [identifier, kwThis, kwSuper]

instance (kind : TokenKind) : Decidable kind.IsSilent :=
  inferInstanceAs (Decidable (kind ∉ _))

section Single

variable {before after : Option Token} {t : Token}

private theorem namesAt_silent (h : t.kind.IsSilent) : namesAt [⟨before, t, after⟩] = .empty := by
  simp_all [TokenKind.IsSilent, namesAt, Names.empty, Occurrence.isRead,
    Occurrence.isWritten, Occurrence.isVariable, Token.isClassRef, Token.isOneOf]

private theorem namesAt_property (ht : t.kind = .identifier)
    (hbefore : before.map Token.kind = some .dot) :
    namesAt [⟨before, t, after⟩] = .empty := by
  simp [namesAt, Names.empty, Occurrence.isRead, Occurrence.isWritten,
    Occurrence.isVariable, Token.isClassRef, Token.isOneOf, ht, hbefore]

private theorem namesAt_read (ht : t.kind = .identifier)
    (hbefore : before.map Token.kind ≠ some .dot)
    (hafter : after.map Token.kind ≠ some .assignment) :
    namesAt [⟨before, t, after⟩] = .read t := by
  simp_all [namesAt, Names.read, Occurrence.isRead, Occurrence.isWritten,
    Occurrence.isVariable, Token.isClassRef, Token.isOneOf]

private theorem namesAt_written (ht : t.kind = .identifier)
    (hbefore : before.map Token.kind ≠ some .dot)
    (hafter : after.map Token.kind = some .assignment) :
    namesAt [⟨before, t, after⟩] = .written t := by
  simp [namesAt, Names.written, Occurrence.isRead, Occurrence.isWritten,
    Occurrence.isVariable, Token.isClassRef, Token.isOneOf, ht, hbefore, hafter]

private theorem namesAt_classRef (ht : t.kind ∈ [TokenKind.kwThis, .kwSuper]) :
    namesAt [⟨before, t, after⟩] = .classRef t := by
  have hne : t.kind ≠ .identifier := by
    intro hkind
    simp [hkind] at ht
  simp_all [namesAt, Names.classRef, Occurrence.isRead, Occurrence.isWritten,
    Occurrence.isVariable, Token.isClassRef, Token.isOneOf]

end Single

section Around

variable {before after : Option Token} {t : Token} {us vs : List Token}

/-- Names on both sides of a token that names nothing. -/
theorem namesAt_around (ht : t.kind.IsSilent) :
    namesAt (occurrences before (us ++ t :: vs) after) =
      namesAt (occurrences before us (some t)) ++
        namesAt (occurrences (some t) vs after) := by
  rw [occurrences_append, namesAt_append, occurrences, namesAt_cons, namesAt_silent ht]
  rfl

private theorem namesAt_behind (ht : t.kind.IsSilent) :
    namesAt (occurrences before (t :: vs) after) =
      namesAt (occurrences (some t) vs after) := by
  rw [occurrences, namesAt_cons, namesAt_silent ht]
  rfl

private theorem namesAt_before (ht : t.kind.IsSilent) :
    namesAt (occurrences before (us ++ [t]) after) =
      namesAt (occurrences before us (some t)) := by
  rw [namesAt_around ht]
  exact Names.append_empty _

end Around

/-! ## Agreement -/

namespace Names

/-- The same names, but perhaps another order of those that are written. -/
structure Agrees (a b : Names) : Prop where
  reads : a.reads = b.reads
  writes : a.writes.Perm b.writes
  classRefs : a.classRefs = b.classRefs

namespace Agrees

variable {a a' b b' c : Names}

private theorem of_eq (h : a = b) : a.Agrees b := by
  subst h
  exact ⟨rfl, .refl _, rfl⟩

private theorem trans (hab : a.Agrees b) (hbc : b.Agrees c) : a.Agrees c :=
  ⟨hab.reads.trans hbc.reads, hab.writes.trans hbc.writes,
    hab.classRefs.trans hbc.classRefs⟩

private theorem append (h : a.Agrees b) (h' : a'.Agrees b') : (a ++ a').Agrees (b ++ b') :=
  ⟨congrArg₂ _ h.reads h'.reads, h.writes.append h'.writes,
    congrArg₂ _ h.classRefs h'.classRefs⟩

/-- It does not matter when a variable is written. -/
theorem written_append (name : Token) (a : Names) :
    (written name ++ a).Agrees (a ++ written name) :=
  ⟨(List.append_nil _).symm, List.perm_append_comm, (List.append_nil _).symm⟩

end Agrees

end Names

/-! ## Names of a tree -/

/-- A place neither behind a dot nor in front of an assignment, where variables are
read. -/
structure Plain (before after : Option Token) : Prop where
  before_ne : before.map Token.kind ≠ some .dot
  after_ne : after.map Token.kind ≠ some .assignment

/-- A token of the kind names nothing and does not say how the tokens next to it are
used. -/
def TokenKind.IsNeutral (kind : TokenKind) : Prop :=
  kind.IsSilent ∧ kind ≠ dot ∧ kind ≠ assignment

instance (kind : TokenKind) : Decidable kind.IsNeutral :=
  inferInstanceAs (Decidable (_ ∧ _))

namespace TokenKind.IsNeutral

/-- Operators between operands are neutral. -/
theorem of_infixRule? {kind : TokenKind}
    (h : Grammar.standard.infixRule? kind = some .binary ∨
      Grammar.standard.infixRule? kind = some .logical) : kind.IsNeutral := by
  cases kind <;> revert h <;> decide

/-- Operators in front of their operand are neutral. -/
theorem of_prefixRule? {kind : TokenKind}
    (h : Grammar.standard.prefixRule? kind = some .operator) : kind.IsNeutral := by
  cases kind <;> revert h <;> decide

/-- Parentheses and commas are neutral. -/
theorem of_punctuation {kind : TokenKind} (h : kind ∈ [openParen, closeParen, comma]) :
    kind.IsNeutral := by
  cases kind <;> revert h <;> decide

end TokenKind.IsNeutral

namespace Plain

variable {before after : Option Token} {t : Token}

private theorem left (h : Plain before after) (ht : t.kind.IsNeutral) : Plain before (some t) :=
  ⟨h.before_ne, by simpa using ht.2.2⟩

private theorem right (h : Plain before after) (ht : t.kind.IsNeutral) : Plain (some t) after :=
  ⟨by simpa using ht.2.1, h.after_ne⟩

end Plain

namespace Expr

/-- The names of an expression are those of the tokens that spell it. -/
def NamesLikeTokens (e : Expr) : Prop :=
  ∀ {us : List Token} {before after : Option Token}, e.Spells us → Plain before after →
    (namesAt (occurrences before us after)).Agrees e.names

variable {before after : Option Token} {us : List Token} {e : Expr}

/-- The names of arguments are those of the tokens that spell them. -/
theorem namesAll_like_tokens {es : List Expr} (hes : ∀ e ∈ es, e.NamesLikeTokens)
    (h : SpellsAll es us) (hplain : Plain before after) :
    (namesAt (occurrences before us after)).Agrees (namesAll es) := by
  induction es generalizing us before with
  | nil =>
      rw [spellsAll_nil_iff.1 h]
      exact .of_eq rfl
  | cons e es ih =>
      have he : e.NamesLikeTokens := hes e (List.mem_cons_self ..)
      cases es with
      | nil =>
          have hnames := he (spellsAll_singleton_iff.1 h) hplain
          simpa [namesAll] using hnames
      | cons e' es =>
          rcases spellsAll_cons_cons_iff.1 h with ⟨us, comma, vs, rfl, hus, hcomma, hvs⟩
          have hneutral : comma.kind.IsNeutral := .of_punctuation (by simp [hcomma])
          have hrest := ih (fun e he => hes e (List.mem_cons_of_mem _ he)) hvs
            (hplain.right hneutral)
          rw [namesAt_around hneutral.1]
          exact (he hus (hplain.left hneutral)).append hrest

/-- The names of an expression in precedence form are those of the tokens that
spell it. -/
theorem namesLikeTokens (hform : e.InPrecedenceForm) : e.NamesLikeTokens := by
  induction e with
  | binary left operator right hleft hright =>
      intro us before after h hplain
      cases hform with
      | binary hrule _ _ left_form right_form =>
          rcases spells_binary_iff.1 h with ⟨us, vs, rfl, hus, hvs⟩
          have hneutral : operator.kind.IsNeutral := .of_infixRule? (.inl hrule)
          rw [namesAt_around hneutral.1]
          exact (hleft left_form hus (hplain.left hneutral)).append
            (hright right_form hvs (hplain.right hneutral))
  | logical left operator right hleft hright =>
      intro us before after h hplain
      cases hform with
      | logical hrule _ _ left_form right_form =>
          rcases spells_logical_iff.1 h with ⟨us, vs, rfl, hus, hvs⟩
          have hneutral : operator.kind.IsNeutral := .of_infixRule? (.inr hrule)
          rw [namesAt_around hneutral.1]
          exact (hleft left_form hus (hplain.left hneutral)).append
            (hright right_form hvs (hplain.right hneutral))
  | group inner hinner =>
      intro us before after h hplain
      cases hform with
      | group form =>
          rcases spells_group_iff.1 h with
            ⟨opening, us, closing, rfl, hopening, hus, hclosing⟩
          have hopening : opening.kind.IsNeutral := .of_punctuation (by simp [hopening])
          have hclosing : closing.kind.IsNeutral := .of_punctuation (by simp [hclosing])
          rw [namesAt_behind hopening.1, namesAt_before hclosing.1]
          exact hinner form hus ((hplain.right hopening).left hclosing)
  | literal value span =>
      intro us before after h hplain
      rcases spells_literal_iff.1 h with ⟨t, rfl, hdenotes, -⟩
      refine .of_eq (namesAt_silent ?_)
      cases hdenotes <;> simp_all [TokenKind.IsSilent]
  | unary operator operand hoperand =>
      intro us before after h hplain
      cases hform with
      | unary hrule _ form =>
          rcases spells_unary_iff.1 h with ⟨us, rfl, hus⟩
          have hneutral : operator.kind.IsNeutral := .of_prefixRule? hrule
          rw [namesAt_behind hneutral.1]
          exact hoperand form hus (hplain.right hneutral)
  | var name =>
      intro us before after h hplain
      cases hform with
      | var hname =>
          rw [spells_var_iff.1 h]
          exact .of_eq (namesAt_read hname hplain.before_ne hplain.after_ne)
  | assign name value hvalue =>
      intro us before after h hplain
      cases hform with
      | assign hname form =>
          rcases spells_assign_iff.1 h with ⟨equals, us, rfl, hequals, hus⟩
          have hsilent : equals.kind.IsSilent := by simp [hequals, TokenKind.IsSilent]
          have hequals_ne : (some equals).map Token.kind ≠ some .dot := by simp [hequals]
          have hwritten : namesAt (occurrences before [name] (some equals)) = .written name :=
            namesAt_written hname hplain.before_ne (by simp [hequals])
          have hvalue : (namesAt (occurrences (some equals) us after)).Agrees value.names :=
            hvalue form hus ⟨hequals_ne, hplain.after_ne⟩
          rw [← List.singleton_append, namesAt_around hsilent, hwritten]
          exact (Names.Agrees.written_append ..).trans (hvalue.append (.of_eq rfl))
  | call callee paren arguments hcallee harguments =>
      intro us before after h hplain
      cases hform with
      | call _ hparen form forms =>
          rcases spells_call_iff.1 h with ⟨us, opening, vs, rfl, hus, hopening, hvs⟩
          have hopening : opening.kind.IsNeutral := .of_punctuation (by simp [hopening])
          have hparen : paren.kind.IsNeutral := .of_punctuation (by simp [hparen])
          have hall := namesAll_like_tokens (fun e he => harguments e he (forms e he)) hvs
            ((hplain.right hopening).left hparen)
          rw [namesAt_around hopening.1, namesAt_before hparen.1]
          exact (hcallee form hus (hplain.left hopening)).append hall
  | get object name hobject =>
      intro us before after h hplain
      cases hform with
      | get _ hname form =>
          rcases spells_get_iff.1 h with ⟨us, dot, rfl, hus, hdot⟩
          have hsilent : dot.kind.IsSilent := by simp [hdot, TokenKind.IsSilent]
          have hproperty : namesAt (occurrences (some dot) [name] after) = .empty :=
            namesAt_property hname (congrArg some hdot)
          rw [namesAt_around hsilent, hproperty, Names.append_empty]
          exact hobject form hus ⟨hplain.before_ne, by simp [hdot]⟩
  | set object name value hobject hvalue =>
      intro us before after h hplain
      cases hform with
      | set _ hname form value_form =>
          rcases spells_set_iff.1 h with ⟨us, dot, equals, vs, rfl, hus, hdot, hequals, hvs⟩
          have hdot_silent : dot.kind.IsSilent := by simp [hdot, TokenKind.IsSilent]
          have hequals_silent : equals.kind.IsSilent := by
            simp [hequals, TokenKind.IsSilent]
          have hproperty : namesAt (occurrences (some dot) [name] (some equals)) = .empty :=
            namesAt_property hname (congrArg some hdot)
          rw [namesAt_around hdot_silent, ← List.singleton_append (x := name),
            namesAt_around hequals_silent, hproperty, Names.empty_append]
          have hequals_ne : (some equals).map Token.kind ≠ some .dot := by simp [hequals]
          exact (hobject form hus ⟨hplain.before_ne, by simp [hdot]⟩).append
            (hvalue value_form hvs ⟨hequals_ne, hplain.after_ne⟩)
  | this keyword =>
      intro us before after h hplain
      cases hform with
      | this hkeyword =>
          rw [spells_this_iff.1 h]
          exact .of_eq (namesAt_classRef (by simp [hkeyword]))
  | super keyword method =>
      intro us before after h hplain
      cases hform with
      | super hkeyword hmethod =>
          rcases spells_super_iff.1 h with ⟨dot, rfl, hdot⟩
          have hsilent : dot.kind.IsSilent := by simp [hdot, TokenKind.IsSilent]
          have hproperty : namesAt (occurrences (some dot) [method] after) = .empty :=
            namesAt_property hmethod (congrArg some hdot)
          rw [← List.singleton_append, namesAt_around hsilent, hproperty,
            Names.append_empty]
          exact .of_eq (namesAt_classRef (by simp [hkeyword]))

end Expr

/-! ## Names of a list of tokens -/

/-- The names of a parsed expression can be told from the tokens before the end of
the input, each seen with its two neighbours only: reads and class references in
the order of the tokens, and what is written, each once, in some order. -/
theorem names_of_parse {tokens : List Token} {e : Expr} (h : parse tokens = .ok e) :
    e.names.reads =
        ((occurrences none (beforeEnd tokens) none).filter Occurrence.isRead).map
          Occurrence.token ∧
      e.names.classRefs = (beforeEnd tokens).filter Token.isClassRef ∧
      e.names.writes.Perm
        (((occurrences none (beforeEnd tokens) none).filter Occurrence.isWritten).map
          Occurrence.token) := by
  have hplain : Plain none none := ⟨by simp, by simp⟩
  have hagrees := Expr.namesLikeTokens (form_of_parse h) (spells_of_parse h) hplain
  refine ⟨hagrees.reads.symm, ?_, hagrees.writes.symm⟩
  rw [← hagrees.classRefs, namesAt, map_token_occurrences]

/-- The case of `a = b = this.c(d)`, where the tree lists `b` before `a`. -/
theorem names_of_parse_chain :
    ∃ tokens e a b c d this, parse tokens = .ok e ∧
      tokens.map Token.text = ["a", "=", "b", "=", "this", ".", "c", "(", "d", ")"] ∧
      e.names = ⟨[d], [b, a], [this]⟩ ∧ tokens[6]? = some c ∧
      ((occurrences none (beforeEnd tokens) none).filter Occurrence.isRead).map
        Occurrence.token = [d] ∧
      (beforeEnd tokens).filter Token.isClassRef = [this] ∧
      [b, a].Perm (((occurrences none (beforeEnd tokens) none).filter
        Occurrence.isWritten).map Occurrence.token) := by
  have h : parse [.synthetic .identifier "a", .synthetic .assignment "=",
      .synthetic .identifier "b", .synthetic .assignment "=", .synthetic .kwThis "this",
      .synthetic .dot ".", .synthetic .identifier "c", .synthetic .openParen "(",
      .synthetic .identifier "d", .synthetic .closeParen ")"] =
    .ok (.assign (.synthetic .identifier "a") (.assign (.synthetic .identifier "b")
      (.call (.get (.this (.synthetic .kwThis "this")) (.synthetic .identifier "c"))
        (.synthetic .closeParen ")") [.var (.synthetic .identifier "d")]))) := rfl
  rcases names_of_parse h with ⟨hreads, hrefs, hwrites⟩
  exact ⟨_, _, _, _, _, _, _, h, rfl, rfl, rfl, hreads.symm, hrefs.symm, hwrites⟩

end ExprLang
