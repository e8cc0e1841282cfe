import ExprLang.Proofs.Context.Basic
import ExprLang.Proofs.Spelling.Completeness
import ExprLang.Proofs.Spelling.Soundness

/-!
# Assignments to what has been parsed

An assignment that is put behind a list of tokens belongs to the last value of the
assignments that the list makes.  No operand inside an operator takes it, since
operators bind more tightly; so the value is assigned to if it can be, and the whole
is refused at that assignment if it cannot, whatever is assigned.

Main results:

- Theorem `Unbounded.expr_assignment_failed`: no assignment in front takes one that
  its last value refuses.
- Theorem `parse_append_assignment`: what becomes of two lists with an assignment
  between them.
-/

namespace ExprLang

/-! ## Chains of assignments -/

namespace Expr

/-- The value at the end of a chain of assignments.  What is no assignment is a
chain by itself. -/
def lastValue : Expr → Expr
  | .assign _ value => value.lastValue
  | .set _ _ value => value.lastValue
  | e => e

/-- The assignments of a chain, from the first to the last. -/
def assignments : Expr → Context
  | .assign name value => .assign name :: value.assignments
  | .set object name value => .setValue object name :: value.assignments
  | _ => []

@[simp]
theorem plug_assignments (e : Expr) : e.assignments.plug e.lastValue = e := by
  fun_induction lastValue e with
  | case1 name value ih => simp [assignments, Frame.fill, ih]
  | case2 object name value ih => simp [assignments, Frame.fill, ih]
  | case3 e => cases e <;> simp_all [assignments]

/-- Nothing stands behind the last value. -/
theorem back_assignments (e : Expr) : Context.back e.assignments = [] := by
  fun_induction assignments e with
  | case1 name value ih => simp [Context.back, Frame.back, ih]
  | case2 object name value ih => simp [Context.back, Frame.back, ih]
  | case3 => rfl

/-- Any value can stand in the place of the last one. -/
theorem form_plug_assignments {e n : Expr} (h : e.InPrecedenceForm)
    (hn : n.InPrecedenceForm) : (e.assignments.plug n).InPrecedenceForm := by
  fun_induction assignments e with
  | case1 name value ih =>
      cases h with
      | assign hname hvalue => exact .assign hname (ih hvalue)
  | case2 object name value ih =>
      cases h with
      | set hobject hname hform hvalue => exact .set hobject hname hform (ih hvalue)
  | case3 => exact hn

/-- Only an assignment does not let another one pass. -/
theorem assignment_le_bound {e : Expr} (h : e.InPrecedenceForm)
    (hassign : ∀ name value, e ≠ .assign name value)
    (hset : ∀ object name value, e ≠ .set object name value) : .assignment ≤ e.bound := by
  cases e with
  | assign name value => exact absurd rfl (hassign name value)
  | set object name value => exact absurd rfl (hset object name value)
  | _ => exact Nat.succ_le_of_lt h.default_lt_power

end Expr

/-! ## Assignments that are refused -/

namespace Unbounded

open ReadM Ending

variable {e value : Expr} {us k : List Token}

/-- Where the value of an assignment is refused, the assignment is. -/
theorem expr_failed_of_assigned {target : Expr} {d : Diagnostic}
    (hassigned : Expr.assigned? value target = some e) (hform : e.InPrecedenceForm)
    (hspells : e.Spells us)
    (hvalue : ∀ {vs : List Token}, value.InPrecedenceForm → value.Spells vs →
      expr .standard .default (vs ++ k) = failed d) :
    expr .standard .default (us ++ k) = failed d := by
  rcases (Expr.form_iff_of_assigned? hassigned).1 hform with ⟨target_form, value_form⟩
  rcases (Expr.spells_iff_of_assigned? hassigned).1 hspells with
    ⟨vs, equals, ws, rfl, hvs, hequals, hws⟩
  rw [List.append_assoc, List.cons_append,
    (readsBack target_form).assignment hvs target_form.default_lt_power (by decide)
      (Expr.assignment_le_bound_of_assigned? hassigned) hequals]
  exact bind_of_failed (hvalue value_form hws)

/-- An assignment behind a chain that cannot be assigned to is refused, once its
value has been read. -/
theorem expr_assignment_failed {rest : List Token} {equals : Token}
    (hform : e.InPrecedenceForm) (hspells : e.Spells us)
    (hequals : equals.kind = .assignment)
    (hassigned : Expr.assigned? value e.lastValue = none)
    (hvalue : expr .standard .default k = done value rest) :
    expr .standard .default (us ++ equals :: k) =
      failed ⟨.invalidAssignmentTarget, equals.start⟩ := by
  -- The value of each assignment takes in all that binds, so the induction passes on
  -- to the value with the same tokens behind it.
  fun_induction Expr.lastValue e generalizing us with
  | case1 name value' ih =>
      have hchain : Expr.assigned? value' (.var name) = some (.assign name value') := rfl
      apply expr_failed_of_assigned hchain hform hspells
      exact fun hform hspells => ih hform hspells hassigned
  | case2 object name value' ih =>
      have hchain : Expr.assigned? value' (.get object name) =
          some (.set object name value') := rfl
      apply expr_failed_of_assigned hchain hform hspells
      exact fun hform hspells => ih hform hspells hassigned
  | case3 e hassign hset =>
      rw [(readsBack hform).assignment hspells hform.default_lt_power (by decide)
          (Expr.assignment_le_bound hform hassign hset) hequals,
        bind_of_done hvalue, hassigned]
      rfl

end Unbounded

/-! ## Whole lists of tokens -/

section Whole

variable {l r : List Token} {q : Token} {a v : Expr}

private theorem spells_of_parse_of_ne_eof (hl : ∀ t ∈ l, t.kind ≠ .eof) (h : parse l = .ok a) :
    a.Spells l := by
  have hspells := spells_of_parse h
  rwa [← l.append_nil, beforeEnd_append hl kind_headToken_nil] at hspells

/-- The last value of the assignments that are made in front is assigned to. -/
theorem parse_append_of_assigned {n : Expr} (hl : ∀ t ∈ l, t.kind ≠ .eof)
    (hq : q.kind = .assignment) (ha : parse l = .ok a) (hv : parse r = .ok v)
    (hassigned : Expr.assigned? v a.lastValue = some n) :
    parse (l ++ q :: r) = .ok (a.assignments.plug n) := by
  have hform : (a.assignments.plug a.lastValue).InPrecedenceForm := by
    rw [a.plug_assignments]
    exact form_of_parse ha
  have hspells : (a.assignments.plug a.lastValue).Spells l := by
    rw [a.plug_assignments]
    exact spells_of_parse_of_ne_eof hl ha
  rcases Context.spells_plug_iff.1 hspells with ⟨us, ts, ws, rfl, hus, hts, hws⟩
  -- Nothing stands behind the last value: its tokens are the last ones in front.
  rw [a.back_assignments] at hws
  cases hws
  rcases exists_eq_beforeEnd_append r with ⟨rest, hr, hend⟩
  have hn : n.Spells (ts ++ q :: beforeEnd r) :=
    (Expr.spells_iff_of_assigned? hassigned).2 ⟨ts, q, _, rfl, hts, hq, spells_of_parse hv⟩
  have hplug : (a.assignments.plug n).Spells (us ++ (ts ++ q :: beforeEnd r) ++ []) :=
    Context.spells_plug_iff.2
      ⟨us, _, [], rfl, hus, hn, by rw [a.back_assignments]; exact .nil⟩
  have hplug_form : (a.assignments.plug n).InPrecedenceForm :=
    Expr.form_plug_assignments (form_of_parse ha)
      ((Expr.form_iff_of_assigned? hassigned).2
        ⟨Context.form_of_plug hform, form_of_parse hv⟩)
  have hparse := hplug.parse_append hplug_form hend
  rw [hr]
  simpa using hparse

/-- A last value that cannot be assigned to is refused at the assignment behind
it. -/
theorem parse_append_of_not_assigned (hl : ∀ t ∈ l, t.kind ≠ .eof)
    (hq : q.kind = .assignment) (ha : parse l = .ok a) (hv : parse r = .ok v)
    (hassigned : Expr.assigned? v a.lastValue = none) :
    parse (l ++ q :: r) = .error ⟨.invalidAssignmentTarget, q.start⟩ := by
  have hfront : ∀ t ∈ l ++ [q], t.kind ≠ .eof := by
    intro t ht
    rcases List.mem_append.1 ht with hmem | hmem
    · exact hl t hmem
    · simp [List.mem_singleton.1 hmem, hq]
  have hbefore : beforeEnd (l ++ q :: r) = l ++ q :: beforeEnd r := by
    simpa using beforeEnd_append_of_ne hfront r
  rcases exists_eq_beforeEnd_append (TokenStream.complete (l ++ q :: r)) with
    ⟨rest, hcomplete, hend⟩
  rw [TokenStream.beforeEnd_complete, hbefore, List.append_assoc, List.cons_append]
    at hcomplete
  have hvalue := Unbounded.expr_of_spells (form_of_parse hv) (spells_of_parse hv) hend
  have hfailed := Unbounded.expr_assignment_failed (form_of_parse ha)
    (spells_of_parse_of_ne_eof hl ha) hq hassigned hvalue
  rw [parse_eq_error_iff, hcomplete]
  exact ReadM.bind_of_failed hfailed

end Whole

/-- Two lists that are parsed are parsed with an assignment between them exactly if
the last value of the assignments that the first one makes is a variable or a
property.  Then that value becomes an assignment, and all else stays as it is;
otherwise the assignment between them is refused, also if further assignments
follow. -/
theorem parse_append_assignment {l r : List Token} {q : Token} {a v : Expr}
    (hl : ∀ t ∈ l, t.kind ≠ .eof) (hq : q.kind = .assignment) (ha : parse l = .ok a)
    (hv : parse r = .ok v) :
    a.assignments.plug a.lastValue = a ∧
      ((∃ e, parse (l ++ q :: r) = .ok e) ↔
        (∃ name, a.lastValue = .var name) ∨
          ∃ object name, a.lastValue = .get object name) ∧
      (∀ name, a.lastValue = .var name →
        parse (l ++ q :: r) = .ok (a.assignments.plug (.assign name v))) ∧
      (∀ object name, a.lastValue = .get object name →
        parse (l ++ q :: r) = .ok (a.assignments.plug (.set object name v))) ∧
      ((∀ name, a.lastValue ≠ .var name) →
        (∀ object name, a.lastValue ≠ .get object name) →
          parse (l ++ q :: r) = .error ⟨.invalidAssignmentTarget, q.start⟩) := by
  have hvar : ∀ name, a.lastValue = .var name →
      parse (l ++ q :: r) = .ok (a.assignments.plug (.assign name v)) := by
    intro name hname
    exact parse_append_of_assigned hl hq ha hv (by rw [hname]; rfl)
  have hget : ∀ object name, a.lastValue = .get object name →
      parse (l ++ q :: r) = .ok (a.assignments.plug (.set object name v)) := by
    intro object name hname
    exact parse_append_of_assigned hl hq ha hv (by rw [hname]; rfl)
  have hother : (∀ name, a.lastValue ≠ .var name) →
      (∀ object name, a.lastValue ≠ .get object name) →
        parse (l ++ q :: r) = .error ⟨.invalidAssignmentTarget, q.start⟩ := by
    intro hnovar hnoget
    apply parse_append_of_not_assigned hl hq ha hv
    rw [Option.eq_none_iff_forall_ne_some]
    intro e hassigned
    rcases Expr.assigned?_eq_some_iff.1 hassigned with
      ⟨name, hname, -⟩ | ⟨object, name, hname, -⟩
    · exact hnovar name hname
    · exact hnoget object name hname
  refine ⟨a.plug_assignments, ⟨?_, ?_⟩, hvar, hget, hother⟩
  · rintro ⟨e, he⟩
    by_contra hneither
    rw [not_or, not_exists, not_exists] at hneither
    rw [hother hneither.1 (fun object name hname => hneither.2 object ⟨name, hname⟩)] at he
    cases he
  · rintro (⟨name, hname⟩ | ⟨object, name, hname⟩)
    · exact ⟨_, hvar name hname⟩
    · exact ⟨_, hget object name hname⟩

/-- The case of `a = b.c`, to which `d = e` is assigned. -/
theorem parse_append_assignment_chain :
    ∃ a b c d e equals dot : Token,
      parse [a, equals, b, dot, c] = .ok (.assign a (.get (.var b) c)) ∧
        parse [d, equals, e] = .ok (.assign d (.var e)) ∧
          parse ([a, equals, b, dot, c] ++ equals :: [d, equals, e]) =
            .ok (.assign a (.set (.var b) c (.assign d (.var e)))) := by
  have hlaw : ∀ {a b c d e equals dot : Token},
      (∀ t ∈ [a, equals, b, dot, c], t.kind ≠ .eof) → equals.kind = .assignment →
        parse [a, equals, b, dot, c] = .ok (.assign a (.get (.var b) c)) →
          parse [d, equals, e] = .ok (.assign d (.var e)) →
            parse ([a, equals, b, dot, c] ++ equals :: [d, equals, e]) =
              .ok (.assign a (.set (.var b) c (.assign d (.var e)))) :=
    fun hkinds hequals hfront hback =>
      (parse_append_assignment hkinds hequals hfront hback).2.2.2.1 _ _ rfl
  exact ⟨.synthetic .identifier "a", .synthetic .identifier "b",
    .synthetic .identifier "c", .synthetic .identifier "d", .synthetic .identifier "e",
    .synthetic .assignment "=", .synthetic .dot ".", rfl, rfl,
    hlaw (by decide) rfl rfl rfl⟩

end ExprLang
