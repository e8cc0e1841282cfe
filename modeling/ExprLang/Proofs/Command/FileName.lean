import ExprLang.Command.File

/-!
# Base names

The base name of a path is its last part that leads anywhere: it starts the path or
stands behind a slash, and nothing is behind it but slashes and single dots.  It is a
name, so it is not made of dots only, and a path that ends by going upwards has none.
A file is called by the base name of its path, whatever is in front of it.

Main results:

- Theorem `fileName_eq_of_isBaseName`: a file is called by the base name of its path.
- Theorem `isBaseName_or_fileName_eq`: it is called by the whole path only if there is
  no base name.
-/

namespace ExprLang

/-! ## Names at the end of a path -/

/-- Slashes and single dots, which lead nowhere behind a name. -/
inductive Trail : List Char → Prop where
  | nil : Trail []
  | slash {cs : List Char} (h : Trail cs) : Trail ('/' :: cs)
  | dot {cs : List Char} (h : Trail cs) : Trail ('/' :: '.' :: cs)

/-- A name is the last one in a path. -/
structure IsBaseName (path name : String) : Prop where
  /-- The name stands at the start or behind a slash, and behind it is nothing that
  leads anywhere. -/
  between : ∃ front back, path.toList = front ++ (name.toList ++ back) ∧
    (∀ c ∈ front.getLast?, c = '/') ∧ Trail back
  plain : '/' ∉ name.toList
  ne_empty : name ≠ ""
  ne_dot : name ≠ "."
  ne_up : name ≠ ".."

/-! ## Parts of a path -/

section Parts

variable {cs front name : List Char} {part : List Char} {parts steps : List (List Char)}

/-- A text has at least one part. -/
private theorem splitSlashes_ne_nil (cs : List Char) : splitSlashes cs ≠ [] := by
  cases cs with
  | nil => simp [splitSlashes]
  | cons c cs =>
      unfold splitSlashes
      split
      · simp
      · split <;> simp

private theorem splitSlashes_of_not_mem (h : '/' ∉ cs) : splitSlashes cs = [cs] := by
  induction cs with
  | nil => rfl
  | cons c cs ih =>
      rcases List.ne_and_not_mem_of_not_mem_cons h with ⟨hc, hcs⟩
      rw [splitSlashes, if_neg (Ne.symm hc), ih hcs]

/-- The parts in front of a slash and those behind it. -/
theorem splitSlashes_append (front back : List Char) :
    splitSlashes (front ++ '/' :: back) = splitSlashes front ++ splitSlashes back := by
  induction front with
  | nil => simp [splitSlashes]
  | cons c front ih =>
      rcases List.exists_cons_of_ne_nil (splitSlashes_ne_nil front) with ⟨part, parts, hfront⟩
      rw [hfront] at ih
      by_cases hc : c = '/'
      · simp [splitSlashes, hc, ih, hfront]
      · simp [splitSlashes, hc, ih, hfront]

/-- A text ends behind its first part, or goes on behind a slash with the others. -/
theorem cases_of_splitSlashes (h : splitSlashes cs = part :: parts) :
    '/' ∉ part ∧ (parts = [] ∧ cs = part ∨
      ∃ rest, cs = part ++ '/' :: rest ∧ splitSlashes rest = parts) := by
  by_cases hslash : '/' ∈ cs
  · rcases List.eq_append_cons_of_mem hslash with ⟨first, rest, rfl, hfirst⟩
    rw [splitSlashes_append, splitSlashes_of_not_mem hfirst, List.singleton_append,
      List.cons.injEq] at h
    rcases h with ⟨rfl, hrest⟩
    exact ⟨hfirst, .inr ⟨rest, rfl, hrest⟩⟩
  · rw [splitSlashes_of_not_mem hslash, List.cons.injEq] at h
    rcases h with ⟨rfl, rfl⟩
    exact ⟨hslash, .inl ⟨rfl, rfl⟩⟩

/-- What ends in a slash is cut into parts of its own. -/
theorem exists_parts_of_front (hfront : ∀ c ∈ front.getLast?, c = '/') :
    ∃ parts, ∀ rest, splitSlashes (front ++ rest) = parts ++ splitSlashes rest := by
  cases hlast : front.getLast? with
  | none =>
      rw [List.getLast?_eq_none_iff] at hlast
      exact ⟨[], fun rest => by rw [hlast]; rfl⟩
  | some c =>
      obtain rfl := hfront c hlast
      rcases List.getLast?_eq_some_iff.1 hlast with ⟨before, rfl⟩
      refine ⟨splitSlashes before, fun rest => ?_⟩
      rw [List.append_assoc]
      exact splitSlashes_append before rest

/-- The last parts of a path stand behind a slash, unless they are all. -/
theorem exists_front_of_parts (h : splitSlashes cs = parts ++ name :: steps) :
    ∃ front rest, cs = front ++ rest ∧ (∀ c ∈ front.getLast?, c = '/') ∧
      splitSlashes rest = name :: steps := by
  induction parts generalizing cs with
  | nil => exact ⟨[], cs, rfl, by simp, h⟩
  | cons part parts ih =>
      rcases cases_of_splitSlashes h with ⟨-, ⟨hnil, -⟩ | ⟨rest, rfl, hrest⟩⟩
      · simp at hnil
      · rcases ih hrest with ⟨front, rest, rfl, hfront, hrest⟩
        refine ⟨part ++ '/' :: front, rest, by simp, ?_, hrest⟩
        intro c hc
        cases hlast : front.getLast? with
        | none => simpa [List.getLast?_eq_none_iff.1 hlast, eq_comm] using hc
        | some last =>
            rw [List.getLast?_append, List.getLast?_cons, hlast] at hc
            obtain rfl := Option.some.inj hc
            exact hfront _ hlast

end Parts

/-! ## Parts that stay -/

section Steps

variable {cs name back : List Char} {steps : List (List Char)}

private theorem isStep_ofList_iff {part : List Char} :
    isStep (.ofList part) = true ↔ part = [] ∨ part = ['.'] := by
  simp [isStep, String.ext_iff]

/-- A trail is cut into parts that stay. -/
theorem Trail.exists_steps (h : Trail back) :
    ∃ steps, (∀ part ∈ steps, isStep (.ofList part) = true) ∧
      ∀ name, '/' ∉ name → splitSlashes (name ++ back) = name :: steps := by
  induction h with
  | nil => exact ⟨[], by simp, fun name hname => by simpa using splitSlashes_of_not_mem hname⟩
  | slash h ih =>
      rcases ih with ⟨steps, hsteps, hcut⟩
      refine ⟨[] :: steps, List.forall_mem_cons.2 ⟨rfl, hsteps⟩, fun name hname => ?_⟩
      have hrest := hcut [] (by simp)
      rw [List.nil_append] at hrest
      rw [splitSlashes_append, splitSlashes_of_not_mem hname, hrest]
      rfl
  | dot h ih =>
      rcases ih with ⟨steps, hsteps, hcut⟩
      refine ⟨['.'] :: steps, List.forall_mem_cons.2 ⟨rfl, hsteps⟩, fun name hname => ?_⟩
      have hrest := hcut ['.'] (by decide)
      rw [List.singleton_append] at hrest
      rw [splitSlashes_append, splitSlashes_of_not_mem hname, hrest]
      rfl

/-- Parts that stay make a trail. -/
theorem exists_trail (hsteps : ∀ part ∈ steps, isStep (.ofList part) = true)
    (h : splitSlashes cs = name :: steps) : ∃ back, Trail back ∧ cs = name ++ back := by
  induction steps generalizing cs name with
  | nil =>
      rcases cases_of_splitSlashes h with ⟨-, ⟨-, rfl⟩ | ⟨rest, -, hrest⟩⟩
      · exact ⟨[], .nil, (List.append_nil _).symm⟩
      · exact absurd hrest (splitSlashes_ne_nil rest)
  | cons part steps ih =>
      rcases List.forall_mem_cons.1 hsteps with ⟨hpart, hsteps⟩
      rcases cases_of_splitSlashes h with ⟨-, ⟨hnil, -⟩ | ⟨rest, rfl, hrest⟩⟩
      · cases hnil
      · rcases ih hsteps hrest with ⟨back, hback, rfl⟩
        rcases isStep_ofList_iff.1 hpart with rfl | rfl
        · exact ⟨'/' :: back, .slash hback, rfl⟩
        · exact ⟨'/' :: '.' :: back, .dot hback, rfl⟩

end Steps

/-! ## The name of a file -/

variable {path name : String}

/-- The last part of a list that passes a test has only parts behind it that fail. -/
private theorem exists_of_getLast?_filter {α : Type} {p : α → Bool} {as : List α} {a : α}
    (h : (as.filter p).getLast? = some a) :
    p a = true ∧ ∃ front back, as = front ++ a :: back ∧ ∀ b ∈ back, p b = false := by
  rw [List.getLast?_eq_head?_reverse, ← List.filter_reverse, List.head?_filter,
    List.find?_eq_some_iff_append] at h
  rcases h with ⟨ha, back, front, hreverse, hback⟩
  refine ⟨ha, front.reverse, back.reverse, ?_, ?_⟩
  · rw [← List.reverse_reverse as, hreverse]
    simp
  · simpa using hback

/-- A file is called by the base name of its path. -/
theorem fileName_eq_of_isBaseName (h : IsBaseName path name) : fileName path = name := by
  rcases h.between with ⟨front, back, hpath, hfront, hback⟩
  rcases exists_parts_of_front hfront with ⟨parts, hparts⟩
  rcases hback.exists_steps with ⟨steps, hsteps, hcut⟩
  have hpathParts : pathParts path =
      parts.map String.ofList ++ name :: steps.map String.ofList := by
    simp [pathParts, hpath, hparts, hcut _ h.plain]
  have hstay : (steps.map String.ofList).filter (!isStep ·) = [] := by
    simpa using hsteps
  have hname : isStep name = false := by simp [isStep, h.ne_empty, h.ne_dot]
  have hlast : ((pathParts path).filter (!isStep ·)).getLast? = some name := by
    rw [hpathParts, List.filter_append, List.filter_cons_of_pos (by simp [hname]), hstay,
      List.getLast?_append]
    rfl
  rw [fileName, hlast]
  split
  · contradiction
  · rename_i hup
    exact absurd (Option.some.inj hup) h.ne_up
  · rename_i hsome
    exact (Option.some.inj hsome).symm

/-- A file is called by the whole path only if the path has no base name. -/
theorem isBaseName_or_fileName_eq (path : String) :
    IsBaseName path (fileName path) ∨ fileName path = path := by
  rw [fileName]
  split
  · exact .inr rfl
  · exact .inr rfl
  · rename_i name hup hlast
    rcases exists_of_getLast?_filter hlast with ⟨hname, parts, steps, hparts, hsteps⟩
    rw [pathParts, List.map_eq_append_iff] at hparts
    rcases hparts with ⟨front, back, hcut, -, hback⟩
    rcases List.map_eq_cons_iff.1 hback with ⟨last, stay, rfl, rfl, rfl⟩
    rcases exists_front_of_parts hcut with ⟨front, rest, hpath, hfront, hrest⟩
    have hstay : ∀ part ∈ stay, isStep (.ofList part) = true := by
      intro part hpart
      simpa using hsteps _ (List.mem_map_of_mem hpart)
    rcases exists_trail hstay hrest with ⟨back, hback, rfl⟩
    have hplain := (cases_of_splitSlashes hrest).1
    simp only [Bool.not_eq_true', isStep, Bool.or_eq_false_iff, beq_eq_false_iff_ne] at hname
    exact .inl ⟨⟨front, back, by simpa using hpath, hfront, hback⟩, by simpa using hplain,
      hname.1, hname.2, hup⟩

end ExprLang
