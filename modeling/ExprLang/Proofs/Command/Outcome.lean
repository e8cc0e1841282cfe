import ExprLang.Command.Run
import ExprLang.Proofs.Command.FileName
import ExprLang.Proofs.Phase.Basic
import ExprLang.Proofs.Relocation.Source

/-!
# Outcomes of the program

The program runs the phases one after another and stops at the first fault.  Its exit
code tells which phase failed, and the report of the fault is all that it writes to
the error output.  Of the name of the source nothing is seen but in the line of the
report that shows it, so an expression and a file that holds it are treated alike.

Main results:

- Theorem `Command.runSource_tells`: an outcome tells how far a source has come.
- Theorem `Command.runSource_agrees`: outcomes of a source under two names.
- Theorem `Command.run_text_and_file`: an expression, and a file that holds it.
-/

namespace ExprLang

variable {source file name : String} {d : Diagnostic} {e : Expr}

/-! ## What an outcome tells -/

namespace Outcome

/-- An outcome tells how far a source has come, and shows what was found there. -/
structure Tells (o : Outcome) (source file : String) : Prop where
  /-- Nothing is printed of a source that is rejected. -/
  rejected : ∀ d, Rejects source file d → o = ⟨65, "", d.report source file⟩
  /-- An expression that has no value is printed. -/
  refused : ∀ e d, Accepts source file e → e.eval = .error d →
    o = ⟨70, e.printed ++ "\n", d.report source file⟩
  /-- An expression that has one is printed with it, and nothing is reported. -/
  valued : ∀ e value, Accepts source file e → e.eval = .ok value →
    o = ⟨0, e.printed ++ "\n" ++ value.text ++ "\n", ""⟩
  codes : o.code = 65 ∨ o.code = 70 ∨ o.code = 0
  of_65 : o.code = 65 → ∃ d, Rejects source file d
  of_70 : o.code = 70 → ∃ e d, Accepts source file e ∧ e.eval = .error d
  of_zero : o.code = 0 → ∃ e value, Accepts source file e ∧ e.eval = .ok value

/-- Two outcomes are the same, but that the line of the report that names the file
names another one. -/
inductive Agrees (name name' : String) : Outcome → Outcome → Prop where
  | silent (code : UInt32) (stdout : String) :
      Agrees name name' ⟨code, stdout, ""⟩ ⟨code, stdout, ""⟩
  | reported (code : UInt32) (stdout head tail : String) :
      Agrees name name' ⟨code, stdout, head ++ "\n-> " ++ name ++ "\n" ++ tail⟩
        ⟨code, stdout, head ++ "\n-> " ++ name' ++ "\n" ++ tail⟩

end Outcome

/-! ## Reports -/

private theorem Fault.exists_headline (f : Fault) : ∃ head, f.headline = head ++ "\n" := by
  unfold headline
  split
  · exact ⟨_, rfl⟩
  · rename_i tip htip
    refine ⟨"Error: " ++ f.name ++ " (" ++ tip ++ ")", ?_⟩
    simp [String.append_assoc]

/-- The name of the file is in one line of a report, and that is all that the report
shows of it. -/
theorem Diagnostic.exists_report (d : Diagnostic) (source : String) :
    ∃ head tail, ∀ file, d.report source file = head ++ "\n-> " ++ file ++ "\n" ++ tail := by
  rcases d.fault.exists_headline with ⟨head, hhead⟩
  have hline : head ++ "\n" ++ "-> " = head ++ "\n-> " := String.append_assoc
  exact ⟨head, _, fun file => by rw [report, hhead, hline]⟩

/-- A report does not show the file that the diagnostic is in. -/
theorem Diagnostic.report_inFile (d : Diagnostic) (source file name : String) :
    (d.relocate (.inFile name)).report source file = d.report source file :=
  rfl

/-! ## Runs -/

namespace Command

private theorem runSource_of_error (h : parseSource source file = .error d) :
    runSource source file = ⟨65, "", d.report source file⟩ := by
  rw [runSource, h]

private theorem runSource_of_eval_error (h : parseSource source file = .ok e)
    (heval : e.eval = .error d) :
    runSource source file = ⟨70, e.printed ++ "\n", d.report source file⟩ := by
  simp only [runSource, h, runExpr, heval]

private theorem runSource_of_eval {value : Value} (h : parseSource source file = .ok e)
    (heval : e.eval = .ok value) :
    runSource source file = ⟨0, e.printed ++ "\n" ++ value.text ++ "\n", ""⟩ := by
  simp only [runSource, h, runExpr, heval]

/-- A run ends in one of three ways. -/
theorem runSource_cases (source file : String) :
    (∃ d, Rejects source file d ∧
        runSource source file = ⟨65, "", d.report source file⟩) ∨
      (∃ e d, Accepts source file e ∧ e.eval = .error d ∧
        runSource source file = ⟨70, e.printed ++ "\n", d.report source file⟩) ∨
      ∃ e value, Accepts source file e ∧ e.eval = .ok value ∧
        runSource source file = ⟨0, e.printed ++ "\n" ++ value.text ++ "\n", ""⟩ := by
  cases hparse : parseSource source file with
  | error d => exact .inl ⟨d, rejects_iff.2 hparse, runSource_of_error hparse⟩
  | ok e =>
      cases heval : e.eval with
      | error d =>
          exact .inr (.inl ⟨e, d, accepts_iff.2 hparse, heval,
            runSource_of_eval_error hparse heval⟩)
      | ok value =>
          exact .inr (.inr ⟨e, value, accepts_iff.2 hparse, heval,
            runSource_of_eval hparse heval⟩)

/-- A run tells how far its source has come. -/
theorem runSource_tells (source file : String) :
    (runSource source file).Tells source file := by
  constructor
  case rejected => exact fun d h => runSource_of_error (rejects_iff.1 h)
  case refused => exact fun e d h heval => runSource_of_eval_error (accepts_iff.1 h) heval
  case valued => exact fun e value h heval => runSource_of_eval (accepts_iff.1 h) heval
  all_goals
    rcases runSource_cases source file with
      ⟨d, h, hrun⟩ | ⟨e, d, h, heval, hrun⟩ | ⟨e, value, h, heval, hrun⟩ <;> rw [hrun]
  case codes.inl => exact .inl rfl
  case codes.inr.inl => exact .inr (.inl rfl)
  case codes.inr.inr => exact .inr (.inr rfl)
  case of_65.inl => exact fun _ => ⟨d, h⟩
  case of_70.inr.inl => exact fun _ => ⟨e, d, h, heval⟩
  case of_zero.inr.inr => exact fun _ => ⟨e, value, h, heval⟩
  -- The other cases are those of another code.
  all_goals
    intro hcode
    simp at hcode

/-- A source under two names has the same outcome, but for the line with the name. -/
theorem runSource_agrees (source file name : String) :
    Outcome.Agrees file name (runSource source file) (runSource source name) := by
  have hname := parseSource_inFile source file name
  cases hparse : parseSource source file with
  | error d =>
      rw [hparse] at hname
      rcases d.exists_report source with ⟨head, tail, hreport⟩
      rw [runSource_of_error hparse, runSource_of_error hname, d.report_inFile, hreport,
        hreport]
      exact .reported 65 "" head tail
  | ok e =>
      rw [hparse] at hname
      have heval_name : (e.relocate (.inFile name)).eval =
          e.eval.mapError (Diagnostic.relocate (.inFile name)) := e.eval_relocate
      cases heval : e.eval with
      | error d =>
          rw [heval] at heval_name
          rcases d.exists_report source with ⟨head, tail, hreport⟩
          rw [runSource_of_eval_error hparse heval, runSource_of_eval_error hname heval_name,
            d.report_inFile, e.printed_relocate, hreport, hreport]
          exact .reported 70 _ head tail
      | ok value =>
          rw [heval] at heval_name
          rw [runSource_of_eval hparse heval, runSource_of_eval hname heval_name,
            e.printed_relocate]
          exact .silent 0 _

/-- An expression, and any file that holds it, are treated alike.  The exit codes and
the standard outputs are the same, and the error outputs differ in the name that is
shown, which is `shell` or the base name of the path; only a path without one, which
leads to no file, would be shown as a whole.  Both runs tell how far the source has
come. -/
theorem run_text_and_file {read : String → Except ReadFault String} {text path : String}
    (hflag : text ≠ "--file") (hread : read path = .ok text) :
    ∃ o o' name, (ofArguments [text]).run read = o ∧
      (ofArguments ["--file", path]).run read = o' ∧
      Outcome.Agrees "shell" name o o' ∧ o.Tells text "shell" ∧ o'.Tells text name ∧
      (∀ base, IsBaseName path base → name = base) ∧
      ((∀ base, ¬IsBaseName path base) → name = path) := by
  have hrun : (ofArguments [text]).run read = runSource text "shell" := by
    have hargument : text ≠ fileFlag := hflag
    rw [ofArguments, if_neg hargument]
    rfl
  have hrun_file : (ofArguments ["--file", path]).run read =
      runSource text (fileName path) := run_file hread
  exact ⟨_, _, _, hrun, hrun_file, runSource_agrees text "shell" (fileName path),
    runSource_tells text "shell", runSource_tells text (fileName path),
    fun _ hbase => fileName_eq_of_isBaseName hbase,
    fun hnone => (isBaseName_or_fileName_eq path).resolve_left (hnone _)⟩

/-- The case of `#`, and of a file that holds it and is named from the root. -/
theorem run_text_and_file_at_hash :
    ∃ (read : String → Except ReadFault String) (o o' : Outcome) (name : String),
      "#" ≠ "--file" ∧ read "/srv/plumb/a.b" = .ok "#" ∧
      (ofArguments ["#"]).run read = o ∧
      (ofArguments ["--file", "/srv/plumb/a.b"]).run read = o' ∧
      Outcome.Agrees "shell" name o o' ∧ o.code = 65 ∧
      IsBaseName "/srv/plumb/a.b" "a.b" ∧ name = "a.b" ∧
      o'.stderr = "Error: UnrecognisedToken\n-> a.b\n  |\n1 | #\n  | ^\n" := by
  let read : String → Except ReadFault String := fun path =>
    if path = "/srv/plumb/a.b" then .ok "#" else .error .notFound
  have hcut : Piece.CutBefore [] ['#'] := trivial
  have htokens (file : String) : tokenize "#" file =
      .error ⟨.unrecognisedToken "#", .ofByte file 0⟩ :=
    tokenize_of_fault rfl hcut (.unrecognised (by decide))
  have hbase : IsBaseName "/srv/plumb/a.b" "a.b" :=
    ⟨⟨"/srv/plumb/".toList, [], by decide, by rintro c ⟨⟩; rfl, .nil⟩, by decide, by decide,
      by decide, by decide⟩
  have hread : read "/srv/plumb/a.b" = .ok "#" := if_pos rfl
  rcases run_text_and_file (by decide) hread with
    ⟨o, o', name, hrun, hrun', hagrees, htells, htells', hname, -⟩
  obtain rfl := hname _ hbase
  refine ⟨read, o, o', _, by decide, hread, hrun, hrun', hagrees, ?_, hbase, rfl, ?_⟩
  · rw [htells.rejected _ (.scanning (htokens _))]
  · rw [htells'.rejected _ (.scanning (htokens _))]
    rfl

end Command

end ExprLang
