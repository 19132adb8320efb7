import Formula.CommandLine.Basic
import Formula.Proofs.Places
import Formula.Proofs.Text.Caret
import Formula.Proofs.Token.Trailing

/-!
# Files of expressions

A call that names a file prints what the calls with its lines print, one after the other,
and fails if one of them does. Lines of blanks are no calls, so no line is an empty
expression; and a line that ends in a carriage return is evaluated, and shown, as the
line without it.
-/

namespace Formula

open Text

namespace Report

theorem concat_output (rs : List Report) :
    (concat rs).output = String.join (rs.map Report.output) := by
  induction rs with
  | nil => rfl
  | cons r rs ih =>
    rw [List.map_cons, String.join_cons, ← ih]
    rfl

theorem concat_errors (rs : List Report) :
    (concat rs).errors = String.join (rs.map Report.errors) := by
  induction rs with
  | nil => rfl
  | cons r rs ih =>
    rw [List.map_cons, String.join_cons, ← ih]
    rfl

theorem concat_failed (rs : List Report) :
    (concat rs).failed = true ↔ ∃ r ∈ rs, r.failed = true := by
  induction rs with
  | nil => simp [concat, empty]
  | cons r rs ih =>
    have h : (concat (r :: rs)).failed = (r.failed || (concat rs).failed) := rfl
    rw [h, Bool.or_eq_true, ih, List.exists_mem_cons_iff]

end Report

variable {env : Environment}

theorem evaluate_append_blanks {source blank : List Char} (hb : ∀ c ∈ blank, isBlank c = true)
    (hs : ¬∀ c ∈ source, isBlank c = true) (env : Environment) :
    evaluate (String.ofList (source ++ blank)) env = evaluate (String.ofList source) env := by
  unfold evaluate
  rw [tokenize_append_blanks hb hs]

theorem blank_of_evaluate_empty {source : String} {o : Nat}
    (h : evaluate source env = .error (.parse ⟨.emptyExpression, o⟩)) :
    ∀ c ∈ source.toList, isBlank c = true :=
  blank_of_tokenize_empty (evaluate_eq_parse_error h)

theorem Error.render_append_return {source : List Char} {e : Error}
    (h : evaluate (String.ofList source) env = .error e) :
    e.render (String.ofList (source ++ ['\r'])) = e.render (String.ofList source) := by
  have hle := (evaluate_pointsAt h).isBoundary.le
  rw [String.toList_ofList] at hle
  rw [render, pointAt, String.toList_ofList, Caret.locate_append hle, render, pointAt,
    String.toList_ofList]

theorem Report.ofExpression_append_return {line : List Char}
    (hl : ¬∀ c ∈ line, isBlank c = true) (env : Environment) :
    ofExpression env (String.ofList (line ++ ['\r'])) = ofExpression env (String.ofList line) := by
  have hr : ∀ c ∈ ['\r'], isBlank c = true := by
    intro c hc
    rw [List.mem_singleton.mp hc]
    rfl
  rw [ofExpression, evaluate_append_blanks hr hl, ofExpression]
  cases he : evaluate (String.ofList line) env with
  | ok v => rfl
  | error e => simp only [Error.render_append_return he]

def lineReport? (env : Environment) (line : List Char) : Option Report :=
  if line.all isBlank then none else some (.ofExpression env (String.ofList line))

theorem lineReport?_append_return (env : Environment) (line : List Char) :
    lineReport? env (line ++ ['\r']) = lineReport? env line := by
  have hall : (line ++ ['\r']).all isBlank = line.all isBlank := by
    rw [List.all_append]
    exact Bool.and_true _
  rw [lineReport?, hall, lineReport?]
  split
  · rfl
  · rename_i hl
    rw [List.all_eq_true] at hl
    rw [Report.ofExpression_append_return hl]

theorem ofScript_eq (env : Environment) (script : String) :
    Report.ofScript env script =
      .concat (((lines script.toList).map (lineReport? env)).filterMap id) := by
  rw [Report.ofScript, scriptLines, List.filterMap_map]
  congr 1
  induction lines script.toList with
  | nil => rfl
  | cons line rest ih =>
    cases hl : line.all isBlank with
    | true =>
      have hnone : (id ∘ lineReport? env) line = none := if_pos hl
      rw [List.filterMap_cons_none hnone, ← ih, List.filter_cons_of_neg]
      rw [hl]
      decide
    | false =>
      have hsome : (id ∘ lineReport? env) line = some (.ofExpression env (String.ofList line)) :=
        if_neg (Bool.not_eq_true _ ▸ hl)
      rw [List.filterMap_cons_some hsome, ← ih, List.filter_cons_of_pos]
      · rfl
      · rw [hl]
        rfl

def withReturns (script : String) : String := String.ofList (crlf script.toList)

theorem ofScript_withReturns (env : Environment) (script : String) :
    Report.ofScript env (withReturns script) = Report.ofScript env script := by
  rw [ofScript_eq, withReturns, String.toList_ofList,
    map_lines_crlf _ _ (lineReport?_append_return env), ofScript_eq]

theorem scriptLines_blank {script : String}
    (h : ∀ line ∈ lines script.toList, ∀ c ∈ line, isBlank c = true) : scriptLines script = [] := by
  rw [scriptLines, List.map_eq_nil_iff, List.filter_eq_nil_iff]
  intro line hl
  rw [List.all_eq_true.mpr (h line hl)]
  decide

theorem scriptLines_eq (script : String) :
    scriptLines script =
      ((lines script.toList).filter fun line => line.any fun c => !isBlank c).map .ofList := by
  refine congrArg (List.map String.ofList) (List.filter_congr fun line _ => ?_)
  exact List.not_all_eq_any_not

theorem fromUTF8?_toUTF8 (s : String) : String.fromUTF8? s.toUTF8 = some s :=
  dif_pos s.isValidUTF8

namespace CommandLine

theorem run_file_eq (file? : String → Option ByteArray) {args : List String} {s : Settings}
    {script : String} (hargs : readArguments args = .ok s) (hfile : s.isFile = true)
    (hscript : file? s.contents = some script.toUTF8) :
    run file? args = .finished (.ofScript s.environment script) := by
  rw [run, hargs]
  dsimp only
  rw [hscript, Settings.report, if_pos hfile, Option.bind_some, fromUTF8?_toUTF8]

theorem run_single_eq (file? : String → Option ByteArray) {args : List String} {s : Settings}
    {line : String}
    (hargs : readArguments args = .ok { s with isFile := false, contents := line }) :
    run file? args = .finished (.ofExpression s.environment line) := by
  rw [run, hargs]
  rfl

theorem exitCode_finished (r : Report) :
    ((Outcome.finished r).exitCode = 1 ↔ r.failed = true) ∧
      ((Outcome.finished r).exitCode = 0 ↔ r.failed = false) := by
  rw [Outcome.exitCode]
  cases r.failed <;> decide

theorem finished_concat (reports : List Report) :
    let whole := Outcome.finished (.concat reports)
    let each := reports.map Outcome.finished
    whole.output = String.join (each.map Outcome.output) ∧
      whole.errors = String.join (each.map Outcome.errors) ∧
      (whole.exitCode = 1 ↔ ∃ o ∈ each, o.exitCode = 1) ∧
      (whole.exitCode = 0 ↔ ∀ o ∈ each, o.exitCode = 0) := by
  intro whole each
  have hfailed := Report.concat_failed reports
  refine ⟨?_, ?_, ?_, ?_⟩
  · rw [List.map_map]
    exact Report.concat_output reports
  · rw [List.map_map]
    exact Report.concat_errors reports
  · rw [(exitCode_finished _).1, hfailed]
    simp only [each, List.mem_map, exists_exists_and_eq_and, (exitCode_finished _).1]
  · rw [(exitCode_finished _).2, ← Bool.not_eq_true, hfailed]
    simp only [each, List.forall_mem_map, (exitCode_finished _).2, not_exists, not_and,
      Bool.not_eq_true]

/-- A file is evaluated line by line, in calls of their own with the same options. -/
theorem run_file (file? : String → Option ByteArray) {args : List String} {s : Settings}
    {script : String} (hargs : readArguments args = .ok s) (hfile : s.isFile = true)
    (hscript : file? s.contents = some script.toUTF8) {single : String → List String}
    (hsingle : ∀ line,
      readArguments (single line) = .ok { s with isFile := false, contents := line }) :
    let whole := run file? args
    let evaluated : List String :=
      ((lines script.toList).filter fun line => line.any fun c => !isBlank c).map .ofList
    let each := evaluated.map fun line => run file? (single line)
    (whole.output = String.join (each.map Outcome.output) ∧
      whole.errors = String.join (each.map Outcome.errors) ∧
      (whole.exitCode = 1 ↔ ∃ o ∈ each, o.exitCode = 1) ∧
      (whole.exitCode = 0 ↔ ∀ o ∈ each, o.exitCode = 0)) ∧
    (∀ line v, evaluate line s.environment = .ok v →
      run file? (single line) = .finished ⟨v.text ++ "\n", "", false⟩) ∧
    (∀ line e, evaluate line s.environment = .error e →
      run file? (single line) = .finished ⟨"", e.render line ++ "\n", true⟩) ∧
    (∀ line ∈ evaluated, ∀ offset,
      evaluate line s.environment ≠ .error (.parse ⟨.emptyExpression, offset⟩)) ∧
    ((∀ line ∈ lines script.toList, ∀ c ∈ line, isBlank c = true) →
      whole = .finished ⟨"", "", false⟩) ∧
    (∀ file'? : String → Option ByteArray,
      file'? s.contents = some (withReturns script).toUTF8 → run file'? args = whole) := by
  intro whole evaluated each
  have hlines : scriptLines script = evaluated := scriptLines_eq script
  have hwhole : whole = .finished (.ofScript s.environment script) :=
    run_file_eq file? hargs hfile hscript
  have hsingle (line : String) :
      run file? (single line) = .finished (.ofExpression s.environment line) :=
    run_single_eq file? (hsingle line)
  let reports := evaluated.map (Report.ofExpression s.environment)
  have hreport : Report.ofScript s.environment script = .concat reports := by
    rw [Report.ofScript, hlines]
  have heach : each = reports.map .finished := by
    rw [List.map_map]
    exact List.map_congr_left fun line _ => hsingle line
  refine ⟨?_, ?_, ?_, ?_, ?_, ?_⟩
  · rw [hwhole, hreport, heach]
    exact finished_concat reports
  · intro line v hv
    rw [hsingle line, Report.ofExpression, hv]
  · intro line e he
    rw [hsingle line, Report.ofExpression, he]
  · intro line hl offset he
    obtain ⟨cs, hcs, rfl⟩ := List.mem_map.mp hl
    obtain ⟨c, hc, hb⟩ := List.any_eq_true.mp (List.mem_filter.mp hcs).2
    rw [blank_of_evaluate_empty he c (String.toList_ofList ▸ hc)] at hb
    cases hb
  · intro hb
    rw [hwhole, Report.ofScript, scriptLines_blank hb]
    rfl
  · intro file'? hscript'
    rw [hwhole, run_file_eq file'? hargs hfile hscript', ofScript_withReturns]

/-- The second line is blank and the third one fails. -/
theorem run_file_three_lines :
    let file? : String → Option ByteArray := fun _ => some "[1, 2] + 3\n \n2 +\r\n".toUTF8
    let args := ["--file", "sums"]
    let single (line : String) := ["--", line]
    let s : Settings := ⟨true, [], true, Environment.empty.tolerance, "sums"⟩
    readArguments args = .ok s ∧
      (∀ line, readArguments (single line) = .ok { s with isFile := false, contents := line }) ∧
      (run file? args).output = "[4, 5]\n" ∧
      (run file? args).errors =
        "Error at position 2: Unexpected end of expression after '+'.\n\n2 +\n  ▲\n──╯\n" ∧
      (run file? args).exitCode = 1 := by
  intro file? args single s
  have hargs : readArguments args = .ok s := by rfl
  have hsingle (line : String) :
      readArguments (single line) = .ok { s with isFile := false, contents := line } := by rfl
  obtain ⟨⟨ho, he, hc, -⟩, hok, herr, -⟩ := run_file file? hargs rfl rfl hsingle
  have hlines : ((lines "[1, 2] + 3\n \n2 +\r\n".toList).filter
      fun line => line.any fun c => !isBlank c).map String.ofList = ["[1, 2] + 3", "2 +"] := by
    rw [← scriptLines_eq]
    decide +kernel
  have hfirst := hok "[1, 2] + 3" (.vector [4, 5]) (by decide +kernel)
  have hsecond := herr "2 +" (.parse ⟨.unexpectedEnd (.binary .add), 2⟩) (by decide +kernel)
  simp only [hlines, List.map_cons, List.map_nil, hfirst, hsecond] at ho he hc
  refine ⟨hargs, hsingle, ?_, ?_, ?_⟩
  · rw [ho]
    decide +kernel
  · rw [he]
    decide +kernel
  · rw [hc]
    decide +kernel

end CommandLine

end Formula
