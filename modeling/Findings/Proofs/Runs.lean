import Findings.Program
import Findings.Proofs.Files
import Findings.Proofs.RoundTrip

/-!
# Whole runs

A run that is accepted reads its input to the end, and only then prints the report, or writes it to
one file. A run that fails at any point has done neither.

What a run takes as its input is said by `Selects`, when it comes to a report by `Accepts`; both
speak of the words of the command line, of the files and of standard input, not of how the run goes.

Main statement: a run does all that it is asked or changes nothing (`Program.runIn_all_or_nothing`).
-/

namespace Findings.Program

open Json CommandLine

variable {fs fs' : Files} {stdin s : Stream} {args : List String} {o : Options} {r : Report}

/-! ## What a run is asked -/

/-- What a run takes as its input: standard input if no input is named or its name is a lone dash,
and otherwise what the file of that name holds. -/
inductive Selects (fs : Files) (stdin : Stream) (o : Options) : Stream → Prop where
  | omitted (h : o.input = none) : Selects fs stdin o stdin
  | dash (h : o.input = some "-") : Selects fs stdin o stdin
  | named {path : String} {s : Stream} (h : o.input = some path) (hne : path ≠ "-")
      (hread : fs.read path = .ok s) : Selects fs stdin o s

/-- The command line is accepted with options `o`, and the input can be read and holds `r`. -/
def Accepts (fs : Files) (stdin : Stream) (args : List String) (o : Options) (r : Report) : Prop :=
  parse args = .ok o ∧ ∃ s, Selects fs stdin o s ∧ Report.ofStream s = .ok r

/-- The number that tells whether a report holds an error. -/
def errorCode (r : Report) : UInt32 :=
  if ∃ file ∈ r, ∃ finding ∈ file.findings, finding.severity = .error then 1 else 0

theorem code_status (r : Report) : r.status.code = errorCode r := by
  have hiff : r.hasErrors = true ↔
      ∃ file ∈ r, ∃ finding ∈ file.findings, finding.severity = .error := by
    simp [Report.hasErrors, FileReport.hasErrors, Finding.isError]
  unfold Report.status errorCode
  by_cases h : r.hasErrors = true
  · rw [if_pos h, if_pos (hiff.mp h)]; rfl
  · rw [if_neg h, if_neg fun hc => h (hiff.mpr hc)]; rfl

/-! ## Input -/

/-- What is read for the name of an input. -/
def source (fs : Files) (stdin : Stream) : Option String → Except FileProblem Stream
  | some path => fs.read path
  | none => .ok stdin

theorem fetch_directory (fs : Files) (stdin : Stream) (path : Option String) :
    (fetch (directory stdin) path).run fs = (source fs stdin path, fs) := by
  cases path <;> rfl

theorem inputPath_eq_some_iff {path : String} :
    o.inputPath = some path ↔ o.input = some path ∧ path ≠ "-" := by
  unfold Options.inputPath
  rw [Option.filter_eq_some_iff]
  simp

theorem inputPath_eq_none_iff : o.inputPath = none ↔ o.input = none ∨ o.input = some "-" := by
  unfold Options.inputPath
  cases h : o.input with
  | none => simp
  | some path => simp [Option.filter_some]

theorem source_eq_ok_iff : source fs stdin o.inputPath = .ok s ↔ Selects fs stdin o s := by
  constructor
  · intro h
    cases hp : o.inputPath with
    | none =>
      rw [hp] at h
      have hs : stdin = s := Except.ok.inj h
      rw [← hs]
      rcases inputPath_eq_none_iff.mp hp with hnone | hdash
      · exact .omitted hnone
      · exact .dash hdash
    | some path =>
      rw [hp] at h
      obtain ⟨hinput, hne⟩ := inputPath_eq_some_iff.mp hp
      exact .named hinput hne h
  · intro h
    cases h with
    | omitted h => rw [inputPath_eq_none_iff.mpr (Or.inl h)]; rfl
    | dash h => rw [inputPath_eq_none_iff.mpr (Or.inr h)]; rfl
    | named h hne hread => rw [inputPath_eq_some_iff.mpr ⟨h, hne⟩]; exact hread

theorem load_eq_ok_iff {input : Except FileProblem Stream} :
    load input = .ok r ↔ ∃ s, input = .ok s ∧ Report.ofStream s = .ok r := by
  constructor
  · intro h
    cases input with
    | error e => cases h
    | ok s =>
      refine ⟨s, rfl, ?_⟩
      change (Report.ofStream s).mapError LoadProblem.document = .ok r at h
      cases hs : Report.ofStream s with
      | error e => rw [hs] at h; cases h
      | ok r' => rw [hs] at h; cases h; rfl
  · intro h
    obtain ⟨s, rfl, hs⟩ := h
    change (Report.ofStream s).mapError LoadProblem.document = .ok r
    rw [hs]
    rfl

theorem load_source_eq_ok_iff :
    load (source fs stdin o.inputPath) = .ok r ↔
      ∃ s, Selects fs stdin o s ∧ Report.ofStream s = .ok r := by
  rw [load_eq_ok_iff]
  simp only [source_eq_ok_iff]

theorem accepts_iff : Accepts fs stdin args o r ↔
    parse args = .ok o ∧ load (source fs stdin o.inputPath) = .ok r := by
  rw [load_source_eq_ok_iff]
  rfl

/-! ## Steps of a run -/

theorem run_bind {α β : Type} (x : StateM Files α) (f : α → StateM Files β) (fs : Files) :
    (x >>= f).run fs = (f (x.run fs).1).run (x.run fs).2 :=
  rfl

theorem write_directory (fs : Files) (stdin : Stream) (path : String) (bytes : List UInt8) :
    ((directory stdin).write path bytes).run fs =
      match fs.write path bytes with
      | .ok fs' => (.ok (), fs')
      | .error e => (.error e, fs) := by
  change StateT.run (match fs.write path bytes with | .ok fs' => _ | .error e => _) fs = _
  cases fs.write path bytes <;> rfl

theorem deliver_print (before : List Event) :
    (deliver (directory stdin) none r before).run fs =
      ({ status := r.status, output := r.printed, log := before }, fs) :=
  rfl

theorem deliver_write {path : String} (before : List Event)
    (h : fs.write path (Text.Utf8.encode r.printed.toList) = .ok fs') :
    (deliver (directory stdin) (some path) r before).run fs =
      ({ status := r.status, log := before ++ [.wrote path] }, fs') := by
  unfold deliver
  simp only [run_bind, write_directory, h]
  rfl

theorem deliver_refused {path : String} {e : FileProblem} (before : List Event)
    (h : fs.write path (Text.Utf8.encode r.printed.toList) = .error e) :
    (deliver (directory stdin) (some path) r before).run fs =
      ({ status := .failed, log := before ++ [.failed (.write e)] }, fs) := by
  unfold deliver
  simp only [run_bind, write_directory, h]
  rfl

theorem perform_of_error {e : LoadProblem} (h : load (source fs stdin o.inputPath) = .error e) :
    (perform (directory stdin) o).run fs =
      ({ status := .failed, log := [.reading o.inputPath, .failed (.load e)] }, fs) := by
  unfold perform
  simp only [run_bind, fetch_directory, h]
  rfl

theorem perform_of_ok (h : load (source fs stdin o.inputPath) = .ok r) :
    (perform (directory stdin) o).run fs =
      (deliver (directory stdin) o.output r
        [.reading o.inputPath, .decoded r.length r.total]).run fs := by
  unfold perform
  simp only [run_bind, fetch_directory, h]
  rfl

/-- The part of the log that is told does not bear on what else a run does. -/
theorem runIn_of_parse_eq_ok (h : parse args = .ok o) {outcome : Run}
    (hperform : (perform (directory stdin) o).run fs = (outcome, fs')) :
    runIn fs stdin args =
      ({ outcome with log := outcome.log.filter (·.isLogged o.verbose) }, fs') := by
  unfold runIn run
  simp only [h, run_bind, hperform]
  rfl

/-! ## How a run ends -/

theorem runIn_of_print (h : Accepts fs stdin args o r) (hout : o.output = none) :
    (runIn fs stdin args).1.status = r.status ∧ (runIn fs stdin args).1.output = r.printed ∧
      (runIn fs stdin args).2 = fs := by
  obtain ⟨hparse, hload⟩ := accepts_iff.mp h
  have hperform := perform_of_ok hload
  rw [hout, deliver_print] at hperform
  rw [runIn_of_parse_eq_ok hparse hperform]
  exact ⟨rfl, rfl, rfl⟩

theorem runIn_of_write {path : String} {l : Location} (h : Accepts fs stdin args o r)
    (hout : o.output = some path) (hpath : fs.Writable path l) :
    (runIn fs stdin args).1.status = r.status ∧ (runIn fs stdin args).1.output = "" ∧
      (runIn fs stdin args).2 = fs.insert l (.file (Text.Utf8.encode r.printed.toList)) := by
  obtain ⟨hparse, hload⟩ := accepts_iff.mp h
  have hwrite := Files.write_eq_ok_iff.mpr
    ⟨l, hpath, (rfl : fs.insert l (.file (Text.Utf8.encode r.printed.toList)) = _)⟩
  have hperform := perform_of_ok hload
  rw [hout, deliver_write _ hwrite] at hperform
  rw [runIn_of_parse_eq_ok hparse hperform]
  exact ⟨rfl, rfl, rfl⟩

/-- A run has failed and has neither printed nor written. -/
def Fails (fs : Files) (outcome : Run × Files) : Prop :=
  outcome.1.status = .failed ∧ outcome.1.output = "" ∧ outcome.2 = fs

theorem fails_of_stop {stop : Stop} (h : parse args = .error stop) (hhelp : stop ≠ .help)
    (hversion : stop ≠ .version) : Fails fs (runIn fs stdin args) := by
  have hrun : runIn fs stdin args = (refuse stop, fs) := by
    unfold runIn run
    rw [h]
    rfl
  have hrefuse : refuse stop = { status := .failed } := by
    cases stop with
    | help => exact absurd rfl hhelp
    | version => exact absurd rfl hversion
    | _ => rfl
  rw [hrun, hrefuse]
  exact ⟨rfl, rfl, rfl⟩

theorem fails_of_load {e : LoadProblem} (hparse : parse args = .ok o)
    (h : load (source fs stdin o.inputPath) = .error e) : Fails fs (runIn fs stdin args) := by
  rw [runIn_of_parse_eq_ok hparse (perform_of_error h)]
  exact ⟨rfl, rfl, rfl⟩

theorem fails_of_write {path : String} (h : Accepts fs stdin args o r)
    (hout : o.output = some path) (hpath : ¬ ∃ l, fs.Writable path l) :
    Fails fs (runIn fs stdin args) := by
  obtain ⟨hparse, hload⟩ := accepts_iff.mp h
  have hperform := perform_of_ok hload
  rw [hout] at hperform
  cases hwrite : fs.write path (Text.Utf8.encode r.printed.toList) with
  | ok fs' =>
    obtain ⟨l, hl, -⟩ := Files.write_eq_ok_iff.mp hwrite
    exact absurd ⟨l, hl⟩ hpath
  | error e =>
    rw [deliver_refused _ hwrite] at hperform
    rw [runIn_of_parse_eq_ok hparse hperform]
    exact ⟨rfl, rfl, rfl⟩

/-- Every way to end but the ones that print and write is a failure. -/
theorem fails_of_not_accepts (hhelp : parse args ≠ .error .help)
    (hversion : parse args ≠ .error .version)
    (h : ¬ ∃ o r, Accepts fs stdin args o r ∧
      ∀ path, o.output = some path → ∃ l, fs.Writable path l) :
    Fails fs (runIn fs stdin args) := by
  cases hparse : parse args with
  | error stop =>
    refine fails_of_stop hparse ?_ ?_
    · intro hstop; exact hhelp (hstop ▸ hparse)
    · intro hstop; exact hversion (hstop ▸ hparse)
  | ok o =>
    cases hload : load (source fs stdin o.inputPath) with
    | error e => exact fails_of_load hparse hload
    | ok r =>
      have haccepts : Accepts fs stdin args o r := accepts_iff.mpr ⟨hparse, hload⟩
      cases hout : o.output with
      | none =>
        exfalso
        refine h ⟨o, r, haccepts, ?_⟩
        intro path hpath
        rw [hout] at hpath
        cases hpath
      | some path =>
        refine fails_of_write haccepts hout ?_
        intro hl
        refine h ⟨o, r, haccepts, ?_⟩
        intro path' hpath'
        rw [hout] at hpath'
        cases hpath'
        exact hl

/-- A run does all that it is asked or nothing. An accepted command line whose input holds a report
has the report printed, and no file changes; or, if it names an output that can be written, nothing
is printed and the report is what that file then holds, and no other file changes. The exit code
tells whether the report holds an error. In every other case but the requests for help and for the
version, the exit code is two, nothing is printed, and the files are what they were. -/
theorem runIn_all_or_nothing (fs : Files) (stdin : Stream) (args : List String) :
    (∀ o r, Accepts fs stdin args o r → o.output = none →
      (runIn fs stdin args).1.status.code = errorCode r ∧
      (runIn fs stdin args).1.output = VisualStudio.render r ++ "\n" ∧
      (runIn fs stdin args).2 = fs) ∧
    (∀ o r path l, Accepts fs stdin args o r → o.output = some path → fs.Writable path l →
      (runIn fs stdin args).1.status.code = errorCode r ∧
      (runIn fs stdin args).1.output = "" ∧
      (runIn fs stdin args).2.get? l =
        some (.file (Text.Utf8.encode (VisualStudio.render r ++ "\n").toList)) ∧
      (runIn fs stdin args).2.read path =
        .ok { bytes := Text.Utf8.encode (VisualStudio.render r ++ "\n").toList } ∧
      ∀ l', l' ≠ l → (runIn fs stdin args).2.get? l' = fs.get? l') ∧
    (parse args ≠ .error .help → parse args ≠ .error .version →
      (¬ ∃ o r, Accepts fs stdin args o r ∧
        ∀ path, o.output = some path → ∃ l, fs.Writable path l) →
      (runIn fs stdin args).1.status.code = 2 ∧
      (runIn fs stdin args).1.output = "" ∧
      (runIn fs stdin args).2 = fs) := by
  refine ⟨?_, ?_, ?_⟩
  · intro o r haccepts hout
    obtain ⟨hstatus, houtput, hfiles⟩ := runIn_of_print haccepts hout
    exact ⟨by rw [hstatus, code_status], houtput, hfiles⟩
  · intro o r path l haccepts hout hpath
    obtain ⟨hstatus, houtput, hfiles⟩ := runIn_of_write haccepts hout hpath
    have hl : l.path ≠ [] := by
      obtain ⟨⟨n, d, -, -, -, -, -, rfl⟩, -⟩ := hpath
      exact Files.path_down_ne_nil d n.last
    refine ⟨by rw [hstatus, code_status], houtput, ?_, ?_, ?_⟩
    · rw [hfiles]; exact Files.get?_insert_self fs _ hl
    · rw [hfiles]; exact Files.read_insert_of_writable hpath _
    · intro l' hne
      rw [hfiles]
      exact Files.get?_insert_of_ne fs _ hne
  · intro hhelp hversion h
    obtain ⟨hstatus, houtput, hfiles⟩ := fails_of_not_accepts hhelp hversion h
    exact ⟨by rw [hstatus]; rfl, houtput, hfiles⟩

/-- A report of one error. -/
def oneError : Report :=
  [{ path := "a.js", findings := [
      { rule := "semi", severity := .error, text := "missing", line := 3, column := 7 }] }]

/-- Files of which `in` holds the report as a document. -/
def withInput : Files :=
  Files.insert {} { path := ["in"] } (.file (Text.Utf8.encode oneError.toJson.toList))

theorem writable_in (h : fs.get? { path := ["in"] } ≠ some .directory) :
    fs.Writable "in" { path := ["in"] } :=
  Files.writable_of_plain (by decide) (by decide) (by decide) (by decide) (by decide) h

theorem writable_withInput : withInput.Writable "in" { path := ["in"] } := by
  refine writable_in ?_
  rw [withInput, Files.get?_insert_self _ _ (by decide)]
  simp

/-- The report is read by its name. -/
theorem accepts_withInput (h : parse args = .ok o) (hinput : o.input = some "in") :
    Accepts withInput stdin args o oneError := by
  have hempty : Files.Writable {} "in" { path := ["in"] } := writable_in (by decide)
  have hread := Files.read_insert_of_writable hempty (Text.Utf8.encode oneError.toJson.toList)
  exact ⟨h, _, .named hinput (by decide) hread,
    Report.ofStream_eq_ok_iff.mpr (Report.reportText_toJson oneError)⟩

theorem printed_oneError : VisualStudio.render oneError ++ "\n" =
    "a.js(3,7): error semi : missing\n\n1 problem\n" := by
  cbv

/-- A report of an error is printed, and written over the document that it was read from. Where the
document breaks off, the file is not touched. -/
theorem runIn_over_input :
    ((runIn withInput { bytes := [] } ["in"]).1.status.code = 1 ∧
      (runIn withInput { bytes := [] } ["in"]).1.output =
        "a.js(3,7): error semi : missing\n\n1 problem\n" ∧
      (runIn withInput { bytes := [] } ["in"]).2 = withInput) ∧
    ((runIn withInput { bytes := [] } ["in", "-o", "in"]).1.status.code = 1 ∧
      (runIn withInput { bytes := [] } ["in", "-o", "in"]).1.output = "" ∧
      (runIn withInput { bytes := [] } ["in", "-o", "in"]).2.read "in" =
        .ok { bytes := Text.Utf8.encode "a.js(3,7): error semi : missing\n\n1 problem\n".toList }) ∧
    ((runIn withInput { bytes := [0x5b] } ["-o", "in"]).1.status.code = 2 ∧
      (runIn withInput { bytes := [0x5b] } ["-o", "in"]).1.output = "" ∧
      (runIn withInput { bytes := [0x5b] } ["-o", "in"]).2 = withInput) := by
  have hcode : errorCode oneError = 1 := by decide
  refine ⟨?_, ?_, ?_⟩
  · obtain ⟨hprint, -, -⟩ := runIn_all_or_nothing withInput { bytes := [] } ["in"]
    have haccepts : Accepts withInput { bytes := [] } ["in"] { input := some "in" } oneError :=
      accepts_withInput rfl rfl
    obtain ⟨hstatus, houtput, hfiles⟩ := hprint _ _ haccepts rfl
    exact ⟨hstatus.trans hcode, houtput.trans printed_oneError, hfiles⟩
  · obtain ⟨-, hwrite, -⟩ := runIn_all_or_nothing withInput { bytes := [] } ["in", "-o", "in"]
    have haccepts : Accepts withInput { bytes := [] } ["in", "-o", "in"]
        { input := some "in", output := some "in" } oneError := accepts_withInput rfl rfl
    obtain ⟨hstatus, houtput, -, hread, -⟩ := hwrite _ _ _ _ haccepts rfl writable_withInput
    rw [printed_oneError] at hread
    exact ⟨hstatus.trans hcode, houtput, hread⟩
  · have hparse : parse ["-o", "in"] = .ok { output := some "in" } := rfl
    have hbroken : (Report.ofStream { bytes := [0x5b] }).toOption = none := by cbv
    obtain ⟨-, -, hrest⟩ := runIn_all_or_nothing withInput { bytes := [0x5b] } ["-o", "in"]
    refine hrest ?_ ?_ ?_
    · rw [hparse]; simp
    · rw [hparse]; simp
    · rintro ⟨o, r, ⟨ho, s, hselects, hread⟩, -⟩
      obtain rfl := Except.ok.inj (hparse.symm.trans ho)
      cases hselects with
      | omitted => rw [hread] at hbroken; cases hbroken
      | dash h => cases h
      | named h => cases h

end Findings.Program
