import Findings.Proofs.Runs
import Findings.Proofs.Decisive

/-!
# What a run tells of itself

A run logs what it does as it does it. The log of a run with the verbose flag is the whole story
(`exists_story`): where the input is read from, what was decoded if that went well, what was written
if something was, and why the run failed if it did. The flag bears on nothing else: without it the
run does the same, and its log is what is left once the debug entries are gone.

The flag can be given wherever a new word may begin (`CommandLine.parse_insert_verbose`).

Main statement: `runIn_verbose`.
-/

namespace Findings

/-! ## Where the flag can stand -/

namespace CommandLine

/-- A line that does not ask for every step says the same to options that do. -/
theorem lineText_verbose {o o' : Options} {line : List String} (h : LineText o line o')
    (hquiet : o'.verbose = false) :
    o.verbose = false ∧
      LineText { o with verbose := true } line { o' with verbose := true } := by
  obtain ⟨args, wss, last, tail, hargs, htail, hline, hadds⟩ := h
  have hcount : 0 = o.verbose.toNat + args.countP Argument.isVerbose := by
    rw [← hadds.verbose, hquiet]
    rfl
  have hverbose : o.verbose = false := by
    rw [← Bool.toNat_eq_zero]
    omega
  refine ⟨hverbose, args, wss, last, tail, hargs, htail, hline, ?_, hadds.output, hadds.input⟩
  show 1 = 1 + args.countP Argument.isVerbose
  omega

/-- The flag between two parts of a line, of which the first is a line as well. -/
theorem parse_insert_verbose {a b : List String} {o oₐ : Options} {w : String}
    (h : parse (a ++ b) = .ok o) (hquiet : o.verbose = false) (ha : parse a = .ok oₐ)
    (hsep : "--" ∉ a) (hw : ArgumentText .verbose [w]) :
    parse (a ++ w :: b) = .ok { o with verbose := true } := by
  obtain ⟨s, hs, happend⟩ := words_append ha hsep
  have hpending := State.pending_ne_of_settle hs
  have hrest : words s b = .ok o := by rw [← happend]; exact h
  obtain ⟨o₁, ho₁, hb⟩ := (words_settle hpending).mp hrest
  obtain rfl : oₐ = o₁ := Except.ok.inj (hs.symm.trans ho₁)
  obtain ⟨hlacks, hline⟩ := lineText_verbose (words_eq_ok_iff.mp hb) hquiet
  show words {} (a ++ w :: b) = _
  rw [happend, words_settle hpending]
  refine ⟨oₐ, hs, ?_⟩
  exact (words_argument_iff hw).mpr ⟨hlacks, words_eq_ok_iff.mpr hline⟩

end CommandLine

namespace Program

open Json CommandLine

variable {fs : Files} {stdin : Stream} {args : List String} {o : Options} {r : Report}

/-! ## Stories -/

/-- What came of a run: the report that it read, the file that it wrote, why it failed. -/
structure Story where
  decoded : Option Report := none
  written : Option String := none
  failure : Option Failure := none

namespace Story

/-- The events of a story, in order. -/
def events (path : Option String) (t : Story) : List Event :=
  [.reading path] ++ (t.decoded.map fun r => Event.decoded r.length r.total).toList ++
    (t.written.map Event.wrote).toList ++ (t.failure.map Event.failed).toList

/-- The entries of a log that tells all of a story. -/
def entries (path : Option String) (t : Story) : List (Event.Level × String) :=
  [(.debug, "Reading lint results from " ++ path.getD "stdin")] ++
    (t.decoded.map fun r => (Event.Level.debug, "Decoded " ++ toString r.length ++
      " file report(s) with " ++ toString r.total ++ " problem(s)")).toList ++
    (t.written.map fun path => (Event.Level.info, "Wrote report to " ++ path)).toList ++
    (t.failure.map fun failure => (Event.Level.error, (Event.failed failure).message)).toList

theorem map_events (path : Option String) (t : Story) :
    (t.events path).map (fun e => (e.level, e.message)) = t.entries path := by
  obtain ⟨decoded, written, failure⟩ := t
  cases path <;> cases decoded <;> cases written <;> cases failure <;> rfl

/-- The story is what happened in a run with the options `o` that ended so. -/
structure IsOf (fs : Files) (stdin : Stream) (o : Options) (outcome : Run × Files) (t : Story) :
    Prop where
  decoded (r : Report) :
    t.decoded = some r ↔ ∃ s, Selects fs stdin o s ∧ Report.ofStream s = .ok r
  written (path : String) : t.written = some path ↔ o.output = some path ∧
    ∃ r l, t.decoded = some r ∧ fs.Writable path l ∧
      outcome.2 = fs.insert l (.file (Text.Utf8.encode (VisualStudio.render r ++ "\n").toList))
  unwritten : t.written = none → outcome.2 = fs
  failure : t.failure ≠ none ↔ outcome.1.status.code = 2

end Story

/-! ## The story of a run -/

theorem code_status_ne (r : Report) : r.status.code ≠ 2 := by
  rw [code_status]
  unfold errorCode
  split <;> decide

/-- The decoded report of a story is the one that was loaded. -/
theorem some_eq_iff_selects (h : load (source fs stdin o.inputPath) = .ok r) (r' : Report) :
    some r = some r' ↔ ∃ s, Selects fs stdin o s ∧ Report.ofStream s = .ok r' := by
  rw [← load_source_eq_ok_iff, h, Option.some.injEq, Except.ok.injEq]

section Loaded

variable {path : String} (h : load (source fs stdin o.inputPath) = .ok r)

include h

theorem exists_story_of_print (hout : o.output = none) :
    ∃ t : Story, ((perform (directory stdin) o).run fs).1.log = t.events o.inputPath ∧
      t.IsOf fs stdin o ((perform (directory stdin) o).run fs) := by
  have hperform := perform_of_ok h
  rw [hout, deliver_print] at hperform
  rw [hperform]
  refine ⟨{ decoded := some r }, rfl, some_eq_iff_selects h, ?_, fun _ => rfl, ?_⟩
  · simp [hout]
  · simp [code_status_ne]

theorem exists_story_of_write {fs' : Files} (hout : o.output = some path)
    (hwrite : fs.write path (Text.Utf8.encode r.printed.toList) = .ok fs') :
    ∃ t : Story, ((perform (directory stdin) o).run fs).1.log = t.events o.inputPath ∧
      t.IsOf fs stdin o ((perform (directory stdin) o).run fs) := by
  have hperform := perform_of_ok h
  rw [hout, deliver_write _ hwrite] at hperform
  rw [hperform]
  obtain ⟨l, hl, hfs'⟩ := Files.write_eq_ok_iff.mp hwrite
  refine ⟨{ decoded := some r, written := some path }, rfl, some_eq_iff_selects h, ?_, ?_, ?_⟩
  · intro path'
    rw [hout]
    constructor
    · intro hpath
      obtain rfl := Option.some.inj hpath
      exact ⟨rfl, r, l, rfl, hl, hfs'⟩
    · exact And.left
  · intro hnone
    cases hnone
  · simp [code_status_ne]

theorem exists_story_of_refused {e : FileProblem} (hout : o.output = some path)
    (hwrite : fs.write path (Text.Utf8.encode r.printed.toList) = .error e) :
    ∃ t : Story, ((perform (directory stdin) o).run fs).1.log = t.events o.inputPath ∧
      t.IsOf fs stdin o ((perform (directory stdin) o).run fs) := by
  have hperform := perform_of_ok h
  rw [hout, deliver_refused _ hwrite] at hperform
  rw [hperform]
  refine ⟨{ decoded := some r, failure := some (.write e) }, rfl, some_eq_iff_selects h, ?_,
    fun _ => rfl, ?_⟩
  · intro path'
    rw [hout]
    constructor
    · intro hnone
      cases hnone
    · -- A name that can be written is written.
      rintro ⟨hpath, _, l, -, hl, -⟩
      obtain rfl := Option.some.inj hpath
      have hok := Files.write_eq_ok_iff.mpr
        ⟨l, hl, (rfl : fs.insert l (.file (Text.Utf8.encode r.printed.toList)) = _)⟩
      rw [hwrite] at hok
      cases hok
  · simp [Status.code]

end Loaded

theorem exists_story (fs : Files) (stdin : Stream) (o : Options) :
    ∃ t : Story, ((perform (directory stdin) o).run fs).1.log = t.events o.inputPath ∧
      t.IsOf fs stdin o ((perform (directory stdin) o).run fs) := by
  cases h : load (source fs stdin o.inputPath) with
  | ok r =>
    cases hout : o.output with
    | none => exact exists_story_of_print h hout
    | some path =>
      cases hwrite : fs.write path (Text.Utf8.encode r.printed.toList) with
      | ok fs' => exact exists_story_of_write h hout hwrite
      | error e => exact exists_story_of_refused h hout hwrite
  | error e =>
    rw [perform_of_error h]
    refine ⟨{ failure := some (.load e) }, rfl, ?_, ?_, fun _ => rfl, ?_⟩
    · intro r
      rw [← load_source_eq_ok_iff, h]
      simp
    · simp
    · simp [Status.code]

/-! ## Runs with the flag and without it -/

theorem runIn_eq (h : parse args = .ok o) : runIn fs stdin args =
    ({ ((perform (directory stdin) o).run fs).1 with
        log := ((perform (directory stdin) o).run fs).1.log.filter (·.isLogged o.verbose) },
      ((perform (directory stdin) o).run fs).2) :=
  runIn_of_parse_eq_ok h rfl

/-- Take a command line without the verbose flag. The flag can be added to it wherever a word may
begin. However it is added, the run ends alike, prints alike and leaves the same files, and the log
is what it was but for debug entries. With the flag the log is the story of the run. -/
theorem runIn_verbose (fs : Files) (stdin : Stream) (args : List String) (o : Options)
    (h : parse args = .ok o) (hquiet : o.verbose = false) :
    (∀ a b oₐ, args = a ++ b → parse a = .ok oₐ → "--" ∉ a → ∀ w ∈ ["-v", "--verbose"],
      parse (a ++ w :: b) = .ok { o with verbose := true }) ∧
    ∀ told, parse told = .ok { o with verbose := true } →
      (runIn fs stdin told).1.status = (runIn fs stdin args).1.status ∧
      (runIn fs stdin told).1.output = (runIn fs stdin args).1.output ∧
      (runIn fs stdin told).2 = (runIn fs stdin args).2 ∧
      (runIn fs stdin args).1.log =
        (runIn fs stdin told).1.log.filter (fun e => e.level ≠ .debug) ∧
      ∃ t : Story, t.IsOf fs stdin o (runIn fs stdin told) ∧
        (runIn fs stdin told).1.log.map (fun e => (e.level, e.message)) =
          t.entries o.inputPath := by
  refine ⟨?_, ?_⟩
  · rintro a b oₐ rfl ha hsep w hw
    have htext : ArgumentText .verbose [w] := by
      rcases List.mem_cons.mp hw with rfl | hw
      · exact .verboseShort
      · obtain rfl := List.mem_singleton.mp hw
        exact .verboseLong
    exact parse_insert_verbose h hquiet ha hsep htext
  · intro told htold
    -- A run does the same for both: what it does comes of the names in the options only.
    have hsame : perform (directory stdin) { o with verbose := true } =
        perform (directory stdin) o := rfl
    obtain ⟨t, hlog, ht⟩ := exists_story fs stdin o
    rw [runIn_eq h, runIn_eq htold, hsame, hquiet]
    refine ⟨rfl, rfl, rfl, ?_, t, ⟨ht.decoded, ht.written, ht.unwritten, ht.failure⟩, ?_⟩
    · show _ = (List.filter (fun _ => true) _).filter _
      rw [List.filter_true]
      refine List.filter_congr fun e _ => ?_
      cases e <;> rfl
    · show (List.filter (fun _ => true) _).map _ = _
      rw [List.filter_true, hlog, Story.map_events]

/-- A report of an error is written over the document that it was read from. With the flag between
the two names the log has three entries, and without it only the one that is not for debugging. -/
theorem runIn_verbose_over_input :
    parse ["in", "-o", "in"] = .ok { input := some "in", output := some "in" } ∧
      (runIn withInput { bytes := [] } ["in", "-v", "-o", "in"]).1.status.code = 1 ∧
      (runIn withInput { bytes := [] } ["in", "-v", "-o", "in"]).1.log.map
          (fun e => (e.level, e.message)) =
        [(.debug, "Reading lint results from in"),
          (.debug, "Decoded 1 file report(s) with 1 problem(s)"),
          (.info, "Wrote report to in")] ∧
      (runIn withInput { bytes := [] } ["in", "-o", "in"]).1.log.map
          (fun e => (e.level, e.message)) =
        [(.info, "Wrote report to in")] := by
  have hquiet : parse ["in", "-o", "in"] = .ok { input := some "in", output := some "in" } := rfl
  have haccepts : Accepts withInput { bytes := [] } ["in", "-o", "in"] _ oneError :=
    accepts_withInput hquiet rfl
  obtain ⟨hstatus, -, hfiles⟩ := runIn_of_write haccepts rfl writable_withInput
  have hcode : oneError.status.code = 1 := by decide
  obtain ⟨hinsert, hrun⟩ := runIn_verbose withInput { bytes := [] } _ _ hquiet rfl
  have htold := hinsert ["in"] ["-o", "in"] { input := some "in" } rfl rfl (by decide) "-v"
    (by decide)
  obtain ⟨hsame, -, hsamefiles, hless, ⟨decoded, written, failure⟩, ht, hlog⟩ := hrun _ htold
  rw [hstatus] at hsame
  rw [hfiles] at hsamefiles
  obtain rfl : decoded = some oneError := (ht.decoded oneError).mpr haccepts.2
  obtain rfl : written = some "in" :=
    (ht.written "in").mpr ⟨rfl, oneError, _, rfl, writable_withInput, hsamefiles⟩
  obtain rfl : failure = none := by
    by_contra hne
    have hfailed := ht.failure.mp hne
    rw [hsame, hcode] at hfailed
    exact absurd hfailed (by decide)
  refine ⟨hquiet, (congrArg Status.code hsame).trans hcode, hlog.trans (by cbv), ?_⟩
  rw [hless]
  exact List.filter_map.symm.trans (congrArg (List.filter (fun e => e.1 ≠ .debug)) hlog)

end Program

end Findings
