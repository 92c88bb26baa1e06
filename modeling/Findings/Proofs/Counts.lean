import Findings.Proofs.Lines
import Findings.Proofs.Recounts
import Findings.Proofs.Runs
import Mathlib.Algebra.GroupWithZero.Nat
import Mathlib.Data.List.DropRight

/-!
# All counts agree

How many findings a report has is told in several ways: the summary of the rendered report says it
in words, the errors and the warnings of each file add up to it, and a run ends with a status that
tells whether there are errors. All of them are told of the findings themselves. The counts that a
document writes have no part in it, and neither have the texts of findings: they may hold a line
feed and what looks like a summary, but the summary is what stands after the last line feed.

Main statement: `Report.counts_agree`.
-/

namespace Findings

open Json
open Text.Utf8 (encode)

namespace VisualStudio

/-! ## The last line -/

/-- What stands after the last line feed of a text. -/
def lastLine (s : String) : String :=
  String.ofList (s.toList.rtakeWhile (· != '\n'))

theorem lastLine_append {t : String} (h : '\n' ∉ t.toList) (s : String) :
    lastLine (s ++ "\n" ++ t) = t := by
  have hall : ∀ c ∈ t.toList.reverse, (c != '\n') = true := by
    intro c hc
    rw [bne_iff_ne]
    rintro rfl
    exact h (List.mem_reverse.mp hc)
  have htake : (s ++ "\n" ++ t).toList.rtakeWhile (· != '\n') = t.toList := by
    rw [String.toList_append, String.toList_append, List.rtakeWhile, List.reverse_append,
      List.reverse_append, List.takeWhile_append_of_pos hall, List.reverse_append,
      List.reverse_reverse]
    simp
  rw [lastLine, htake, String.ofList_toList]

theorem render_eq_lines {r : Report} (h : r.total ≠ 0) :
    render r = body r ++ "\n" ++ "\n" ++ summary r.total := by
  have htwo : "\n\n" = "\n" ++ "\n" := rfl
  rw [render_of_total_ne_zero h, htwo, String.append_assoc, String.append_assoc,
    String.append_assoc, String.append_assoc]

theorem lastLine_render {r : Report} (h : r.total ≠ 0) : lastLine (render r) = summary r.total := by
  rw [render_eq_lines h, lastLine_append (lineFeed_notMem_summary _)]

theorem lineFeed_mem_render {r : Report} (h : r.total ≠ 0) : '\n' ∈ (render r).toList := by
  rw [render_eq_lines h]
  simp

theorem render_eq_none_iff {r : Report} : render r = "no problems" ↔ r.total = 0 := by
  constructor
  · intro h
    by_contra hne
    have hmem := lineFeed_mem_render hne
    rw [h] at hmem
    exact absurd hmem (by decide)
  · exact render_of_total_eq_zero

theorem isNatural_toString (n : Nat) : IsNatural n (encode (toString n).toList) := by
  have hdigits : (toString n).toList = Writer.natural n := Nat.toList_repr
  rw [hdigits]
  exact isNatural_natural n

theorem summary_of_two_le {n : Nat} (h : 2 ≤ n) : summary n = toString n ++ " problems" := by
  rw [summary, if_neg (by omega), if_neg (by omega)]

end VisualStudio

/-! ## Errors and warnings -/

theorem FileReport.hasErrors_iff (file : FileReport) :
    file.hasErrors = true ↔ 0 < file.errorCount := by
  rw [hasErrors, errorCount, count, List.countP_pos_iff, List.any_eq_true]
  rfl

namespace Report

theorem total_eq_sum (r : Report) :
    r.total = (r.map fun file => file.errorCount + file.warningCount).sum := by
  rw [total_eq_foldr, List.sum_eq_foldr, List.foldr_map]

theorem hasErrors_iff (r : Report) :
    r.hasErrors = true ↔ 0 < (r.map FileReport.errorCount).sum := by
  rw [hasErrors, List.any_eq_true, List.sum_pos_iff_exists_pos_nat]
  simp [FileReport.hasErrors_iff]

theorem status_eq_errorsFound_iff (r : Report) :
    r.status = .errorsFound ↔ 0 < (r.map FileReport.errorCount).sum := by
  rw [← hasErrors_iff, status]
  cases r.hasErrors <;> simp

theorem status_eq_clean_iff (r : Report) :
    r.status = .clean ↔ (r.map FileReport.errorCount).sum = 0 := by
  rw [← Nat.le_zero, ← not_lt, ← hasErrors_iff, status]
  cases r.hasErrors <;> simp

end Report

/-- A report that is delivered decides how the run ends, unless it cannot be written. -/
theorem Program.deliver_status_iff {fs : Files} {stdin : Stream} {path : Option String} {r : Report}
    {before : List Event} {status : Status} (hs : status ≠ .failed) :
    ((deliver (directory stdin) path r before).run fs).1.status = status ↔
      r.status = status ∧ ∀ name, path = some name → ∃ l, fs.Writable name l := by
  cases path with
  | none =>
    rw [deliver_print]
    simp
  | some name =>
    cases hwrite : fs.write name (encode r.printed.toList) with
    | ok fs' =>
      obtain ⟨l, hl, -⟩ := Files.write_eq_ok_iff.mp hwrite
      rw [deliver_write before hwrite]
      refine (and_iff_left ?_).symm
      rintro _ ⟨⟩
      exact ⟨l, hl⟩
    | error e =>
      rw [deliver_refused before hwrite]
      refine iff_of_false hs.symm ?_
      rintro ⟨-, hwritable⟩
      obtain ⟨l, hl⟩ := hwritable name rfl
      rw [Files.write_eq_ok_iff.mpr ⟨l, hl, rfl⟩] at hwrite
      cases hwrite

namespace Report

/-- All counts of a report agree, whatever its texts hold. It is rendered as `no problems` exactly
if it has no finding; else the last line says how many it has, as `1 problem` or in a numeral. The
findings are the errors and the warnings of its files. A file has errors if it counts some, and a
delivered report ends the run with the status of errors exactly if its files together count some.
The counts that a document writes are no part of the report that it holds. -/
theorem counts_agree :
    (∀ r : Report, VisualStudio.render r = "no problems" ↔ r.total = 0) ∧
    (∀ r : Report, r.total ≠ 0 → '\n' ∈ (VisualStudio.render r).toList) ∧
    (∀ r : Report, r.total = 1 →
      VisualStudio.lastLine (VisualStudio.render r) = "1 problem") ∧
    (∀ r : Report, 2 ≤ r.total → ∃ numeral : String,
      VisualStudio.lastLine (VisualStudio.render r) = numeral ++ " problems" ∧
      IsNatural r.total (encode numeral.toList)) ∧
    (∀ r : Report, r.total = (r.map fun file => file.errorCount + file.warningCount).sum) ∧
    (∀ file : FileReport, file.hasErrors = true ↔ 0 < file.errorCount) ∧
    (∀ (fs : Files) (stdin : Stream) (path : Option String) (r : Report) (before : List Event),
      (((Program.deliver (Program.directory stdin) path r before).run fs).1.status = .errorsFound ↔
        0 < (r.map FileReport.errorCount).sum ∧
          ∀ name, path = some name → ∃ l, fs.Writable name l) ∧
      (((Program.deliver (Program.directory stdin) path r before).run fs).1.status = .clean ↔
        (r.map FileReport.errorCount).sum = 0 ∧
          ∀ name, path = some name → ∃ l, fs.Writable name l)) ∧
    (∀ (bytes bytes' : List UInt8) (r : Report), RecountedDocument bytes bytes' →
      (ofStream { bytes } = .ok r ↔ ofStream { bytes := bytes' } = .ok r)) ∧
    (∀ (text text' : String) (r : Report),
      RecountedDocument (encode text.toList) (encode text'.toList) →
      (ofText text = .ok r ↔ ofText text' = .ok r)) := by
  refine ⟨fun r => VisualStudio.render_eq_none_iff, fun r => VisualStudio.lineFeed_mem_render,
    ?_, ?_, total_eq_sum, FileReport.hasErrors_iff, ?_, ?_, ?_⟩
  · intro r h
    rw [VisualStudio.lastLine_render (by omega), h]
    rfl
  · intro r h
    refine ⟨toString r.total, ?_, VisualStudio.isNatural_toString r.total⟩
    rw [VisualStudio.lastLine_render (by omega), VisualStudio.summary_of_two_le h]
  · intro fs stdin path r before
    rw [Program.deliver_status_iff (by simp), Program.deliver_status_iff (by simp),
      status_eq_errorsFound_iff, status_eq_clean_iff]
    exact ⟨Iff.rfl, Iff.rfl⟩
  · intro bytes bytes' r h
    rw [ofStream_eq_ok_iff, ofStream_eq_ok_iff, h.reportText_iff]
  · intro text text' r h
    have hread : ∀ t : String, ofText t = .ok r ↔ ReportText r (encode t.toList) :=
      fun _ => Decoder.decode_eq_ok_iff reads_decoder .text
    rw [hread, hread, h.reportText_iff]

/-- A text that looks like a summary, by itself and twelve times; and a document whose counts are
false, given twice, and no numbers. -/
theorem counts_agree_of_false_counts :
    ∃ (f : Finding) (one twelve : Report) (text : String),
      f = { rule := "x", severity := .error, text := "y\n\n99 problems" } ∧
      one = [{ path := "a.scss", findings := [f] }, { path := "b.scss" }] ∧
      twelve = [{ path := "a.scss", findings := List.replicate 12 f }] ∧
      text = String.ofList (Writer.sequence [Writer.object [("errorCount", Writer.natural 99),
        ("filePath", Writer.text "a.scss"), ("warningCount", Writer.sequence []),
        ("messages", Writer.sequence [f.written]), ("errorCount", Writer.text "many")],
        FileReport.written { path := "b.scss" }]) ∧
      one.total = 1 ∧ VisualStudio.lastLine (VisualStudio.render one) = "1 problem" ∧
      twelve.total = 12 ∧ '\n' ∈ (VisualStudio.render twelve).toList ∧ (∃ numeral : String,
        VisualStudio.lastLine (VisualStudio.render twelve) = numeral ++ " problems" ∧
        IsNatural twelve.total (encode numeral.toList)) ∧
      RecountedDocument (encode one.toJson.toList) (encode text.toList) ∧
      ofStream { bytes := encode text.toList } = .ok one ∧ ofText text = .ok one := by
  obtain ⟨-, hfeed, hone, hmany, -, -, -, hstream, htext⟩ := counts_agree
  refine ⟨_, _, _, _, rfl, rfl, rfl, rfl, rfl, hone _ rfl, rfl, hfeed _ (by decide),
    hmany _ (by decide), ?recounted,
    (hstream _ _ _ ?recounted).mp (ofStream_eq_ok_iff.mpr (reportText_toJson _)),
    (htext _ _ _ ?recounted).mp
      ((Decoder.decode_eq_ok_iff reads_decoder .text).mpr (reportText_toJson _))⟩
  case recounted =>
    rw [toJson, String.toList_ofList, String.toList_ofList]
    refine .of_recounted (.of_enclosed ?_ (enclosed_separated (by decide) (by decide) _)
      (enclosed_separated (by decide) (by decide) _))
    have hpath := (isText_text "a.scss").isValue
    have hfindings := fun fs => (sequenceOf_sequence findingText_written fs).isValue
      fun _ _ => FindingText.isValue
    refine .cons (.of_written rfl ?_ ?_) (.cons (.same (fileText_written _).isValue) .nil)
    · simp only [List.forall_mem_cons]
      exact ⟨hpath, hfindings [_], List.forall_mem_nil _⟩
    · simp only [List.forall_mem_cons]
      exact ⟨(isNatural_natural 99).isValue, hpath, hfindings [], hfindings [_],
        (isText_text "many").isValue, List.forall_mem_nil _⟩

end Report

end Findings
