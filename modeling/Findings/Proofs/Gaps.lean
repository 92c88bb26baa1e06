import Findings.Proofs.FirstFault

/-!
# Documents with a gap

A document in which one value is left open: a text, a number or a severity of one finding, or the
path of a file. All around the gap is as the language of reports has it, in any of its forms. With a
good value in the gap the document is a report, the same but for that value; with a value that is
refused the document is, and for the same cause.

* `Finding.Written` has the bytes of the parts of a finding, of which any may be replaced.
* `FileGap` and `FindingGap` have what is around a file or a finding.
* `TextPlace`, `NumberPlace` and `SeverityPlace` have a gap for one value.
* `Reading` has the two ways to read a document.
-/

namespace Findings

open Json Decoder

/-! ## Sequences with a gap -/

/-- A sequence in which one element is written `y`, with elements of the language `P` around it. -/
def SequenceGap {α : Type} (P : α → List UInt8 → Prop) (before after : List α)
    (y x : List UInt8) : Prop :=
  ∃ xs ys, List.Forall₂ P before xs ∧ List.Forall₂ P after ys ∧
    Enclosed '['.toUInt8 ']'.toUInt8 (xs ++ y :: ys) x

namespace SequenceGap

variable {ε α : Type} {P : α → List UInt8 → Prop} {before after : List α} {x y : List UInt8}

theorem fill (h : SequenceGap P before after y x) {a : α} (hy : P a y) :
    SequenceOf P (before ++ a :: after) x := by
  obtain ⟨xs, ys, hxs, hys, hx⟩ := h
  exact ⟨_, List.rel_append hxs (.cons hy hys), hx⟩

theorem rejects (h : SequenceGap P before after y x) {d : Decoder ε α} {C : Cause ε → Prop}
    (hd : Reads d P) (hy : Rejects d y C) : Rejects (sequence d) x C := by
  obtain ⟨xs, ys, hxs, -, hx⟩ := h
  exact rejects_sequence hd hxs hy hx

end SequenceGap

/-! ## Findings by their parts -/

/-- The bytes of the parts of a finding. -/
structure Finding.Written where
  rule : List UInt8
  severity : List UInt8
  text : List UInt8
  line : List UInt8
  column : List UInt8

namespace Finding.Written

/-- The parts in their order, each with its key. -/
def parts (w : Written) : List (String × List UInt8) :=
  [("ruleId", w.rule), ("severity", w.severity), ("message", w.text), ("line", w.line),
    ("column", w.column)]

/-- Each part is that of `f`. -/
structure Tells (w : Written) (f : Finding) : Prop where
  rule : IsText f.rule w.rule
  severity : w.severity = [digitByte f.severity.code]
  text : IsText f.text w.text
  line : IsUnsigned f.line w.line
  column : IsUnsigned f.column w.column

/-- The parts together, in an object among other entries or in a sequence. They may be marked as
not fatal. -/
inductive Text (w : Written) (y : List UInt8) : Prop
  | object {es : List (String × List UInt8)} (hparts : ∀ part ∈ w.parts, given es part.1 = [part.2])
    (hfatal : given es "fatal" = [] ∨ Once es "fatal" (· = boolText false))
    (hothers : ∀ e ∈ es, e.1 ∉ ["ruleId", "severity", "message", "line", "column", "fatal"] →
      IsValue e.2)
    (h : ObjectOf NamedEntry es y)
  | sequence {fatal : List (List UInt8)} (hfatal : fatal = [] ∨ fatal = [boolText false])
    (h : Enclosed '['.toUInt8 ']'.toUInt8 (w.parts.map Prod.snd ++ fatal) y)

variable {w : Written} {f : Finding} {y : List UInt8}

theorem Text.findingText (h : w.Text y) (hw : w.Tells f) : FindingText f y := by
  cases h with
  | object hparts hfatal hothers h =>
    simp only [parts, List.forall_mem_cons] at hparts
    obtain ⟨hrule, hseverity, htext, hline, hcolumn, -⟩ := hparts
    exact .object
      { rule := ⟨_, hrule, hw.rule⟩
        severity := ⟨_, hseverity, hw.severity⟩
        text := ⟨_, htext, hw.text⟩
        line := ⟨_, hline, hw.line⟩
        column := ⟨_, hcolumn, hw.column⟩
        fatal := hfatal
        others := hothers } h
  | sequence hfatal h =>
    have hparts : w.parts.map Prod.snd = [w.rule, [digitByte f.severity.code], w.text, w.line,
        w.column] := by
      rw [← hw.severity]
      rfl
    rw [hparts] at h
    exact .sequence hw.rule hw.text hw.line hw.column hfatal h

/-- With another number for its severity a finding is a draft. -/
theorem Text.draftText {x : List UInt8} {n : Int} (h : Text { w with severity := x } y)
    (hw : w.Tells f) (hx : IsSigned n x) :
    DraftText { Draft.ofFinding f with severity := some n } y := by
  cases h with
  | object hparts hfatal hothers h =>
    simp only [parts, List.forall_mem_cons] at hparts
    obtain ⟨hrule, hseverity, htext, hline, hcolumn, -⟩ := hparts
    exact .object
      { rule := .inr ⟨_, hrule, nullOr_some_iff.mpr hw.rule⟩
        severity := .inr ⟨_, hseverity, nullOr_some_iff.mpr hx⟩
        text := .inr ⟨_, htext, nullOr_some_iff.mpr hw.text⟩
        line := .inr ⟨_, hline, nullOr_some_iff.mpr hw.line⟩
        column := .inr ⟨_, hcolumn, nullOr_some_iff.mpr hw.column⟩
        fatal := hfatal.imp (fun hnone => ⟨hnone, rfl⟩) id
        others := hothers } h
  | sequence hfatal h =>
    exact .sequence (nullOr_some_iff.mpr hw.rule) (nullOr_some_iff.mpr hx)
      (nullOr_some_iff.mpr hw.text) (nullOr_some_iff.mpr hw.line) (nullOr_some_iff.mpr hw.column)
      (hfatal.imp (fun hnone => ⟨hnone, rfl⟩) id) h

/-- The parts of a finding fill their slots. -/
theorem Tells.slots (hw : w.Tells f) :
    List.Forall₂ (fun part slot => slot.key = part.1 ∧ ∃ a, slot.text a part.2) w.parts
      (Draft.slots.take 5) := by
  have hseverity : NullOr IsSigned (some (f.severity.code : Int)) w.severity :=
    nullOr_some_iff.mpr (Draft.isSigned_code_iff.mpr hw.severity)
  refine .cons ⟨rfl, some f.rule, nullOr_some_iff.mpr hw.rule⟩ (.cons ⟨rfl, _, hseverity⟩ ?_)
  refine .cons ⟨rfl, some f.text, nullOr_some_iff.mpr hw.text⟩ ?_
  refine .cons ⟨rfl, some f.line, nullOr_some_iff.mpr hw.line⟩ ?_
  exact .cons ⟨rfl, some f.column, nullOr_some_iff.mpr hw.column⟩ .nil

theorem Tells.exists_part (hw : w.Tells f) {slot : Slot Draft}
    (h : slot ∈ Draft.slots.take 5) :
    ∃ part ∈ w.parts, slot.key = part.1 ∧ ∃ a, slot.text a part.2 := by
  obtain ⟨s, t, hst⟩ := List.append_of_mem h
  have hslots := hw.slots
  rw [hst] at hslots
  obtain ⟨p, part, q, hparts, -, hpart⟩ := exists_of_forall₂_append_cons hslots.flip
  exact ⟨part, hparts ▸ by simp, hpart⟩

/-- With other bytes for one of its parts a finding is a draft with a gap. -/
theorem Text.recordGap {w' : Written} {p q : List (String × List UInt8)} {key : String}
    {v x : List UInt8} (h : w'.Text y) (hw : w.Tells f) (hp : w.parts = p ++ (key, v) :: q)
    (hp' : w'.parts = p ++ (key, x) :: q) :
    ∃ before slot after, Draft.slots = before ++ slot :: after ∧ slot.key = key ∧
      RecordGap before slot after x y := by
  have hslots := hw.slots
  rw [hp] at hslots
  obtain ⟨before, slot, after, hsplit, hbefore, rfl, -⟩ := exists_of_forall₂_append_cons hslots
  have hall : Draft.slots = before ++ slot :: (after ++ [Draft.mark]) := by
    rw [← List.cons_append, ← List.append_assoc, ← hsplit]
    rfl
  refine ⟨before, slot, after ++ [Draft.mark], hall, rfl, ?_⟩
  cases h with
  | object hparts hfatal hothers h =>
    rename_i es
    rw [hp'] at hparts
    refine .object ?_ (hparts (slot.key, x) (by simp)) ?_ h
    · rw [← hall]
      exact othersAreValues_iff.mpr hothers
    · rw [← hall]
      intro slot' hs' hne
      rcases List.mem_append.mp (show slot' ∈ Draft.slots.take 5 ++ [Draft.mark] from hs') with
        hs' | hs'
      · obtain ⟨part, hpart, hkey, a, htext⟩ := hw.exists_part hs'
        -- The part is not the one that is replaced.
        have hne' : part ≠ (slot.key, v) := fun he => hne (hkey.trans (congrArg Prod.fst he))
        have hmem : part ∈ p ++ (slot.key, x) :: q := by
          rw [hp] at hpart
          simp only [List.mem_append, List.mem_cons, hne', false_or] at hpart ⊢
          tauto
        exact .inr ⟨part.2, hkey ▸ hparts part hmem, a, htext⟩
      · obtain rfl := List.mem_singleton.mp hs'
        exact hfatal.imp id fun ⟨v, hv, htext⟩ => ⟨v, hv, false, htext⟩
  | sequence hfatal h =>
    rename_i fatal
    have hxs : List.Forall₂ (fun slot v => ∃ a, slot.text a v) before (p.map Prod.snd) :=
      List.forall₂_map_right_iff.mpr (hbefore.flip.imp fun _ _ hpart => hpart.2)
    rw [hp'] at h
    have henclosed : Enclosed '['.toUInt8 ']'.toUInt8
        (p.map Prod.snd ++ x :: (q.map Prod.snd ++ fatal)) y := by
      simpa using h
    exact .sequence hxs henclosed

/-- A finding is refused for the part that its field refuses. -/
theorem Text.rejects {w' : Written} (h : w'.Text y) (hw : w.Tells f)
    {p q : List (String × List UInt8)} {key : String} {v x : List UInt8}
    (hp : w.parts = p ++ (key, v) :: q) (hp' : w'.parts = p ++ (key, x) :: q)
    {field : Field Draft.Problem Draft} (hf : Draft.record.field? key = some field)
    {C : Cause Draft.Problem → Prop} (hx : ∀ d, Rejects (field.read d) x C) :
    Rejects Finding.decoder y C := by
  obtain ⟨before, slot, after, hslots, rfl, hgap⟩ := h.recordGap hw hp hp'
  have hfilled := Draft.filled_record
  have hapart := Draft.apart_slots
  rw [hslots] at hfilled hapart
  exact (rejects_record hgap hfilled hapart hf hx {}).bind _

end Finding.Written

/-! ## Files by their parts -/

/-- A file report of which the path and the findings are written so. The findings may be absent. -/
inductive FileWritten (path : List UInt8) (findings : Option (List UInt8)) (y : List UInt8) : Prop
  | object {es : List (String × List UInt8)} (hpath : given es "filePath" = [path])
    (hfindings : given es "messages" = findings.toList)
    (hothers : ∀ e ∈ es, e.1 ∉ ["filePath", "messages"] → IsValue e.2)
    (h : ObjectOf NamedEntry es y)
  | sequence (h : Enclosed '['.toUInt8 ']'.toUInt8 (path :: findings.toList) y)

/-- How findings are written; if there are none, they may be absent. -/
def FindingsText (findings : List Finding) : Option (List UInt8) → Prop
  | none => findings = []
  | some x => SequenceOf FindingText findings x

namespace FileWritten

variable {path y : List UInt8} {C : Cause Draft.Problem → Prop}

theorem fileText {findings : Option (List UInt8)} {r : FileReport}
    (h : FileWritten path findings y) (hpath : IsText r.path path)
    (hfindings : FindingsText r.findings findings) : FileText r y := by
  cases findings with
  | none =>
    cases h with
    | object hgiven hnone hothers h =>
      exact .object
        { path := ⟨_, hgiven, hpath⟩
          findings := .inl ⟨hnone, hfindings⟩
          others := hothers } h
    | sequence h => exact .path hpath hfindings h
  | some x =>
    cases h with
    | object hgiven hsome hothers h =>
      exact .object
        { path := ⟨_, hgiven, hpath⟩
          findings := .inr ⟨_, hsome, hfindings⟩
          others := hothers } h
    | sequence h => exact .both hpath hfindings h

/-- A file report is refused for its path. -/
theorem rejects_path {findings : Option (List UInt8)} {fs : List Finding}
    (h : FileWritten path findings y) (hfindings : FindingsText fs findings)
    (hpath : Rejects string path C) : Rejects FileReport.decoder y C := by
  have hgap : RecordGap [] FileReport.pathSlot [FileReport.findingsSlot] path y := by
    cases h with
    | object hgiven hgiven' hothers h =>
      refine .object (othersAreValues_iff.mpr hothers) hgiven ?_ h
      refine List.forall_mem_cons.mpr ⟨fun hne => absurd rfl hne,
        List.forall_mem_singleton.mpr fun _ => ?_⟩
      cases findings with
      | none => exact .inl hgiven'
      | some x => exact .inr ⟨x, hgiven', fs, hfindings⟩
    | sequence h => exact .sequence .nil h
  exact rejects_record hgap FileReport.filled_record FileReport.apart_slots rfl
    (fun _ => hpath.bind _) _

/-- A file report is refused for its findings. -/
theorem rejects_findings {findings : List UInt8} {t : String}
    (h : FileWritten path (some findings) y) (hpath : IsText t path)
    (hfindings : Rejects (Decoder.sequence Finding.decoder) findings C) :
    Rejects FileReport.decoder y C := by
  have hgap : RecordGap [FileReport.pathSlot] FileReport.findingsSlot [] findings y := by
    cases h with
    | object hgiven hgiven' hothers h =>
      refine .object (othersAreValues_iff.mpr hothers) hgiven' ?_ h
      exact List.forall_mem_cons.mpr ⟨fun _ => .inr ⟨path, hgiven, t, hpath⟩,
        List.forall_mem_singleton.mpr fun hne => absurd rfl hne⟩
    | sequence h => exact .sequence (.cons ⟨t, hpath⟩ .nil) h
  exact rejects_record hgap FileReport.filled_record FileReport.apart_slots rfl
    (fun _ => hfindings.bind _) _

end FileWritten

/-! ## What is around a file -/

/-- The files around a gap in a document. -/
structure FileGap where
  before : Report
  after : Report

namespace FileGap

/-- The report with a file in the gap. -/
def fill (g : FileGap) (file : FileReport) : Report :=
  g.before ++ file :: g.after

/-- A document in which `y` is what stands in the gap. -/
def Text (g : FileGap) (y bytes : List UInt8) : Prop :=
  ∃ w x w', Blank w ∧ SequenceGap FileText g.before g.after y x ∧ Blank w' ∧
    bytes = w ++ (x ++ w')

variable {g : FileGap} {y bytes : List UInt8}

theorem Text.reportText (h : g.Text y bytes) {file : FileReport} (hy : FileText file y) :
    ReportText (g.fill file) bytes := by
  obtain ⟨w, x, w', hw, hx, hw', hbytes⟩ := h
  exact ⟨w, x, w', hw, hx.fill hy, hw', hbytes⟩

theorem Text.fails (h : g.Text y bytes) {C : Cause Draft.Problem → Prop}
    (hy : Rejects FileReport.decoder y C) : Fails Report.decoder bytes C := by
  obtain ⟨w, x, w', hw, hx, hw', rfl⟩ := h
  have hdelimited : Delimited w' := by
    simpa using delimited_nil.blank_append hw'
  exact (hx.rejects FileReport.reads_decoder hy).fails w w' hw hdelimited

end FileGap

/-! ## What is around a finding -/

/-- The files around a gap in a document, and the path and the findings of the file that it is
in. -/
structure FindingGap where
  files : FileGap
  path : String
  before : List Finding
  after : List Finding

namespace FindingGap

/-- The report with a finding in the gap. -/
def fill (g : FindingGap) (f : Finding) : Report :=
  g.files.fill { path := g.path, findings := g.before ++ f :: g.after }

/-- A document in which `y` is what stands in the gap. -/
def Text (g : FindingGap) (y bytes : List UInt8) : Prop :=
  ∃ path findings file, IsText g.path path ∧ SequenceGap FindingText g.before g.after y findings ∧
    FileWritten path (some findings) file ∧ g.files.Text file bytes

variable {g : FindingGap} {y bytes : List UInt8}

theorem Text.reportText (h : g.Text y bytes) {f : Finding} (hy : FindingText f y) :
    ReportText (g.fill f) bytes := by
  obtain ⟨path, findings, file, hpath, hfindings, hfile, h⟩ := h
  exact h.reportText (hfile.fileText hpath (hfindings.fill hy))

theorem Text.fails (h : g.Text y bytes) {C : Cause Draft.Problem → Prop}
    (hy : Rejects Finding.decoder y C) : Fails Report.decoder bytes C := by
  obtain ⟨path, findings, file, hpath, hfindings, hfile, h⟩ := h
  exact h.fails (hfile.rejects_findings hpath (hfindings.rejects Finding.reads_decoder hy))

end FindingGap

/-! ## Gaps for one value -/

/-- A document in which a text is written `x`, and the report that it is for each text there: the
path of a file, or the rule or the text of a finding. -/
inductive TextPlace (x bytes : List UInt8) : (String → Report) → Prop
  | path {g : FileGap} {fs : List Finding} {findings : Option (List UInt8)} {y : List UInt8}
    (hfindings : FindingsText fs findings) (hy : FileWritten x findings y) (h : g.Text y bytes) :
    TextPlace x bytes fun t => g.fill { path := t, findings := fs }
  | rule {g : FindingGap} {f : Finding} {w : Finding.Written} {y : List UInt8} (hw : w.Tells f)
    (hy : Finding.Written.Text { w with rule := x } y) (h : g.Text y bytes) :
    TextPlace x bytes fun t => g.fill { f with rule := t }
  | text {g : FindingGap} {f : Finding} {w : Finding.Written} {y : List UInt8} (hw : w.Tells f)
    (hy : Finding.Written.Text { w with text := x } y) (h : g.Text y bytes) :
    TextPlace x bytes fun t => g.fill { f with text := t }

/-- A document in which the line or the column of a finding is written `x`, and the report that it
is for each number there. -/
inductive NumberPlace (x bytes : List UInt8) : (UInt32 → Report) → Prop
  | line {g : FindingGap} {f : Finding} {w : Finding.Written} {y : List UInt8} (hw : w.Tells f)
    (hy : Finding.Written.Text { w with line := x } y) (h : g.Text y bytes) :
    NumberPlace x bytes fun n => g.fill { f with line := n }
  | column {g : FindingGap} {f : Finding} {w : Finding.Written} {y : List UInt8} (hw : w.Tells f)
    (hy : Finding.Written.Text { w with column := x } y) (h : g.Text y bytes) :
    NumberPlace x bytes fun n => g.fill { f with column := n }

/-- A document in which the severity of a finding is written `x`, and the report that it is for each
severity there. -/
inductive SeverityPlace (x bytes : List UInt8) : (Severity → Report) → Prop
  | severity {g : FindingGap} {f : Finding} {w : Finding.Written} {y : List UInt8} (hw : w.Tells f)
    (hy : Finding.Written.Text { w with severity := x } y) (h : g.Text y bytes) :
    SeverityPlace x bytes fun s => g.fill { f with severity := s }

section Places

variable {x bytes : List UInt8} {C : Cause Draft.Problem → Prop}

theorem TextPlace.reportText {fill : String → Report} (h : TextPlace x bytes fill) {t : String}
    (hx : IsText t x) : ReportText (fill t) bytes := by
  cases h with
  | path hfindings hy h => exact h.reportText (hy.fileText hx hfindings)
  | rule hw hy h => exact h.reportText (hy.findingText { hw with rule := hx })
  | text hw hy h => exact h.reportText (hy.findingText { hw with text := hx })

theorem TextPlace.fails {fill : String → Report} (h : TextPlace x bytes fill)
    (hnull : x.head? ≠ some 'n'.toUInt8) (hx : Rejects string x C) :
    Fails Report.decoder bytes C := by
  cases h with
  | path hfindings hy h => exact h.fails (hy.rejects_path hfindings hx)
  | rule hw hy h =>
    exact h.fails (hy.rejects hw (p := []) rfl rfl rfl fun _ => (hx.optional hnull).bind _)
  | text hw hy h =>
    exact h.fails (hy.rejects hw (p := [_, _]) rfl rfl rfl fun _ => (hx.optional hnull).bind _)

theorem NumberPlace.reportText {fill : UInt32 → Report} (h : NumberPlace x bytes fill) {n : UInt32}
    (hx : IsUnsigned n x) : ReportText (fill n) bytes := by
  cases h with
  | line hw hy h => exact h.reportText (hy.findingText { hw with line := hx })
  | column hw hy h => exact h.reportText (hy.findingText { hw with column := hx })

theorem NumberPlace.fails {fill : UInt32 → Report} (h : NumberPlace x bytes fill)
    (hnull : x.head? ≠ some 'n'.toUInt8) (hx : Rejects unsigned x C) :
    Fails Report.decoder bytes C := by
  cases h with
  | line hw hy h =>
    exact h.fails (hy.rejects hw (p := [_, _, _]) rfl rfl rfl fun _ => (hx.optional hnull).bind _)
  | column hw hy h =>
    exact h.fails
      (hy.rejects hw (p := [_, _, _, _]) rfl rfl rfl fun _ => (hx.optional hnull).bind _)

theorem SeverityPlace.reportText {fill : Severity → Report} (h : SeverityPlace x bytes fill)
    {s : Severity} (hx : x = [digitByte s.code]) : ReportText (fill s) bytes := by
  cases h with
  | severity hw hy h => exact h.reportText (hy.findingText { hw with severity := hx })

theorem SeverityPlace.fails {fill : Severity → Report} (h : SeverityPlace x bytes fill)
    (hnull : x.head? ≠ some 'n'.toUInt8) (hx : Rejects signed x C) :
    Fails Report.decoder bytes C := by
  cases h with
  | severity hw hy h =>
    exact h.fails (hy.rejects hw (p := [_]) rfl rfl rfl fun _ => (hx.optional hnull).bind _)

/-- A number that is read but is no severity is what the document is refused for. -/
theorem SeverityPlace.fails_unknown {fill : Severity → Report} (h : SeverityPlace x bytes fill)
    {n : Int} (hx : IsSigned n x) (hn : n ≠ 1 ∧ n ≠ 2) :
    Fails Report.decoder bytes (· = .refused (.unknownSeverity n)) := by
  cases h with
  | @severity g f w y hw hy h =>
    have hfaults : Draft.faults { Draft.ofFinding f with severity := some n } =
        [.unknownSeverity n] := by
      simp [Draft.faults, Draft.lacking, Draft.unknown, Draft.ofFinding, hn]
    have hverdict := Finding.judges_decoder (hy.draftText hw hx)
    rw [hfaults] at hverdict
    cases hverdict with
    | refuses hrejects => exact h.fails hrejects

end Places

/-! ## Written documents with a gap -/

open Text.Utf8 (encode)

/-- The document of one file with one finding, whose parts are written so. -/
def Report.writtenOfParts (path : String) (parts : List (List Char)) : List Char :=
  Writer.sequence [Writer.sequence [Writer.text path, Writer.sequence [Writer.sequence parts]]]

/-- A finding's parts as they are written. -/
def Finding.Written.ofFinding (f : Finding) : Finding.Written where
  rule := encode (Writer.text f.rule)
  severity := encode (Writer.natural f.severity.code)
  text := encode (Writer.text f.text)
  line := encode (Writer.natural f.line.toNat)
  column := encode (Writer.natural f.column.toNat)

theorem Finding.Written.tells_ofFinding (f : Finding) : (ofFinding f).Tells f where
  rule := isText_text f.rule
  severity := encode_code f.severity
  text := isText_text f.text
  line := isNatural_natural f.line.toNat
  column := isNatural_natural f.column.toNat

theorem Finding.Written.text_sequence {w : Finding.Written} {parts : List (List Char)}
    (h : parts.map encode = w.parts.map Prod.snd) : w.Text (encode (Writer.sequence parts)) := by
  have henclosed : Enclosed '['.toUInt8 ']'.toUInt8 (w.parts.map Prod.snd ++ [])
      (encode (Writer.sequence parts)) := by
    rw [List.append_nil, ← h]
    exact enclosed_sequence parts
  exact .sequence (.inl rfl) henclosed

theorem FindingGap.text_writtenOfParts (path : String) (parts : List (List Char)) :
    FindingGap.Text { files := { before := [], after := [] }, path, before := [], after := [] }
      (encode (Writer.sequence parts)) (encode (Report.writtenOfParts path parts)) := by
  have hfindings := enclosed_sequence [Writer.sequence parts]
  have hfile := enclosed_sequence [Writer.text path, Writer.sequence [Writer.sequence parts]]
  have hfiles := enclosed_sequence
    [Writer.sequence [Writer.text path, Writer.sequence [Writer.sequence parts]]]
  refine ⟨_, _, _, isText_text path, ⟨[], [], .nil, .nil, hfindings⟩, .sequence hfile,
    [], _, [], .nil, ⟨[], [], .nil, .nil, hfiles⟩, .nil, ?_⟩
  rw [List.nil_append, List.append_nil]
  rfl

section Written

variable (f : Finding) (path : String) (x : List Char)

/-- Anything can be written for the text of a finding. -/
theorem textPlace_written :
    TextPlace (encode x) (encode (Report.writtenOfParts path [Writer.text f.rule,
      Writer.natural f.severity.code, x, Writer.natural f.line.toNat,
      Writer.natural f.column.toNat])) fun t => [{ path, findings := [{ f with text := t }] }] :=
  .text (Finding.Written.tells_ofFinding f) (Finding.Written.text_sequence rfl)
    (FindingGap.text_writtenOfParts path _)

/-- Anything can be written for the line of a finding. -/
theorem numberPlace_written :
    NumberPlace (encode x) (encode (Report.writtenOfParts path [Writer.text f.rule,
      Writer.natural f.severity.code, Writer.text f.text, x, Writer.natural f.column.toNat]))
      fun n => [{ path, findings := [{ f with line := n }] }] :=
  .line (Finding.Written.tells_ofFinding f) (Finding.Written.text_sequence rfl)
    (FindingGap.text_writtenOfParts path _)

/-- Anything can be written for the severity of a finding. -/
theorem severityPlace_written :
    SeverityPlace (encode x) (encode (Report.writtenOfParts path [Writer.text f.rule, x,
      Writer.text f.text, Writer.natural f.line.toNat, Writer.natural f.column.toNat]))
      fun s => [{ path, findings := [{ f with severity := s }] }] :=
  .severity (Finding.Written.tells_ofFinding f) (Finding.Written.text_sequence rfl)
    (FindingGap.text_writtenOfParts path _)

end Written

/-! ## Readings -/

/-- What comes of bytes that are read: as a stream, or as the text of which they are the UTF-8. -/
inductive Reading (bytes : List UInt8) : Except Refusal Report → Prop
  | stream : Reading bytes (Report.ofStream { bytes })
  | text {t : String} (h : Text.Utf8.encode t.toList = bytes) : Reading bytes (Report.ofText t)

namespace Reading

variable {bytes : List UInt8} {o : Except Refusal Report}

theorem exists_source (h : Reading bytes o) :
    ∃ source, o = Report.decoder.decode source { bytes } := by
  cases h with
  | stream => exact ⟨.stream, rfl⟩
  | text h => exact ⟨.text, by rw [← h]; rfl⟩

theorem eq_ok_iff (h : Reading bytes o) {r : Report} : o = .ok r ↔ ReportText r bytes := by
  obtain ⟨source, rfl⟩ := h.exists_source
  exact Decoder.decode_eq_ok_iff Report.reads_decoder source

/-- Bytes at which the decoder fails are refused in the words for the cause. -/
theorem of_fails (h : Reading bytes o) {C : Cause Draft.Problem → Prop}
    (hfails : Fails Report.decoder bytes C) :
    ∃ (e : Refusal) (p : Position), o = .error e ∧ C e.cause ∧
      e.text = e.cause.message Draft.Problem.message ++ p.words := by
  obtain ⟨source, rfl⟩ := h.exists_source
  exact Report.decode_of_fails source hfails

end Reading

end Findings
