import Findings.Proofs.Records
import Findings.Report.Decoding

/-!
# The language of reports

A document is decoded to a report exactly if it is a text of that report (`ofText_eq_ok_iff`). The
language is said by itself first: which keys must be there, how often, and with which values, and
which sequences stand for a finding or a file report instead of an object.

## From drafts to findings

The decoder reads a draft with its six parts and checks it; a checked draft is the one that says all
about its finding (`Draft.check_eq_ok_iff`), which is what leaves `null` out of the language.
-/

namespace Findings

open Json

/-! ## The language -/

/-- Whether a key has one value, of the language `P`. -/
def Once (es : List (String × List UInt8)) (key : String) (P : List UInt8 → Prop) : Prop :=
  ∃ x, given es key = [x] ∧ P x

/-- The entries of an object that stands for a finding. -/
structure Finding.Entries (f : Finding) (es : List (String × List UInt8)) : Prop where
  rule : Once es "ruleId" (IsText f.rule)
  severity : Once es "severity" (· = [digitByte f.severity.code])
  text : Once es "message" (IsText f.text)
  line : Once es "line" (IsUnsigned f.line)
  column : Once es "column" (IsUnsigned f.column)
  fatal : given es "fatal" = [] ∨ Once es "fatal" (· = boolText false)
  others : ∀ e ∈ es, e.1 ∉ ["ruleId", "severity", "message", "line", "column", "fatal"] →
    IsValue e.2

/-- A finding, as an object or as the sequence of its parts. -/
inductive FindingText (f : Finding) (x : List UInt8) : Prop
  | object {es : List (String × List UInt8)} (he : f.Entries es) (h : ObjectOf NamedEntry es x)
  | sequence {rule text line column : List UInt8} {fatal : List (List UInt8)}
    (hrule : IsText f.rule rule) (htext : IsText f.text text)
    (hline : IsUnsigned f.line line) (hcolumn : IsUnsigned f.column column)
    (hfatal : fatal = [] ∨ fatal = [boolText false])
    (h : Enclosed '['.toUInt8 ']'.toUInt8
      (rule :: [digitByte f.severity.code] :: text :: line :: column :: fatal) x)

/-- The entries of an object that stands for a file report. -/
structure FileReport.Entries (r : FileReport) (es : List (String × List UInt8)) : Prop where
  path : Once es "filePath" (IsText r.path)
  findings : (given es "messages" = [] ∧ r.findings = []) ∨
    Once es "messages" (SequenceOf FindingText r.findings)
  others : ∀ e ∈ es, e.1 ∉ ["filePath", "messages"] → IsValue e.2

/-- A file report, as an object or as the sequence of its parts. -/
inductive FileText (r : FileReport) (x : List UInt8) : Prop
  | object {es : List (String × List UInt8)} (he : r.Entries es) (h : ObjectOf NamedEntry es x)
  | path {path : List UInt8} (hpath : IsText r.path path) (hnone : r.findings = [])
    (h : Enclosed '['.toUInt8 ']'.toUInt8 [path] x)
  | both {path findings : List UInt8} (hpath : IsText r.path path)
    (hfindings : SequenceOf FindingText r.findings findings)
    (h : Enclosed '['.toUInt8 ']'.toUInt8 [path, findings] x)

/-- A document that holds a report, with white space around it. -/
def ReportText (r : Report) (bytes : List UInt8) : Prop :=
  ∃ w x w', Blank w ∧ SequenceOf FileText r x ∧ Blank w' ∧ bytes = w ++ (x ++ w')

/-! ## Drafts -/

namespace Draft

theorem severityOf_eq_ok_iff {code : Int} {s : Severity} :
    severityOf code = .ok s ↔ code = s.code := by
  rw [← Severity.ofCode?_eq_some_iff, severityOf]
  cases Severity.ofCode? code <;> simp

/-- Only the draft that says all about a finding passes its check as that finding. -/
theorem check_eq_ok_iff {d : Draft} {f : Finding} : d.check = .ok f ↔ d = ofFinding f := by
  constructor
  · intro h
    obtain ⟨rule, severity, text, line, column, fatal⟩ := d
    cases fatal with
    | true =>
      rw [check_of_fatal rfl] at h
      simp at h
    | false =>
      cases rule with
      | none => simp [check, require, bind, Except.bind] at h
      | some rule =>
      cases severity with
      | none => simp [check, require, bind, Except.bind] at h
      | some code =>
      cases hs : severityOf code with
      | error p => simp [check, require, bind, Except.bind, hs] at h
      | ok s =>
      cases text with
      | none => simp [check, require, bind, Except.bind, hs] at h
      | some text =>
      cases line with
      | none => simp [check, require, bind, Except.bind, hs] at h
      | some line =>
      cases column with
      | none => simp [check, require, bind, Except.bind, hs] at h
      | some column =>
      simp only [check, require, bind, Except.bind, hs, pure, Except.pure, Bool.false_eq_true,
        if_false, Except.ok.injEq] at h
      rw [← h, ofFinding, severityOf_eq_ok_iff.mp hs]
  · rintro rfl
    exact check_ofFinding f

/-- A part of a draft that the check asks for: `null` is read, and refused later. -/
def part {α : Type} (key : String) (P : α → List UInt8 → Prop) (get : Draft → Option α)
    (set : Option α → Draft → Draft) : Slot Draft where
  key := key
  absence := .fromObject
  Value := Option α
  get := get
  set := set
  text := NullOr P

/-- The mark of a fatal finding. -/
def mark : Slot Draft where
  key := "fatal"
  absence := .anywhere
  Value := Bool
  get := Draft.fatal
  set := fun a d => { d with fatal := a }
  text := fun b x => x = boolText b

/-- The parts of a draft as they are written. -/
def slots : List (Slot Draft) := [
  part "ruleId" IsText Draft.rule fun a d => { d with rule := a },
  part "severity" IsSigned Draft.severity fun a d => { d with severity := a },
  part "message" IsText Draft.text fun a d => { d with text := a },
  part "line" IsUnsigned Draft.line fun a d => { d with line := a },
  part "column" IsUnsigned Draft.column fun a d => { d with column := a },
  mark]

/-- A part that was not known before is there once. -/
theorem part_in_iff {α : Type} {key : String} {P : α → List UInt8 → Prop}
    {get : Draft → Option α} {set : Option α → Draft → Draft}
    {es : List (String × List UInt8)} {d d' : Draft} {a : α} (hd : get d = none)
    (hd' : get d' = some a) : (part key P get set).In es d d' ↔ Once es key (P a) := by
  constructor
  · rintro (⟨-, -, h⟩ | ⟨x, hx, h⟩)
    · have hget : get d' = get d := h
      rw [hd, hd'] at hget
      simp at hget
    · have htext : NullOr P (get d') x := h
      rw [hd', nullOr_some_iff] at htext
      exact ⟨x, hx, htext⟩
  · rintro ⟨x, hx, h⟩
    refine .inr ⟨x, hx, ?_⟩
    show NullOr P (get d') x
    rw [hd', nullOr_some_iff]
    exact h

/-- A part in a sequence. -/
theorem positional_part_iff {α : Type} {key : String} {P : α → List UInt8 → Prop}
    {get : Draft → Option α} {set : Option α → Draft → Draft} {rest : List (Slot Draft)}
    {d d' : Draft} {xs : List (List UInt8)} :
    Positional (part key P get set :: rest) d xs d' ↔
      ∃ a x xs', xs = x :: xs' ∧ NullOr P a x ∧ Positional rest (set a d) xs' d' := by
  rw [positional_cons_iff]
  constructor
  · rintro (h | ⟨-, h, -⟩)
    · exact h
    · exact absurd h (by simp [part])
  · exact .inl

theorem apart_slots : Apart slots where
  keys := by decide
  get_set := by
    intro slot hs a s
    simp only [slots, List.mem_cons, List.not_mem_nil, or_false] at hs
    rcases hs with rfl | rfl | rfl | rfl | rfl | rfl <;> rfl
  get_set_ne := by
    intro slot hs slot' hs' hk a s
    simp only [slots, List.mem_cons, List.not_mem_nil, or_false] at hs hs'
    rcases hs with rfl | rfl | rfl | rfl | rfl | rfl <;>
      rcases hs' with rfl | rfl | rfl | rfl | rfl | rfl <;>
        first | rfl | exact absurd rfl hk
  ext := by
    intro s s' h
    simp only [slots, List.forall_mem_cons] at h
    obtain ⟨hrule, hseverity, htext, hline, hcolumn, hfatal, -⟩ := h
    cases s
    cases s'
    rw [Draft.mk.injEq]
    exact ⟨hrule, hseverity, htext, hline, hcolumn, hfatal⟩

theorem filled_record : Draft.record.Filled slots := by
  have hinteger : ∀ n x, IsUnsigned n x → x.head? ≠ some 'n'.toUInt8 :=
    fun _ _ h => (IsInteger.natural h).head?_ne
  have htext : ∀ s x, IsText s x → x.head? ≠ some 'n'.toUInt8 := fun _ _ h => h.head?_ne
  refine .cons ?rule (.cons ?severity (.cons ?text (.cons ?line (.cons ?column
    (.cons ?fatal .nil)))))
  case rule =>
    exact ⟨rfl, rfl, fun s => (Decoder.reads_optional Decoder.reads_string htext).map _⟩
  case severity =>
    exact ⟨rfl, rfl, fun s =>
      (Decoder.reads_optional Decoder.reads_signed fun _ _ h => h.1.head?_ne).map _⟩
  case text =>
    exact ⟨rfl, rfl, fun s => (Decoder.reads_optional Decoder.reads_string htext).map _⟩
  case line =>
    exact ⟨rfl, rfl, fun s => (Decoder.reads_optional Decoder.reads_unsigned hinteger).map _⟩
  case column =>
    exact ⟨rfl, rfl, fun s => (Decoder.reads_optional Decoder.reads_unsigned hinteger).map _⟩
  case fatal => exact ⟨rfl, rfl, fun s => Decoder.reads_boolean.map _⟩

/-- The number of a severity is written as one digit. -/
theorem isSigned_code_iff {s : Severity} {x : List UInt8} :
    IsSigned s.code x ↔ x = [digitByte s.code] := by
  have hlt : s.code < 10 := by
    cases s <;> decide
  have hrange : Int64.minValue.toInt ≤ s.code ∧ s.code ≤ Int64.maxValue.toInt := by
    cases s <;> decide
  rw [IsSigned, isInteger_iff_isNatural, isNatural_digit_iff hlt, and_iff_left hrange]

/-- A draft that says all, from an object. -/
theorem entries_iff {f : Finding} {es : List (String × List UInt8)} :
    (OthersAreValues slots es ∧ ∀ slot ∈ slots, slot.In es {} (ofFinding f)) ↔ f.Entries es := by
  have hmark : mark.In es {} (ofFinding f) ↔
      given es "fatal" = [] ∨ Once es "fatal" (· = boolText false) := by
    constructor
    · rintro (⟨h, -⟩ | h)
      · exact .inl h
      · exact .inr h
    · rintro (h | h)
      · exact .inl ⟨h, by simp [mark], rfl⟩
      · exact .inr h
  have hseverity : Once es "severity" (IsSigned f.severity.code) ↔
      Once es "severity" (· = [digitByte f.severity.code]) :=
    exists_congr fun x => and_congr_right fun _ => isSigned_code_iff
  rw [othersAreValues_iff, slots]
  simp only [List.forall_mem_cons]
  constructor
  · rintro ⟨others, rule, severity, text, line, column, fatal, -⟩
    exact
      { rule := (part_in_iff (by rfl) (by rfl)).mp rule
        severity := hseverity.mp ((part_in_iff (by rfl) (by rfl)).mp severity)
        text := (part_in_iff (by rfl) (by rfl)).mp text
        line := (part_in_iff (by rfl) (by rfl)).mp line
        column := (part_in_iff (by rfl) (by rfl)).mp column
        fatal := hmark.mp fatal
        others := others }
  · rintro ⟨rule, severity, text, line, column, fatal, others⟩
    exact ⟨others, (part_in_iff (by rfl) (by rfl)).mpr rule,
      (part_in_iff (by rfl) (by rfl)).mpr (hseverity.mpr severity),
      (part_in_iff (by rfl) (by rfl)).mpr text, (part_in_iff (by rfl) (by rfl)).mpr line,
      (part_in_iff (by rfl) (by rfl)).mpr column, hmark.mpr fatal,
      List.forall_mem_nil _⟩

/-- A draft that says all, from a sequence. -/
theorem positional_iff {f : Finding} {xs : List (List UInt8)} :
    Positional slots {} xs (ofFinding f) ↔ ∃ rule text line column fatal,
      IsText f.rule rule ∧ IsText f.text text ∧ IsUnsigned f.line line ∧
      IsUnsigned f.column column ∧ (fatal = [] ∨ fatal = [boolText false]) ∧
      xs = rule :: [digitByte f.severity.code] :: text :: line :: column :: fatal := by
  rw [slots]
  constructor
  · intro h
    obtain ⟨a₁, rule, _, rfl, h₁, h⟩ := positional_part_iff.mp h
    obtain ⟨a₂, severity, _, rfl, h₂, h⟩ := positional_part_iff.mp h
    obtain ⟨a₃, text, _, rfl, h₃, h⟩ := positional_part_iff.mp h
    obtain ⟨a₄, line, _, rfl, h₄, h⟩ := positional_part_iff.mp h
    obtain ⟨a₅, column, fatal, rfl, h₅, h⟩ := positional_part_iff.mp h
    have hlast :
        ofFinding f = { rule := a₁, severity := a₂, text := a₃, line := a₄, column := a₅ } ∧
        (fatal = [] ∨ fatal = [boolText false]) := by
      rcases positional_cons_iff.mp h with ⟨b, x, _, rfl, hb, h⟩ | ⟨rfl, -, h⟩
      · obtain ⟨rfl, hd⟩ := positional_nil_iff.mp h
        have hfalse : false = b := congrArg Draft.fatal hd
        rw [← hfalse] at hb hd
        obtain rfl : x = boolText false := hb
        exact ⟨hd, .inr rfl⟩
      · exact ⟨(positional_nil_iff.mp h).2, .inl rfl⟩
    obtain ⟨hd, hfatal⟩ := hlast
    rw [ofFinding, Draft.mk.injEq] at hd
    obtain ⟨rfl, rfl, rfl, rfl, rfl, -⟩ := hd
    rw [nullOr_some_iff] at h₁ h₂ h₃ h₄ h₅
    rw [isSigned_code_iff.mp h₂]
    exact ⟨rule, text, line, column, fatal, h₁, h₃, h₄, h₅, hfatal, rfl⟩
  · rintro ⟨rule, text, line, column, fatal, h₁, h₃, h₄, h₅, hfatal, rfl⟩
    have h₂ := isSigned_code_iff.mpr (rfl : [digitByte f.severity.code] = _)
    refine positional_part_iff.mpr ⟨some f.rule, rule, _, rfl, nullOr_some_iff.mpr h₁, ?_⟩
    refine positional_part_iff.mpr ⟨some f.severity.code, _, _, rfl, nullOr_some_iff.mpr h₂, ?_⟩
    refine positional_part_iff.mpr ⟨some f.text, text, _, rfl, nullOr_some_iff.mpr h₃, ?_⟩
    refine positional_part_iff.mpr ⟨some f.line, line, _, rfl, nullOr_some_iff.mpr h₄, ?_⟩
    refine positional_part_iff.mpr ⟨some f.column, column, _, rfl, nullOr_some_iff.mpr h₅, ?_⟩
    rcases hfatal with rfl | rfl
    · exact .absent rfl .nil
    · exact positional_cons_iff.mpr (.inl ⟨false, _, [], rfl, rfl, .nil⟩)

end Draft

/-- The texts of a finding are those of the draft that says all about it. -/
theorem Draft.recordText_ofFinding_iff {f : Finding} {x : List UInt8} :
    RecordText Draft.slots {} (Draft.ofFinding f) x ↔ FindingText f x := by
  constructor
  · rintro (⟨xs, hxs, h⟩ | ⟨es, he, h⟩)
    · obtain ⟨rule, text, line, column, fatal, hrule, htext, hline, hcolumn, hfatal, rfl⟩ :=
        Draft.positional_iff.mp hxs
      exact .sequence hrule htext hline hcolumn hfatal h
    · exact .object (Draft.entries_iff.mp he) h
  · intro h
    cases h with
    | object he h => exact .inr ⟨_, Draft.entries_iff.mpr he, h⟩
    | sequence hrule htext hline hcolumn hfatal h =>
      exact .inl ⟨_, Draft.positional_iff.mpr
        ⟨_, _, _, _, _, hrule, htext, hline, hcolumn, hfatal, rfl⟩, h⟩

/-- Findings are read as the language has them. -/
theorem Finding.reads_decoder : Decoder.Reads Finding.decoder FindingText := by
  have hrecord := reads_record Draft.filled_record Draft.apart_slots {}
  refine (hrecord.filter (Q := fun d f => d = Draft.ofFinding f) fun d => ?_).congr fun f x => ?_
  · cases h : d.check with
    | ok f =>
      refine (Decoder.yields_pure f).congr fun bs f' r => ?_
      rw [← Draft.check_eq_ok_iff, h, Except.ok.injEq, eq_comm]
    | error p =>
      refine (Decoder.refuses_failAnywhere _).congr fun bs f' r => ?_
      rw [← Draft.check_eq_ok_iff, h]
      simp
  · rw [exists_eq_right, Draft.recordText_ofFinding_iff]

/-! ## File reports -/

namespace FileReport

/-- The path of a file report, which must be there. -/
def pathSlot : Slot FileReport where
  key := "filePath"
  absence := .never
  Value := String
  get := FileReport.path
  set := fun a r => { r with path := a }
  text := IsText

/-- The findings of a file report. -/
def findingsSlot : Slot FileReport where
  key := "messages"
  absence := .anywhere
  Value := List Finding
  get := FileReport.findings
  set := fun a r => { r with findings := a }
  text := SequenceOf FindingText

/-- The parts of a file report as they are written. -/
def slots : List (Slot FileReport) :=
  [pathSlot, findingsSlot]

theorem apart_slots : Apart slots where
  keys := by decide
  get_set := by
    intro slot hs a s
    simp only [slots, List.mem_cons, List.not_mem_nil, or_false] at hs
    rcases hs with rfl | rfl <;> rfl
  get_set_ne := by
    intro slot hs slot' hs' hk a s
    simp only [slots, List.mem_cons, List.not_mem_nil, or_false] at hs hs'
    rcases hs with rfl | rfl <;> rcases hs' with rfl | rfl <;> first | rfl | exact absurd rfl hk
  ext := by
    intro s s' h
    simp only [slots, List.forall_mem_cons] at h
    obtain ⟨hpath, hfindings, -⟩ := h
    cases s
    cases s'
    rw [FileReport.mk.injEq]
    exact ⟨hpath, hfindings⟩

theorem filled_record : record.Filled slots := by
  refine .cons ?path (.cons ?findings .nil)
  case path => exact ⟨rfl, rfl, fun s => Decoder.reads_string.map _⟩
  case findings =>
    exact ⟨rfl, rfl, fun s => (Decoder.reads_sequence Finding.reads_decoder).map _⟩

theorem entries_iff {r : FileReport} {es : List (String × List UInt8)} :
    (OthersAreValues slots es ∧ ∀ slot ∈ slots, slot.In es { path := "" } r) ↔ r.Entries es := by
  have hpath : pathSlot.In es { path := "" } r ↔ Once es "filePath" (IsText r.path) := by
    constructor
    · rintro (⟨-, h, -⟩ | h)
      · exact absurd rfl h
      · exact h
    · exact .inr
  have hfindings : findingsSlot.In es { path := "" } r ↔
      (given es "messages" = [] ∧ r.findings = []) ∨
        Once es "messages" (SequenceOf FindingText r.findings) := by
    constructor
    · rintro (⟨h, -, hget⟩ | h)
      · exact .inl ⟨h, hget⟩
      · exact .inr h
    · rintro (⟨h, hget⟩ | h)
      · exact .inl ⟨h, by simp [findingsSlot], hget⟩
      · exact .inr h
  rw [othersAreValues_iff, slots, List.forall_mem_cons, List.forall_mem_singleton, hpath, hfindings]
  constructor
  · rintro ⟨others, path, findings⟩
    exact { path, findings, others }
  · rintro ⟨path, findings, others⟩
    exact ⟨others, path, findings⟩

theorem positional_iff {r : FileReport} {xs : List (List UInt8)} :
    Positional slots { path := "" } xs r ↔ ∃ path, IsText r.path path ∧
      ((r.findings = [] ∧ xs = [path]) ∨
        ∃ findings, SequenceOf FindingText r.findings findings ∧ xs = [path, findings]) := by
  rw [slots]
  constructor
  · intro h
    rcases positional_cons_iff.mp h with ⟨a, path, xs, rfl, hpath, h⟩ | ⟨-, h, -⟩
    · rcases positional_cons_iff.mp h with ⟨fs, findings, xs, rfl, hfindings, h⟩ | ⟨rfl, -, h⟩
      · obtain ⟨rfl, rfl⟩ := positional_nil_iff.mp h
        exact ⟨path, hpath, .inr ⟨findings, hfindings, rfl⟩⟩
      · obtain ⟨-, rfl⟩ := positional_nil_iff.mp h
        exact ⟨path, hpath, .inl ⟨rfl, rfl⟩⟩
    · exact absurd h (by simp [pathSlot])
  · rintro ⟨path, hpath, ⟨hnone, rfl⟩ | ⟨findings, hfindings, rfl⟩⟩
    · refine positional_cons_iff.mpr (.inl ⟨r.path, path, [], rfl, hpath, ?_⟩)
      refine positional_cons_iff.mpr (.inr ⟨rfl, rfl, positional_nil_iff.mpr ⟨rfl, ?_⟩⟩)
      obtain ⟨path, findings⟩ := r
      obtain rfl : findings = [] := hnone
      rfl
    · refine positional_cons_iff.mpr (.inl ⟨r.path, path, _, rfl, hpath, ?_⟩)
      exact positional_cons_iff.mpr (.inl ⟨r.findings, findings, [], rfl, hfindings, .nil⟩)

/-- File reports are read as the language has them. -/
theorem reads_decoder : Decoder.Reads FileReport.decoder FileText := by
  refine (reads_record filled_record apart_slots { path := "" }).congr fun r x => ?_
  constructor
  · intro h
    cases h with
    | object he h => exact .inr ⟨_, entries_iff.mpr he, h⟩
    | path hpath hnone h =>
      exact .inl ⟨_, positional_iff.mpr ⟨_, hpath, .inl ⟨hnone, rfl⟩⟩, h⟩
    | both hpath hfindings h =>
      exact .inl ⟨_, positional_iff.mpr ⟨_, hpath, .inr ⟨_, hfindings, rfl⟩⟩, h⟩
  · rintro (⟨xs, hxs, h⟩ | ⟨es, he, h⟩)
    · obtain ⟨path, hpath, ⟨hnone, rfl⟩ | ⟨findings, hfindings, rfl⟩⟩ := positional_iff.mp hxs
      · exact .path hpath hnone h
      · exact .both hpath hfindings h
    · exact .object (entries_iff.mp he) h

end FileReport

/-! ## Documents -/

/-- A value that nothing but white space follows. -/
theorem Json.Decoder.yields_whole {ε α : Type} {d : Decoder ε α} {P : α → List UInt8 → Prop}
    (h : Decoder.Reads d P) : Decoder.Yields d.whole fun bs a r =>
      r = [] ∧ ∃ w x w', Blank w ∧ P a x ∧ Blank w' ∧ bs = w ++ (x ++ w') := by
  refine (h.yields.bind fun a => yields_blank.bind_eq
    (M := fun o m b r => o = none ∧ b = a ∧ r = m) fun o => ?_).congr ?_
  · cases o with
    | none => exact (yields_pure a).congr fun _ _ _ => by simp
    | some b => exact (refuses_failNext _).congr fun _ _ _ => by simp
  · intro bs a r
    constructor
    · rintro ⟨rfl, w, x, w', hw, hx, hw', rfl⟩
      have hr : Delimited w' := by
        rw [← List.append_nil w']
        exact delimited_nil.blank_append hw'
      have hnil := afterBlank_eq_nil_iff.mpr hw'
      refine ⟨a, w', h.complete hw hx hr, ?_, rfl, hnil.symm⟩
      rw [hnil]
      rfl
    · rintro ⟨a, m, hg, ho, rfl, rfl⟩
      obtain ⟨w, x, hw, hx, rfl⟩ := h.sound hg
      have hnil := List.head?_eq_none_iff.mp ho
      exact ⟨hnil, w, x, m, hw, hx, afterBlank_eq_nil_iff.mp hnil, rfl⟩

/-- A decoder yields what its run on the whole document yields. -/
theorem Json.Decoder.decode_eq_ok_iff_run {ε α : Type} {d : Decoder ε α} {source : Source}
    {s : Stream} {a : α} :
    d.decode source s = .ok a ↔
      ∃ c, d.whole.run (Cursor.start s) = .ok a c := by
  unfold decode
  cases d.whole.run (Cursor.start s) with
  | ok a' c => simp
  | fail f c => simp

/-- A stream that does not break off is decoded exactly if a value is all that it holds. -/
theorem Json.Decoder.decode_eq_ok_iff {ε α : Type} {d : Decoder ε α} {P : α → List UInt8 → Prop}
    (h : Decoder.Reads d P) (source : Source) {bytes : List UInt8} {a : α} :
    d.decode source { bytes } = .ok a ↔
      ∃ w x w', Blank w ∧ P a x ∧ Blank w' ∧ bytes = w ++ (x ++ w') := by
  rw [decode_eq_ok_iff_run]
  constructor
  · rintro ⟨c, hr⟩
    exact ((yields_whole h).sound hr).1.2
  · intro hx
    obtain ⟨c, hr, -⟩ := (yields_whole h).complete (c := Cursor.start { bytes }) rfl ⟨rfl, hx⟩
    exact ⟨c, hr⟩

namespace Report

theorem reads_decoder : Decoder.Reads Report.decoder (SequenceOf FileText) :=
  Decoder.reads_sequence FileReport.reads_decoder

/-- Bytes are decoded to a report exactly if they are a document that holds it. -/
theorem ofStream_eq_ok_iff {bytes : List UInt8} {r : Report} :
    ofStream { bytes } = .ok r ↔ ReportText r bytes :=
  Decoder.decode_eq_ok_iff reads_decoder .stream

/-- A text is decoded to a report exactly if it is a document that holds it. -/
theorem ofText_eq_ok_iff (text : String) (r : Report) :
    ofText text = .ok r ↔ ReportText r (Text.Utf8.encode text.toList) :=
  Decoder.decode_eq_ok_iff reads_decoder .text

end Report

end Findings
