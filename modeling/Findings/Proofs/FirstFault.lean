import Findings.Proofs.Failing
import Findings.Proofs.Sources
import Findings.Proofs.RoundTrip

/-!
# The first fault of a document

A document whose findings are drafts, with parts that may be absent, null or out of range, is a
report if each draft passes its check. Otherwise it is refused for the first draft that does not,
and the words are those of the first thing that is wrong with that draft: a finding that is marked
as fatal before anything else, then the parts in their order.

The language of such documents (`ReportDraftText`) says nothing about the check. What is wrong with
a draft is a list (`Draft.faults`), and so is what is wrong with a file and with a document; the
verdict on each is the head of its list.

Main statement: `Report.ofText_first_fault`.
-/

namespace Findings

open Json Decoder

/-! ## The language -/

/-- Whether a key has one value, null or of the language `P`, or is not there. -/
def AtMostOnce {α : Type} (es : List (String × List UInt8)) (key : String)
    (P : α → List UInt8 → Prop) (o : Option α) : Prop :=
  (given es key = [] ∧ o = none) ∨ Once es key (NullOr P o)

/-- The entries of an object that stands for a draft. -/
structure Draft.Entries (d : Draft) (es : List (String × List UInt8)) : Prop where
  rule : AtMostOnce es "ruleId" IsText d.rule
  severity : AtMostOnce es "severity" IsSigned d.severity
  text : AtMostOnce es "message" IsText d.text
  line : AtMostOnce es "line" IsUnsigned d.line
  column : AtMostOnce es "column" IsUnsigned d.column
  fatal : (given es "fatal" = [] ∧ d.fatal = false) ∨ Once es "fatal" (· = boolText d.fatal)
  others : ∀ e ∈ es, e.1 ∉ ["ruleId", "severity", "message", "line", "column", "fatal"] →
    IsValue e.2

/-- A draft, as an object or as the sequence of its parts. -/
inductive DraftText (d : Draft) (x : List UInt8) : Prop
  | object {es : List (String × List UInt8)} (he : d.Entries es) (h : ObjectOf NamedEntry es x)
  | sequence {rule severity text line column : List UInt8} {fatal : List (List UInt8)}
    (hrule : NullOr IsText d.rule rule) (hseverity : NullOr IsSigned d.severity severity)
    (htext : NullOr IsText d.text text) (hline : NullOr IsUnsigned d.line line)
    (hcolumn : NullOr IsUnsigned d.column column)
    (hfatal : (fatal = [] ∧ d.fatal = false) ∨ fatal = [boolText d.fatal])
    (h : Enclosed '['.toUInt8 ']'.toUInt8 (rule :: severity :: text :: line :: column :: fatal) x)

/-- What a document says about one file. -/
structure FileDraft where
  path : String
  drafts : List Draft

/-- The entries of an object that stands for what is said about a file. -/
structure FileDraft.Entries (file : FileDraft) (es : List (String × List UInt8)) : Prop where
  path : Once es "filePath" (IsText file.path)
  drafts : Once es "messages" (SequenceOf DraftText file.drafts)
  others : ∀ e ∈ es, e.1 ∉ ["filePath", "messages"] → IsValue e.2

/-- What is said about a file, as an object. -/
def FileDraftText (file : FileDraft) (x : List UInt8) : Prop :=
  ∃ es, file.Entries es ∧ ObjectOf NamedEntry es x

/-- A document that says something about files, with white space around it. -/
def ReportDraftText (files : List FileDraft) (bytes : List UInt8) : Prop :=
  ∃ w x w', Blank w ∧ SequenceOf FileDraftText files x ∧ Blank w' ∧ bytes = w ++ (x ++ w')

/-! ## Faults -/

namespace Draft

/-- What is wrong with a part that must be there. -/
def lacking {α : Type} (key : String) (o : Option α) : List Problem :=
  if o.isNone then [.missing key] else []

/-- What is wrong with a severity that is there: warnings are 1 and errors are 2. -/
def unknown : Option Int → List Problem
  | some n => if n = 1 ∨ n = 2 then [] else [.unknownSeverity n]
  | none => []

/-- What is wrong with a draft, in the order in which it is told. -/
def faults (d : Draft) : List Problem :=
  [if d.fatal then [.fatal] else [],
    lacking "ruleId" d.rule,
    lacking "severity" d.severity,
    unknown d.severity,
    lacking "message" d.text,
    lacking "line" d.line,
    lacking "column" d.column].flatten

end Draft

/-- What is wrong with the drafts of a file. -/
def FileDraft.faults (file : FileDraft) : List Draft.Problem :=
  file.drafts.flatMap Draft.faults

namespace Draft

/-! ## The check of a draft -/

/-- What is refused is refused for the first of `ps`, and nothing is if there are none. -/
def Heeds {α : Type} (x : Except Problem α) (ps : List Problem) : Prop :=
  match x with
  | .ok _ => ps = []
  | .error p => ps.head? = some p

theorem Heeds.bind {α β : Type} {x : Except Problem α} {k : α → Except Problem β}
    {ps qs : List Problem} (h : Heeds x ps) (hk : ∀ a, x = .ok a → Heeds (k a) qs) :
    Heeds (x >>= k) (ps ++ qs) := by
  cases x with
  | ok a =>
    obtain rfl : ps = [] := h
    exact hk a rfl
  | error p =>
    obtain ⟨ps', rfl⟩ := List.head?_eq_some_iff.mp h
    exact rfl

theorem heeds_require {α : Type} (key : String) (o : Option α) :
    Heeds (require key o) (lacking key o) := by
  cases o <;> exact rfl

theorem require_eq_ok_iff {α : Type} {key : String} {o : Option α} {a : α} :
    require key o = .ok a ↔ o = some a := by
  cases o <;> simp [require]

theorem heeds_severityOf (n : Int) :
    Heeds (severityOf n) (unknown (some n)) := by
  unfold severityOf Severity.ofCode? unknown
  by_cases h₁ : n = 1
  · simp [h₁, Heeds]
  · by_cases h₂ : n = 2
    · simp [h₂, Heeds]
    · simp [h₁, h₂, Heeds]

/-- The check heeds the faults of a draft in their order. -/
theorem heeds_check (d : Draft) : Heeds d.check d.faults := by
  cases hfatal : d.fatal with
  | true =>
    rw [check_of_fatal hfatal, faults, hfatal]
    exact rfl
  | false =>
    unfold check faults
    rw [hfatal]
    refine (heeds_require "ruleId" d.rule).bind fun rule _ => ?_
    refine (heeds_require "severity" d.severity).bind fun n hn => ?_
    rw [require_eq_ok_iff.mp hn]
    refine (heeds_severityOf n).bind fun severity _ => ?_
    refine (heeds_require "message" d.text).bind fun text _ => ?_
    refine (heeds_require "line" d.line).bind fun line _ => ?_
    refine (heeds_require "column" d.column).bind fun column _ => ?_
    exact rfl

/-! ## Texts of drafts -/

theorem part_in_of_atMostOnce {α : Type} {key : String} {P : α → List UInt8 → Prop}
    {get : Draft → Option α} {set : Option α → Draft → Draft} {es : List (String × List UInt8)}
    {d d' : Draft} (hd : get d = none) (h : AtMostOnce es key P (get d')) :
    (part key P get set).In es d d' := by
  rcases h with ⟨hnone, hget⟩ | hx
  · exact .inl ⟨hnone, by simp [part], hget.trans hd.symm⟩
  · exact .inr hx

theorem Entries.in_slots {d : Draft} {es : List (String × List UInt8)} (h : d.Entries es) :
    ∀ slot ∈ slots, slot.In es {} d := by
  simp only [slots, List.forall_mem_cons]
  refine ⟨part_in_of_atMostOnce rfl h.rule, part_in_of_atMostOnce rfl h.severity,
    part_in_of_atMostOnce rfl h.text, part_in_of_atMostOnce rfl h.line,
    part_in_of_atMostOnce rfl h.column, ?_, List.forall_mem_nil _⟩
  rcases h.fatal with ⟨hnone, hfatal⟩ | hx
  · exact .inl ⟨hnone, by simp [mark], hfatal⟩
  · exact .inr hx

/-- What is read from a text of a draft is that draft. -/
theorem recordText_of_draftText {d : Draft} {x : List UInt8} (h : DraftText d x) :
    RecordText slots {} d x := by
  cases h with
  | object he h =>
    exact .inr ⟨_, ⟨othersAreValues_iff.mpr he.others, he.in_slots⟩, h⟩
  | sequence hrule hseverity htext hline hcolumn hfatal h =>
    refine .inl ⟨_, ?_, h⟩
    refine positional_part_iff.mpr ⟨d.rule, _, _, rfl, hrule, ?_⟩
    refine positional_part_iff.mpr ⟨d.severity, _, _, rfl, hseverity, ?_⟩
    refine positional_part_iff.mpr ⟨d.text, _, _, rfl, htext, ?_⟩
    refine positional_part_iff.mpr ⟨d.line, _, _, rfl, hline, ?_⟩
    refine positional_part_iff.mpr ⟨d.column, _, _, rfl, hcolumn, ?_⟩
    obtain ⟨rule, severity, text, line, column, fatal⟩ := d
    rcases hfatal with ⟨rfl, hfalse⟩ | rfl
    · obtain rfl : fatal = false := hfalse
      exact .absent rfl .nil
    · exact positional_cons_iff.mpr (.inl ⟨fatal, _, [], rfl, rfl, .nil⟩)

end Draft

/-! ## Verdicts -/

/-- A draft is a finding unless something is wrong with it. -/
theorem Finding.judges_decoder {d : Draft} {x : List UInt8} (h : DraftText d x) :
    Judges Finding.decoder FindingText x d.faults.head? := by
  have hrecord := Draft.recordText_of_draftText h
  have hheeds := d.heeds_check
  cases hcheck : d.check with
  | ok f =>
    rw [hcheck] at hheeds
    have hnone : d.faults = [] := hheeds
    obtain rfl := Draft.check_eq_ok_iff.mp hcheck
    rw [hnone]
    exact .reads (Draft.recordText_ofFinding_iff.mp hrecord)
  | error p =>
    rw [hcheck] at hheeds
    have hfirst : d.faults.head? = some p := hheeds
    rw [hfirst]
    refine .refuses ((reads_record Draft.filled_record Draft.apart_slots {}).bind_rejects hrecord
      fun bs => ?_)
    rw [hcheck]
    exact fails_failAnywhere (C := (· = .refused p)) rfl bs

namespace FileReport

/-- What is said about a file is a report on it unless something is wrong with a draft. -/
theorem judges_decoder {file : FileDraft} {x : List UInt8} (h : FileDraftText file x) :
    Judges FileReport.decoder FileText x file.faults.head? := by
  obtain ⟨es, he, hx⟩ := h
  obtain ⟨v, hv, hdrafts⟩ := he.drafts
  have hverdict := judges_sequence Finding.reads_decoder
    (fun _ _ h => Finding.judges_decoder h) hdrafts
  rw [← List.head?_flatMap] at hverdict
  change Judges _ _ _ file.faults.head? at hverdict
  generalize file.faults.head? = problem? at hverdict
  cases hverdict with
  | @reads findings hfindings =>
    have hentries : FileReport.Entries { path := file.path, findings } es :=
      { path := he.path
        findings := .inr ⟨v, hv, hfindings⟩
        others := he.others }
    exact .reads (.object hentries hx)
  | refuses hrejects =>
    obtain ⟨path, hgiven, hpath⟩ := he.path
    have hgap : RecordGap [pathSlot] findingsSlot [] v x :=
      .object (othersAreValues_iff.mpr he.others) hv (List.forall_mem_cons.mpr
        ⟨fun _ => .inr ⟨path, hgiven, file.path, hpath⟩,
          List.forall_mem_singleton.mpr fun h => absurd rfl h⟩) hx
    exact .refuses (rejects_record hgap filled_record apart_slots rfl (fun _ => hrejects.bind _) _)

end FileReport

namespace Report

/-- The first problem of a document decides. -/
theorem judges_decoder {files : List FileDraft} {x : List UInt8}
    (h : SequenceOf FileDraftText files x) :
    Judges Report.decoder (SequenceOf FileText) x (files.flatMap FileDraft.faults).head? := by
  rw [List.head?_flatMap]
  exact judges_sequence FileReport.reads_decoder (fun _ _ h => FileReport.judges_decoder h) h

/-- A document at which the decoder fails is refused in the words for the cause. -/
theorem decode_of_fails (source : Source) {bytes : List UInt8} {C : Cause Draft.Problem → Prop}
    (h : Fails Report.decoder bytes C) :
    ∃ (e : Refusal) (p : Position), Report.decoder.decode source { bytes } = .error e ∧
      C e.cause ∧ e.text = e.cause.message Draft.Problem.message ++ p.words := by
  obtain ⟨f, c, hr, hf⟩ := (h.bind _) (Cursor.start { bytes }) rfl rfl
  obtain ⟨p, hp⟩ := locates_decoder _ f c rfl hr
  have hposition : (Diagnostic.ofFault source (Stream.delivered { bytes }) f).position =
      some (p.position source (Stream.delivered { bytes })) := by
    rw [Diagnostic.ofFault, hp]
    rfl
  exact ⟨_, _, decode_eq_error_iff.mpr ⟨f, c, hr, rfl⟩, hf, Diagnostic.message_eq hposition _⟩

/-- The first problem of a document, if it has one, is what the text of the document is refused
for. -/
theorem ofText_verdict {text : String} {files : List FileDraft}
    (h : ReportDraftText files (Stream.ofText text).bytes) :
    match (files.flatMap FileDraft.faults).head? with
    | none => ∃ r, ofText text = .ok r
    | some problem => ∃ (e : Refusal) (p : Position), ofText text = .error e ∧
        e.text = problem.message ++ p.words := by
  obtain ⟨w, x, w', hw, hx, hw', hbytes⟩ := h
  have hverdict := judges_decoder hx
  generalize (files.flatMap FileDraft.faults).head? = problem? at hverdict
  cases hverdict with
  | @reads r hr =>
    exact ⟨r, (Decoder.decode_eq_ok_iff reads_decoder .text).mpr ⟨w, x, w', hw, hr, hw', hbytes⟩⟩
  | @refuses problem hrejects =>
    have hdelimited : Delimited w' := by
      simpa using delimited_nil.blank_append hw'
    have hfails := hrejects.fails w w' hw hdelimited
    rw [← hbytes] at hfails
    obtain ⟨e, p, he, hcause, htext⟩ := decode_of_fails .text hfails
    rw [hcause] at htext
    exact ⟨e, p, he, htext⟩

/-- A document is a report if nothing is wrong with any of its drafts. Otherwise it is refused for
the first draft, in the order of the document, with which something is wrong, and in the words for
the first thing that is wrong with it, which name the part that is missing or the number that is no
severity; the position at which it is refused follows them. -/
theorem ofText_first_fault (text : String) (files : List FileDraft)
    (h : ReportDraftText files (Stream.ofText text).bytes) :
    ((∃ r, ofText text = .ok r) ↔ ∀ file ∈ files, ∀ d ∈ file.drafts, d.faults = []) ∧
    ∀ (before after : List Draft) (d : Draft) (problem : Draft.Problem)
      (rest : List Draft.Problem),
      files.flatMap FileDraft.drafts = before ++ d :: after → (∀ d' ∈ before, d'.faults = []) →
      d.faults = problem :: rest →
      ∃ (e : Refusal) (p : Position), ofText text = .error e ∧
        e.text = (match problem with
          | .fatal => "fatal messages are not supported"
          | .missing key => "missing or null field `" ++ key ++ "`"
          | .unknownSeverity code => "unknown severity " ++ toString code ++
            " (expected 1 for warning or 2 for error)") ++ p.words := by
  have hverdict := ofText_verdict h
  have hall : files.flatMap FileDraft.faults = [] ↔
      ∀ file ∈ files, ∀ d ∈ file.drafts, d.faults = [] := by
    simp only [FileDraft.faults, List.flatMap_eq_nil_iff]
  refine ⟨?_, ?_⟩
  · rw [← hall]
    constructor
    · rintro ⟨r, hr⟩
      cases hfaults : files.flatMap FileDraft.faults with
      | nil => rfl
      | cons problem rest =>
        rw [hfaults] at hverdict
        obtain ⟨e, -, he, -⟩ := hverdict
        rw [hr] at he
        cases he
    · intro hnone
      rw [hnone] at hverdict
      exact hverdict
  · intro before after d problem rest hdrafts hbefore hd
    have hfaults : files.flatMap FileDraft.faults =
        problem :: (rest ++ after.flatMap Draft.faults) := by
      have hflat : files.flatMap FileDraft.faults =
          (files.flatMap FileDraft.drafts).flatMap Draft.faults := by
        rw [List.flatMap_assoc]
        rfl
      rw [hflat, hdrafts, List.flatMap_append, List.flatMap_eq_nil_iff.mpr hbefore,
        List.flatMap_cons, hd]
      rfl
    rw [hfaults] at hverdict
    obtain ⟨e, p, he, htext⟩ := hverdict
    refine ⟨e, p, he, ?_⟩
    rw [htext]
    cases problem <;> rfl

/-- A file of two drafts: one that is marked as fatal and lacks all else, and one that lacks all. -/
theorem ofText_first_fault_fatal :
    ∃ (files : List FileDraft) (text : String),
      text = "[\x7b\"filePath\":\"\",\"messages\":[[null,null,null,null,null,true],\x7b\x7d]\x7d]" ∧
      ReportDraftText files (Stream.ofText text).bytes ∧ (¬∃ r, ofText text = .ok r) ∧
      ∃ (e : Refusal) (p : Position), ofText text = .error e ∧
        e.text = "fatal messages are not supported" ++ p.words := by
  let null := ['n', 'u', 'l', 'l']
  let values := [null, null, null, null, null, ['t', 'r', 'u', 'e']]
  let drafts := Writer.sequence [Writer.sequence values, Writer.object []]
  let entries := [("filePath", Writer.text ""), ("messages", drafts)]
  have hmarked : DraftText { fatal := true } (Text.Utf8.encode (Writer.sequence values)) :=
    .sequence (.inl ⟨rfl, rfl⟩) (.inl ⟨rfl, rfl⟩) (.inl ⟨rfl, rfl⟩) (.inl ⟨rfl, rfl⟩)
      (.inl ⟨rfl, rfl⟩) (.inr rfl) (enclosed_separated (by decide) (by decide) values)
  have hempty : DraftText {} (Text.Utf8.encode (Writer.object [])) :=
    .object
      { rule := .inl ⟨rfl, rfl⟩
        severity := .inl ⟨rfl, rfl⟩
        text := .inl ⟨rfl, rfl⟩
        line := .inl ⟨rfl, rfl⟩
        column := .inl ⟨rfl, rfl⟩
        fatal := .inl ⟨rfl, rfl⟩
        others := by simp } (objectOf_object [])
  have hfile : FileDraftText { path := "", drafts := [{ fatal := true }, {}] }
      (Text.Utf8.encode (Writer.object entries)) :=
    ⟨_,
      { path := ⟨_, rfl, isText_text ""⟩
        drafts := ⟨_, rfl, sequenceOf_written (.cons hmarked (.cons hempty .nil))⟩
        others := by simp [entries] }, objectOf_object entries⟩
  obtain ⟨text, htext⟩ : ∃ text : String, text =
      "[\x7b\"filePath\":\"\",\"messages\":[[null,null,null,null,null,true],\x7b\x7d]\x7d]" :=
    ⟨_, rfl⟩
  have hchars : text.toList = Writer.sequence [Writer.object entries] := by
    rw [htext]
    decide +kernel
  have hdocument : ReportDraftText [{ path := "", drafts := [{ fatal := true }, {}] }]
      (Stream.ofText text).bytes := by
    refine ⟨[], _, [], .nil, sequenceOf_written (.cons hfile .nil), .nil, ?_⟩
    rw [Stream.ofText, hchars, List.nil_append, List.append_nil]
  obtain ⟨hvalid, hfirst⟩ := ofText_first_fault text _ hdocument
  have hrefused := hfirst [] [{}] { fatal := true } .fatal _ rfl (List.forall_mem_nil _) rfl
  refine ⟨_, text, htext, hdocument, ?_, hrefused⟩
  rw [hvalid]
  intro h
  have hnone := h _ (List.mem_singleton_self _) { fatal := true } List.mem_cons_self
  cases hnone

end Report

end Findings
