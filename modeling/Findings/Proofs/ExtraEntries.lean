import Findings.Proofs.Gaps
import Findings.Proofs.Unambiguous

/-!
# Entries that nobody asks for

An object may have entries whose keys name no field. `ExtendedDocument` relates a document and the
same one with such an entry more, in one of its files or in one of their findings. Both are read as
the same report or are both refused, wherever the entry stands and whatever value it has. What
stands around the entry is only asked to be made of values, as every document that is read is
(`FileText.isValue`).

The language of a record asks of its entries what they give for the keys of its fields, and that the
others are values (`Finding.Entries.of_given`, `FileReport.Entries.of_given`). So an object loses
and gains nothing by the entry, and neither does what is around the object
(`OneChanged.sequenceOf_iff`).

Main statement: `Report.reading_extended_iff`.
-/

namespace Findings

open Json
open Text.Utf8 (encode)

/-! ## Documents with an entry more -/

/-- Two objects of the same entries, but that the second has one more, at any place among them. The
key of that entry is none of `keys`, and its value is any. White space and escapes in keys may
differ. -/
def Extended (keys : List String) (x x' : List UInt8) : Prop :=
  ∃ es es' key v, key ∉ keys ∧ IsValue v ∧ (∀ e ∈ es ++ es', IsValue e.2) ∧
    ObjectOf NamedEntry (es ++ es') x ∧ ObjectOf NamedEntry (es ++ (key, v) :: es') x'

/-- Two sequences of the same values, but for one that is changed as `R` says. -/
def OneChanged (R : List UInt8 → List UInt8 → Prop) (x x' : List UInt8) : Prop :=
  ∃ xs y y' ys, (∀ z ∈ xs ++ ys, IsValue z) ∧ R y y' ∧
    Enclosed '['.toUInt8 ']'.toUInt8 (xs ++ y :: ys) x ∧
    Enclosed '['.toUInt8 ']'.toUInt8 (xs ++ y' :: ys) x'

/-- Two objects that may stand for a finding, of which the second has an entry more. -/
abbrev ExtendedFinding : List UInt8 → List UInt8 → Prop :=
  Extended ["ruleId", "severity", "message", "line", "column", "fatal"]

/-- Two values that may stand for a file, of which the second has an entry more: of its own, or in
one of the findings that it has as an object or by position. -/
inductive ExtendedFile (x x' : List UInt8) : Prop
  | entry (h : Extended ["filePath", "messages"] x x')
  | finding {es es' : List (String × List UInt8)} {v v' : List UInt8}
    (hv : OneChanged ExtendedFinding v v') (hes : ∀ e ∈ es ++ es', IsValue e.2)
    (h : ObjectOf NamedEntry (es ++ ("messages", v) :: es') x)
    (h' : ObjectOf NamedEntry (es ++ ("messages", v') :: es') x')
  | positional {path v v' : List UInt8} (hpath : IsValue path)
    (hv : OneChanged ExtendedFinding v v') (h : Enclosed '['.toUInt8 ']'.toUInt8 [path, v] x)
    (h' : Enclosed '['.toUInt8 ']'.toUInt8 [path, v'] x')

/-- Two documents, of which the second has an entry more in one of its files. -/
def ExtendedDocument (bytes bytes' : List UInt8) : Prop :=
  ∃ v x w v' x' w', OneChanged ExtendedFile x x' ∧ Blank v ∧ Blank w ∧ Blank v' ∧ Blank w' ∧
    bytes = v ++ (x ++ w) ∧ bytes' = v' ++ (x' ++ w')

variable {x x' v v' : List UInt8} {es es' : List (String × List UInt8)}

/-! ## One of many -/

theorem forall_mem_append_cons {α : Type} {Q : α → Prop} {as as' : List α} {a : α} :
    (∀ b ∈ as ++ a :: as', Q b) ↔ Q a ∧ ∀ b ∈ as ++ as', Q b := by
  rw [← List.forall_mem_cons]
  exact forall_congr' fun b => imp_congr_left List.perm_middle.mem_iff

/-- Of a pointwise relation one element may be replaced by another that it does not tell apart. -/
theorem forall₂_append_cons_congr {α β : Type} {P : α → β → Prop} {as : List α} {bs bs' : List β}
    {b b' : β} (h : ∀ a, P a b ↔ P a b') :
    List.Forall₂ P as (bs ++ b :: bs') ↔ List.Forall₂ P as (bs ++ b' :: bs') := by
  induction bs generalizing as with
  | nil => simp only [List.nil_append, List.forall₂_cons_right_iff, h]
  | cons c bs ih => simp only [List.cons_append, List.forall₂_cons_right_iff, ih]

namespace OneChanged

variable {R : List UInt8 → List UInt8 → Prop}

theorem isValue (h : OneChanged R x x') (hR : ∀ y y', R y y' → IsValue y ∧ IsValue y') :
    IsValue x ∧ IsValue x' := by
  obtain ⟨xs, y, y', ys, hvalues, hy, hx, hx'⟩ := h
  obtain ⟨hvalue, hvalue'⟩ := hR y y' hy
  exact ⟨.sequence (forall_mem_append_cons.mpr ⟨hvalue, hvalues⟩) hx,
    .sequence (forall_mem_append_cons.mpr ⟨hvalue', hvalues⟩) hx'⟩

/-- A language of elements that does not see the change makes a language of sequences that does not
see it. -/
theorem sequenceOf_iff {α : Type} {P : α → List UInt8 → Prop} (h : OneChanged R x x')
    (hR : ∀ y y', R y y' → IsValue y ∧ IsValue y') (hP : ∀ a y, P a y → IsValue y)
    (hRP : ∀ y y', R y y' → ∀ a, P a y ↔ P a y') (as : List α) :
    SequenceOf P as x ↔ SequenceOf P as x' := by
  obtain ⟨xs, y, y', ys, hvalues, hy, hx, hx'⟩ := h
  obtain ⟨hvalue, hvalue'⟩ := hR y y' hy
  rw [sequenceOf_enclosed_iff hx (forall_mem_append_cons.mpr ⟨hvalue, hvalues⟩) hP,
    sequenceOf_enclosed_iff hx' (forall_mem_append_cons.mpr ⟨hvalue', hvalues⟩) hP]
  exact forall₂_append_cons_congr (hRP y y' hy)

end OneChanged

/-! ## Entries of a record -/

/-- A finding asks for what its own keys give. -/
theorem Finding.Entries.of_given {f : Finding} (h : f.Entries es)
    (hgiven : ∀ key ∈ ["ruleId", "severity", "message", "line", "column", "fatal"],
      given es key = given es' key)
    (hes' : ∀ e ∈ es', IsValue e.2) : f.Entries es' := by
  refine h.transport (fun _ _ he _ => he) (fun key hkey => ?_) hes'
  rw [hgiven key hkey]
  exact List.forall₂_refl _

/-- A file asks for what its own keys give. -/
theorem FileReport.Entries.of_given {r : FileReport} (h : r.Entries es)
    (hgiven : ∀ key ∈ ["filePath", "messages"], given es key = given es' key)
    (hes' : ∀ e ∈ es', IsValue e.2) : r.Entries es' := by
  refine h.transport (fun _ _ he _ => he) (fun _ _ he hv => he ▸ hv) (fun key hkey => ?_) hes'
  rw [hgiven key hkey]
  exact List.forall₂_refl _

/-- The findings of a file may be written in another way. -/
theorem FileReport.Entries.of_findings {r : FileReport}
    (h : r.Entries (es ++ ("messages", v) :: es'))
    (hv : SequenceOf FindingText r.findings v → SequenceOf FindingText r.findings v') :
    r.Entries (es ++ ("messages", v') :: es') where
  path := by
    have hpath := h.path
    rw [Once, given_append_cons_ne (by decide)] at hpath ⊢
    exact hpath
  findings := by
    rcases h.findings with ⟨hnone, -⟩ | hfindings
    · simp [given_append_cons_self] at hnone
    · obtain ⟨hnowhere, hfindings⟩ := once_append_cons_iff.mp hfindings
      exact .inr (once_append_cons_iff.mpr ⟨hnowhere, hv hfindings⟩)
  others := by
    refine forall_mem_append_cons.mpr ⟨?_, (forall_mem_append_cons.mp h.others).2⟩
    intro hkey
    simp at hkey

/-! ## Objects with an entry more -/

namespace Extended

variable {keys : List String}

/-- Both objects give the same for the keys that are asked for. -/
theorem exists_given (h : Extended keys x x') :
    ∃ es es', ObjectOf NamedEntry es x ∧ ObjectOf NamedEntry es' x' ∧ (∀ e ∈ es, IsValue e.2) ∧
      (∀ e ∈ es', IsValue e.2) ∧ ∀ key ∈ keys, given es key = given es' key := by
  obtain ⟨es, es', key, v, hkey, hv, hes, hx, hx'⟩ := h
  refine ⟨_, _, hx, hx', hes, forall_mem_append_cons.mpr ⟨hv, hes⟩, fun key' hkey' => ?_⟩
  have hne : key ≠ key' := by
    rintro rfl
    exact hkey hkey'
  rw [given_append_cons_ne hne]

theorem isValue (h : Extended keys x x') : IsValue x ∧ IsValue x' := by
  obtain ⟨es, es', hx, hx', hes, hes', -⟩ := h.exists_given
  exact ⟨hx.isValue hes, hx'.isValue hes'⟩

theorem findingText_iff (h : ExtendedFinding x x') (f : Finding) :
    FindingText f x ↔ FindingText f x' := by
  obtain ⟨es, es', hx, hx', hes, hes', hgiven⟩ := h.exists_given
  rw [findingText_object_iff hx hes, findingText_object_iff hx' hes']
  exact ⟨fun he => he.of_given hgiven hes',
    fun he => he.of_given (fun key hkey => (hgiven key hkey).symm) hes⟩

theorem fileText_iff (h : Extended ["filePath", "messages"] x x') (r : FileReport) :
    FileText r x ↔ FileText r x' := by
  obtain ⟨es, es', hx, hx', hes, hes', hgiven⟩ := h.exists_given
  rw [fileText_object_iff hx hes, fileText_object_iff hx' hes']
  exact ⟨fun he => he.of_given hgiven hes',
    fun he => he.of_given (fun key hkey => (hgiven key hkey).symm) hes⟩

end Extended

/-! ## Files and documents with an entry more -/

theorem OneChanged.isValue_findings (h : OneChanged ExtendedFinding v v') :
    IsValue v ∧ IsValue v' :=
  h.isValue fun _ _ => Extended.isValue

theorem OneChanged.findings_iff (h : OneChanged ExtendedFinding v v') (fs : List Finding) :
    SequenceOf FindingText fs v ↔ SequenceOf FindingText fs v' :=
  h.sequenceOf_iff (fun _ _ => Extended.isValue) (fun _ _ => FindingText.isValue)
    (fun _ _ => Extended.findingText_iff) fs

namespace ExtendedFile

theorem isValue (h : ExtendedFile x x') : IsValue x ∧ IsValue x' := by
  cases h with
  | entry h => exact h.isValue
  | finding hv hes h h' =>
    obtain ⟨hvalue, hvalue'⟩ := hv.isValue_findings
    exact ⟨h.isValue (forall_mem_append_cons.mpr ⟨hvalue, hes⟩),
      h'.isValue (forall_mem_append_cons.mpr ⟨hvalue', hes⟩)⟩
  | positional hpath hv h h' =>
    obtain ⟨hvalue, hvalue'⟩ := hv.isValue_findings
    exact ⟨.sequence (by simp [hpath, hvalue]) h, .sequence (by simp [hpath, hvalue']) h'⟩

theorem fileText_iff (h : ExtendedFile x x') (r : FileReport) : FileText r x ↔ FileText r x' := by
  cases h with
  | entry h => exact h.fileText_iff r
  | finding hv hes h h' =>
    obtain ⟨hvalue, hvalue'⟩ := hv.isValue_findings
    rw [fileText_object_iff h (forall_mem_append_cons.mpr ⟨hvalue, hes⟩),
      fileText_object_iff h' (forall_mem_append_cons.mpr ⟨hvalue', hes⟩)]
    exact ⟨fun he => he.of_findings (hv.findings_iff r.findings).mp,
      fun he => he.of_findings (hv.findings_iff r.findings).mpr⟩
  | positional hpath hv h h' =>
    obtain ⟨hvalue, hvalue'⟩ := hv.isValue_findings
    rw [fileText_sequence_iff h hpath hvalue, fileText_sequence_iff h' hpath hvalue',
      hv.findings_iff]

end ExtendedFile

theorem ExtendedDocument.reportText_iff {bytes bytes' : List UInt8}
    (h : ExtendedDocument bytes bytes') (r : Report) :
    ReportText r bytes ↔ ReportText r bytes' := by
  obtain ⟨v, x, w, v', x', w', hx, hv, hw, hv', hw', rfl, rfl⟩ := h
  obtain ⟨hvalue, hvalue'⟩ := hx.isValue fun _ _ => ExtendedFile.isValue
  rw [reportText_append_iff hvalue hv hw, reportText_append_iff hvalue' hv' hw']
  exact hx.sequenceOf_iff (fun _ _ => ExtendedFile.isValue) (fun _ _ => FileText.isValue)
    (fun _ _ => ExtendedFile.fileText_iff) r

/-! ## Written documents with an entry more -/

theorem OneChanged.single {R : List UInt8 → List UInt8 → Prop} (h : R x x') :
    OneChanged R (enclose '['.toUInt8 ']'.toUInt8 [x]) (enclose '['.toUInt8 ']'.toUInt8 [x']) :=
  ⟨[], x, x', [], by simp, h, enclosed_enclose _ _ _, enclosed_enclose _ _ _⟩

/-- The document of one file with one finding that has these entries. -/
def encloseFinding (path : String) (es : List (String × List UInt8)) : List UInt8 :=
  enclose '['.toUInt8 ']'.toUInt8 [encloseEntries [("filePath", encode (Writer.text path)),
    ("messages", enclose '['.toUInt8 ']'.toUInt8 [encloseEntries es])]]

/-- An entry that no field of a finding has a key for can be put among others. -/
theorem extendedDocument_encloseFinding (path key : String)
    (hkey : key ∉ ["ruleId", "severity", "message", "line", "column", "fatal"]) (hv : IsValue v)
    (hes : ∀ e ∈ es ++ es', IsValue e.2) :
    ExtendedDocument (encloseFinding path (es ++ es'))
      (encloseFinding path (es ++ (key, v) :: es')) := by
  have hfinding : ExtendedFinding (encloseEntries (es ++ es'))
      (encloseEntries (es ++ (key, v) :: es')) :=
    ⟨es, es', key, v, hkey, hv, hes, objectOf_encloseEntries _, objectOf_encloseEntries _⟩
  let file (findings : List UInt8) :=
    encloseEntries ([("filePath", encode (Writer.text path))] ++ ("messages", findings) :: [])
  have hfile : ExtendedFile (file _) (file _) :=
    .finding (.single hfinding) (by simpa using (isText_text path).isValue)
      (objectOf_encloseEntries _) (objectOf_encloseEntries _)
  exact ⟨[], _, [], [], _, [], .single hfile, .nil, .nil, .nil, .nil,
    by simp [encloseFinding, file], by simp [encloseFinding, file]⟩

/-! ## Readings -/

/-- Take a document, and the same one with an entry more in one of its files or findings, that has a
key which names no field there, and any value. However both are read, they are read as the same
report, or neither is read as one. -/
theorem Report.reading_extended_iff {bytes bytes' : List UInt8} {o o' : Except Refusal Report}
    (h : ExtendedDocument bytes bytes') (ho : Reading bytes o) (ho' : Reading bytes' o')
    (r : Report) : o = .ok r ↔ o' = .ok r := by
  rw [ho.eq_ok_iff, ho'.eq_ok_iff, h.reportText_iff]

/-- A finding has an entry `filePath`. Its value holds a number that is out of every range, and an
object that gives a key twice and has a text with half of a pair and a byte that is not UTF-8. -/
theorem Report.reading_extended_of_path :
    ∃ (document : List UInt8 → List UInt8) (extra : List UInt8) (r : Report),
      document = (fun extra =>
        encode "[\x7b\"filePath\":\"a\",\"messages\":[\x7b\"ruleId\":\"b\",\"severity\":1".toList ++
          extra ++ encode ",\"message\":\"c\",\"line\":1,\"column\":1\x7d]\x7d]".toList) ∧
      extra = encode ",\"filePath\":[1e999,\x7b\"fatal\":true,\"fatal\":\"\\ud800".toList ++
        0xFF :: encode "\"\x7d]".toList ∧
      r = [{ path := "a", findings := [{ rule := "b", severity := .warning, text := "c" }] }] ∧
      ExtendedDocument (document []) (document extra) ∧
      ofStream { bytes := document [] } = .ok r ∧ ofStream { bytes := document extra } = .ok r := by
  let number := encode "1e999".toList
  let text := quote ('\\'.toUInt8 :: 'u'.toUInt8 :: (encode "d800".toList ++ [0xFF]))
  let object := encloseEntries [("fatal", boolText true), ("fatal", text)]
  let es := [("ruleId", encode (Writer.text "b")), ("severity", [digitByte 1])]
  let es' := [("message", encode (Writer.text "c")), ("line", [digitByte 1]),
    ("column", [digitByte 1])]
  have hdigits : DigitsText [9, 9, 9] (encode "999".toList) := ⟨by decide, by decide⟩
  have hnumber : IsValue number :=
    .number (n := { negative := false, whole := [1], fraction := [], exponent := some 999 })
      ⟨['1'.toUInt8], [], _, ⟨⟨by decide, rfl⟩, by decide, by decide⟩, .none,
        .some (.inl rfl) .none hdigits (by decide), by decide⟩
  have hunit : HexText 0xD800 (encode "d800".toList) := hexNumber?_eq_some_iff.mp (by decide)
  have htext : IsValue text :=
    .text (.escape (.number hunit) (.byte (by decide) (by decide) (by decide) .nil))
  have hobject : IsValue object :=
    (objectOf_encloseEntries _).isValue (by simp [htext, IsValue.bool])
  have hv : IsValue (enclose '['.toUInt8 ']'.toUInt8 [number, object]) :=
    .sequence (List.forall_mem_cons.mpr ⟨hnumber, List.forall_mem_singleton.mpr hobject⟩)
      (enclosed_enclose _ _ _)
  have hes : ∀ e ∈ es ++ es', IsValue e.2 := by
    have hone : IsValue [digitByte 1] := isValue_digit (by decide)
    simp [es, es', hone, (isText_text _).isValue]
  have hextended := extendedDocument_encloseFinding "a" "filePath" (by decide) hv hes
  have hwritten := ofStream_eq_ok_iff.mpr (reportText_toJson
    [{ path := "a", findings := [{ rule := "b", severity := .warning, text := "c" }] }])
  refine ⟨_, _, _, rfl, rfl, rfl, ?extended, ?before,
    (reading_extended_iff ?extended .stream .stream _).mp ?before⟩
  case extended =>
    convert hextended using 1
    · decide +kernel
    · decide +kernel
  case before =>
    convert hwritten using 3
    decide +kernel

end Findings
