import Findings.Proofs.Unambiguous

/-!
# The counts that a document writes

Documents may say of a file how many errors and warnings it has. Nobody asks for these counts: two
documents that are the same but for them hold the same report, whatever values the counts have and
however often they are written (`RecountedDocument.reportText_iff`).

The relation is followed through the language of reports from the outside to the inside: a value
that has no brackets stays as it is, the elements of a sequence are recounted one by one, and an
object keeps what it gives for every key that is not that of a count.
-/

namespace Findings

open Json
open Text.Utf8 (encode)

/-! ## Documents that are the same but for counts -/

/-- The keys of counts. -/
def countKeys : List String :=
  ["errorCount", "warningCount"]

/-- The entries that are no counts. -/
def uncounted (es : List (String × List UInt8)) : List (String × List UInt8) :=
  es.filter fun e => e.1 ∉ countKeys

/-- Two values that are the same but for the counts in their objects. Counts may be there on either
side, at any place and with any value. -/
inductive Recounted : List UInt8 → List UInt8 → Prop
  | same {x : List UInt8} (h : IsValue x) : Recounted x x
  | sequence {ps : List (List UInt8 × List UInt8)} {x x' : List UInt8}
    (hps : ∀ p ∈ ps, Recounted p.1 p.2)
    (h : Enclosed '['.toUInt8 ']'.toUInt8 (ps.map Prod.fst) x)
    (h' : Enclosed '['.toUInt8 ']'.toUInt8 (ps.map Prod.snd) x') : Recounted x x'
  | object {es es' : List (String × List UInt8)}
    {ps : List ((String × List UInt8) × (String × List UInt8))} {x x' : List UInt8}
    (hkeys : ∀ p ∈ ps, p.1.1 = p.2.1) (hps : ∀ p ∈ ps, Recounted p.1.2 p.2.2)
    (hes : uncounted es = ps.map Prod.fst) (hes' : uncounted es' = ps.map Prod.snd)
    (hcounts : ∀ e ∈ es, e.1 ∈ countKeys → IsValue e.2)
    (hcounts' : ∀ e ∈ es', e.1 ∈ countKeys → IsValue e.2)
    (h : ObjectOf NamedEntry es x) (h' : ObjectOf NamedEntry es' x') : Recounted x x'

/-- Two documents that are the same but for the counts in them, and for white space around them. -/
def RecountedDocument (bytes bytes' : List UInt8) : Prop :=
  ∃ v x w v' x' w', Recounted x x' ∧ Blank v ∧ Blank w ∧ Blank v' ∧ Blank w' ∧
    bytes = v ++ (x ++ w) ∧ bytes' = v' ++ (x' ++ w')

variable {x x' : List UInt8} {xs : List (List UInt8)} {es es' : List (String × List UInt8)}
  {key : String}

/-! ## Entries -/

theorem mem_uncounted {e : String × List UInt8} : e ∈ uncounted es ↔ e ∈ es ∧ e.1 ∉ countKeys := by
  simp [uncounted]

/-- A key that is not that of a count is given the same without the counts. -/
theorem given_uncounted (h : key ∉ countKeys) : given (uncounted es) key = given es key := by
  unfold given uncounted
  rw [List.filter_filter]
  refine congrArg (List.map _) (List.filter_congr fun e _ => ?_)
  by_cases hkey : e.1 = key
  · simp [hkey, h]
  · simp [hkey]

theorem isValue_of_uncounted {γ : Type} {ps : List γ} {entry : γ → String × List UInt8}
    (hes : uncounted es = ps.map entry) (h : ∀ p ∈ ps, IsValue (entry p).2)
    (hcounts : ∀ e ∈ es, e.1 ∈ countKeys → IsValue e.2) : ∀ e ∈ es, IsValue e.2 := by
  intro e he
  by_cases hkey : e.1 ∈ countKeys
  · exact hcounts e he hkey
  · have hmem := mem_uncounted.mpr ⟨he, hkey⟩
    rw [hes] at hmem
    obtain ⟨p, hp, rfl⟩ := List.mem_map.mp hmem
    exact h p hp

/-- Entries with the same keys and recounted values give recounted values. -/
theorem forall₂_given {ps : List ((String × List UInt8) × (String × List UInt8))}
    (hkeys : ∀ p ∈ ps, p.1.1 = p.2.1) (hps : ∀ p ∈ ps, Recounted p.1.2 p.2.2) :
    List.Forall₂ Recounted (given (ps.map Prod.fst) key) (given (ps.map Prod.snd) key) := by
  induction ps with
  | nil => exact .nil
  | cons p ps ih =>
    obtain ⟨⟨k, v⟩, k', v'⟩ := p
    obtain ⟨hk, hkeys'⟩ := List.forall_mem_cons.mp hkeys
    obtain ⟨hv, hps'⟩ := List.forall_mem_cons.mp hps
    obtain rfl : k = k' := hk
    rw [List.map_cons, List.map_cons]
    by_cases hkey : k = key
    · subst hkey
      rw [given_cons_self, given_cons_self]
      exact .cons hv (ih hkeys' hps')
    · rw [given_cons_ne hkey, given_cons_ne hkey]
      exact ih hkeys' hps'

theorem forall₂_recounted_self (h : ∀ y ∈ xs, IsValue y) : List.Forall₂ Recounted xs xs :=
  List.forall₂_same.mpr fun y hy => .same (h y hy)

/-! ## Recounted values -/

namespace Recounted

theorem isValue (h : Recounted x x') : IsValue x ∧ IsValue x' := by
  induction h with
  | same h => exact ⟨h, h⟩
  | sequence hps h h' ih =>
    exact ⟨.sequence (List.forall_mem_map.mpr fun p hp => (ih p hp).1) h,
      .sequence (List.forall_mem_map.mpr fun p hp => (ih p hp).2) h'⟩
  | object hkeys hps hes hes' hcounts hcounts' h h' ih =>
    exact ⟨h.isValue (isValue_of_uncounted hes (fun p hp => (ih p hp).1) hcounts),
      h'.isValue (isValue_of_uncounted hes' (fun p hp => (ih p hp).2) hcounts')⟩

theorem symm (h : Recounted x x') : Recounted x' x := by
  induction h with
  | same h => exact .same h
  | @sequence ps x x' hps h h' ih =>
    refine .sequence (List.forall_mem_map (f := Prod.swap).mpr ih) ?_ ?_
    · rwa [List.map_map]
    · rwa [List.map_map]
  | @object es es' ps x x' hkeys hps hes hes' hcounts hcounts' h h' ih =>
    refine .object (List.forall_mem_map (f := Prod.swap).mpr fun p hp => (hkeys p hp).symm)
      (List.forall_mem_map.mpr ih) ?_ ?_ hcounts' hcounts h' h
    · rw [List.map_map]
      exact hes'
    · rw [List.map_map]
      exact hes

/-- A value without brackets holds no counts. -/
theorem eq_of_bare (h : Recounted x x') (hx : Bare x) : x = x' := by
  cases h with
  | same => rfl
  | sequence hps h h' => exact absurd h.head?_eq hx.1
  | object hkeys hps hes hes' hcounts hcounts' h h' => exact absurd h.head?_eq hx.2

/-- A sequence is recounted element by element. -/
theorem enclosed (h : Recounted x x') (hx : Enclosed '['.toUInt8 ']'.toUInt8 xs x)
    (hxs : ∀ y ∈ xs, IsValue y) :
    ∃ xs', List.Forall₂ Recounted xs xs' ∧ Enclosed '['.toUInt8 ']'.toUInt8 xs' x' := by
  cases h with
  | same => exact ⟨xs, forall₂_recounted_self hxs, hx⟩
  | @sequence ps _ _ hps h h' =>
    have hvalues : ∀ y ∈ ps.map Prod.fst, IsValue y :=
      List.forall_mem_map.mpr fun p hp => (hps p hp).isValue.1
    -- The bytes tell their items, so the items at hand are those of the relation.
    obtain rfl := hx.unique_values hxs hvalues h
    refine ⟨ps.map Prod.snd, ?_, h'⟩
    rw [List.forall₂_map_left_iff, List.forall₂_map_right_iff, List.forall₂_same]
    exact hps
  | object hkeys hps hes hes' hcounts hcounts' h h' => exact absurd h hx.not_objectOf

/-- What `enclosed` takes apart is put together. -/
theorem of_enclosed {xs' : List (List UInt8)} (hxs : List.Forall₂ Recounted xs xs')
    (h : Enclosed '['.toUInt8 ']'.toUInt8 xs x) (h' : Enclosed '['.toUInt8 ']'.toUInt8 xs' x') :
    Recounted x x' := by
  obtain ⟨hlength, hzip⟩ := List.forall₂_iff_zip.mp hxs
  have hpairs : ∀ p ∈ xs.zip xs', Recounted p.1 p.2 := fun p hp => hzip hp
  refine .sequence hpairs ?_ ?_
  · rwa [List.map_fst_zip (Nat.le_of_eq hlength)]
  · rwa [List.map_snd_zip (Nat.le_of_eq hlength.symm)]

/-- A recounted object gives recounted values for each key that is not that of a count. -/
theorem objectOf (h : Recounted x x') (hx : ObjectOf NamedEntry es x)
    (hes : ∀ e ∈ es, IsValue e.2) :
    ∃ es', ObjectOf NamedEntry es' x' ∧ (∀ e ∈ es', IsValue e.2) ∧
      ∀ key ∉ countKeys, List.Forall₂ Recounted (given es key) (given es' key) := by
  cases h with
  | same =>
    refine ⟨es, hx, hes, fun key _ => forall₂_recounted_self fun y hy => ?_⟩
    exact hes _ (mem_given.mp hy)
  | sequence hps h h' => exact absurd hx h.not_objectOf
  | @object es₀ es' ps _ _ hkeys hps hes₀ hes' hcounts hcounts' h h' =>
    have hvalues : ∀ e ∈ es₀, IsValue e.2 :=
      isValue_of_uncounted hes₀ (fun p hp => (hps p hp).isValue.1) hcounts
    have hvalues' : ∀ e ∈ es', IsValue e.2 :=
      isValue_of_uncounted hes' (fun p hp => (hps p hp).isValue.2) hcounts'
    obtain rfl := hx.unique hes hvalues h
    refine ⟨es', h', hvalues', fun key hkey => ?_⟩
    have hgiven : given es key = given (ps.map Prod.fst) key := by rw [← hes₀, given_uncounted hkey]
    have hgiven' : given es' key = given (ps.map Prod.snd) key := by
      rw [← hes', given_uncounted hkey]
    rw [hgiven, hgiven']
    exact forall₂_given hkeys hps

/-- Objects are written with counts and without. -/
theorem of_written {entries entries' : List (String × List Char)}
    (h : (entries.filter fun e => e.1 ∉ countKeys) = entries'.filter fun e => e.1 ∉ countKeys)
    (hv : ∀ e ∈ entries, IsValue (encode e.2)) (hv' : ∀ e ∈ entries', IsValue (encode e.2)) :
    Recounted (encode (Writer.object entries)) (encode (Writer.object entries')) := by
  have huncounted : ∀ entries : List (String × List Char),
      uncounted (entries.map fun e => (e.1, encode e.2)) =
        (entries.filter fun e => e.1 ∉ countKeys).map fun e => (e.1, encode e.2) := by
    intro entries
    rw [uncounted, List.filter_map]
    rfl
  have hcounts : ∀ {entries : List (String × List Char)}, (∀ e ∈ entries, IsValue (encode e.2)) →
      ∀ e ∈ entries.map fun e => (e.1, encode e.2), e.1 ∈ countKeys → IsValue e.2 := fun hv =>
    List.forall_mem_map.mpr fun e he _ => hv e he
  have hsame : ∀ p ∈ (entries.filter fun e => e.1 ∉ countKeys).map fun e =>
      ((e.1, encode e.2), (e.1, encode e.2)), Recounted p.1.2 p.2.2 :=
    List.forall_mem_map.mpr fun e he => .same (hv e (List.mem_filter.mp he).1)
  refine .object (List.forall_mem_map.mpr fun _ _ => rfl) hsame ?_ ?_ (hcounts hv) (hcounts hv')
    (objectOf_object entries) (objectOf_object entries')
  · rw [huncounted, List.map_map]
    rfl
  · rw [huncounted, ← h, List.map_map]
    rfl

end Recounted

/-! ## What does not see counts -/

/-- Whether a language holds a value with any counts if it holds it with some. -/
def Blind (P : List UInt8 → Prop) : Prop :=
  ∀ ⦃x x'⦄, Recounted x x' → P x → P x'

theorem blind_of_bare {P : List UInt8 → Prop} (h : ∀ x, P x → Bare x) : Blind P := by
  intro x x' hrec hx
  rwa [← hrec.eq_of_bare (h x hx)]

theorem blind_isText (s : String) : Blind (IsText s) :=
  blind_of_bare fun _ => IsText.bare

theorem blind_isNatural (n : Nat) : Blind (IsNatural n) :=
  blind_of_bare fun _ => IsNatural.bare

theorem blind_severity (s : Severity) : Blind (· = [digitByte s.code]) := by
  refine blind_of_bare ?_
  rintro _ rfl
  exact bare_severity s

theorem blind_boolText (b : Bool) : Blind (· = boolText b) := by
  refine blind_of_bare ?_
  rintro _ rfl
  exact bare_boolText b

theorem Blind.sequenceOf {α : Type} {P : α → List UInt8 → Prop} (hP : ∀ a, Blind (P a))
    (hv : ∀ a x, P a x → IsValue x) (as : List α) : Blind (SequenceOf P as) := by
  rintro x x' hrec ⟨xs, hxs, hx⟩
  obtain ⟨xs', hxs', hx'⟩ := hrec.enclosed hx (forall_mem_of_forall₂ hxs fun a _ => hv a)
  refine ⟨xs', ?_, hx'⟩
  clear hx hx'
  induction hxs generalizing xs' with
  | nil => cases hxs'; exact .nil
  | cons ha has ih =>
    cases hxs' with
    | cons hr hrs => exact .cons (hP _ hr ha) (ih _ hrs)

/-! ## Reports do not see counts -/

theorem Finding.Entries.recounted {f : Finding} (h : f.Entries es) (hv : ∀ e ∈ es', IsValue e.2)
    (hgiven : ∀ key ∉ countKeys, List.Forall₂ Recounted (given es key) (given es' key)) :
    f.Entries es' := by
  have hkeys : ∀ key ∈ ["ruleId", "severity", "message", "line", "column", "fatal"],
      key ∉ countKeys := by
    decide
  exact h.transport (fun _ _ => Recounted.eq_of_bare)
    (fun key hkey => hgiven key (hkeys key hkey)) hv

theorem blind_findingText (f : Finding) : Blind (FindingText f) := by
  intro x x' hrec hx
  cases hx with
  | object he hx =>
    obtain ⟨es', hx', hv, hgiven⟩ := hrec.objectOf hx he.isValue
    exact .object (he.recounted hv hgiven) hx'
  | @sequence rule text line column fatal hrule htext hline hcolumn hfatal hx =>
    obtain ⟨_, hparts, hx'⟩ :=
      hrec.enclosed hx (Finding.isValue_of_mem_parts hrule htext hline hcolumn hfatal)
    obtain ⟨rule', _, hr₁, ht₁, rfl⟩ := List.forall₂_cons_left_iff.mp hparts
    obtain ⟨severity', _, hr₂, ht₂, rfl⟩ := List.forall₂_cons_left_iff.mp ht₁
    obtain ⟨text', _, hr₃, ht₃, rfl⟩ := List.forall₂_cons_left_iff.mp ht₂
    obtain ⟨line', _, hr₄, ht₄, rfl⟩ := List.forall₂_cons_left_iff.mp ht₃
    obtain ⟨column', fatal', hr₅, ht₅, rfl⟩ := List.forall₂_cons_left_iff.mp ht₄
    have hfatal' : fatal' = [] ∨ fatal' = [boolText false] := by
      rcases hfatal with rfl | rfl
      · exact .inl (List.forall₂_nil_left_iff.mp ht₅)
      · obtain ⟨y, _, hr, hnil, rfl⟩ := List.forall₂_cons_left_iff.mp ht₅
        rw [List.forall₂_nil_left_iff.mp hnil, blind_boolText false hr rfl]
        exact .inr rfl
    rw [blind_severity f.severity hr₂ rfl] at hx'
    exact .sequence (blind_isText _ hr₁ hrule) (blind_isText _ hr₃ htext)
      (blind_isNatural _ hr₄ hline) (blind_isNatural _ hr₅ hcolumn) hfatal' hx'

theorem blind_findings (fs : List Finding) : Blind (SequenceOf FindingText fs) :=
  Blind.sequenceOf blind_findingText (fun _ _ => FindingText.isValue) fs

theorem FileReport.Entries.recounted {r : FileReport} (h : r.Entries es)
    (hv : ∀ e ∈ es', IsValue e.2)
    (hgiven : ∀ key ∉ countKeys, List.Forall₂ Recounted (given es key) (given es' key)) :
    r.Entries es' := by
  have hkeys : ∀ key ∈ ["filePath", "messages"], key ∉ countKeys := by
    decide
  exact h.transport (fun _ _ => Recounted.eq_of_bare) (blind_findings r.findings)
    (fun key hkey => hgiven key (hkeys key hkey)) hv

theorem blind_fileText (r : FileReport) : Blind (FileText r) := by
  intro x x' hrec hx
  cases hx with
  | object he hx =>
    obtain ⟨es', hx', hv, hgiven⟩ := hrec.objectOf hx he.isValue
    exact .object (he.recounted hv hgiven) hx'
  | path hpath hnone hx =>
    obtain ⟨_, hparts, hx'⟩ := hrec.enclosed hx (by simpa using hpath.isValue)
    obtain ⟨path', _, hr, hnil, rfl⟩ := List.forall₂_cons_left_iff.mp hparts
    rw [List.forall₂_nil_left_iff.mp hnil] at hx'
    exact .path (blind_isText _ hr hpath) hnone hx'
  | both hpath hfindings hx =>
    have hvalue := hfindings.isValue fun _ _ => FindingText.isValue
    obtain ⟨_, hparts, hx'⟩ := hrec.enclosed hx (by simp [hpath.isValue, hvalue])
    obtain ⟨path', _, hr₁, ht, rfl⟩ := List.forall₂_cons_left_iff.mp hparts
    obtain ⟨findings', _, hr₂, hnil, rfl⟩ := List.forall₂_cons_left_iff.mp ht
    rw [List.forall₂_nil_left_iff.mp hnil] at hx'
    exact .both (blind_isText _ hr₁ hpath) (blind_findings _ hr₂ hfindings) hx'

namespace RecountedDocument

variable {bytes bytes' : List UInt8} {r : Report}

theorem symm (h : RecountedDocument bytes bytes') : RecountedDocument bytes' bytes := by
  obtain ⟨v, x, w, v', x', w', hrec, hv, hw, hv', hw', rfl, rfl⟩ := h
  exact ⟨v', x', w', v, x, w, hrec.symm, hv', hw', hv, hw, rfl, rfl⟩

theorem reportText (h : RecountedDocument bytes bytes') (hr : ReportText r bytes) :
    ReportText r bytes' := by
  obtain ⟨v, x, w, v', x', w', hrec, hv, hw, hv', hw', rfl, rfl⟩ := h
  obtain ⟨hx, hx'⟩ := hrec.isValue
  rw [reportText_append_iff hx hv hw] at hr
  rw [reportText_append_iff hx' hv' hw']
  exact Blind.sequenceOf blind_fileText (fun _ _ => FileText.isValue) r hrec hr

theorem of_recounted (h : Recounted x x') : RecountedDocument x x' :=
  ⟨[], x, [], [], x', [], h, .nil, .nil, .nil, .nil, by simp, by simp⟩

theorem reportText_iff (h : RecountedDocument bytes bytes') :
    ReportText r bytes ↔ ReportText r bytes' :=
  ⟨h.reportText, h.symm.reportText⟩

end RecountedDocument

end Findings
