import Findings.Proofs.Truncated

/-!
# Values can be taken apart in one way

The texts and the numbers of a report are values, and so is the text of every finding and of every
file report. A value tells where it ends: no value goes on as another one. So a sequence is written
from one list of values only (`Enclosed.unique_values`), and an object from one list of entries
(`ObjectOf.unique`), however much white space and whichever escapes are there. What a value stands
for is then asked of its parts alone (`findingText_object_iff`, `fileText_object_iff`).
-/

namespace Findings

open Text.Utf8 (encodeChar)

namespace Json

/-! ## Parts of a report are values -/

theorem LooseText.append_plain {t l : List UInt8} (ht : ∀ b ∈ t, IsPlain b) (h : LooseText l) :
    LooseText (t ++ l) := by
  induction t with
  | nil => exact h
  | cons b t ih =>
    obtain ⟨⟨hc, hq, hs⟩, ht⟩ := List.forall_mem_cons.mp ht
    exact .byte hc hq hs (ih ht)

theorem LooseText.append_char {c : Char} {u l : List UInt8} (hu : CharText c u) (h : LooseText l) :
    LooseText (u ++ l) := by
  cases hu with
  | itself hc hq hb => exact h.append_plain fun b => isPlain_of_mem hc hq hb
  | escape hu =>
    cases hu with
    | short hk => exact .escape (.short hk) h
    | number hn => exact .escape (.number hn) h
    | @pair _ n m u v hn hm hu hv hc =>
      -- The two units are two escapes to one who does not look for characters.
      have htwo : LooseText ('\\'.toUInt8 :: ('u'.toUInt8 :: u ++ '\\'.toUInt8 ::
          ('u'.toUInt8 :: v ++ l))) := .escape (.number hu) (.escape (.number hv) h)
      simpa using htwo

theorem CharsText.loose {cs : List Char} {l : List UInt8} (h : CharsText cs l) : LooseText l := by
  induction h with
  | nil => exact .nil
  | cons h t ih => exact ih.append_char h

theorem IsText.isValue {s : String} {x : List UInt8} (h : IsText s x) : IsValue x := by
  obtain ⟨l, hl, rfl⟩ := h
  exact .text hl.loose

theorem IsNatural.isValue {n : Nat} {x : List UInt8} (h : IsNatural n x) : IsValue x := by
  obtain ⟨numeral, hx, -⟩ := isInteger_iff.mp (.natural h)
  exact .number hx

theorem isValue_digit {n : Nat} (hn : n < 10) : IsValue [digitByte n] :=
  ((isNatural_digit_iff hn).mpr rfl).isValue

variable {α : Type} {P : α → List UInt8 → Prop} {as : List α} {x x' : List UInt8}

/-- Bytes that begin with no bracket. -/
def Bare (x : List UInt8) : Prop :=
  x.head? ≠ some '['.toUInt8 ∧ x.head? ≠ some '\x7b'.toUInt8

theorem IsText.bare {s : String} (h : IsText s x) : Bare x := by
  obtain ⟨l, -, rfl⟩ := h
  rw [Bare, quote, List.head?_cons]
  decide

theorem IsNatural.bare {n : Nat} (h : IsNatural n x) : Bare x := by
  obtain ⟨b, t, rfl, hb⟩ := (IsInteger.natural h).begins
  have hne : b ≠ '['.toUInt8 ∧ b ≠ '\x7b'.toUInt8 := by
    constructor
    · rintro rfl
      exact absurd hb (by decide)
    · rintro rfl
      exact absurd hb (by decide)
  simpa [Bare] using hne

theorem bare_boolText (b : Bool) : Bare (boolText b) := by
  unfold Bare
  cases b <;> decide

theorem forall_mem_of_forall₂ {Q : List UInt8 → Prop} {xs : List (List UInt8)}
    (h : List.Forall₂ P as xs) (hQ : ∀ a ∈ as, ∀ x, P a x → Q x) : ∀ x ∈ xs, Q x := by
  induction h with
  | nil => simp
  | cons h t ih =>
    rw [List.forall_mem_cons] at hQ
    exact List.forall_mem_cons.mpr ⟨hQ.1 _ h, ih hQ.2⟩

theorem SequenceOf.isValue (h : SequenceOf P as x) (hP : ∀ a x, P a x → IsValue x) : IsValue x := by
  obtain ⟨xs, hxs, hx⟩ := h
  exact .sequence (forall_mem_of_forall₂ hxs fun a _ => hP a) hx

theorem ObjectOf.isValue {es : List (String × List UInt8)} (h : ObjectOf NamedEntry es x)
    (hes : ∀ e ∈ es, IsValue e.2) : IsValue x := by
  obtain ⟨xs, hxs, hx⟩ := h
  have hloose : ∃ es' : List (List UInt8 × List UInt8), List.Forall₂ EntryText es' xs ∧
      ∀ e ∈ es', LooseText e.1 ∧ IsValue e.2 := by
    clear hx
    induction hxs with
    | nil => exact ⟨[], .nil, by simp⟩
    | @cons e y es xs he t ih =>
      obtain ⟨hv, hes⟩ := List.forall_mem_cons.mp hes
      obtain ⟨es', hes', hall⟩ := ih hes
      obtain ⟨l, hl, he⟩ := he
      exact ⟨(l, e.2) :: es', .cons he hes', List.forall_mem_cons.mpr ⟨⟨hl.loose, hv⟩, hall⟩⟩
  obtain ⟨es', hes', hall⟩ := hloose
  exact .object (fun e he => (hall e he).1) (fun e he => (hall e he).2) ⟨xs, hes', hx⟩

/-! ## Where a part ends -/

/-- White space comes off in one way. -/
theorem eq_of_blank_append {w w' r r' : List UInt8} (hw : Blank w) (hw' : Blank w')
    (hr : afterBlank r = r) (hr' : afterBlank r' = r') (h : w ++ r = w' ++ r') : r = r' := by
  have hafter := congrArg afterBlank h
  rwa [afterBlank_append hw, afterBlank_append hw', hr, hr'] at hafter

theorem Starts.afterBlank_append (h : Starts x) (r : List UInt8) : afterBlank (x ++ r) = x ++ r :=
  afterBlank_of_starts .nil h

variable {m m' : List UInt8}

/-- No value goes on as another one. -/
theorem IsValue.eq_of_append (hx : IsValue x) (hx' : IsValue x') (hm : Delimited m)
    (hm' : Delimited m') (h : x ++ m = x' ++ m') : x = x' ∧ m = m' := by
  -- A value is what is passed over, and that is one beginning of the bytes at hand.
  have hreads := Decoder.reads_skip (ε := Empty)
  have hg := hreads.complete (w := []) (a := ()) .nil hx hm
  have hg' := hreads.complete (w := []) (a := ()) .nil hx' hm'
  rw [← h] at hg'
  obtain rfl := (hreads.yields.unique hg hg').2
  exact ⟨List.append_cancel_right h, rfl⟩

theorem NamedEntry.eq_of_append {e e' : String × List UInt8} (he : NamedEntry e x)
    (he' : NamedEntry e' x') (hv : IsValue e.2) (hv' : IsValue e'.2) (hm : Delimited m)
    (hm' : Delimited m') (h : x ++ m = x' ++ m') : e = e' ∧ m = m' := by
  obtain ⟨l, hl, w, w₁, hw, hw₁, rfl⟩ := he
  obtain ⟨l', hl', w', w₁', hw', hw₁', rfl⟩ := he'
  simp only [quote, List.cons_append, List.append_assoc, List.nil_append, List.cons.injEq,
    true_and] at h
  have hcolon : ∀ t, afterBlank (':'.toUInt8 :: t) = ':'.toUInt8 :: t := fun t =>
    afterBlank_cons (by decide)
  obtain ⟨hkey, h⟩ := (Decoder.yields_text (ε := Empty)).unique ⟨l, hl, rfl⟩ ⟨l', hl', h⟩
  have h := (List.cons.inj (eq_of_blank_append hw hw' (hcolon _) (hcolon _) h)).2
  have h := eq_of_blank_append hw₁ hw₁' (hv.starts.afterBlank_append m)
    (hv'.starts.afterBlank_append m') h
  obtain ⟨hvalue, hm⟩ := hv.eq_of_append hv' hm hm' h
  exact ⟨Prod.ext hkey hvalue, hm⟩

/-! ## Containers -/

/-- Items that tell where they end, and do not begin as their container ends. -/
structure SelfEnding (opens : UInt8 → Prop) (X : List UInt8 → Prop) : Prop where
  starts : ∀ {x}, X x → ∃ b t, x = b :: t ∧ isBlank b = false ∧ opens b
  ends : ∀ {x x' m m'}, X x → X x' → Delimited m → Delimited m' → x ++ m = x' ++ m' →
    x = x' ∧ m = m'

theorem selfEnding_value : SelfEnding (· ≠ ']'.toUInt8) IsValue where
  starts hx := hx.starts
  ends hx hx' := hx.eq_of_append hx'

theorem selfEnding_entry :
    SelfEnding (· = '"'.toUInt8) fun x => ∃ e, IsValue e.2 ∧ NamedEntry e x where
  starts := by
    rintro _ ⟨e, -, l, -, w, w', -, -, rfl⟩
    exact ⟨_, _, rfl, by decide, rfl⟩
  ends := by
    rintro x x' m m' ⟨e, hv, he⟩ ⟨e', hv', he'⟩ hm hm' h
    obtain ⟨-, rfl⟩ := he.eq_of_append he' hv hv' hm hm' h
    exact ⟨List.append_cancel_right h, rfl⟩

section Items

variable {opens : UInt8 → Prop} {X : List UInt8 → Prop} {close : UInt8} {xs xs' : List (List UInt8)}
  {u u' w w' w₀ w₀' : List UInt8}

theorem SelfEnding.afterBlank_append (hX : SelfEnding opens X) (hx : X x) (r : List UInt8) :
    afterBlank (x ++ r) = x ++ r := by
  obtain ⟨b, t, rfl, hb, -⟩ := hX.starts hx
  exact afterBlank_cons hb

/-- After a container's first item, its further ones are found in one way. -/
theorem MoreItems.unique (hX : SelfEnding opens X) (hc : Closes close opens) (hxs : ∀ x ∈ xs, X x)
    (hxs' : ∀ x ∈ xs', X x) (hu : MoreItems xs u) (hu' : MoreItems xs' u') (hw : Blank w)
    (hw' : Blank w') (h : u ++ (w ++ [close]) = u' ++ (w' ++ [close])) : xs = xs' := by
  have hclose : afterBlank [close] = [close] := afterBlank_cons hc.not_blank
  have hcomma : ∀ t, afterBlank (','.toUInt8 :: t) = ','.toUInt8 :: t := fun t =>
    afterBlank_cons (by decide)
  have hend : Delimited [close] := delimited_cons (.inr (.inr hc.delimits))
  induction hu generalizing xs' u' with
  | nil =>
    cases hu' with
    | nil => rfl
    | cons hv' _ _ =>
      rw [List.append_assoc] at h
      exact absurd (List.cons.inj (eq_of_blank_append hw hv' hclose (hcomma _) h)).1 hc.ne_comma
  | @cons x u v v₁ xs hv hv₁ hu ih =>
    cases hu' with
    | nil =>
      rw [List.append_assoc] at h
      exact absurd (List.cons.inj (eq_of_blank_append hv hw' (hcomma _) hclose h)).1.symm
        hc.ne_comma
    | @cons x' u' v' v₁' xs' hv' hv₁' hu' =>
      obtain ⟨hx, ht⟩ := List.forall_mem_cons.mp hxs
      obtain ⟨hx', ht'⟩ := List.forall_mem_cons.mp hxs'
      simp only [List.append_assoc, List.cons_append] at h
      have h := (List.cons.inj (eq_of_blank_append hv hv' (hcomma _) (hcomma _) h)).2
      have h := eq_of_blank_append hv₁ hv₁' (hX.afterBlank_append hx _)
        (hX.afterBlank_append hx' _) h
      obtain ⟨rfl, hrest⟩ :=
        hX.ends hx hx' (delimited_more hu hw hend) (delimited_more hu' hw' hend) h
      rw [ih ht ht' hu' hrest]

theorem Items.unique (hX : SelfEnding opens X) (hc : Closes close opens) (hxs : ∀ x ∈ xs, X x)
    (hxs' : ∀ x ∈ xs', X x) (hw₀ : Blank w₀) (hw₀' : Blank w₀') (hu : Items xs u)
    (hu' : Items xs' u') (hw : Blank w) (hw' : Blank w')
    (h : w₀ ++ (u ++ (w ++ [close])) = w₀' ++ (u' ++ (w' ++ [close]))) : xs = xs' := by
  have hclose : afterBlank [close] = [close] := afterBlank_cons hc.not_blank
  have hend : Delimited [close] := delimited_cons (.inr (.inr hc.delimits))
  -- An item that stands where the container ends begins with the closing bracket.
  have hnot : ∀ {v v' y t}, Blank v → Blank v' → X y → v ++ [close] ≠ v' ++ (y ++ t) := by
    intro v v' y t hv hv' hy he
    have he := eq_of_blank_append hv hv' hclose (hX.afterBlank_append hy t) he
    obtain ⟨b, s, rfl, -, hb⟩ := hX.starts hy
    rw [(List.cons.inj he).1] at hc
    exact hc.not_opens hb
  cases hu with
  | nil =>
    cases hu' with
    | nil => rfl
    | cons hu' =>
      rw [List.nil_append, ← List.append_assoc, List.append_assoc _ _ (w' ++ [close])] at h
      exact absurd h (hnot (hw₀.append hw) hw₀' (List.forall_mem_cons.mp hxs').1)
  | @cons x u xs hu =>
    cases hu' with
    | nil =>
      rw [List.nil_append, ← List.append_assoc w₀', List.append_assoc _ _ (w ++ [close])] at h
      exact absurd h.symm (hnot (hw₀'.append hw') hw₀ (List.forall_mem_cons.mp hxs).1)
    | @cons x' u' xs' hu' =>
      obtain ⟨hx, ht⟩ := List.forall_mem_cons.mp hxs
      obtain ⟨hx', ht'⟩ := List.forall_mem_cons.mp hxs'
      rw [List.append_assoc, List.append_assoc] at h
      have h := eq_of_blank_append hw₀ hw₀' (hX.afterBlank_append hx _)
        (hX.afterBlank_append hx' _) h
      obtain ⟨rfl, hrest⟩ :=
        hX.ends hx hx' (delimited_more hu hw hend) (delimited_more hu' hw' hend) h
      rw [hu.unique hX hc ht ht' hu' hw hw' hrest]

theorem Enclosed.unique {first : UInt8} (hX : SelfEnding opens X) (hc : Closes close opens)
    (hxs : ∀ x ∈ xs, X x) (hxs' : ∀ x ∈ xs', X x) (h : Enclosed first close xs x)
    (h' : Enclosed first close xs' x) : xs = xs' := by
  obtain ⟨w₀, u, w, hw₀, hu, hw, rfl⟩ := h
  obtain ⟨w₀', u', w', hw₀', hu', hw', he⟩ := h'
  exact hu.unique hX hc hxs hxs' hw₀ hw₀' hu' hw hw' (List.cons.inj he).2

end Items

theorem Enclosed.head?_eq {first last : UInt8} {xs : List (List UInt8)}
    (h : Enclosed first last xs x) : x.head? = some first := by
  obtain ⟨w, u, w', -, -, -, rfl⟩ := h
  rfl

theorem ObjectOf.head?_eq (h : ObjectOf P as x) : x.head? = some '\x7b'.toUInt8 := by
  obtain ⟨xs, -, hx⟩ := h
  exact hx.head?_eq

/-- What is a sequence is no object. -/
theorem Enclosed.not_objectOf {xs : List (List UInt8)}
    (h : Enclosed '['.toUInt8 ']'.toUInt8 xs x) : ¬ObjectOf P as x := by
  intro h'
  have hhead := h.head?_eq
  rw [h'.head?_eq] at hhead
  exact absurd hhead (by decide)

/-- A sequence is written from one list of values. -/
theorem Enclosed.unique_values {xs xs' : List (List UInt8)} (hxs : ∀ y ∈ xs, IsValue y)
    (hxs' : ∀ y ∈ xs', IsValue y) (h : Enclosed '['.toUInt8 ']'.toUInt8 xs x)
    (h' : Enclosed '['.toUInt8 ']'.toUInt8 xs' x) : xs = xs' :=
  h.unique selfEnding_value closes_square hxs hxs' h'

/-- An object is written from one list of entries. -/
theorem ObjectOf.unique {es es' : List (String × List UInt8)} (hes : ∀ e ∈ es, IsValue e.2)
    (hes' : ∀ e ∈ es', IsValue e.2) (h : ObjectOf NamedEntry es x)
    (h' : ObjectOf NamedEntry es' x) : es = es' := by
  obtain ⟨xs, hxs, hx⟩ := h
  obtain ⟨xs', hxs', hx'⟩ := h'
  have hitems : ∀ {es xs}, List.Forall₂ NamedEntry es xs → (∀ e ∈ es, IsValue e.2) →
      ∀ x ∈ xs, ∃ e, IsValue e.2 ∧ NamedEntry e x := fun h hes =>
    forall_mem_of_forall₂ h fun e he x hx => ⟨e, hes e he, hx⟩
  obtain rfl := hx.unique selfEnding_entry closes_curly (hitems hxs hes) (hitems hxs' hes') hx'
  have hone : Relator.LeftUnique fun (e : String × List UInt8) y => IsValue e.2 ∧ NamedEntry e y :=
    fun e e' y ⟨hv, he⟩ ⟨hv', he'⟩ =>
      (he.eq_of_append he' hv hv' delimited_nil delimited_nil rfl).1
  exact List.left_unique_forall₂' hone ((List.forall₂_and_left _ _).mpr ⟨hes, hxs⟩)
    ((List.forall₂_and_left _ _).mpr ⟨hes', hxs'⟩)

end Json

open Json

/-! ## Entries by their keys -/

variable {es : List (String × List UInt8)} {key : String}

theorem mem_given {v : List UInt8} : v ∈ given es key ↔ (key, v) ∈ es := by
  simp [given]

theorem notMem_of_given_eq_nil (h : given es key = []) (v : List UInt8) : (key, v) ∉ es := by
  rw [← mem_given, h]
  exact List.not_mem_nil

theorem Once.of_mem {Q : List UInt8 → Prop} (h : Once es key Q) {v : List UInt8}
    (hv : (key, v) ∈ es) : Q v := by
  obtain ⟨x, hx, hQ⟩ := h
  have hmem := mem_given.mpr hv
  rw [hx, List.mem_singleton] at hmem
  exact hmem ▸ hQ

/-- What is known of a key's only value goes over to a value that is related to it. -/
theorem Once.transport {es' : List (String × List UInt8)} {P : List UInt8 → Prop}
    {R : List UInt8 → List UInt8 → Prop} (h : Once es key P) (hP : ∀ ⦃v v'⦄, R v v' → P v → P v')
    (hgiven : List.Forall₂ R (given es key) (given es' key)) : Once es' key P := by
  obtain ⟨x, hx, hPx⟩ := h
  rw [hx] at hgiven
  obtain ⟨x', _, hR, hnil, he⟩ := List.forall₂_cons_left_iff.mp hgiven
  rw [List.forall₂_nil_left_iff.mp hnil] at he
  exact ⟨x', he, hP hR hPx⟩

/-- A key that stands at one place is there once exactly if it stands nowhere else. -/
theorem once_append_cons_iff {es' : List (String × List UInt8)} {v : List UInt8}
    {P : List UInt8 → Prop} :
    Once (es ++ (key, v) :: es') key P ↔ given (es ++ es') key = [] ∧ P v := by
  rw [Once, given_append_cons_self, given_append, List.append_eq_nil_iff]
  constructor
  · rintro ⟨x, hx, hP⟩
    rcases List.append_eq_singleton_iff.mp hx with ⟨hes, htail⟩ | ⟨-, htail⟩
    · obtain ⟨rfl, hes'⟩ := List.cons.inj htail
      exact ⟨⟨hes, hes'⟩, hP⟩
    · cases htail
  · rintro ⟨⟨hes, hes'⟩, hP⟩
    exact ⟨v, by rw [hes, hes', List.nil_append], hP⟩

/-! ## Reports -/

variable {x : List UInt8}

theorem isValue_severity (s : Severity) : IsValue [digitByte s.code] :=
  isValue_digit (by cases s <;> decide)

theorem bare_severity (s : Severity) : Bare [digitByte s.code] := by
  unfold Bare
  cases s <;> decide

theorem Finding.Entries.isValue {f : Finding} {es : List (String × List UInt8)} (h : f.Entries es) :
    ∀ e ∈ es, IsValue e.2 := by
  rintro ⟨key, v⟩ he
  by_cases hkey : key ∈ ["ruleId", "severity", "message", "line", "column", "fatal"]
  · simp only [List.mem_cons, List.not_mem_nil, or_false] at hkey
    rcases hkey with rfl | rfl | rfl | rfl | rfl | rfl
    · exact (h.rule.of_mem he).isValue
    · rw [h.severity.of_mem he]
      exact isValue_severity f.severity
    · exact (h.text.of_mem he).isValue
    · exact (h.line.of_mem he).isValue
    · exact (h.column.of_mem he).isValue
    · rcases h.fatal with hnone | hfatal
      · exact absurd he (notMem_of_given_eq_nil hnone v)
      · rw [hfatal.of_mem he]
        exact .bool false
  · exact h.others _ he hkey

/-- The parts of a finding that is written as a sequence. -/
theorem Finding.isValue_of_mem_parts {f : Finding} {rule text line column : List UInt8}
    {fatal : List (List UInt8)} (hrule : IsText f.rule rule) (htext : IsText f.text text)
    (hline : IsUnsigned f.line line) (hcolumn : IsUnsigned f.column column)
    (hfatal : fatal = [] ∨ fatal = [boolText false]) :
    ∀ y ∈ rule :: [digitByte f.severity.code] :: text :: line :: column :: fatal, IsValue y := by
  have hlast : ∀ y ∈ fatal, IsValue y := by
    rcases hfatal with rfl | rfl
    · simp
    · simpa using IsValue.bool false
  simp only [List.forall_mem_cons]
  exact ⟨hrule.isValue, isValue_severity f.severity, htext.isValue, hline.isValue,
    hcolumn.isValue, hlast⟩

theorem FindingText.isValue {f : Finding} (h : FindingText f x) : IsValue x := by
  cases h with
  | object he h => exact h.isValue he.isValue
  | sequence hrule htext hline hcolumn hfatal h =>
    exact .sequence (Finding.isValue_of_mem_parts hrule htext hline hcolumn hfatal) h

theorem FileReport.Entries.isValue {r : FileReport} {es : List (String × List UInt8)}
    (h : r.Entries es) : ∀ e ∈ es, IsValue e.2 := by
  rintro ⟨key, v⟩ he
  by_cases hkey : key ∈ ["filePath", "messages"]
  · simp only [List.mem_cons, List.not_mem_nil, or_false] at hkey
    rcases hkey with rfl | rfl
    · exact (h.path.of_mem he).isValue
    · rcases h.findings with ⟨hnone, -⟩ | hfindings
      · exact absurd he (notMem_of_given_eq_nil hnone v)
      · exact (hfindings.of_mem he).isValue fun _ _ => FindingText.isValue
  · exact h.others _ he hkey

theorem FileText.isValue {r : FileReport} (h : FileText r x) : IsValue x := by
  cases h with
  | object he h => exact h.isValue he.isValue
  | path hpath hnone h => exact .sequence (by simpa using hpath.isValue) h
  | both hpath hfindings h =>
    have hparts := (hfindings.isValue fun _ _ => FindingText.isValue)
    exact .sequence (by simp [hpath.isValue, hparts]) h

/-! ## Entries that give the same

The parts of a record begin with no bracket, except for the findings of a file. So a relation of
values that leaves such values as they are takes the entries of a record over.
-/

section Transport

variable {R : List UInt8 → List UInt8 → Prop} {es es' : List (String × List UInt8)}

theorem Finding.Entries.transport {f : Finding} (h : f.Entries es)
    (hR : ∀ ⦃v v'⦄, R v v' → Bare v → v = v')
    (hgiven : ∀ key ∈ ["ruleId", "severity", "message", "line", "column", "fatal"],
      List.Forall₂ R (given es key) (given es' key))
    (hes' : ∀ e ∈ es', IsValue e.2) : f.Entries es' := by
  have htext : ∀ s ⦃v v'⦄, R v v' → IsText s v → IsText s v' := fun s v v' hv hs =>
    hR hv hs.bare ▸ hs
  have hnumber : ∀ n ⦃v v'⦄, R v v' → IsUnsigned n v → IsUnsigned n v' := fun n v v' hv hn =>
    hR hv (IsNatural.bare hn) ▸ hn
  have hword : ∀ ⦃w v v'⦄, Bare w → R v v' → v = w → v' = w := fun w v v' hw hv he =>
    (hR hv (he ▸ hw)).symm.trans he
  exact
    { rule := h.rule.transport (htext _) (hgiven _ (by decide))
      severity := h.severity.transport (fun _ _ => hword (bare_severity _)) (hgiven _ (by decide))
      text := h.text.transport (htext _) (hgiven _ (by decide))
      line := h.line.transport (hnumber _) (hgiven _ (by decide))
      column := h.column.transport (hnumber _) (hgiven _ (by decide))
      fatal := by
        have hfatal := hgiven "fatal" (by decide)
        rcases h.fatal with hnone | hsome
        · rw [hnone] at hfatal
          exact .inl (List.forall₂_nil_left_iff.mp hfatal)
        · exact .inr (hsome.transport (fun _ _ => hword (bare_boolText false)) hfatal)
      others := fun e he _ => hes' e he }

theorem FileReport.Entries.transport {r : FileReport} (h : r.Entries es)
    (hR : ∀ ⦃v v'⦄, R v v' → Bare v → v = v')
    (hfindings : ∀ ⦃v v'⦄, R v v' → SequenceOf FindingText r.findings v →
      SequenceOf FindingText r.findings v')
    (hgiven : ∀ key ∈ ["filePath", "messages"], List.Forall₂ R (given es key) (given es' key))
    (hes' : ∀ e ∈ es', IsValue e.2) : r.Entries es' where
  path := by
    have htext : ∀ ⦃v v'⦄, R v v' → IsText r.path v → IsText r.path v' := fun v v' hv ht =>
      hR hv ht.bare ▸ ht
    exact h.path.transport htext (hgiven _ (by decide))
  findings := by
    have hmessages := hgiven "messages" (by decide)
    rcases h.findings with ⟨hnone, hempty⟩ | hsome
    · rw [hnone] at hmessages
      exact .inl ⟨List.forall₂_nil_left_iff.mp hmessages, hempty⟩
    · exact .inr (hsome.transport hfindings hmessages)
  others e he _ := hes' e he

end Transport

/-! ## What values say

A value that is known by its parts says what they say, since it has no others.
-/

theorem sequenceOf_enclosed_iff {α : Type} {P : α → List UInt8 → Prop} {as : List α}
    {xs : List (List UInt8)} (hx : Enclosed '['.toUInt8 ']'.toUInt8 xs x)
    (hxs : ∀ y ∈ xs, IsValue y) (hP : ∀ a y, P a y → IsValue y) :
    SequenceOf P as x ↔ List.Forall₂ P as xs := by
  constructor
  · rintro ⟨xs', has, hx'⟩
    rwa [hx.unique_values hxs (forall_mem_of_forall₂ has fun a _ => hP a) hx']
  · exact fun has => ⟨xs, has, hx⟩

theorem findingText_object_iff {f : Finding} (hx : ObjectOf NamedEntry es x)
    (hes : ∀ e ∈ es, IsValue e.2) : FindingText f x ↔ f.Entries es := by
  constructor
  · intro h
    cases h with
    | object he h => rwa [hx.unique hes he.isValue h]
    | sequence _ _ _ _ _ h => exact absurd hx h.not_objectOf
  · exact fun he => .object he hx

theorem fileText_object_iff {r : FileReport} (hx : ObjectOf NamedEntry es x)
    (hes : ∀ e ∈ es, IsValue e.2) : FileText r x ↔ r.Entries es := by
  constructor
  · intro h
    cases h with
    | object he h => rwa [hx.unique hes he.isValue h]
    | path _ _ h => exact absurd hx h.not_objectOf
    | both _ _ h => exact absurd hx h.not_objectOf
  · exact fun he => .object he hx

theorem fileText_sequence_iff {r : FileReport} {path findings : List UInt8}
    (hx : Enclosed '['.toUInt8 ']'.toUInt8 [path, findings] x) (hpath : IsValue path)
    (hfindings : IsValue findings) :
    FileText r x ↔ IsText r.path path ∧ SequenceOf FindingText r.findings findings := by
  have hparts : ∀ y ∈ [path, findings], IsValue y :=
    List.forall_mem_cons.mpr ⟨hpath, List.forall_mem_singleton.mpr hfindings⟩
  constructor
  · intro h
    cases h with
    | object _ h => exact absurd h hx.not_objectOf
    | path hpath' _ h =>
      have hone := hx.unique_values hparts (List.forall_mem_singleton.mpr hpath'.isValue) h
      simp at hone
    | both hpath' hfindings' h =>
      have hvalue := hfindings'.isValue fun _ _ => FindingText.isValue
      have htwo := hx.unique_values hparts (by simp [hpath'.isValue, hvalue]) h
      simp only [List.cons.injEq, and_true] at htwo
      obtain ⟨rfl, rfl⟩ := htwo
      exact ⟨hpath', hfindings'⟩
  · rintro ⟨hpath', hfindings'⟩
    exact .both hpath' hfindings' hx

/-- White space around a value says nothing. -/
theorem reportText_append_iff {r : Report} {w w' : List UInt8} (hx : IsValue x) (hw : Blank w)
    (hw' : Blank w') : ReportText r (w ++ (x ++ w')) ↔ SequenceOf FileText r x := by
  have hend : ∀ {w : List UInt8}, Blank w → Delimited w := fun {w} hw => by
    simpa using delimited_nil.blank_append hw
  constructor
  · rintro ⟨u, y, u', hu, hy, hu', he⟩
    have hy' : IsValue y := hy.isValue fun _ _ => FileText.isValue
    have he := eq_of_blank_append hw hu (hx.starts.afterBlank_append w')
      (hy'.starts.afterBlank_append u') he
    rwa [(hx.eq_of_append hy' (hend hw') (hend hu') he).1]
  · exact fun hy => ⟨w, x, w', hw, hy, hw', rfl⟩

end Findings
