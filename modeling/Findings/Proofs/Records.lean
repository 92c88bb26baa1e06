import Findings.Proofs.AnyValue
import Findings.Json.Record
import Mathlib.Data.List.Nodup

/-!
# Records are read as the grammar has them

A field is described by a `Slot`: the language of its values, and where they are kept in the state.
A record whose slots do not get in each other's way (`Apart`) is read from an object exactly if each
slot finds its key there as often as it may, whatever else the object holds and in whatever order
(`collects_iff`), and from a sequence by position.
-/

namespace Findings.Json

variable {ε σ : Type}

/-! ## Slots -/

/-- A field as it is written and kept. -/
structure Slot (σ : Type) where
  key : String
  absence : Absence
  Value : Type
  get : σ → Value
  set : Value → σ → σ
  /-- How its values are written. -/
  text : Value → List UInt8 → Prop

/-- A field reads what a slot says and keeps it there. -/
structure Field.Fills (f : Field ε σ) (slot : Slot σ) : Prop where
  key : f.key = slot.key
  absence : f.absence = slot.absence
  reads : ∀ s, Decoder.Reads (f.read s) fun s' x => ∃ a, slot.text a x ∧ s' = slot.set a s

/-- Slots that do not get in each other's way and together are the whole state. -/
structure Apart (slots : List (Slot σ)) : Prop where
  keys : (slots.map Slot.key).Nodup
  get_set : ∀ slot ∈ slots, ∀ a s, slot.get (slot.set a s) = a
  get_set_ne : ∀ slot ∈ slots, ∀ slot' ∈ slots, slot.key ≠ slot'.key →
    ∀ a s, slot'.get (slot.set a s) = slot'.get s
  ext : ∀ s s', (∀ slot ∈ slots, slot.get s = slot.get s') → s = s'

/-- The values that entries have for a key, in their order. -/
def given (es : List (String × List UInt8)) (key : String) : List (List UInt8) :=
  (es.filter (·.1 == key)).map (·.2)

theorem given_cons_self (key : String) (v : List UInt8) (es : List (String × List UInt8)) :
    given ((key, v) :: es) key = v :: given es key := by
  simp [given]

theorem given_cons_ne {key key' : String} (h : key' ≠ key) (v : List UInt8)
    (es : List (String × List UInt8)) : given ((key', v) :: es) key = given es key := by
  simp [given, h]

theorem given_append (es es' : List (String × List UInt8)) (key : String) :
    given (es ++ es') key = given es key ++ given es' key := by
  simp [given]

theorem given_append_cons_self (es es' : List (String × List UInt8)) (key : String)
    (v : List UInt8) : given (es ++ (key, v) :: es') key = given es key ++ v :: given es' key := by
  rw [given_append, given_cons_self]

theorem given_append_cons_ne {key key' : String} (h : key' ≠ key)
    (es es' : List (String × List UInt8))
    (v : List UInt8) : given (es ++ (key', v) :: es') key = given (es ++ es') key := by
  rw [given_append, given_append, given_cons_ne h]

/-- A key with one value is given at one place. -/
theorem exists_of_given_eq_singleton {es : List (String × List UInt8)} {key : String}
    {v : List UInt8} (h : given es key = [v]) :
    ∃ es₁ es₂, es = es₁ ++ (key, v) :: es₂ ∧ given es₁ key = [] := by
  induction es with
  | nil => simp [given] at h
  | cons e es ih =>
    obtain ⟨key', v'⟩ := e
    by_cases hkey : key' = key
    · subst hkey
      rw [given_cons_self, List.cons.injEq] at h
      exact ⟨[], es, by rw [h.1]; rfl, rfl⟩
    · rw [given_cons_ne hkey] at h
      obtain ⟨es₁, es₂, rfl, hnone⟩ := ih h
      exact ⟨(key', v') :: es₁, es₂, rfl, by rw [given_cons_ne hkey, hnone]⟩

/-- What entries hold of a slot: its key once, or not at all if it may be absent. -/
def Slot.In (slot : Slot σ) (es : List (String × List UInt8)) (s s' : σ) : Prop :=
  (given es slot.key = [] ∧ slot.absence ≠ .never ∧ slot.get s' = slot.get s) ∨
    ∃ x, given es slot.key = [x] ∧ slot.text (slot.get s') x

/-- Whether the entries that no slot has a key for have some value. -/
def OthersAreValues (slots : List (Slot σ)) (es : List (String × List UInt8)) : Prop :=
  ∀ e ∈ es, (∀ slot ∈ slots, slot.key ≠ e.1) → IsValue e.2

theorem othersAreValues_iff {slots : List (Slot σ)} {es : List (String × List UInt8)} :
    OthersAreValues slots es ↔ ∀ e ∈ es, e.1 ∉ slots.map Slot.key → IsValue e.2 := by
  refine forall₂_congr fun e _ => imp_congr_left ?_
  rw [List.mem_map, not_exists]
  exact forall_congr' fun slot => not_and.symm

/-- The elements of a sequence that stands for a record. -/
inductive Positional : List (Slot σ) → σ → List (List UInt8) → σ → Prop
  | nil {s : σ} : Positional [] s [] s
  | cons {slot : Slot σ} {slots : List (Slot σ)} {a : slot.Value} {x : List UInt8}
    {xs : List (List UInt8)} {s s' : σ} (h : slot.text a x)
    (t : Positional slots (slot.set a s) xs s') : Positional (slot :: slots) s (x :: xs) s'
  | absent {slot : Slot σ} {slots : List (Slot σ)} {s s' : σ} (h : slot.absence = .anywhere)
    (t : Positional slots s [] s') : Positional (slot :: slots) s [] s'

theorem positional_nil_iff {s s' : σ} {xs : List (List UInt8)} :
    Positional [] s xs s' ↔ xs = [] ∧ s' = s := by
  constructor
  · intro h
    cases h
    exact ⟨rfl, rfl⟩
  · rintro ⟨rfl, rfl⟩
    exact .nil

theorem positional_cons_iff {slot : Slot σ} {slots : List (Slot σ)} {s s' : σ}
    {xs : List (List UInt8)} :
    Positional (slot :: slots) s xs s' ↔
      (∃ a x xs', xs = x :: xs' ∧ slot.text a x ∧ Positional slots (slot.set a s) xs' s') ∨
        (xs = [] ∧ slot.absence = .anywhere ∧ Positional slots s [] s') := by
  constructor
  · intro h
    cases h with
    | cons h t => exact .inl ⟨_, _, _, rfl, h, t⟩
    | absent h t => exact .inr ⟨rfl, h, t⟩
  · rintro (⟨a, x, xs', rfl, h, t⟩ | ⟨rfl, h, t⟩)
    · exact .cons h t
    · exact .absent h t

/-- A record, of which `s` is known before. -/
def RecordText (slots : List (Slot σ)) (s s' : σ) (x : List UInt8) : Prop :=
  (∃ xs, Positional slots s xs s' ∧ Enclosed '['.toUInt8 ']'.toUInt8 xs x) ∨
    ∃ es, (OthersAreValues slots es ∧ ∀ slot ∈ slots, slot.In es s s') ∧ ObjectOf NamedEntry es x

/-! ## Entries one by one -/

/-- What one entry gives. -/
inductive Takes (slots : List (Slot σ)) : Record.Progress σ → String × List UInt8 →
    Record.Progress σ → Prop
  | other {p : Record.Progress σ} {key : String} {v : List UInt8}
    (hk : ∀ slot ∈ slots, slot.key ≠ key) (hv : IsValue v) : Takes slots p (key, v) p
  | field {p : Record.Progress σ} {slot : Slot σ} {a : slot.Value} {v : List UInt8}
    (hs : slot ∈ slots) (hn : slot.key ∉ p.given) (hv : slot.text a v) :
    Takes slots p (slot.key, v) { given := slot.key :: p.given, state := slot.set a p.state }

/-- What entries give one after the other. -/
abbrev Collects (slots : List (Slot σ)) : Record.Progress σ → List (String × List UInt8) →
    Record.Progress σ → Prop :=
  Run (Takes slots)

section Collects

variable {slots : List (Slot σ)}

theorem Apart.eq_of_key (h : Apart slots) {slot slot' : Slot σ} (hs : slot ∈ slots)
    (hs' : slot' ∈ slots) (hk : slot.key = slot'.key) : slot = slot' :=
  List.inj_on_of_nodup_map h.keys hs hs' hk

/-- What entries do for one slot: nothing, or they give it once for all. -/
theorem slot_of_collects (ha : Apart slots) {p p' : Record.Progress σ}
    {es : List (String × List UInt8)} (h : Collects slots p es p') :
    ∀ slot ∈ slots, (given es slot.key = [] ∧ slot.get p'.state = slot.get p.state ∧
        (slot.key ∈ p'.given ↔ slot.key ∈ p.given)) ∨
      (slot.key ∉ p.given ∧ slot.key ∈ p'.given ∧
        ∃ x, given es slot.key = [x] ∧ slot.text (slot.get p'.state) x) := by
  induction h with
  | nil =>
    intro slot _
    exact .inl ⟨rfl, rfl, Iff.rfl⟩
  | @cons p _ p' _ es h t ih =>
    intro slot hs
    cases h with
    | other hk hv =>
      rw [given_cons_ne (hk slot hs).symm]
      exact ih slot hs
    | @field slot₀ a v hs₀ hn hv =>
      by_cases hkey : slot₀.key = slot.key
      · obtain rfl := ha.eq_of_key hs₀ hs hkey
        rw [given_cons_self]
        -- The key is given now, so the entries that follow do nothing for this slot.
        rcases ih slot₀ hs₀ with ⟨hes, hget, hgiven⟩ | ⟨hgiven, -, -⟩
        · refine .inr ⟨hn, hgiven.mpr List.mem_cons_self, v, by rw [hes], ?_⟩
          rw [hget, ha.get_set slot₀ hs₀]
          exact hv
        · exact absurd List.mem_cons_self hgiven
      · have hget := ha.get_set_ne slot₀ hs₀ slot hs hkey a p.state
        have hmem : slot.key ∈ slot₀.key :: p.given ↔ slot.key ∈ p.given := by
          rw [List.mem_cons, or_iff_right (Ne.symm hkey)]
        have hslot := ih slot hs
        rw [hget, hmem] at hslot
        rw [given_cons_ne hkey]
        exact hslot

theorem others_of_collects {p p' : Record.Progress σ} {es : List (String × List UInt8)}
    (h : Collects slots p es p') : OthersAreValues slots es := by
  induction h with
  | nil => simp [OthersAreValues]
  | cons h t ih =>
    cases h with
    | other hk hv => exact List.forall_mem_cons.mpr ⟨fun _ => hv, ih⟩
    | field hs hn hv => exact List.forall_mem_cons.mpr ⟨fun h => absurd rfl (h _ hs), ih⟩

/-- Entries lead to the state that each slot finds in them. -/
theorem exists_collects (ha : Apart slots) {p : Record.Progress σ} {s' : σ}
    {es : List (String × List UInt8)} (ho : OthersAreValues slots es)
    (h : ∀ slot ∈ slots, (given es slot.key = [] ∧ slot.get s' = slot.get p.state) ∨
      (slot.key ∉ p.given ∧ ∃ x, given es slot.key = [x] ∧ slot.text (slot.get s') x)) :
    ∃ p', Collects slots p es p' ∧ p'.state = s' := by
  induction es generalizing p with
  | nil =>
    refine ⟨p, .nil, ha.ext _ _ fun slot hs => ?_⟩
    rcases h slot hs with ⟨-, hget⟩ | ⟨-, x, hx, -⟩
    · exact hget.symm
    · simp [given] at hx
  | cons e es ih =>
    obtain ⟨key, v⟩ := e
    obtain ⟨ho', hos⟩ := List.forall_mem_cons.mp ho
    by_cases hk : ∃ slot ∈ slots, slot.key = key
    · obtain ⟨slot, hs, rfl⟩ := hk
      have hslot := h slot hs
      rw [given_cons_self] at hslot
      rcases hslot with ⟨hnil, -⟩ | ⟨hn, x, hx, hv⟩
      · simp at hnil
      obtain ⟨rfl, hnone⟩ := List.cons.inj hx
      -- The state takes the value that it has in the end, so this slot is never touched again.
      have hrest : ∀ slot' ∈ slots,
          (given es slot'.key = [] ∧
            slot'.get s' = slot'.get (slot.set (slot.get s') p.state)) ∨
          (slot'.key ∉ slot.key :: p.given ∧
            ∃ x, given es slot'.key = [x] ∧ slot'.text (slot'.get s') x) := by
        intro slot' hs'
        by_cases hkey : slot.key = slot'.key
        · obtain rfl := ha.eq_of_key hs hs' hkey
          exact .inl ⟨hnone, (ha.get_set slot hs _ _).symm⟩
        · have hget := ha.get_set_ne slot hs slot' hs' hkey (slot.get s') p.state
          have hslot' := h slot' hs'
          rw [given_cons_ne hkey] at hslot'
          rw [hget, List.mem_cons, or_iff_right (Ne.symm hkey)]
          exact hslot'
      obtain ⟨p', hc, hp'⟩ := ih
        (p := { given := slot.key :: p.given, state := slot.set (slot.get s') p.state }) hos hrest
      exact ⟨p', .cons (.field hs hn hv) hc, hp'⟩
    · have hne : ∀ slot ∈ slots, slot.key ≠ key := fun slot hs he => hk ⟨slot, hs, he⟩
      have hrest : ∀ slot ∈ slots, (given es slot.key = [] ∧ slot.get s' = slot.get p.state) ∨
          (slot.key ∉ p.given ∧ ∃ x, given es slot.key = [x] ∧ slot.text (slot.get s') x) := by
        intro slot hs
        have hslot := h slot hs
        rwa [given_cons_ne (hne slot hs).symm] at hslot
      obtain ⟨p', hc, hp'⟩ := ih hos hrest
      exact ⟨p', .cons (.other hne (ho' hne)) hc, hp'⟩

/-- From an object a record is read by what each slot finds in it, whatever the order. -/
theorem collects_iff (ha : Apart slots) {s s' : σ} {es : List (String × List UInt8)} :
    (∃ p, Collects slots { given := [], state := s } es p ∧
        (∀ slot ∈ slots, slot.absence = .never → slot.key ∈ p.given) ∧ p.state = s') ↔
      OthersAreValues slots es ∧ ∀ slot ∈ slots, slot.In es s s' := by
  constructor
  · rintro ⟨p, hc, hreq, rfl⟩
    refine ⟨others_of_collects hc, fun slot hs => ?_⟩
    rcases slot_of_collects ha hc slot hs with ⟨hnone, hget, hgiven⟩ | ⟨-, -, x, hx, hv⟩
    · refine .inl ⟨hnone, fun hnever => ?_, hget⟩
      have hmem := hgiven.mp (hreq slot hs hnever)
      simp at hmem
    · exact .inr ⟨x, hx, hv⟩
  · rintro ⟨ho, h⟩
    have hall : ∀ slot ∈ slots, (given es slot.key = [] ∧ slot.get s' = slot.get s) ∨
        (slot.key ∉ [] ∧ ∃ x, given es slot.key = [x] ∧ slot.text (slot.get s') x) := by
      intro slot hs
      rcases h slot hs with ⟨hnone, -, hget⟩ | hx
      · exact .inl ⟨hnone, hget⟩
      · exact .inr ⟨by simp, hx⟩
    obtain ⟨p, hc, hp⟩ := exists_collects ha (p := { given := [], state := s }) ho hall
    refine ⟨p, hc, fun slot hs hnever => ?_, hp⟩
    rcases slot_of_collects ha hc slot hs with ⟨hnone, -, -⟩ | ⟨-, hmem, -⟩
    · rcases h slot hs with ⟨-, hne, -⟩ | ⟨x, hx, -⟩
      · exact absurd hnever hne
      · rw [hnone] at hx
        simp at hx
    · exact hmem

end Collects

/-! ## Objects -/

/-- The fields of a record and what describes them. -/
abbrev Record.Filled (r : Record ε σ) (slots : List (Slot σ)) : Prop :=
  List.Forall₂ Field.Fills r.fields slots

/-- The field of a key is that of its slot. -/
theorem field?_cases {fields : List (Field ε σ)} {slots : List (Slot σ)}
    (h : List.Forall₂ Field.Fills fields slots) (key : String) :
    (fields.find? (·.key == key) = none ∧ ∀ slot ∈ slots, slot.key ≠ key) ∨
      ∃ f slot, fields.find? (·.key == key) = some f ∧ slot ∈ slots ∧ slot.key = key ∧
        f.Fills slot := by
  induction h with
  | nil => exact .inl ⟨rfl, by simp⟩
  | @cons f slot fields slots hf h ih =>
    by_cases hkey : f.key = key
    · refine .inr ⟨f, slot, ?_, List.mem_cons_self, hf.key.symm.trans hkey, hf⟩
      rw [List.find?_cons_of_pos (by simpa using hkey)]
    · rw [List.find?_cons_of_neg (by simpa using hkey)]
      rcases ih with ⟨hnone, hne⟩ | ⟨f', slot', hsome, hs, hk, hf'⟩
      · refine .inl ⟨hnone, List.forall_mem_cons.mpr ⟨?_, hne⟩⟩
        rw [← hf.key]
        exact hkey
      · exact .inr ⟨f', slot', hsome, List.mem_cons_of_mem _ hs, hk, hf'⟩

/-- What reading an entry does, from the quote of its key on. -/
def EntryLeads (r : Record ε σ) (p : Record.Progress σ) (bs : List UInt8)
    (p' : Record.Progress σ) (m : List UInt8) : Prop :=
  ∃ key l t, CharsText key.toList l ∧ (∃ w, Blank w ∧
      bs.tail = l ++ '"'.toUInt8 :: (w ++ ':'.toUInt8 :: t)) ∧
    match r.field? key with
    | none => (Decoder.skip : Decoder ε Unit).graph t () m ∧ p' = p
    | some f => key ∉ p.given ∧ ∃ s', (f.read p.state).graph t s' m ∧
        p' = { given := key :: p.given, state := s' }

namespace Decoder

theorem yields_entry {r : Record ε σ} {slots : List (Slot σ)} (h : r.Filled slots)
    (p : Record.Progress σ) : Yields (r.entry p) (EntryLeads r p) := by
  refine (yields_eat_bind (yields_text.bind (M := fun key m p' m' => ∃ w t, Blank w ∧
    m = w ++ ':'.toUInt8 :: t ∧
    match r.field? key with
    | none => (skip : Decoder ε Unit).graph t () m' ∧ p' = p
    | some f => key ∉ p.given ∧ ∃ s', (f.read p.state).graph t s' m' ∧
        p' = { given := key :: p.given, state := s' }) fun key => ?_)).congr ?_
  · rcases field?_cases h key with ⟨hf, -⟩ | ⟨f, slot, hf, -, -, hfills⟩
    · have hf' : r.field? key = none := hf
      rw [hf']
      refine (yields_colon.bind fun _ => reads_skip.yields.bind_pure).congr fun m p' m' => ?_
      constructor
      · rintro ⟨w, t, hw, rfl, hs, rfl⟩
        exact ⟨(), t, ⟨w, hw, rfl⟩, (), rfl, hs⟩
      · rintro ⟨_, t, ⟨w, hw, rfl⟩, _, rfl, hs⟩
        exact ⟨w, t, hw, rfl, hs, rfl⟩
    · have hf' : r.field? key = some f := hf
      rw [hf']
      by_cases hmem : key ∈ p.given
      · simp only [hmem, if_true]
        exact (refuses_failAnywhere _).congr fun _ _ _ => by simp
      · show Yields (if key ∈ p.given then _ else _) _
        rw [if_neg hmem]
        refine (yields_colon.bind fun _ => (hfills.reads p.state).yields.bind_pure).congr
          fun m p' m' => ?_
        constructor
        · rintro ⟨w, t, hw, rfl, -, s', hs, rfl⟩
          exact ⟨(), t, ⟨w, hw, rfl⟩, s', rfl, hs⟩
        · rintro ⟨_, t, ⟨w, hw, rfl⟩, s', rfl, hs⟩
          exact ⟨w, t, hw, rfl, hmem, s', hs, rfl⟩
  · intro bs p' m'
    constructor
    · rintro ⟨key, l, t, hl, ⟨w, hw, hbs⟩, hm⟩
      exact ⟨key, _, ⟨l, hl, hbs⟩, w, t, hw, rfl, hm⟩
    · rintro ⟨key, _, ⟨l, hl, hbs⟩, w, t, hw, rfl, hm⟩
      exact ⟨key, l, t, hl, ⟨w, hw, hbs⟩, hm⟩

end Decoder

/-- Reading an entry takes what it gives. -/
theorem spells_entry {r : Record ε σ} {slots : List (Slot σ)} (h : r.Filled slots)
    (ha : Apart slots) :
    Spells (· = '"'.toUInt8) (EntryLeads r) fun p x p' =>
      ∃ e, NamedEntry e x ∧ Takes slots p e p' := by
  intro p p'
  refine ⟨?_, ?_, ?_⟩
  · rintro x ⟨⟨key, v⟩, ⟨l, -, w, w', -, -, rfl⟩, -⟩
    exact ⟨_, _, rfl, by decide, rfl⟩
  · rintro b t m - hb ⟨key, l, t', hl, ⟨w, hw, ht⟩, hm⟩
    rw [List.tail_cons] at ht
    have htext : ∀ {w' v : List UInt8}, t' = w' ++ (v ++ m) →
        b :: t = quote l ++ (w ++ ':'.toUInt8 :: (w' ++ v)) ++ m := by
      intro w' v ht'
      rw [hb, ht, ht', quote]
      simp
    rcases field?_cases h key with ⟨hf, hne⟩ | ⟨f, slot, hf, hs, rfl, hfills⟩
    · have hf' : r.field? key = none := hf
      rw [hf'] at hm
      obtain ⟨hskip, rfl⟩ := hm
      obtain ⟨w', v, hw', hv, ht'⟩ := Decoder.reads_skip.sound hskip
      exact ⟨_, ⟨(key, v), ⟨l, hl, w, w', hw, hw', rfl⟩, .other hne hv⟩, htext ht'⟩
    · have hf' : r.field? slot.key = some f := hf
      rw [hf'] at hm
      obtain ⟨hn, s', hread, rfl⟩ := hm
      obtain ⟨w', v, hw', ⟨a, hv, rfl⟩, ht'⟩ := (hfills.reads p.state).sound hread
      exact ⟨_, ⟨(slot.key, v), ⟨l, hl, w, w', hw, hw', rfl⟩, .field hs hn hv⟩, htext ht'⟩
  · rintro x m ⟨⟨key, v⟩, ⟨l, hl, w, w', hw, hw', rfl⟩, ht⟩ hm
    refine ⟨key, l, w' ++ (v ++ m), hl, ⟨w, hw, by simp [quote]⟩, ?_⟩
    cases ht with
    | other hne hv =>
      rcases field?_cases h key with ⟨hf, -⟩ | ⟨f, slot, -, hs, hkey, -⟩
      · have hf' : r.field? key = none := hf
        rw [hf']
        exact ⟨Decoder.reads_skip.complete hw' hv hm, rfl⟩
      · exact absurd hkey (hne slot hs)
    | @field slot a _ hs hn hv =>
      rcases field?_cases h slot.key with ⟨-, hne⟩ | ⟨f, slot', hf, hs', hkey, hfills⟩
      · exact absurd rfl (hne slot hs)
      · -- No two slots have one key, so the field found is that of the slot.
        obtain rfl := ha.eq_of_key hs' hs hkey
        have hf' : r.field? slot'.key = some f := hf
        rw [hf']
        exact ⟨hn, _, (hfills.reads p.state).complete hw' ⟨a, hv, rfl⟩ hm, rfl⟩

/-- No field that must be given is missing. -/
theorem find?_missing_eq_none_iff {fields : List (Field ε σ)} {slots : List (Slot σ)}
    (h : List.Forall₂ Field.Fills fields slots) (given : List String) :
    (fields.find? fun f => f.absence == .never && f.key ∉ given) = none ↔
      ∀ slot ∈ slots, slot.absence = .never → slot.key ∈ given := by
  induction h with
  | nil => simp
  | @cons f slot fields slots hf h ih =>
    rw [List.forall_mem_cons, ← ih, ← hf.key, ← hf.absence, List.find?_cons]
    split
    · rename_i hmiss
      simp only [Bool.and_eq_true, beq_iff_eq, decide_eq_true_eq] at hmiss
      simp only [reduceCtorEq, false_iff]
      rintro ⟨hgiven, -⟩
      exact hmiss.2 (hgiven hmiss.1)
    · rename_i hmiss
      simp only [Bool.and_eq_false_imp, beq_iff_eq, decide_eq_false_iff_not, not_not] at hmiss
      exact (and_iff_right hmiss).symm

namespace Decoder

theorem yields_fromObject {r : Record ε σ} {slots : List (Slot σ)} (h : r.Filled slots) (s : σ) :
    Yields (r.fromObject s) fun bs s' m => ∃ p, p.state = s' ∧
      (∀ slot ∈ slots, slot.absence = .never → slot.key ∈ p.given) ∧
      Loop '\x7d'.toUInt8 (· = '"'.toUInt8) (EntryLeads r) { given := [], state := s } bs p m := by
  refine ((yields_entries (yields_entry h) _).bind (M := fun p m s' m' => p.state = s' ∧
    (∀ slot ∈ slots, slot.absence = .never → slot.key ∈ p.given) ∧ m' = m) fun p => ?_).congr ?_
  · have hnone := find?_missing_eq_none_iff h p.given
    cases hf : r.fields.find? fun f => f.absence == .never && f.key ∉ p.given with
    | none =>
      have hreq := hnone.mp hf
      exact (yields_pure _).congr fun _ _ _ => and_congr eq_comm (and_iff_right hreq)
    | some f =>
      have hreq : ¬∀ slot ∈ slots, slot.absence = .never → slot.key ∈ p.given := by
        intro hall
        rw [hnone.mpr hall] at hf
        simp at hf
      exact (refuses_failAnywhere _).congr fun _ _ _ => by simp [hreq]
  · intro bs s' m
    constructor
    · rintro ⟨p, hp, hreq, hloop⟩
      exact ⟨p, m, hloop, hp, hreq, rfl⟩
    · rintro ⟨p, _, hloop, hp, hreq, rfl⟩
      exact ⟨p, hp, hreq, hloop⟩

end Decoder

/-- An object that stands for a record, from its first byte on. -/
theorem object_iff {r : Record ε σ} {slots : List (Slot σ)} (h : r.Filled slots)
    (ha : Apart slots) {s s' : σ} {b : UInt8} {t m' : List UInt8} :
    (b = '\x7b'.toUInt8 ∧ ∃ m, (∃ p, p.state = s' ∧
        (∀ slot ∈ slots, slot.absence = .never → slot.key ∈ p.given) ∧
        Loop '\x7d'.toUInt8 (· = '"'.toUInt8) (EntryLeads r) { given := [], state := s } t p m) ∧
      afterBlank m = '\x7d'.toUInt8 :: m') ↔
      ∃ x, (∃ es, (OthersAreValues slots es ∧ ∀ slot ∈ slots, slot.In es s s') ∧
        ObjectOf NamedEntry es x) ∧ b :: t = x ++ m' := by
  constructor
  · rintro ⟨hb, m, ⟨p, hp, hreq, hloop⟩, hm⟩
    obtain ⟨w₀, xs, u, w, hw₀, hxs, hu, hw, rfl⟩ :=
      (loop_iff closes_curly (spells_entry h ha)).mp ⟨m, hloop, hm⟩
    obtain ⟨es, hes, hc⟩ := run_iff_forall₂.mp hxs
    obtain ⟨x, hx, he⟩ := enclosed_append_iff.mpr ⟨hb, w₀, u, w, hw₀, hu, hw, rfl⟩
    exact ⟨x, ⟨es, (collects_iff ha).mp ⟨p, hc, hreq, hp⟩, xs, hes, hx⟩, he⟩
  · rintro ⟨x, ⟨es, hin, xs, hes, hx⟩, he⟩
    obtain ⟨p, hc, hreq, hp⟩ := (collects_iff ha).mpr hin
    obtain ⟨hb, w₀, u, w, hw₀, hu, hw, rfl⟩ := enclosed_append_iff.mp ⟨x, hx, he⟩
    obtain ⟨m, hloop, hm⟩ := (loop_iff closes_curly (spells_entry h ha)).mpr
      ⟨w₀, xs, u, w, hw₀, run_iff_forall₂.mpr ⟨es, hes, hc⟩, hu, hw, rfl⟩
    exact ⟨hb, m, ⟨p, hp, hreq, hloop⟩, hm⟩

/-! ## Sequences -/

/-- What reading fields from the elements of a sequence does. -/
def ElementsLead : List (Field ε σ) → Bool → σ → List UInt8 → σ → List UInt8 → Prop
  | [], _, s, bs, s', m => s' = s ∧ m = bs
  | f :: fs, first, s, bs, s', m =>
    (∃ s₁ m₁, (∃ m₀, Decoder.Continues ']'.toUInt8 (· ≠ ']'.toUInt8) first bs true m₀ ∧
        (f.read s).graph m₀ s₁ m₁) ∧ ElementsLead fs false s₁ m₁ s' m) ∨
      ∃ m₁, Decoder.Continues ']'.toUInt8 (· ≠ ']'.toUInt8) first bs false m₁ ∧
        f.absence = .anywhere ∧ ElementsLead fs false s m₁ s' m

namespace Decoder

theorem yields_fromElements {r : Record ε σ} {fields : List (Field ε σ)} {slots : List (Slot σ)}
    (h : List.Forall₂ Field.Fills fields slots) (read : Nat) (s : σ) :
    Yields (r.fromElements fields read s) (ElementsLead fields (read == 0) s) := by
  induction h generalizing read s with
  | nil => exact yields_pure s
  | @cons f slot fields slots hf h ih =>
    refine ((yields_nextElement (read == 0)).bind_bool (F := fun m₀ s' m =>
      f.absence = .anywhere ∧ ElementsLead fields false s m₀ s' m) ?_
      ((hf.reads s).yields.bind fun s₁ => ih (read + 1) s₁)).congr ?_
    · simp only [Bool.false_eq_true, if_false]
      by_cases ha : f.absence = .anywhere
      · rw [if_pos ha]
        exact (ih (read + 1) s).congr fun _ _ _ => by simp [ha]
      · rw [if_neg ha]
        exact (refuses_failAnywhere _).congr fun _ _ _ => by simp [ha]
    · intro bs s' m
      constructor
      · rintro (⟨s₁, m₁, ⟨m₀, hgo, hread⟩, ht⟩ | ⟨m₁, hgo, ha, ht⟩)
        · exact .inr ⟨m₀, hgo, s₁, m₁, hread, ht⟩
        · exact .inl ⟨m₁, hgo, ha, ht⟩
      · rintro (⟨m₁, hgo, ha, ht⟩ | ⟨m₀, hgo, s₁, m₁, hread, ht⟩)
        · exact .inr ⟨m₁, hgo, ha, ht⟩
        · exact .inl ⟨s₁, m₁, ⟨m₀, hgo, hread⟩, ht⟩

end Decoder

/-- No item follows where a sequence is closed. -/
theorem items_at_close {xs : List (List UInt8)} {u w t r : List UInt8} (hu : MoreItems xs u)
    (hw : Blank w) (h : ']'.toUInt8 :: t = u ++ (w ++ ']'.toUInt8 :: r)) : xs = [] ∧ t = r := by
  have hhead : ∀ {v : List UInt8} {b : UInt8} {y : List UInt8}, Blank v →
      ']'.toUInt8 :: t = v ++ b :: y → b = ']'.toUInt8 ∧ y = t := by
    intro v b y hv he
    cases v with
    | nil => exact ⟨(List.cons.inj he).1.symm, (List.cons.inj he).2.symm⟩
    | cons c v =>
      have hc := hv.head
      rw [← (List.cons.inj he).1] at hc
      exact absurd hc (by decide)
  cases hu with
  | nil => exact ⟨rfl, (hhead hw h).2.symm⟩
  | cons hv hv' hu =>
    rw [List.append_assoc] at h
    exact absurd (hhead hv h).1 (by decide)

section Elements

variable {fields : List (Field ε σ)} {slots : List (Slot σ)}

theorem elementsLead_false_iff (h : List.Forall₂ Field.Fills fields slots) {s s' : σ}
    {bs r : List UInt8} :
    (∃ m, ElementsLead fields false s bs s' m ∧ afterBlank m = ']'.toUInt8 :: r) ↔
      ∃ xs u w, Positional slots s xs s' ∧ MoreItems xs u ∧ Blank w ∧
        bs = u ++ (w ++ ']'.toUInt8 :: r) := by
  have hd : Delimited (']'.toUInt8 :: r) := delimited_cons (.inr (.inr (.inl rfl)))
  induction h generalizing s bs with
  | nil =>
    constructor
    · rintro ⟨_, ⟨rfl, rfl⟩, hm⟩
      obtain ⟨-, w, hw, rfl⟩ := afterBlank_eq_cons_iff.mp hm
      exact ⟨[], [], w, .nil, .nil, hw, rfl⟩
    · rintro ⟨xs, u, w, hxs, hu, hw, rfl⟩
      cases hxs
      cases hu
      exact ⟨_, ⟨rfl, rfl⟩, afterBlank_close closes_square hw r⟩
  | @cons f slot fields slots hf h ih =>
    constructor
    · rintro ⟨m, ⟨s₁, m₁, hitem, ht⟩ | ⟨m₁, hstop, ha, ht⟩, hm⟩
      · obtain ⟨xs, u, w, hxs, hu, hw, rfl⟩ := ih.mp ⟨m, ht, hm⟩
        obtain ⟨w₁, w₂, x, hw₁, hw₂, ⟨a, hx, rfl⟩, rfl⟩ :=
          (((hf.reads s).item s₁).more_iff _ (delimited_more hu hw hd)).mp hitem
        exact ⟨x :: xs, _, w, .cons hx hxs, .cons hw₁ hw₂ hu, hw, by simp⟩
      · -- The bracket is not used up, so the fields after an absent one are absent as well.
        obtain ⟨w, t, hw, rfl, rfl⟩ := (continues_stop_iff closes_square).mp hstop
        obtain ⟨xs, u, w', hxs, hu, hw', he⟩ := ih.mp ⟨m, ht, hm⟩
        obtain ⟨rfl, rfl⟩ := items_at_close hu hw' he
        exact ⟨[], [], w, .absent (hf.absence ▸ ha) hxs, .nil, hw, rfl⟩
    · rintro ⟨xs, u, w, hxs, hu, hw, rfl⟩
      cases hxs with
      | @cons _ _ a x xs _ _ hx hxs =>
        cases hu with
        | @cons _ u w₁ w₂ _ hw₁ hw₂ hu =>
          obtain ⟨m, ht, hm⟩ := ih.mpr ⟨xs, u, w, hxs, hu, hw, rfl⟩
          have hitem := (((hf.reads s).item (slot.set a s)).more_iff ']'.toUInt8
            (delimited_more hu hw hd)).mpr ⟨w₁, w₂, x, hw₁, hw₂, ⟨a, hx, rfl⟩, rfl⟩
          refine ⟨m, .inl ⟨_, _, ?_, ht⟩, hm⟩
          simpa using hitem
      | absent ha hxs =>
        cases hu
        obtain ⟨m, ht, hm⟩ := ih.mpr ⟨[], [], [], hxs, .nil, .nil, rfl⟩
        exact ⟨m, .inr ⟨_, (continues_stop_iff closes_square).mpr ⟨w, r, hw, rfl, rfl⟩,
          hf.absence.trans ha, ht⟩, hm⟩

theorem elementsLead_true_iff (h : List.Forall₂ Field.Fills fields slots) {s s' : σ}
    {bs r : List UInt8} :
    (∃ m, ElementsLead fields true s bs s' m ∧ afterBlank m = ']'.toUInt8 :: r) ↔
      ∃ w₀ xs u w, Blank w₀ ∧ Positional slots s xs s' ∧ Items xs u ∧ Blank w ∧
        bs = w₀ ++ (u ++ (w ++ ']'.toUInt8 :: r)) := by
  have hd : Delimited (']'.toUInt8 :: r) := delimited_cons (.inr (.inr (.inl rfl)))
  cases h with
  | nil =>
    constructor
    · rintro ⟨_, ⟨rfl, rfl⟩, hm⟩
      obtain ⟨-, w, hw, rfl⟩ := afterBlank_eq_cons_iff.mp hm
      exact ⟨[], [], [], w, .nil, .nil, .nil, hw, rfl⟩
    · rintro ⟨w₀, xs, u, w, hw₀, hxs, hu, hw, rfl⟩
      cases hxs
      cases hu
      refine ⟨_, ⟨rfl, rfl⟩, ?_⟩
      rw [afterBlank_append hw₀]
      exact afterBlank_close closes_square hw r
  | @cons f slot fields slots hf h =>
    constructor
    · rintro ⟨m, ⟨s₁, m₁, hitem, ht⟩ | ⟨m₁, hstop, ha, ht⟩, hm⟩
      · obtain ⟨xs, u, w, hxs, hu, hw, rfl⟩ := (elementsLead_false_iff h).mp ⟨m, ht, hm⟩
        obtain ⟨w₀, x, hw₀, ⟨a, hx, rfl⟩, rfl⟩ :=
          (((hf.reads s).item s₁).first_iff _ (delimited_more hu hw hd)).mp hitem
        exact ⟨w₀, x :: xs, x ++ u, w, hw₀, .cons hx hxs, .cons hu, hw, by simp⟩
      · obtain ⟨w, t, hw, rfl, rfl⟩ := (continues_stop_iff closes_square).mp hstop
        obtain ⟨xs, u, w', hxs, hu, hw', he⟩ := (elementsLead_false_iff h).mp ⟨m, ht, hm⟩
        obtain ⟨rfl, rfl⟩ := items_at_close hu hw' he
        exact ⟨w, [], [], [], hw, .absent (hf.absence ▸ ha) hxs, .nil, .nil, rfl⟩
    · rintro ⟨w₀, xs, u, w, hw₀, hxs, hu, hw, rfl⟩
      cases hxs with
      | @cons _ _ a x xs _ _ hx hxs =>
        cases hu with
        | @cons _ u _ hu =>
          obtain ⟨m, ht, hm⟩ := (elementsLead_false_iff h).mpr ⟨xs, u, w, hxs, hu, hw, rfl⟩
          have hitem := (((hf.reads s).item (slot.set a s)).first_iff ']'.toUInt8
            (delimited_more hu hw hd)).mpr ⟨w₀, x, hw₀, ⟨a, hx, rfl⟩, rfl⟩
          refine ⟨m, .inl ⟨_, _, ?_, ht⟩, hm⟩
          rwa [List.append_assoc]
      | absent ha hxs =>
        cases hu
        obtain ⟨m, ht, hm⟩ := (elementsLead_false_iff h).mpr ⟨[], [], [], hxs, .nil, .nil, rfl⟩
        refine ⟨m, .inr ⟨_, (continues_stop_iff closes_square).mpr ?_, hf.absence.trans ha, ht⟩, hm⟩
        exact ⟨w₀ ++ w, r, hw₀.append hw, by simp, rfl⟩

end Elements

/-- A sequence that stands for a record, from its first byte on. -/
theorem positional_iff {fields : List (Field ε σ)} {slots : List (Slot σ)}
    (h : List.Forall₂ Field.Fills fields slots) {s s' : σ} {b : UInt8} {t m' : List UInt8} :
    (b = '['.toUInt8 ∧ ∃ m, ElementsLead fields true s t s' m ∧
        afterBlank m = ']'.toUInt8 :: m') ↔
      ∃ x, (∃ xs, Positional slots s xs s' ∧ Enclosed '['.toUInt8 ']'.toUInt8 xs x) ∧
        b :: t = x ++ m' := by
  rw [elementsLead_true_iff h]
  constructor
  · rintro ⟨hb, w₀, xs, u, w, hw₀, hxs, hu, hw, rfl⟩
    obtain ⟨x, hx, he⟩ := enclosed_append_iff.mpr ⟨hb, w₀, u, w, hw₀, hu, hw, rfl⟩
    exact ⟨x, ⟨xs, hxs, hx⟩, he⟩
  · rintro ⟨x, ⟨xs, hxs, hx⟩, he⟩
    obtain ⟨hb, w₀, u, w, hw₀, hu, hw, rfl⟩ := enclosed_append_iff.mp ⟨x, hx, he⟩
    exact ⟨hb, w₀, xs, u, w, hw₀, hxs, hu, hw, rfl⟩

/-! ## Records -/

theorem Enclosed.starts {first last : UInt8} {xs : List (List UInt8)} {x : List UInt8}
    (h : Enclosed first last xs x) (hb : isBlank first = false) (hc : first ≠ ']'.toUInt8) :
    Starts x := by
  obtain ⟨w, u, w', -, -, -, rfl⟩ := h
  exact ⟨_, _, rfl, hb, hc⟩

theorem RecordText.starts {slots : List (Slot σ)} {s s' : σ} {x : List UInt8}
    (h : RecordText slots s s' x) : Starts x := by
  rcases h with ⟨xs, -, hx⟩ | ⟨es, -, xs, -, hx⟩
  · exact hx.starts (by decide) (by decide)
  · exact hx.starts (by decide) (by decide)

/-- A record is read as its slots have it, from a sequence or from an object. -/
theorem reads_record {r : Record ε σ} {slots : List (Slot σ)} (h : r.Filled slots)
    (ha : Apart slots) (s : σ) : Decoder.Reads (r.decoder s) (RecordText slots s) := by
  refine Decoder.reads_value (M := fun b bs s' m' =>
    (b = '['.toUInt8 ∧ ∃ m, ElementsLead r.fields true s bs.tail s' m ∧
      afterBlank m = ']'.toUInt8 :: m') ∨
    (b = '\x7b'.toUInt8 ∧ ∃ m, (∃ p, p.state = s' ∧
        (∀ slot ∈ slots, slot.absence = .never → slot.key ∈ p.given) ∧
        Loop '\x7d'.toUInt8 (· = '"'.toUInt8) (EntryLeads r) { given := [], state := s } bs.tail p
          m) ∧ afterBlank m = '\x7d'.toUInt8 :: m')) (fun b => ?_)
    (fun _ _ hx => hx.starts) ?_ ?_
  · have hne : '['.toUInt8 ≠ '\x7b'.toUInt8 := by
      decide
    by_cases hb : b = '['.toUInt8
    · rw [if_pos hb]
      refine (Decoder.yields_eat_bind ((Decoder.yields_fromElements h 0 s).closing
        Decoder.yields_endSequence)).congr fun _ _ _ => ?_
      simp [hb, hne]
    rw [if_neg hb]
    by_cases hc : b = '\x7b'.toUInt8
    · rw [if_pos hc]
      refine (Decoder.yields_eat_bind ((Decoder.yields_fromObject h s).closing
        Decoder.yields_endObject)).congr fun _ _ _ => ?_
      simp [hc, hne.symm]
    · rw [if_neg hc]
      exact (Decoder.refuses_mismatch _ _).congr fun _ _ _ => by simp [hb, hc]
  · rintro b t s' m' (hm | hm)
    · obtain ⟨x, hx, he⟩ := (positional_iff h).mp hm
      exact ⟨x, .inl hx, he⟩
    · obtain ⟨x, hx, he⟩ := (object_iff h ha).mp hm
      exact ⟨x, .inr hx, he⟩
  · rintro b t s' m' (hx | hx) -
    · exact .inl ((positional_iff h).mpr ⟨_, hx, rfl⟩)
    · exact .inr ((object_iff h ha).mpr ⟨_, hx, rfl⟩)

end Findings.Json
