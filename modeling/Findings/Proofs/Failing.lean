import Findings.Proofs.Records

/-!
# What a decoder fails with

A fault inside a value is the fault of all that is read around it: what was read before does not
change it, and what is read afterwards, to find the end of a container, does not either. So the
first item that a container's decoder refuses decides with what cause the container is refused.

* `Fails d bs C` says that `d` fails for a cause in `C` on the bytes `bs`, wherever they stand.
* `Rejects d x C` says that `d` fails for a cause in `C` on the value `x`, whatever follows it.
* `Judges d P x problem` says that `d` reads from `x` a value of the language `P`, or that `problem`
  is what it refuses `x` for.

Main statement: `judges_sequence`.
-/

namespace Findings.Json

variable {ε α β σ : Type}

namespace Decoder

/-- On the bytes `bs`, and unless the stream breaks off, `d` fails for a cause in `C`. -/
def Fails (d : Decoder ε α) (bs : List UInt8) (C : Cause ε → Prop) : Prop :=
  ∀ c : Cursor, c.rest = bs → c.failure = none → ∃ f c', d.run c = .fail f c' ∧ C f.cause

variable {d : Decoder ε α} {bs m r : List UInt8} {C : Cause ε → Prop}

theorem fails_failAnywhere {cause : Cause ε} (h : C cause) (bs : List UInt8) :
    Fails (failAnywhere cause : Decoder ε α) bs C :=
  fun _ _ _ => ⟨_, _, rfl, h⟩

theorem fails_failHere {cause : Cause ε} (h : C cause) (bs : List UInt8) :
    Fails (failHere cause : Decoder ε α) bs C :=
  fun _ _ _ => ⟨_, _, rfl, h⟩

/-- Where a decoder yields nothing, it fails. -/
theorem Yields.fails {L : List UInt8 → α → List UInt8 → Prop} (hd : Yields d L)
    (h : ∀ a r, ¬L bs a r) : Fails d bs fun _ => True := by
  rintro c rfl -
  cases hr : d.run c with
  | ok a c' => exact absurd (hd.sound hr).1 (h a c'.rest)
  | fail f c' => exact ⟨f, c', rfl, trivial⟩

/-- Nothing is read after a fault. -/
theorem Fails.bind (h : Fails d bs C) (k : α → Decoder ε β) : Fails (d >>= k) bs C := by
  intro c hrest hc
  obtain ⟨f, c', hr, hf⟩ := h c hrest hc
  exact ⟨f, c', run_bind_fail hr, hf⟩

/-- What is read before a fault does not bear on it. -/
theorem Yields.bind_fails {L : List UInt8 → α → List UInt8 → Prop} (hd : Yields d L) {a : α}
    (hl : L bs a m) {k : α → Decoder ε β} (h : Fails (k a) m C) : Fails (d >>= k) bs C := by
  rintro c rfl hc
  obtain ⟨c₁, hr, hrest, hc₁⟩ := hd.run hc hl
  obtain ⟨f, c', hr', hf⟩ := h c₁ hrest hc₁
  exact ⟨f, c', (run_bind_ok hr).trans hr', hf⟩

theorem Fails.placed (h : Fails d bs C) : Fails (placed d) bs C := by
  intro c hrest hc
  obtain ⟨f, c', hr, hf⟩ := h c hrest hc
  refine ⟨f.placeAt c'.here, c', ?_, hf⟩
  simp [Decoder.placed, hr]

/-- The end of a container is looked for after a fault, but not told about. -/
theorem Fails.closing (h : Fails d bs C) (close : Decoder ε Unit) :
    Fails (closing d close) bs C := by
  intro c hrest hc
  obtain ⟨f, c', hr, hf⟩ := h c hrest hc
  refine ⟨f, (close.run c').cursor, ?_, hf⟩
  simp [Decoder.closing, hr]

theorem Fails.iterate {round : σ → Decoder ε (Round σ β)} {s : σ} (h : Fails (round s) bs C)
    (advances : Advances round) : Fails (iterate round advances s) bs C := by
  intro c hrest hc
  obtain ⟨f, c', hr, hf⟩ := h c hrest hc
  exact ⟨f, c', iterateFrom_fail hr, hf⟩

theorem fails_iterate_again {round : σ → Decoder ε (Round σ β)} {advances : Advances round}
    {R : List UInt8 → Round σ β → List UInt8 → Prop} {s s' : σ} (hround : Yields (round s) R)
    (hagain : R bs (.again s') m) (h : Fails (iterate round advances s') m C) :
    Fails (iterate round advances s) bs C := by
  rintro c rfl hc
  obtain ⟨c₁, hr, hrest, hc₁⟩ := hround.run hc hagain
  obtain ⟨f, c', hr', hf⟩ := h c₁ hrest hc₁
  exact ⟨f, c', (iterateFrom_again hr).trans hr', hf⟩

/-! ## Items -/

section Items

variable {close : UInt8} {opens : UInt8 → Prop} {more : Decoder ε Bool} {leads : Leads more}
  {body : σ → Decoder ε σ} {B : σ → List UInt8 → σ → List UInt8 → Prop}
  {Q : σ → List UInt8 → σ → Prop} {s s' : σ} {xs ys : List (List UInt8)} {y u w : List UInt8}

/-- A further item at which the body fails. -/
theorem fails_whileNext (hmore : Yields more (Continues close opens false))
    (hbody : ∀ s, Yields (body s) (B s)) (hs : Spells opens B Q) (hrun : Run Q s xs s')
    (hu : MoreItems (xs ++ y :: ys) u) (hr : Delimited r)
    (hstarts : ∃ b t, y = b :: t ∧ isBlank b = false ∧ opens b)
    (hy : ∀ r, Delimited r → Fails (body s') (y ++ r) C) :
    Fails (whileNext more leads body s) (u ++ r) C := by
  induction hrun generalizing u with
  | nil =>
    cases hu with
    | @cons _ u v v' _ hv hv' hu =>
      have hd : Delimited (u ++ r) := delimited_more hu .nil hr
      have hnext : Continues close opens false (v ++ ','.toUInt8 :: (v' ++ (y ++ u)) ++ r) true
          (y ++ (u ++ r)) := by
        simpa using continues_more hv hv' hstarts (u ++ r)
      exact (hmore.bind_fails hnext ((hy _ hd).bind _)).iterate _
  | @cons s s₁ _ x xs hx _ ih =>
    cases hu with
    | @cons _ u v v' _ hv hv' hu =>
      have hd : Delimited (u ++ r) := delimited_more hu .nil hr
      obtain ⟨m, hnext, hb⟩ := ((hs s s₁).more_iff close hd).mpr ⟨v, v', x, hv, hv', hx, rfl⟩
      have hround : Yields (whileRound more body s) _ :=
        hmore.bind_bool (yields_pure (Round.done s)) (hbody s).bind_pure
      refine fails_iterate_again hround (.inr ⟨m, ?_, s₁, rfl, hb⟩) (ih hu hy)
      simpa using hnext

/-- An item at which the body fails: the loop begins, and fails. -/
theorem fails_items (leads : Leads more) (hmore : Yields more (Continues close opens false))
    (hbody : ∀ s, Yields (body s) (B s)) (hs : Spells opens B Q) (hrun : Run Q s xs s')
    (hw : Blank w) (hu : Items (xs ++ y :: ys) u) (hr : Delimited r)
    (hstarts : ∃ b t, y = b :: t ∧ isBlank b = false ∧ opens b)
    (hy : ∀ r, Delimited r → Fails (body s') (y ++ r) C) :
    ∃ m, Continues close opens true (w ++ (u ++ r)) true m ∧
      Fails (body s >>= whileNext more leads body) m C := by
  cases hrun with
  | nil =>
    cases hu with
    | @cons _ u _ hu =>
      have hd : Delimited (u ++ r) := delimited_more hu .nil hr
      have hnext : Continues close opens true (w ++ (y ++ u ++ r)) true (y ++ (u ++ r)) := by
        rw [List.append_assoc]
        exact continues_first hw hstarts (u ++ r)
      exact ⟨_, hnext, (hy _ hd).bind _⟩
  | @cons _ s₁ _ x xs hx hrun =>
    cases hu with
    | @cons _ u _ hu =>
      have hd : Delimited (u ++ r) := delimited_more hu .nil hr
      obtain ⟨m, hnext, hb⟩ := ((hs s s₁).first_iff close hd).mpr ⟨w, x, hw, hx, rfl⟩
      refine ⟨m, ?_, (hbody s).bind_fails hb ?_⟩
      · simpa using hnext
      · exact fails_whileNext hmore hbody hs hrun hu hr hstarts hy

theorem fails_entries {entry : σ → Decoder ε σ} (hentry : ∀ s, Yields (entry s) (B s))
    (hs : Spells (· = '"'.toUInt8) B Q) (hrun : Run Q s xs s') (hw : Blank w)
    (hu : Items (xs ++ y :: ys) u) (hr : Delimited r)
    (hstarts : ∃ b t, y = b :: t ∧ isBlank b = false ∧ b = '"'.toUInt8)
    (hy : ∀ r, Delimited r → Fails (entry s') (y ++ r) C) :
    Fails (entries entry s) (w ++ (u ++ r)) C := by
  obtain ⟨m, hnext, hm⟩ :=
    fails_items leads_nextKey (yields_nextKey false) hentry hs hrun hw hu hr hstarts hy
  exact (yields_nextKey true).bind_fails hnext hm

end Items

/-! ## Values -/

/-- The value `x` is refused for a cause in `C`, whatever follows it. -/
structure Rejects (d : Decoder ε α) (x : List UInt8) (C : Cause ε → Prop) : Prop where
  starts : Starts x
  fails : ∀ w r, Blank w → Delimited r → Fails d (w ++ (x ++ r)) C

theorem Rejects.bind {x : List UInt8} (h : Rejects d x C) (k : α → Decoder ε β) :
    Rejects (d >>= k) x C where
  starts := h.starts
  fails w r hw hr := (h.fails w r hw hr).bind k

/-- A value that is read and then refused. -/
theorem Reads.bind_rejects {P : α → List UInt8 → Prop} (h : Reads d P) {a : α} {x : List UInt8}
    (hx : P a x) {k : α → Decoder ε β} (hk : ∀ bs, Fails (k a) bs C) :
    Rejects (d >>= k) x C where
  starts := h.starts hx
  fails _ _ hw hr := h.yields.bind_fails (h.complete hw hx hr) (hk _)

theorem rejects_value {body : UInt8 → Decoder ε α} {b : UInt8} {t : List UInt8}
    (hstarts : Starts (b :: t)) (h : ∀ r, Delimited r → Fails (body b) (b :: (t ++ r)) C) :
    Rejects (value body) (b :: t) C where
  starts := hstarts
  fails w r hw hr := by
    refine yields_blank.bind_fails ⟨rfl, rfl⟩ ?_
    rw [afterBlank_of_starts hw hstarts]
    exact (h r hr).placed

/-- A value that is refused is refused where it may be null as well. -/
theorem Rejects.optional {x : List UInt8} (h : Rejects d x C)
    (hnull : x.head? ≠ some 'n'.toUInt8) : Rejects (optional d) x C where
  starts := h.starts
  fails w r hw hr := by
    refine yields_blank.bind_fails ⟨rfl, rfl⟩ ?_
    rw [afterBlank_of_starts hw h.starts]
    have hne : (x ++ r).head? ≠ some 'n'.toUInt8 := by
      obtain ⟨b, t, rfl, -, -⟩ := h.starts
      exact hnull
    rw [if_neg hne]
    exact (h.fails [] r .nil hr).bind _

theorem fails_eat_bind {b : UInt8} (h : Fails d bs C) :
    Fails (eat >>= fun _ => d) (b :: bs) C :=
  yields_eat.bind_fails (a := ()) rfl h

/-- A container is refused for a fault between its brackets. -/
theorem rejects_enclosed {body : UInt8 → Decoder ε α} {close : Decoder ε Unit} {first last : UInt8}
    {xs : List (List UInt8)} {x : List UInt8} (hx : Enclosed first last xs x)
    (hfirst : isBlank first = false ∧ first ≠ ']'.toUInt8)
    (hlast : last = ']'.toUInt8 ∨ last = '\x7d'.toUInt8)
    (hbody : body first = (do eat; closing d close))
    (h : ∀ w u r, Blank w → Items xs u → Delimited r → Fails d (w ++ (u ++ r)) C) :
    Rejects (value body) x C := by
  have hstarts := hx.starts hfirst.1 hfirst.2
  obtain ⟨w, u, w', hw, hu, hw', rfl⟩ := hx
  refine rejects_value hstarts fun r _ => ?_
  have hbytes : w ++ (u ++ (w' ++ [last])) ++ r = w ++ (u ++ (w' ++ last :: r)) := by
    simp
  rw [hbytes, hbody]
  have hd : Delimited (w' ++ last :: r) :=
    Delimited.blank_append hw' (delimited_cons (.inr (.inr hlast)))
  exact fails_eat_bind ((h w u _ hw hu hd).closing close)

theorem fails_elements {P : α → List UInt8 → Prop} (h : Reads d P) {as : List α}
    {xs ys : List (List UInt8)} {y u w : List UInt8} (has : List.Forall₂ P as xs)
    (hy : Rejects d y C) (hw : Blank w) (hu : Items (xs ++ y :: ys) u) (hr : Delimited r) :
    Fails (elements d) (w ++ (u ++ r)) C := by
  have hrun := run_iff_forall₂.mpr ⟨as, has, run_push_iff.mpr (List.append_nil _).symm⟩
  obtain ⟨m, hnext, hm⟩ := fails_items leads_nextElement (yields_nextElement false)
    (yields_push h.yields) (spells_pushes h.item) hrun hw hu hr hy.starts
    fun r hr => (hy.fails [] r .nil hr).bind _
  refine (yields_nextElement true).bind_fails hnext ?_
  -- The elements are put in order after the loop.
  have hloop := hm.bind fun done => (pure done.reverse : Decoder ε (List α))
  rw [bind_assoc] at hloop
  exact hloop

/-- A sequence is refused for its first element that is. -/
theorem rejects_sequence {P : α → List UInt8 → Prop} (h : Reads d P) {as : List α}
    {xs ys : List (List UInt8)} {x y : List UInt8} (has : List.Forall₂ P as xs)
    (hy : Rejects d y C) (hx : Enclosed '['.toUInt8 ']'.toUInt8 (xs ++ y :: ys) x) :
    Rejects (sequence d) x C :=
  rejects_enclosed hx (by decide) (.inl rfl) rfl fun _ _ _ hw hu hr =>
    fails_elements h has hy hw hu hr

end Decoder

/-! ## Records -/

/-- An entry is refused for its value. -/
theorem fails_entry {r : Record ε σ} {p : Record.Progress σ} {key : String} {f : Field ε σ}
    {v x m : List UInt8} {C : Cause ε → Prop} (hf : r.field? key = some f) (hn : key ∉ p.given)
    (hv : Decoder.Rejects (f.read p.state) v C) (hx : NamedEntry (key, v) x)
    (hm : Delimited m) : Decoder.Fails (r.entry p) (x ++ m) C := by
  obtain ⟨l, hl, w, w', hw, hw', rfl⟩ := hx
  have hbytes : quote l ++ (w ++ ':'.toUInt8 :: (w' ++ v)) ++ m =
      '"'.toUInt8 :: (l ++ '"'.toUInt8 :: (w ++ ':'.toUInt8 :: (w' ++ (v ++ m)))) := by
    simp [quote]
  rw [hbytes]
  refine Decoder.fails_eat_bind (Decoder.yields_text.bind_fails ⟨l, hl, rfl⟩ ?_)
  rw [hf]
  show Decoder.Fails (if key ∈ p.given then _ else _) _ _
  rw [if_neg hn]
  refine Decoder.yields_colon.bind_fails (a := ()) ⟨w, hw, rfl⟩ ?_
  exact (hv.fails w' m hw' hm).bind _

theorem exists_of_forall₂_append_cons {α : Type*} {β : Type*} {P : α → β → Prop}
    {as as' : List α} {a : α} {bs : List β}
    (h : List.Forall₂ P (as ++ a :: as') bs) :
    ∃ bs₁ b bs₂, bs = bs₁ ++ b :: bs₂ ∧ List.Forall₂ P as bs₁ ∧ P a b := by
  induction as generalizing bs with
  | nil =>
    cases h with
    | cons h t => exact ⟨[], _, _, rfl, .nil, h⟩
  | cons a₁ as ih =>
    cases h with
    | cons h t =>
      obtain ⟨bs₁, b, bs₂, rfl, has, ha⟩ := ih t
      exact ⟨_ :: bs₁, b, bs₂, rfl, .cons h has, ha⟩

/-- A record is refused for the first entry whose value is. -/
theorem rejects_object {r : Record ε σ} {slots : List (Slot σ)} (h : r.Filled slots)
    (ha : Apart slots) {s : σ} {p : Record.Progress σ} {es es' : List (String × List UInt8)}
    {key : String} {v x : List UInt8} {f : Field ε σ} {C : Cause ε → Prop}
    (hc : Collects slots { given := [], state := s } es p) (hf : r.field? key = some f)
    (hn : key ∉ p.given) (hv : Decoder.Rejects (f.read p.state) v C)
    (hx : ObjectOf NamedEntry (es ++ (key, v) :: es') x) :
    Decoder.Rejects (r.decoder s) x C := by
  obtain ⟨xs, hes, hx⟩ := hx
  obtain ⟨xs₁, y, ys, rfl, hes₁, hy⟩ := exists_of_forall₂_append_cons hes
  have hkey : ∃ b t, y = b :: t ∧ isBlank b = false ∧ b = '"'.toUInt8 := by
    obtain ⟨l, -, w₁, w₂, -, -, rfl⟩ := hy
    exact ⟨_, _, rfl, by decide, rfl⟩
  refine Decoder.rejects_enclosed hx (by decide) (.inr rfl) rfl fun w u m hw hu hm => ?_
  have hentries := Decoder.fails_entries (Decoder.yields_entry h) (spells_entry h ha)
    (run_iff_forall₂.mpr ⟨es, hes₁, hc⟩) hw hu hm hkey fun _ hr => fails_entry hf hn hv hy hr
  exact hentries.bind _

/-- Entries that give no slot more than one value, each of them a good one, are read. -/
theorem exists_collects_of_given {slots : List (Slot σ)} {p : Record.Progress σ}
    {es : List (String × List UInt8)} (ho : OthersAreValues slots es)
    (h : ∀ slot ∈ slots, given es slot.key = [] ∨
      (slot.key ∉ p.given ∧ ∃ x, given es slot.key = [x] ∧ ∃ a, slot.text a x)) :
    ∃ p', Collects slots p es p' := by
  induction es generalizing p with
  | nil => exact ⟨p, .nil⟩
  | cons e es ih =>
    obtain ⟨key, v⟩ := e
    obtain ⟨hv, hos⟩ := List.forall_mem_cons.mp ho
    by_cases hk : ∃ slot ∈ slots, slot.key = key
    · obtain ⟨slot, hs, rfl⟩ := hk
      have hslot := h slot hs
      rw [given_cons_self] at hslot
      obtain ⟨hn, x, hx, a, htext⟩ := hslot.resolve_left (List.cons_ne_nil _ _)
      obtain ⟨rfl, hnone⟩ := List.cons.inj hx
      have hrest : ∀ slot' ∈ slots, given es slot'.key = [] ∨
          (slot'.key ∉ slot.key :: p.given ∧
            ∃ x, given es slot'.key = [x] ∧ ∃ a, slot'.text a x) := by
        intro slot' hs'
        by_cases hkey : slot.key = slot'.key
        · exact .inl (hkey ▸ hnone)
        · have hslot' := h slot' hs'
          rw [given_cons_ne hkey] at hslot'
          rw [List.mem_cons, or_iff_right (Ne.symm hkey)]
          exact hslot'
      obtain ⟨p', hc⟩ := ih
        (p := { given := slot.key :: p.given, state := slot.set a p.state }) hos hrest
      exact ⟨p', .cons (.field hs hn htext) hc⟩
    · have hne : ∀ slot ∈ slots, slot.key ≠ key := fun slot hs he => hk ⟨slot, hs, he⟩
      have hrest : ∀ slot ∈ slots, given es slot.key = [] ∨
          (slot.key ∉ p.given ∧ ∃ x, given es slot.key = [x] ∧ ∃ a, slot.text a x) := by
        intro slot hs
        have hslot := h slot hs
        rwa [given_cons_ne (hne slot hs).symm] at hslot
      obtain ⟨p', hc⟩ := ih hos hrest
      exact ⟨p', .cons (.other hne (hv hne)) hc⟩

/-- Fields of which the one after `slots` is refused, from elements after the first. -/
theorem fails_fromElements {r : Record ε σ} {fs fs' : List (Field ε σ)} {f : Field ε σ}
    {slots : List (Slot σ)} (h : List.Forall₂ Field.Fills fs slots) {xs ys : List (List UInt8)}
    {y u m : List UInt8} {C : Cause ε → Prop}
    (hxs : List.Forall₂ (fun slot x => ∃ a, slot.text a x) slots xs)
    (hy : ∀ s, Decoder.Rejects (f.read s) y C) (hu : MoreItems (xs ++ y :: ys) u)
    (hm : Delimited m) (read : Nat) (s : σ) :
    Decoder.Fails (r.fromElements (fs ++ f :: fs') (read + 1) s) (u ++ m) C := by
  induction h generalizing xs u read s with
  | nil =>
    cases hxs
    cases hu with
    | @cons _ u v v' _ hv hv' hu =>
      have hd : Delimited (u ++ m) := delimited_more hu .nil hm
      have hnext : Decoder.Continues ']'.toUInt8 (· ≠ ']'.toUInt8) false
          (v ++ ','.toUInt8 :: (v' ++ (y ++ u)) ++ m) true (y ++ (u ++ m)) := by
        simpa using continues_more hv hv' (hy s).starts (u ++ m)
      exact (Decoder.yields_nextElement false).bind_fails hnext
        (((hy s).fails [] _ .nil hd).bind _)
  | @cons f₁ slot fs slots hf _ ih =>
    cases hxs with
    | cons hx hxs =>
      rename_i x xs
      obtain ⟨a, hx⟩ := hx
      cases hu with
      | @cons _ u v v' _ hv hv' hu =>
        have hd : Delimited (u ++ m) := delimited_more hu .nil hm
        have hread : (f₁.read s).graph (x ++ (u ++ m)) (slot.set a s) (u ++ m) :=
          (hf.reads s).complete (w := []) .nil ⟨a, hx, rfl⟩ hd
        have hnext : Decoder.Continues ']'.toUInt8 (· ≠ ']'.toUInt8) false
            (v ++ ','.toUInt8 :: (v' ++ (x ++ u)) ++ m) true (x ++ (u ++ m)) := by
          simpa using continues_more hv hv' ((hf.reads s).starts ⟨a, hx, rfl⟩) (u ++ m)
        exact (Decoder.yields_nextElement false).bind_fails hnext
          ((hf.reads s).yields.bind_fails hread (ih hxs hu (read + 1) _))

/-- A record is refused for the first element that is. -/
theorem rejects_positional {r : Record ε σ} {fs fs' : List (Field ε σ)} {f : Field ε σ}
    (hr : r.fields = fs ++ f :: fs') {slots : List (Slot σ)}
    (h : List.Forall₂ Field.Fills fs slots) {xs ys : List (List UInt8)} {x y : List UInt8}
    {C : Cause ε → Prop} (hxs : List.Forall₂ (fun slot x => ∃ a, slot.text a x) slots xs)
    (hy : ∀ s, Decoder.Rejects (f.read s) y C)
    (hx : Enclosed '['.toUInt8 ']'.toUInt8 (xs ++ y :: ys) x) (s : σ) :
    Decoder.Rejects (r.decoder s) x C := by
  refine Decoder.rejects_enclosed hx (by decide) (.inl rfl) rfl fun w u m hw hu hm => ?_
  rw [hr]
  cases h with
  | nil =>
    cases hxs
    cases hu with
    | @cons _ u _ hu =>
      have hd : Delimited (u ++ m) := delimited_more hu .nil hm
      rw [List.append_assoc]
      exact (Decoder.yields_nextElement true).bind_fails (continues_first hw (hy s).starts (u ++ m))
        (((hy s).fails [] _ .nil hd).bind _)
  | @cons f₁ slot fs slots hf h =>
    cases hxs with
    | cons hx' hxs =>
      rename_i z xs
      obtain ⟨a, hz⟩ := hx'
      cases hu with
      | @cons _ u _ hu =>
        have hd : Delimited (u ++ m) := delimited_more hu .nil hm
        have hread : (f₁.read s).graph (z ++ (u ++ m)) (slot.set a s) (u ++ m) :=
          (hf.reads s).complete (w := []) .nil ⟨a, hz, rfl⟩ hd
        rw [List.append_assoc]
        exact (Decoder.yields_nextElement true).bind_fails
          (continues_first hw ((hf.reads s).starts ⟨a, hz, rfl⟩) (u ++ m))
          ((hf.reads s).yields.bind_fails hread (fails_fromElements h hxs hy hu hm 0 _))

/-- A record in which `x` is what is given for `slot`, and what is given for the other slots, which
come before and after it, is good. -/
inductive RecordGap (before : List (Slot σ)) (slot : Slot σ) (after : List (Slot σ))
    (x y : List UInt8) : Prop
  | object {es : List (String × List UInt8)} (ho : OthersAreValues (before ++ slot :: after) es)
    (hx : given es slot.key = [x])
    (hrest : ∀ slot' ∈ before ++ slot :: after, slot'.key ≠ slot.key →
      given es slot'.key = [] ∨ ∃ v, given es slot'.key = [v] ∧ ∃ a, slot'.text a v)
    (hy : ObjectOf NamedEntry es y)
  | sequence {xs xs' : List (List UInt8)}
    (hxs : List.Forall₂ (fun slot v => ∃ a, slot.text a v) before xs)
    (hy : Enclosed '['.toUInt8 ']'.toUInt8 (xs ++ x :: xs') y)

theorem map_key_eq {fields : List (Field ε σ)} {slots : List (Slot σ)}
    (h : List.Forall₂ Field.Fills fields slots) : fields.map Field.key = slots.map Slot.key := by
  induction h with
  | nil => rfl
  | cons hf _ ih => rw [List.map_cons, List.map_cons, hf.key, ih]

/-- The field that a key names is the one that fills the slot of that key. -/
theorem exists_fields_before {r : Record ε σ} {before after : List (Slot σ)} {slot : Slot σ}
    (h : r.Filled (before ++ slot :: after)) (ha : Apart (before ++ slot :: after))
    {f : Field ε σ} (hf : r.field? slot.key = some f) :
    ∃ fs fs', r.fields = fs ++ f :: fs' ∧ List.Forall₂ Field.Fills fs before := by
  obtain ⟨fs, f', fs', hfields, hfs, hf'⟩ := exists_of_forall₂_append_cons h.flip
  have hnodup : (r.fields.map Field.key).Nodup := by
    rw [map_key_eq h]
    exact ha.keys
  have hmem : f' ∈ r.fields := by
    rw [hfields]
    simp
  have hkey : f.key = slot.key := by
    simpa using List.find?_some hf
  obtain rfl : f' = f :=
    List.inj_on_of_nodup_map hnodup hmem (List.mem_of_find?_eq_some hf) (hf'.key.trans hkey.symm)
  exact ⟨fs, fs', hfields, hfs.flip⟩

/-- What is given at most once is given at most once among the first entries. -/
theorem given_left {es es' : List (String × List UInt8)} {key : String} {P : List UInt8 → Prop}
    (h : given (es ++ es') key = [] ∨ ∃ v, given (es ++ es') key = [v] ∧ P v) :
    given es key = [] ∨ ∃ v, given es key = [v] ∧ P v := by
  rw [given_append] at h
  rcases h with hnil | ⟨v, hv, hP⟩
  · exact .inl (List.append_eq_nil_iff.mp hnil).1
  · rw [List.append_eq_singleton_iff] at hv
    rcases hv with ⟨hnil, -⟩ | ⟨hv, -⟩
    · exact .inl hnil
    · exact .inr ⟨v, hv, hP⟩

/-- A record is refused for the one value in it that its field refuses. -/
theorem rejects_record {r : Record ε σ} {before after : List (Slot σ)} {slot : Slot σ}
    {x y : List UInt8} (hy : RecordGap before slot after x y)
    (h : r.Filled (before ++ slot :: after)) (ha : Apart (before ++ slot :: after))
    {f : Field ε σ} (hf : r.field? slot.key = some f) {C : Cause ε → Prop}
    (hx : ∀ s, Decoder.Rejects (f.read s) x C) (s : σ) : Decoder.Rejects (r.decoder s) y C := by
  cases hy with
  | object ho hgiven hrest hy =>
    obtain ⟨es, es', rfl, hnone⟩ := exists_of_given_eq_singleton hgiven
    have hbefore : ∀ slot' ∈ before ++ slot :: after, given es slot'.key = [] ∨
        ∃ v, given es slot'.key = [v] ∧ ∃ a, slot'.text a v := by
      intro slot' hs'
      by_cases hkey : slot'.key = slot.key
      · rw [hkey]
        exact .inl hnone
      · exact given_left (hrest slot' hs' hkey)
    have hos : OthersAreValues (before ++ slot :: after) es :=
      fun e he => ho e (List.mem_append_left _ he)
    obtain ⟨p, hc⟩ := exists_collects_of_given (p := { given := [], state := s }) hos
      fun slot' hs' => (hbefore slot' hs').imp id fun hgiven' => ⟨List.not_mem_nil, hgiven'⟩
    have hn : slot.key ∉ p.given := by
      rcases slot_of_collects ha hc slot (by simp) with ⟨-, -, hmem⟩ | ⟨-, -, v, hv, -⟩
      · rw [hmem]
        exact List.not_mem_nil
      · rw [hnone] at hv
        cases hv
    exact rejects_object h ha hc hf hn (hx _) hy
  | sequence hxs hy =>
    obtain ⟨fs, fs', hfields, hfs⟩ := exists_fields_before h ha hf
    exact rejects_positional hfields hfs hxs hx hy s

/-! ## Verdicts -/

namespace Decoder

/-- From `x`, `d` reads a value of the language `P`, or it refuses `x` for a problem. -/
inductive Judges (d : Decoder ε α) (P : α → List UInt8 → Prop) (x : List UInt8) : Option ε → Prop
  | reads {a : α} (h : P a x) : Judges d P x none
  | refuses {problem : ε} (h : Rejects d x (· = .refused problem)) : Judges d P x (some problem)

section Sequences

variable {d : Decoder ε α} {P : α → List UInt8 → Prop} {T : β → List UInt8 → Prop}
  {problem? : β → Option ε}

/-- Elements of which none is refused are read. -/
theorem exists_reads_of_judges (hT : ∀ b x, T b x → Judges d P x (problem? b)) {bs : List β}
    {xs : List (List UInt8)} (hbs : List.Forall₂ T bs xs) (hnone : ∀ b ∈ bs, problem? b = none) :
    ∃ as, List.Forall₂ P as xs := by
  induction hbs with
  | nil => exact ⟨[], .nil⟩
  | @cons b x bs xs hx _ ih =>
    obtain ⟨hb, hbs⟩ := List.forall_mem_cons.mp hnone
    obtain ⟨as, has⟩ := ih hbs
    have hjudges := hT b x hx
    rw [hb] at hjudges
    cases hjudges with
    | reads ha => exact ⟨_, .cons ha has⟩

/-- The verdict on a sequence is the first refusal among its elements. -/
theorem judges_sequence (h : Reads d P) (hT : ∀ b x, T b x → Judges d P x (problem? b))
    {bs : List β} {x : List UInt8} (hx : SequenceOf T bs x) :
    Judges (sequence d) (SequenceOf P) x (bs.findSome? problem?) := by
  obtain ⟨xs, hbs, hx⟩ := hx
  cases hfirst : bs.findSome? problem? with
  | none =>
    obtain ⟨as, has⟩ := exists_reads_of_judges hT hbs (List.findSome?_eq_none_iff.mp hfirst)
    exact .reads ⟨xs, has, hx⟩
  | some problem =>
    obtain ⟨bs₁, b, bs₂, rfl, hb, hnone⟩ := List.findSome?_eq_some_iff.mp hfirst
    obtain ⟨xs₁, y, ys, rfl, hbs₁, hy⟩ := exists_of_forall₂_append_cons hbs
    obtain ⟨as, has⟩ := exists_reads_of_judges hT hbs₁ hnone
    have hjudges := hT b y hy
    rw [hb] at hjudges
    cases hjudges with
    | refuses hrejects => exact .refuses (rejects_sequence h has hrejects hx)

end Sequences

end Decoder

end Findings.Json
