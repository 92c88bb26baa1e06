import Findings.Proofs.Reads

/-!
# Containers are read as the grammar has them

The loops over the items of a sequence and of an object are one loop (`Loop`): a separator asks
whether there is another item, and a body reads it and changes a state. If the body reads what `Q`
says of an item and the states around it (`Spells`), the loop reads items of which one after the
other changes the state (`Run`).
-/

namespace Findings.Json

variable {ε α ι σ : Type}

/-! ## Loops as relations -/

/-- The rounds of a loop in which `N` says whether there is another item and `B` what becomes of the
state. -/
inductive Chain (N : List UInt8 → Bool → List UInt8 → Prop)
    (B : σ → List UInt8 → σ → List UInt8 → Prop) : σ → List UInt8 → σ → List UInt8 → Prop
  | stop {s : σ} {bs r : List UInt8} (h : N bs false r) : Chain N B s bs s r
  | more {s s' s'' : σ} {bs m m' r : List UInt8} (h : N bs true m) (hb : B s m s' m')
    (t : Chain N B s' m' s'' r) : Chain N B s bs s'' r

/-- The loop over the items of a container, up to its end. -/
def Loop (close : UInt8) (opens : UInt8 → Prop) (B : σ → List UInt8 → σ → List UInt8 → Prop)
    (s : σ) (bs : List UInt8) (s' : σ) (r : List UInt8) : Prop :=
  (Decoder.Continues close opens true bs false r ∧ s' = s) ∨
    ∃ m s₁ m₁, Decoder.Continues close opens true bs true m ∧ B s m s₁ m₁ ∧
      Chain (Decoder.Continues close opens false) B s₁ m₁ s' r

namespace Decoder

theorem yields_whileNext {more : Decoder ε Bool} {leads : Leads more} {body : σ → Decoder ε σ}
    {N : List UInt8 → Bool → List UInt8 → Prop} {B : σ → List UInt8 → σ → List UInt8 → Prop}
    (hmore : Yields more N) (hbody : ∀ s, Yields (body s) (B s)) (s : σ) :
    Yields (whileNext more leads body s) (Chain N B s) := by
  refine Yields.iterate (fun s => hmore.bind_bool (yields_pure _) (hbody s).bind_pure) ?_ s
  intro s bs s' r
  constructor
  · intro h
    cases h with
    | stop h => exact .inl (.inl ⟨_, h, rfl, rfl⟩)
    | more h hb t => exact .inr ⟨_, _, .inr ⟨_, h, _, rfl, hb⟩, t⟩
  · rintro ((⟨_, h, he, rfl⟩ | ⟨_, _, _, he, _⟩) | ⟨_, _, ⟨_, _, he, _⟩ | ⟨m, h, s₁, he, hb⟩, t⟩)
    · rw [Round.done.injEq] at he
      rw [he]
      exact .stop h
    · simp at he
    · simp at he
    · rw [Round.again.injEq] at he
      rw [he] at t
      exact .more h hb t

theorem yields_entries {entry : σ → Decoder ε σ} {B : σ → List UInt8 → σ → List UInt8 → Prop}
    (hentry : ∀ s, Yields (entry s) (B s)) (s : σ) :
    Yields (entries entry s) (Loop '\x7d'.toUInt8 (· = '"'.toUInt8) B s) := by
  refine ((yields_nextKey true).bind_bool (yields_pure s) ((hentry s).bind fun s₁ =>
    yields_whileNext (yields_nextKey false) hentry s₁)).congr fun bs s' r => ?_
  constructor
  · rintro (⟨h, rfl⟩ | ⟨m, s₁, m₁, h, hb, t⟩)
    · exact .inl ⟨r, h, rfl, rfl⟩
    · exact .inr ⟨m, h, s₁, m₁, hb, t⟩
  · rintro (⟨m, h, rfl, rfl⟩ | ⟨m, h, s₁, m₁, hb, t⟩)
    · exact .inl ⟨h, rfl⟩
    · exact .inr ⟨m, s₁, m₁, h, hb, t⟩

/-- What reading one more element makes of those before. -/
def Pushes (L : List UInt8 → α → List UInt8 → Prop) (done : List α) (bs : List UInt8)
    (done' : List α) (r : List UInt8) : Prop :=
  ∃ a, L bs a r ∧ done' = a :: done

theorem yields_push {element : Decoder ε α} {L : List UInt8 → α → List UInt8 → Prop}
    (helement : Yields element L) (done : List α) :
    Yields (do return (← element) :: done : Decoder ε (List α)) (Pushes L done) :=
  helement.bind_pure.congr fun bs done' r => by simp only [Pushes, and_comm]

theorem yields_elements {element : Decoder ε α} {L : List UInt8 → α → List UInt8 → Prop}
    (helement : Yields element L) :
    Yields (elements element) fun bs as r =>
      Loop ']'.toUInt8 (· ≠ ']'.toUInt8) (Pushes L) [] bs as.reverse r := by
  have hread := yields_push helement
  refine ((yields_nextElement true).bind_bool (yields_pure []) ((hread []).bind fun s₁ =>
    (yields_whileNext (yields_nextElement false) hread s₁).bind_pure)).congr fun bs as r => ?_
  constructor
  · rintro (⟨h, he⟩ | ⟨m, s₁, m₁, h, hb, t⟩)
    · exact .inl ⟨r, h, by simpa using he, rfl⟩
    · exact .inr ⟨m, h, s₁, m₁, hb, _, by simp, t⟩
  · rintro (⟨m, h, rfl, rfl⟩ | ⟨m, h, s₁, m₁, hb, s', rfl, t⟩)
    · exact .inl ⟨h, rfl⟩
    · exact .inr ⟨m, s₁, m₁, h, hb, by rwa [List.reverse_reverse]⟩

end Decoder

/-! ## Loops and items -/

/-- Items of which one after the other takes the state further. -/
inductive Run (Q : σ → ι → σ → Prop) : σ → List ι → σ → Prop
  | nil {s : σ} : Run Q s [] s
  | cons {s s' s'' : σ} {x : ι} {xs : List ι} (h : Q s x s') (t : Run Q s' xs s'') :
    Run Q s (x :: xs) s''

/-- Items that are run by what they mean. -/
theorem run_iff_forall₂ {α : Type} {P : α → ι → Prop} {Q : σ → α → σ → Prop} {s s' : σ}
    {xs : List ι} :
    Run (fun s x s' => ∃ a, P a x ∧ Q s a s') s xs s' ↔
      ∃ as, List.Forall₂ P as xs ∧ Run Q s as s' := by
  constructor
  · intro h
    induction h with
    | nil => exact ⟨[], .nil, .nil⟩
    | cons h t ih =>
      obtain ⟨a, ha, hq⟩ := h
      obtain ⟨as, has, hrun⟩ := ih
      exact ⟨a :: as, .cons ha has, .cons hq hrun⟩
  · rintro ⟨as, has, hrun⟩
    induction has generalizing s with
    | nil =>
      cases hrun
      exact .nil
    | cons ha has ih =>
      cases hrun with
      | cons hq hrun => exact .cons ⟨_, ha, hq⟩ (ih hrun)

/-- What may be said of the bracket that closes a container. -/
structure Closes (close : UInt8) (opens : UInt8 → Prop) : Prop where
  not_blank : isBlank close = false
  ne_comma : close ≠ ','.toUInt8
  delimits : close = ']'.toUInt8 ∨ close = '\x7d'.toUInt8
  not_opens : ¬opens close

theorem closes_square : Closes ']'.toUInt8 (· ≠ ']'.toUInt8) where
  not_blank := by decide
  ne_comma := by decide
  delimits := .inl rfl
  not_opens h := h rfl

theorem closes_curly : Closes '\x7d'.toUInt8 (· = '"'.toUInt8) where
  not_blank := by decide
  ne_comma := by decide
  delimits := .inr rfl
  not_opens := by decide

/-- What leads from the bytes before an item to those after it reads the texts `X`. -/
structure Item (opens : UInt8 → Prop) (E : List UInt8 → List UInt8 → Prop)
    (X : List UInt8 → Prop) : Prop where
  starts : ∀ {x}, X x → ∃ b t, x = b :: t ∧ isBlank b = false ∧ opens b
  sound : ∀ {b t r}, isBlank b = false → opens b → E (b :: t) r → ∃ x, X x ∧ b :: t = x ++ r
  complete : ∀ {x r}, X x → Delimited r → E (x ++ r) r

/-- A body reads the items that `Q` speaks of. -/
def Spells (opens : UInt8 → Prop) (B : σ → List UInt8 → σ → List UInt8 → Prop)
    (Q : σ → List UInt8 → σ → Prop) : Prop :=
  ∀ s s', Item opens (fun m m' => B s m s' m') fun x => Q s x s'

theorem delimited_more {u w r : List UInt8} {xs : List (List UInt8)} (hu : MoreItems xs u)
    (hw : Blank w) (hr : Delimited r) : Delimited (u ++ (w ++ r)) := by
  cases hu with
  | nil =>
    rw [List.nil_append]
    exact hr.blank_append hw
  | cons hv hv' h =>
    rw [List.append_assoc]
    exact Delimited.blank_append hv (delimited_cons (.inr (.inl rfl)))

theorem afterBlank_close {close : UInt8} {opens : UInt8 → Prop} (hc : Closes close opens)
    {w : List UInt8} (hw : Blank w) (r : List UInt8) :
    afterBlank (w ++ close :: r) = close :: r := by
  rw [afterBlank_append hw, afterBlank_cons hc.not_blank]

section Items

variable {close : UInt8} {opens : UInt8 → Prop}

theorem continues_stop_iff (hc : Closes close opens) {first : Bool} {bs m : List UInt8} :
    Decoder.Continues close opens first bs false m ↔
      ∃ w r, Blank w ∧ bs = w ++ close :: r ∧ m = close :: r := by
  constructor
  · intro h
    cases h with
    | stop h =>
      obtain ⟨-, w, hw, rfl⟩ := afterBlank_eq_cons_iff.mp h
      exact ⟨w, _, hw, rfl, rfl⟩
  · rintro ⟨w, r, hw, rfl, rfl⟩
    exact .stop (afterBlank_close hc hw r)

/-- White space and what begins an item. -/
theorem continues_first {w x : List UInt8} (hw : Blank w)
    (hx : ∃ b t, x = b :: t ∧ isBlank b = false ∧ opens b) (r : List UInt8) :
    Decoder.Continues close opens true (w ++ (x ++ r)) true (x ++ r) := by
  obtain ⟨b, t, rfl, hb, ho⟩ := hx
  refine .first ?_ ho
  rw [afterBlank_append hw]
  exact afterBlank_cons hb

/-- A comma and what begins another item. -/
theorem continues_more {w w' x : List UInt8} (hw : Blank w) (hw' : Blank w')
    (hx : ∃ b t, x = b :: t ∧ isBlank b = false ∧ opens b) (r : List UInt8) :
    Decoder.Continues close opens false (w ++ ','.toUInt8 :: (w' ++ (x ++ r))) true (x ++ r) := by
  obtain ⟨b, t, rfl, hb, ho⟩ := hx
  refine .more (t := w' ++ (b :: t ++ r)) ?_ ?_ ho
  · rw [afterBlank_append hw]
    exact afterBlank_cons (by decide)
  · rw [afterBlank_append hw']
    exact afterBlank_cons hb

/-- A first item stands after white space. -/
theorem Item.first_iff {E : List UInt8 → List UInt8 → Prop} {X : List UInt8 → Prop}
    (h : Item opens E X) (close : UInt8) {bs m' : List UInt8} (hd : Delimited m') :
    (∃ m, Decoder.Continues close opens true bs true m ∧ E m m') ↔
      ∃ w x, Blank w ∧ X x ∧ bs = w ++ (x ++ m') := by
  constructor
  · rintro ⟨m, hm, he⟩
    cases hm with
    | first hb ho =>
      obtain ⟨hblank, w, hw, rfl⟩ := afterBlank_eq_cons_iff.mp hb
      obtain ⟨x, hx, hx'⟩ := h.sound hblank ho he
      exact ⟨w, x, hw, hx, by rw [hx']⟩
  · rintro ⟨w, x, hw, hx, rfl⟩
    exact ⟨_, continues_first hw (h.starts hx) m', h.complete hx hd⟩

/-- A further item stands after a comma. -/
theorem Item.more_iff {E : List UInt8 → List UInt8 → Prop} {X : List UInt8 → Prop}
    (h : Item opens E X) (close : UInt8) {bs m' : List UInt8} (hd : Delimited m') :
    (∃ m, Decoder.Continues close opens false bs true m ∧ E m m') ↔
      ∃ w w' x, Blank w ∧ Blank w' ∧ X x ∧ bs = w ++ ','.toUInt8 :: (w' ++ (x ++ m')) := by
  constructor
  · rintro ⟨m, hm, he⟩
    cases hm with
    | more hcomma hb ho =>
      obtain ⟨-, w, hw, rfl⟩ := afterBlank_eq_cons_iff.mp hcomma
      obtain ⟨hblank, w', hw', rfl⟩ := afterBlank_eq_cons_iff.mp hb
      obtain ⟨x, hx, hx'⟩ := h.sound hblank ho he
      exact ⟨w, w', x, hw, hw', hx, by rw [hx']⟩
  · rintro ⟨w, w', x, hw, hw', hx, rfl⟩
    exact ⟨_, continues_more hw hw' (h.starts hx) m', h.complete hx hd⟩

variable {B : σ → List UInt8 → σ → List UInt8 → Prop} {Q : σ → List UInt8 → σ → Prop}

/-- The rounds after the first item read the further items. -/
theorem chain_iff (hc : Closes close opens) (hs : Spells opens B Q) {s s' : σ}
    {bs r : List UInt8} :
    (∃ m, Chain (Decoder.Continues close opens false) B s bs s' m ∧ afterBlank m = close :: r) ↔
      ∃ xs u w, Run Q s xs s' ∧ MoreItems xs u ∧ Blank w ∧ bs = u ++ (w ++ close :: r) := by
  have hd : Delimited (close :: r) := delimited_cons (.inr (.inr hc.delimits))
  constructor
  · rintro ⟨m, h, hm⟩
    induction h with
    | stop h =>
      obtain ⟨w, r', hw, rfl, rfl⟩ := (continues_stop_iff hc).mp h
      rw [afterBlank_cons hc.not_blank] at hm
      obtain ⟨-, rfl⟩ := List.cons.inj hm
      exact ⟨[], [], w, .nil, .nil, hw, rfl⟩
    | more h hb t ih =>
      obtain ⟨xs, u, w, hxs, hu, hw, rfl⟩ := ih hm
      obtain ⟨w₁, w₂, x, hw₁, hw₂, hx, rfl⟩ :=
        ((hs _ _).more_iff close (delimited_more hu hw hd)).mp ⟨_, h, hb⟩
      exact ⟨x :: xs, _, w, .cons hx hxs, .cons hw₁ hw₂ hu, hw, by simp⟩
  · rintro ⟨xs, u, w, hxs, hu, hw, rfl⟩
    induction hxs generalizing u with
    | nil =>
      cases hu
      refine ⟨close :: r, .stop (.stop (afterBlank_close hc hw r)), ?_⟩
      rw [afterBlank_cons hc.not_blank]
    | @cons _ _ _ x _ hx hxs ih =>
      cases hu with
      | @cons _ u w₁ w₂ _ hw₁ hw₂ hu =>
        obtain ⟨m, hm, ha⟩ := ih u hu
        obtain ⟨m₁, h₁, hb⟩ := ((hs _ _).more_iff close (delimited_more hu hw hd)).mpr
          ⟨w₁, w₂, x, hw₁, hw₂, hx, rfl⟩
        refine ⟨m, .more ?_ hb hm, ha⟩
        simpa using h₁

/-- A loop reads the items of a container. -/
theorem loop_iff (hc : Closes close opens) (hs : Spells opens B Q) {s s' : σ}
    {bs r : List UInt8} :
    (∃ m, Loop close opens B s bs s' m ∧ afterBlank m = close :: r) ↔
      ∃ w₀ xs u w, Blank w₀ ∧ Run Q s xs s' ∧ Items xs u ∧ Blank w ∧
        bs = w₀ ++ (u ++ (w ++ close :: r)) := by
  have hd : Delimited (close :: r) := delimited_cons (.inr (.inr hc.delimits))
  constructor
  · rintro ⟨m, ⟨h, rfl⟩ | ⟨m₀, s₁, m₁, h, hb, t⟩, hm⟩
    · obtain ⟨w, r', hw, rfl, rfl⟩ := (continues_stop_iff hc).mp h
      rw [afterBlank_cons hc.not_blank] at hm
      obtain ⟨-, rfl⟩ := List.cons.inj hm
      exact ⟨w, [], [], [], hw, .nil, .nil, .nil, rfl⟩
    · obtain ⟨xs, u, w, hxs, hu, hw, rfl⟩ := (chain_iff hc hs).mp ⟨m, t, hm⟩
      obtain ⟨w₀, x, hw₀, hx, rfl⟩ :=
        ((hs _ _).first_iff close (delimited_more hu hw hd)).mp ⟨_, h, hb⟩
      refine ⟨w₀, x :: xs, x ++ u, w, hw₀, .cons hx hxs, .cons hu, hw, ?_⟩
      rw [List.append_assoc]
  · rintro ⟨w₀, xs, u, w, hw₀, hxs, hu, hw, rfl⟩
    cases hxs with
    | nil =>
      cases hu
      refine ⟨close :: r, .inl ⟨.stop ?_, rfl⟩, ?_⟩
      · rw [List.nil_append, ← List.append_assoc]
        exact afterBlank_close hc (hw₀.append hw) r
      · rw [afterBlank_cons hc.not_blank]
    | @cons _ _ _ x _ hx hxs =>
      cases hu with
      | @cons _ u _ hu =>
        obtain ⟨m, hm, ha⟩ := (chain_iff hc hs).mpr ⟨_, u, w, hxs, hu, hw, rfl⟩
        obtain ⟨m₁, h₁, hb⟩ := ((hs _ _).first_iff close (delimited_more hu hw hd)).mpr
          ⟨w₀, x, hw₀, hx, rfl⟩
        refine ⟨m, .inr ⟨m₁, _, _, ?_, hb, hm⟩, ha⟩
        rwa [List.append_assoc]

end Items

/-- A container and what follows it, from its first byte on. -/
theorem enclosed_append_iff {first last b : UInt8} {t r : List UInt8} {xs : List (List UInt8)} :
    (∃ x, Enclosed first last xs x ∧ b :: t = x ++ r) ↔
      b = first ∧
        ∃ w₀ u w, Blank w₀ ∧ Items xs u ∧ Blank w ∧ t = w₀ ++ (u ++ (w ++ last :: r)) := by
  constructor
  · rintro ⟨_, ⟨w₀, u, w, hw₀, hu, hw, rfl⟩, he⟩
    obtain ⟨rfl, rfl⟩ := List.cons.inj he
    exact ⟨rfl, w₀, u, w, hw₀, hu, hw, by simp⟩
  · rintro ⟨rfl, w₀, u, w, hw₀, hu, hw, rfl⟩
    exact ⟨_, ⟨w₀, u, w, hw₀, hu, hw, rfl⟩, by simp⟩

/-! ## Sequences -/

/-- Elements that are pushed one by one are those of a list. -/
theorem run_push_iff {done done' as : List α} :
    Run (fun done a done' => done' = a :: done) done as done' ↔ done' = as.reverse ++ done := by
  constructor
  · intro h
    induction h with
    | nil => rfl
    | cons h t ih =>
      rw [ih, h]
      simp
  · rintro rfl
    induction as generalizing done with
    | nil => exact .nil
    | cons a as ih =>
      refine .cons rfl ?_
      rw [List.reverse_cons, List.append_assoc]
      exact ih

theorem SequenceOf.starts {P : α → List UInt8 → Prop} {as : List α} {x : List UInt8}
    (h : SequenceOf P as x) : Starts x := by
  obtain ⟨xs, -, w, u, w', -, -, -, rfl⟩ := h
  exact ⟨_, _, rfl, by decide, by decide⟩

namespace Decoder

/-- What a decoder reads is an item of a sequence. -/
theorem Reads.item {d : Decoder ε α} {P : α → List UInt8 → Prop} (h : Reads d P) (a : α) :
    Item (· ≠ ']'.toUInt8) (fun m m' => d.graph m a m') (P a) := by
  refine ⟨fun hx => h.starts hx, ?_, fun hx hr => h.complete (w := []) .nil hx hr⟩
  intro b t r hb _ hg
  obtain ⟨w, x, hw, hx, he⟩ := h.sound hg
  cases w with
  | nil => exact ⟨x, hx, he⟩
  | cons b' w =>
    have hb' := hw.head
    rw [← (List.cons.inj he).1, hb] at hb'
    simp at hb'

theorem spells_pushes {L : List UInt8 → α → List UInt8 → Prop} {P : α → List UInt8 → Prop}
    (h : ∀ a, Item (· ≠ ']'.toUInt8) (fun m m' => L m a m') (P a)) :
    Spells (· ≠ ']'.toUInt8) (Pushes L) fun done x done' => ∃ a, P a x ∧ done' = a :: done := by
  intro done done'
  refine ⟨?_, ?_, ?_⟩
  · rintro x ⟨a, hx, -⟩
    exact (h a).starts hx
  · rintro b t r hb ho ⟨a, hl, hd⟩
    obtain ⟨x, hx, he⟩ := (h a).sound hb ho hl
    exact ⟨x, ⟨a, hx, hd⟩, he⟩
  · rintro x r ⟨a, hx, hd⟩ hr
    exact ⟨a, (h a).complete hx hr, hd⟩

/-- Between its brackets, a loop over elements reads those of a sequence. -/
theorem exists_sequenceOf_iff {d : Decoder ε α} {P : α → List UInt8 → Prop} (h : Reads d P)
    {b : UInt8} {t r : List UInt8} {as : List α} :
    (b = '['.toUInt8 ∧ ∃ m,
      Loop ']'.toUInt8 (· ≠ ']'.toUInt8) (Pushes d.graph) [] t as.reverse m ∧
        afterBlank m = ']'.toUInt8 :: r) ↔ ∃ x, SequenceOf P as x ∧ b :: t = x ++ r := by
  rw [loop_iff closes_square (spells_pushes h.item)]
  constructor
  · rintro ⟨hb, w₀, xs, u, w, hw₀, hxs, hu, hw, rfl⟩
    obtain ⟨as', has, hpush⟩ := run_iff_forall₂.mp hxs
    have he := run_push_iff.mp hpush
    rw [List.append_nil, List.reverse_inj] at he
    rw [← he] at has
    obtain ⟨x, hx, he'⟩ := enclosed_append_iff.mpr ⟨hb, w₀, u, w, hw₀, hu, hw, rfl⟩
    exact ⟨x, ⟨xs, has, hx⟩, he'⟩
  · rintro ⟨x, ⟨xs, has, hx⟩, he⟩
    obtain ⟨hb, w₀, u, w, hw₀, hu, hw, rfl⟩ := enclosed_append_iff.mp ⟨x, hx, he⟩
    have hrun := run_iff_forall₂.mpr ⟨as, has, run_push_iff.mpr (List.append_nil _).symm⟩
    exact ⟨hb, w₀, xs, u, w, hw₀, hrun, hu, hw, rfl⟩

/-- A sequence ends with its bracket, whatever comes after it. -/
theorem yields_sequence {d : Decoder ε α} {P : α → List UInt8 → Prop} (h : Reads d P) :
    Yields (sequence d) fun bs as r =>
      ∃ w x, Blank w ∧ SequenceOf P as x ∧ bs = w ++ (x ++ r) := by
  refine (yields_value (M := fun b bs as r => b = '['.toUInt8 ∧ ∃ m,
    Loop ']'.toUInt8 (· ≠ ']'.toUInt8) (Pushes d.graph) [] bs.tail as.reverse m ∧
      afterBlank m = ']'.toUInt8 :: r) fun b => ?_).congr fun bs as r => ?_
  · by_cases hb : b = '['.toUInt8
    · rw [if_pos hb]
      refine (yields_eat_bind ((yields_elements h.yields).closing yields_endSequence)).congr
        fun bs as r => ?_
      simp [hb]
    · rw [if_neg hb]
      exact (refuses_mismatch _ _).congr fun _ _ _ => by simp [hb]
  · constructor
    · rintro ⟨w, x, hw, hx, rfl⟩
      obtain ⟨b, t, rfl, -, -⟩ := hx.starts
      exact ⟨b, t ++ r, afterBlank_of_starts hw hx.starts,
        (exists_sequenceOf_iff h).mpr ⟨_, hx, rfl⟩⟩
    · rintro ⟨b, t, hb, hm⟩
      obtain ⟨-, w, hw, rfl⟩ := afterBlank_eq_cons_iff.mp hb
      obtain ⟨x, hx, he⟩ := (exists_sequenceOf_iff h).mp hm
      exact ⟨w, x, hw, hx, congrArg (w ++ ·) he⟩

theorem reads_sequence {d : Decoder ε α} {P : α → List UInt8 → Prop} (h : Reads d P) :
    Reads (sequence d) (SequenceOf P) :=
  .intro (yields_sequence h) (fun _ _ hx => hx.starts) (fun _ _ _ hx => hx)
    fun w x _ _ hw hx _ => ⟨w, x, hw, hx, rfl⟩

end Decoder

end Findings.Json
