import Findings.Proofs.Sources

/-!
# How far a decoder looks

A decoder looks at one byte beyond those that it has used up, and no further. So a fault is the same
in all documents that agree up to its place and in one byte more, although the decoder goes on after
it to close containers, and although a fault without a place gets the one where that ends.

Two runs are compared on cursors that stand alike before the same bytes (`Cursor.Agrees`). As long
as a run has not used up all that is common, the other one does the same (`Local.stays`); and a
fault whose place lies within it is met by both, whatever comes after (`Local.fails`).

Main statement: `Report.ofText_error_local`.
-/

namespace Findings.Json

theorem Cursor.Reaches.offset_le {c c' : Cursor} (h : c.Reaches c') : c.offset ≤ c'.offset := by
  have htotal := h.total
  have hlength := h.length_le
  omega

theorem Cursor.offset_le_next (c : Cursor) : c.offset ≤ c.next.offset := by
  unfold Cursor.next
  simp only
  split <;> omega

theorem Cursor.offset_le_of_next_or_here (c : Cursor) {p : Place} (h : p = c.next ∨ p = c.here) :
    c.offset ≤ p.offset := by
  rcases h with rfl | rfl
  · exact c.offset_le_next
  · exact Nat.le_refl _

/-! ## Runs side by side -/

/-- Two cursors stand alike, before the same bytes up to the first `n` of their documents. -/
structure Cursor.Agrees (n : Nat) (c c₂ : Cursor) : Prop where
  offset : c₂.offset = c.offset
  common : ∃ u r r₂, c.rest = u ++ r ∧ c₂.rest = u ++ r₂ ∧ c.offset + u.length = n

/-- A byte that is common comes next for both. -/
theorem Cursor.Agrees.exists_cons {n : Nat} {c c₂ : Cursor} (h : c.Agrees n c₂)
    (hn : c.offset < n) :
    ∃ b u r r₂, c.rest = b :: (u ++ r) ∧ c₂.rest = b :: (u ++ r₂) ∧
      c.offset + (u.length + 1) = n := by
  obtain ⟨u, r, r₂, hc, hc₂, hlength⟩ := h.common
  cases u with
  | nil =>
    rw [List.length_nil] at hlength
    omega
  | cons b u => exact ⟨b, u, r, r₂, hc, hc₂, hlength⟩

/-- Documents that begin with the same bytes. -/
theorem Cursor.agrees_start {bytes bytes₂ : List UInt8} {n : Nat} (hn : n ≤ bytes.length)
    (h : bytes₂.take n = bytes.take n) :
    (Cursor.start { bytes }).Agrees n (Cursor.start { bytes := bytes₂ }) where
  offset := rfl
  common := by
    refine ⟨bytes.take n, bytes.drop n, bytes₂.drop n, ?_, ?_, ?_⟩
    · exact (List.take_append_drop n bytes).symm
    · rw [← h]
      exact (List.take_append_drop n bytes₂).symm
    · rw [List.length_take_of_le hn, offset_start, Nat.zero_add]

/-- Two faults that a reader of a text is told alike. -/
structure Fault.Same {ε : Type} (f f₂ : Fault ε) : Prop where
  cause : f₂.cause = f.cause
  offset : f₂.place.map Place.offset = f.place.map Place.offset

namespace Fault

variable {ε : Type} {f f₂ : Fault ε}

theorem placeAt_of_some {q : Place} (h : f.place = some q) (p : Place) : f.placeAt p = f := by
  obtain ⟨cause, place⟩ := f
  cases h
  rfl

theorem placeAt_of_none (h : f.place = none) (p : Place) :
    f.placeAt p = { f with place := some p } := by
  obtain ⟨cause, place⟩ := f
  cases h
  rfl

theorem Same.exists_place {p : Place} (h : f.Same f₂) (hp : f.place = some p) :
    ∃ p₂, f₂.place = some p₂ ∧ p₂.offset = p.offset := by
  have hoffset := h.offset
  rw [hp] at hoffset
  exact Option.map_eq_some_iff.mp hoffset

theorem Same.place_eq_none (h : f.Same f₂) (hf : f.place = none) : f₂.place = none := by
  have hoffset := h.offset
  rw [hf] at hoffset
  exact Option.map_eq_none_iff.mp hoffset

theorem Same.placeAt {p p₂ : Place} (h : f.Same f₂) (hp : p₂.offset = p.offset) :
    (f.placeAt p).Same (f₂.placeAt p₂) := by
  cases hf : f.place with
  | some q =>
    obtain ⟨q₂, hf₂, -⟩ := h.exists_place hf
    rw [placeAt_of_some hf, placeAt_of_some hf₂]
    exact h
  | none =>
    rw [placeAt_of_none hf, placeAt_of_none (h.place_eq_none hf)]
    exact ⟨h.cause, congrArg some hp⟩

end Fault

/-- Two outcomes that are alike, at cursors that agree. -/
inductive Outcome.Agrees {ε α : Type} (n : Nat) : Outcome ε α → Outcome ε α → Prop
  | ok {a : α} {c c₂ : Cursor} (h : c.Agrees n c₂) : Agrees n (.ok a c) (.ok a c₂)
  | fail {f f₂ : Fault ε} {c c₂ : Cursor} (hf : f.Same f₂) (h : c.Agrees n c₂) :
    Agrees n (.fail f c) (.fail f₂ c₂)

namespace Outcome.Agrees

variable {ε α : Type} {n : Nat} {o o₂ : Outcome ε α} {c : Cursor}

theorem cursor (h : o.Agrees n o₂) : o.cursor.Agrees n o₂.cursor := by
  cases h <;> assumption

theorem of_ok {a : α} (h : (Outcome.ok a c : Outcome ε α).Agrees n o₂) :
    ∃ c₂, o₂ = .ok a c₂ ∧ c.Agrees n c₂ := by
  cases h with
  | ok hc => exact ⟨_, rfl, hc⟩

theorem of_fail {f : Fault ε} (h : (Outcome.fail f c : Outcome ε α).Agrees n o₂) :
    ∃ f₂ c₂, o₂ = .fail f₂ c₂ ∧ f.Same f₂ ∧ c.Agrees n c₂ := by
  cases h with
  | fail hf hc => exact ⟨_, _, rfl, hf, hc⟩

end Outcome.Agrees

namespace Decoder

variable {ε α β σ : Type} {texts : Prop}

/-- A decoder that looks no further than one byte beyond those that it has used up. -/
structure Local (d : Decoder ε α) : Prop where
  /-- No fault is seen before the place where the run begins. -/
  later : ∀ {c c' : Cursor} {f : Fault ε} {p : Place}, d.run c = .fail f c' → f.place = some p →
    c.offset ≤ p.offset
  /-- A run that ends before all that is common is used up does not see the difference. -/
  stays : ∀ {n : Nat} {c c₂ : Cursor}, c.Agrees n c₂ → (d.run c).cursor.offset < n →
    (d.run c).Agrees n (d.run c₂)
  /-- A fault that is seen where documents agree is seen in both. The run may go on after it. -/
  fails : ∀ {n : Nat} {c c₂ c' : Cursor} {f : Fault ε} {p : Place}, c.Agrees n c₂ →
    d.run c = .fail f c' → f.place = some p → p.offset < n →
    ∃ f₂ c₂', d.run c₂ = .fail f₂ c₂' ∧ f.Same f₂

namespace Local

variable {n : Nat} {c c' c₂ : Cursor}

theorem run_ok {d : Decoder ε α} (h : Local d) (hc : c.Agrees n c₂) {a : α}
    (hr : d.run c = .ok a c') (hn : c'.offset < n) :
    ∃ c₂', d.run c₂ = .ok a c₂' ∧ c'.Agrees n c₂' := by
  have hstays := h.stays hc (by rw [hr]; exact hn)
  rw [hr] at hstays
  exact hstays.of_ok

theorem run_fail {d : Decoder ε α} (h : Local d) (hc : c.Agrees n c₂) {f : Fault ε}
    (hr : d.run c = .fail f c') (hn : c'.offset < n) :
    ∃ f₂ c₂', d.run c₂ = .fail f₂ c₂' ∧ f.Same f₂ ∧ c'.Agrees n c₂' := by
  have hstays := h.stays hc (by rw [hr]; exact hn)
  rw [hr] at hstays
  exact hstays.of_fail

/-- A decoder that only fails, at once. -/
theorem of_fault {d : Decoder ε α} {fault : Cursor → Fault ε}
    (hd : ∀ c, d.run c = .fail (fault c) c)
    (hsame : ∀ {n c c₂}, c.Agrees n c₂ → c.offset < n → (fault c).Same (fault c₂))
    (hplace : ∀ c p, (fault c).place = some p → c.offset ≤ p.offset) : Local d where
  later {c c' f p} hr hp := by
    rw [hd] at hr
    cases hr
    exact hplace c p hp
  stays {n c c₂} hc hn := by
    rw [hd] at hn
    rw [hd, hd]
    exact .fail (hsame hc hn) hc
  fails {n c c₂ c' f p} hc hr hp hn := by
    rw [hd] at hr
    cases hr
    have hle := hplace c p hp
    exact ⟨_, _, hd c₂, hsame hc (by omega)⟩

theorem pure (a : α) : Local (Pure.pure a : Decoder ε α) where
  later hr := by cases hr
  stays hc _ := .ok hc
  fails _ hr := by cases hr

theorem peek : Local (peek : Decoder ε (Option UInt8)) where
  later hr hp := by
    obtain ⟨reason, rfl⟩ := of_run_peek_fail hr
    cases hp
  stays {n c c₂} hc hn := by
    have hle := ((Decoder.peek : Decoder ε (Option UInt8)).forward c).offset_le
    obtain ⟨b, u, r, r₂, hr, hr₂, -⟩ := hc.exists_cons (by omega)
    rw [run_peek_cons hr, run_peek_cons hr₂]
    exact .ok { offset := hc.offset, common := hc.common }
  fails {n c c₂ c' f p} _ hr hp := by
    obtain ⟨reason, rfl⟩ := of_run_peek_fail hr
    cases hp

theorem eat : Local (eat : Decoder ε Unit) where
  later hr := absurd hr run_eat_ne_fail
  stays {n c c₂} hc hn := by
    have hle := ((Decoder.eat : Decoder ε Unit).forward c).offset_le
    obtain ⟨b, u, r, r₂, hr, hr₂, hlength⟩ := hc.exists_cons (by omega)
    rw [run_eat_cons hr, run_eat_cons hr₂]
    refine .ok { offset := ?_, common := ⟨u, r, r₂, rfl, rfl, ?_⟩ }
    · simp [hc.offset]
    · simp only
      omega
  fails _ hr := absurd hr run_eat_ne_fail

theorem failNext (cause : Cause ε) : Local (failNext cause : Decoder ε α) := by
  refine of_fault (fun _ => rfl) (fun {n c c₂} hc hn => ⟨rfl, ?_⟩) ?_
  · obtain ⟨b, u, r, r₂, hr, hr₂, -⟩ := hc.exists_cons hn
    simp [Cursor.next, hr, hr₂, hc.offset]
  · rintro c p ⟨⟩
    exact c.offset_le_next

theorem failHere (cause : Cause ε) (back : Nat) : Local (failHere cause back : Decoder ε α) := by
  refine of_fault (fun _ => rfl) (fun {n c c₂} hc _ => ⟨rfl, ?_⟩) ?_
  · simp [Cursor.here, hc.offset]
  · rintro c p ⟨⟩
    exact Nat.le_refl _

theorem failAnywhere (cause : Cause ε) : Local (failAnywhere cause : Decoder ε α) := by
  refine of_fault (fun _ => rfl) (fun _ _ => ⟨rfl, rfl⟩) ?_
  rintro c p ⟨⟩

/-- The fault of `failAfter` depends on what the decoder before it comes to. -/
theorem failAfter {d : Decoder ε α} (h : Local d) (cause : Option α → Cause ε) :
    Local (failAfter d cause : Decoder ε β) := by
  have hstays : ∀ {n c c₂}, c.Agrees n c₂ →
      ((Decoder.failAfter d cause : Decoder ε β).run c).cursor.offset < n →
      ((Decoder.failAfter d cause : Decoder ε β).run c).Agrees n
        ((Decoder.failAfter d cause : Decoder ε β).run c₂) := by
    intro n c c₂ hc hn
    simp only [Decoder.failAfter] at hn ⊢
    cases hr : d.run c with
    | ok a c₁ =>
      rw [hr] at hn
      obtain ⟨c₂', hr₂, hc₁⟩ := h.run_ok hc hr hn
      rw [hr₂]
      exact (failNext (cause (some a))).stays hc₁ hn
    | fail f c₁ =>
      rw [hr] at hn
      obtain ⟨f₂, c₂', hr₂, -, hc₁⟩ := h.run_fail hc hr hn
      rw [hr₂]
      exact (failHere (cause none) 0).stays hc₁ hn
  refine ⟨?_, hstays, ?_⟩
  · intro c c' f p hr hp
    obtain ⟨hreach, o, q, rfl, hq⟩ := of_run_failAfter_fail hr
    cases hp
    exact Nat.le_trans hreach.offset_le (c'.offset_le_of_next_or_here hq)
  · intro n c c₂ c' f p hc hr hp hn
    obtain ⟨-, o, q, rfl, hq⟩ := of_run_failAfter_fail hr
    cases hp
    have hle := c'.offset_le_of_next_or_here hq
    have hagrees := hstays hc (by rw [hr]; exact Nat.lt_of_le_of_lt hle hn)
    rw [hr] at hagrees
    obtain ⟨f₂, c₂', hr₂, hf, -⟩ := hagrees.of_fail
    exact ⟨f₂, c₂', hr₂, hf⟩

theorem bind {d : Decoder ε α} {k : α → Decoder ε β} (hd : Local d) (hk : ∀ a, Local (k a)) :
    Local (d >>= k) where
  later {c c' f p} hr hp := by
    rcases of_run_bind_fail hr with h₁ | ⟨a, c₁, h₁, h₂⟩
    · exact hd.later h₁ hp
    · exact Nat.le_trans (reaches_of_ok h₁).offset_le ((hk a).later h₂ hp)
  stays {n c c₂} hc hn := by
    cases hr : d.run c with
    | ok a c₁ =>
      rw [run_bind_ok hr] at hn ⊢
      have hle := ((k a).forward c₁).offset_le
      obtain ⟨c₂', hr₂, hc₁⟩ := hd.run_ok hc hr (by omega)
      rw [run_bind_ok hr₂]
      exact (hk a).stays hc₁ hn
    | fail f c₁ =>
      rw [run_bind_fail hr] at hn ⊢
      obtain ⟨f₂, c₂', hr₂, hf, hc₁⟩ := hd.run_fail hc hr hn
      rw [run_bind_fail hr₂]
      exact .fail hf hc₁
  fails {n c c₂ c' f p} hc hr hp hn := by
    rcases of_run_bind_fail hr with h₁ | ⟨a, c₁, h₁, h₂⟩
    · obtain ⟨f₂, c₂', hr₂, hf⟩ := hd.fails hc h₁ hp hn
      exact ⟨f₂, c₂', run_bind_fail hr₂, hf⟩
    · -- The first part ends no later than where the fault is seen.
      have hle := (hk a).later h₂ hp
      obtain ⟨c₂', hr₂, hc₁⟩ := hd.run_ok hc h₁ (by omega)
      obtain ⟨f₂, c₂'', hr₃, hf⟩ := (hk a).fails hc₁ h₂ hp hn
      exact ⟨f₂, c₂'', (run_bind_ok hr₂).trans hr₃, hf⟩

/-- A fault that gets its place at the end of a run has it where both runs stand. -/
theorem placed {d : Decoder ε α} (h : Local d) : Local (placed d) where
  later {c c' f p} hr hp := by
    obtain ⟨f₁, h₁, rfl⟩ := of_run_placed_fail hr
    cases hf : f₁.place with
    | some q =>
      rw [Fault.placeAt_of_some hf] at hp
      exact h.later h₁ hp
    | none =>
      rw [Fault.placeAt_of_none hf] at hp
      cases hp
      exact (reaches_of_fail h₁).offset_le
  stays {n c c₂} hc hn := by
    simp only [Decoder.placed] at hn ⊢
    cases hr : d.run c with
    | ok a c₁ =>
      rw [hr] at hn
      obtain ⟨c₂', hr₂, hc₁⟩ := h.run_ok hc hr hn
      rw [hr₂]
      exact .ok hc₁
    | fail f c₁ =>
      rw [hr] at hn
      obtain ⟨f₂, c₂', hr₂, hf, hc₁⟩ := h.run_fail hc hr hn
      rw [hr₂]
      exact .fail (hf.placeAt hc₁.offset) hc₁
  fails {n c c₂ c' f p} hc hr hp hn := by
    obtain ⟨f₁, h₁, rfl⟩ := of_run_placed_fail hr
    cases hf : f₁.place with
    | some q =>
      -- The fault keeps its place, wherever the two runs end.
      rw [Fault.placeAt_of_some hf] at hp ⊢
      obtain ⟨f₂, c₂', hr₂, hsame⟩ := h.fails hc h₁ hp hn
      obtain ⟨q₂, hf₂, -⟩ := hsame.exists_place hf
      refine ⟨f₂, c₂', ?_, hsame⟩
      simp [Decoder.placed, hr₂, Fault.placeAt_of_some hf₂]
    | none =>
      -- The run ends at the place, before all that is common is used up.
      rw [Fault.placeAt_of_none hf] at hp
      cases hp
      obtain ⟨f₂, c₂', hr₂, hsame, hc₁⟩ := h.run_fail hc h₁ hn
      refine ⟨f₂.placeAt c₂'.here, c₂', ?_, hsame.placeAt hc₁.offset⟩
      simp [Decoder.placed, hr₂]

/-- What closes a container after a fault does not change the fault, but has to end alike for the
place that the fault may still get. -/
theorem closing {d : Decoder ε α} {close : Decoder ε Unit} (hd : Local d) (hclose : Local close) :
    Local (closing d close) where
  later {c c' f p} hr hp := by
    rcases of_run_closing_fail hr with ⟨c₁, h₁⟩ | ⟨a, c₁, h₁, h₂⟩
    · exact hd.later h₁ hp
    · exact Nat.le_trans (reaches_of_ok h₁).offset_le (hclose.later h₂ hp)
  stays {n c c₂} hc hn := by
    simp only [Decoder.closing] at hn ⊢
    cases hr : d.run c with
    | ok a c₁ =>
      simp only [hr] at hn ⊢
      have hn' : (close.run c₁).cursor.offset < n := by
        cases hr' : close.run c₁ <;> rw [hr'] at hn <;> exact hn
      have hle := (close.forward c₁).offset_le
      obtain ⟨c₂', hr₂, hc₁⟩ := hd.run_ok hc hr (by omega)
      have hagrees := hclose.stays hc₁ hn'
      rw [hr₂]
      simp only
      generalize close.run c₁ = o, close.run c₂' = o₂ at hagrees
      cases hagrees with
      | ok h => exact .ok h
      | fail hf h => exact .fail hf h
    | fail f c₁ =>
      simp only [hr] at hn ⊢
      have hle := (close.forward c₁).offset_le
      obtain ⟨f₂, c₂', hr₂, hf, hc₁⟩ := hd.run_fail hc hr (Nat.lt_of_le_of_lt hle hn)
      rw [hr₂]
      exact .fail hf (hclose.stays hc₁ hn).cursor
  fails {n c c₂ c' f p} hc hr hp hn := by
    rcases of_run_closing_fail hr with ⟨c₁, h₁⟩ | ⟨a, c₁, h₁, h₂⟩
    · obtain ⟨f₂, c₂', hr₂, hf⟩ := hd.fails hc h₁ hp hn
      refine ⟨f₂, (close.run c₂').cursor, ?_, hf⟩
      simp only [Decoder.closing, hr₂]
    · have hle := hclose.later h₂ hp
      obtain ⟨c₂', hr₂, hc₁⟩ := hd.run_ok hc h₁ (by omega)
      obtain ⟨f₂, c₂'', hr₃, hf⟩ := hclose.fails hc₁ h₂ hp hn
      refine ⟨f₂, c₂'', ?_, hf⟩
      simp only [Decoder.closing, hr₂, hr₃]

theorem iterate {round : σ → Decoder ε (Round σ β)} {advances : Advances round}
    (h : ∀ s, Local (round s)) (s : σ) : Local (iterate round advances s) where
  later {c c' f p} hr hp := by
    obtain ⟨s₁, c₁, hreach, h₁⟩ := of_run_iterate_fail hr
    exact Nat.le_trans hreach.offset_le ((h s₁).later h₁ hp)
  stays {n c c₂} hc hn := by
    change (iterateFrom round advances s c).Agrees n (iterateFrom round advances s c₂)
    change (iterateFrom round advances s c).cursor.offset < n at hn
    -- The rounds of the first run lead; each of them ends before the whole run does.
    fun_induction iterateFrom round advances s c generalizing c₂ with
    | case1 s c s' c₁ h₁ ih =>
      have hle := (reaches_iterateFrom round advances s' c₁).offset_le
      obtain ⟨c₂', hr₂, hc₁⟩ := (h s).run_ok hc h₁ (by omega)
      rw [iterateFrom_again hr₂]
      exact ih hc₁ hn
    | case2 s c b c₁ h₁ =>
      obtain ⟨c₂', hr₂, hc₁⟩ := (h s).run_ok hc h₁ hn
      rw [iterateFrom_done hr₂]
      exact .ok hc₁
    | case3 s c f c₁ h₁ =>
      obtain ⟨f₂, c₂', hr₂, hf, hc₁⟩ := (h s).run_fail hc h₁ hn
      rw [iterateFrom_fail hr₂]
      exact .fail hf hc₁
  fails {n c c₂ c' f p} hc hr hp hn := by
    change iterateFrom round advances s c = .fail f c' at hr
    change ∃ f₂ c₂', iterateFrom round advances s c₂ = .fail f₂ c₂' ∧ f.Same f₂
    fun_induction iterateFrom round advances s c generalizing c₂ with
    | case1 s c s' c₁ h₁ ih =>
      obtain ⟨s₂, c₃, hreach, h₂⟩ :=
        of_run_iterate_fail (show (Decoder.iterate round advances s').run c₁ = .fail f c' from hr)
      have hle := Nat.le_trans hreach.offset_le ((h s₂).later h₂ hp)
      obtain ⟨c₂', hr₂, hc₁⟩ := (h s).run_ok hc h₁ (by omega)
      rw [iterateFrom_again hr₂]
      exact ih hc₁ hr
    | case2 => cases hr
    | case3 s c f₁ c₁ h₁ =>
      cases hr
      obtain ⟨f₂, c₂', hr₂, hf⟩ := (h s).fails hc h₁ hp hn
      exact ⟨f₂, c₂', iterateFrom_fail hr₂, hf⟩

end Local

/-- Every composed decoder looks no further than one byte beyond those that it has used up. -/
theorem Composed.local {d : Decoder ε α} (h : Composed texts d) : Local d := by
  induction h with
  | pure a => exact .pure a
  | peek => exact .peek
  | eat => exact .eat
  | failAnywhere _ => exact .failAnywhere _
  | failHere _ => exact .failHere _ _
  | failText _ back => exact .failHere _ back
  | failNext _ => exact .failNext _
  | failAfter _ _ ih => exact .failAfter ih _
  | bind _ _ ihd ihk => exact .bind ihd ihk
  | placed _ ih => exact .placed ih
  | closing _ _ ihd ihclose => exact .closing ihd ihclose
  | iterate _ s ih => exact .iterate ih s

end Decoder

/-! ## Lines -/

/-- The line that the byte at `i` is on begins at `start`: there the document begins or a line feed
comes before, and none comes between the two. -/
structure StartsLine (bytes : List UInt8) (i start : Nat) : Prop where
  le : start ≤ i
  first : start = 0 ∨ bytes[start - 1]? = some '\n'.toUInt8
  within : '\n'.toUInt8 ∉ (bytes.take i).drop start

/-- The column counts the bytes since the line began. -/
theorem Position.exists_startsLine (bytes : List UInt8) {i : Nat} (h : i ≤ bytes.length) :
    ∃ start, StartsLine bytes i start ∧ (after (bytes.take i)).column = i - start := by
  induction i with
  | zero => exact ⟨0, ⟨Nat.le_refl 0, .inl rfl, by simp⟩, rfl⟩
  | succ i ih =>
    have htake : bytes.take (i + 1) = bytes.take i ++ [bytes[i]] := by simp
    rw [htake, after_concat]
    by_cases hb : bytes[i] = '\n'.toUInt8
    · refine ⟨i + 1, ⟨Nat.le_refl _, .inr ?_, ?_⟩, ?_⟩
      · rw [Nat.add_sub_cancel, List.getElem?_eq_getElem h, hb]
      · simp
      · rw [Nat.sub_self, hb]
        rfl
    · obtain ⟨start, hstart, hcolumn⟩ := ih (Nat.le_of_succ_le h)
      have hle := hstart.le
      refine ⟨start, ⟨by omega, hstart.first, ?_⟩, ?_⟩
      · have hlength : start ≤ (bytes.take i).length := by rw [List.length_take]; omega
        rw [htake, List.drop_append_of_le_length hlength, List.mem_append, List.mem_singleton]
        rintro (hmem | heq)
        · exact hstart.within hmem
        · exact hb heq.symm
      · have hstep : ((after (bytes.take i)).step bytes[i]).column =
            (after (bytes.take i)).column + 1 := by
          unfold step
          rw [show (10 : UInt8) = '\n'.toUInt8 from rfl, if_neg hb]
        rw [hstep, hcolumn]
        omega

end Findings.Json

namespace Findings

open Json

/-- A text that is refused is refused at a place in it, whose line and column are told, and what
comes after the byte at that place does not bear on it: every text that begins with the same bytes
is refused in the same words. -/
theorem Report.ofText_error_local (text : String) (e : Refusal)
    (h : Report.ofText text = .error e) :
    ∃ (words : String) (i start : Nat), i ≤ (Stream.ofText text).bytes.length ∧
      StartsLine (Stream.ofText text).bytes i start ∧
      e.text = words ++ " at line " ++
        toString (1 + ((Stream.ofText text).bytes.take i).count '\n'.toUInt8) ++
        " column " ++ toString (i - start) ∧
      (i < (Stream.ofText text).bytes.length → ∀ text' : String,
        (Stream.ofText text').bytes.take (i + 1) = (Stream.ofText text).bytes.take (i + 1) →
        Report.ofText text' = .error e) := by
  rw [Report.ofText_eq_decode, Decoder.decode_eq_error_iff] at h
  obtain ⟨f, c, hr, he⟩ := h
  obtain ⟨p, hp, hinside, htold⟩ := Report.exists_place hr
  have hle : p.offset ≤ (Stream.ofText text).bytes.length :=
    Nat.le_trans (p.offset_le_count .stream) hinside
  obtain ⟨start, hstart, hcolumn⟩ := Position.exists_startsLine _ hle
  rw [Stream.delivered_ofText, htold] at he
  refine ⟨f.cause.message Draft.Problem.message, p.offset, start, hle, hstart, ?_, ?_⟩
  · rw [← he, Refusal.text, Diagnostic.message_eq rfl, Position.words, Place.count,
      Position.line_after, hcolumn]
    simp only [String.append_assoc]
    rfl
  · intro hlt text' hcommon
    obtain ⟨f₂, c₂, hr₂, hsame⟩ := Report.composed_decoder.whole.local.fails
      (Cursor.agrees_start hlt hcommon) hr hp (Nat.lt_succ_self _)
    obtain ⟨p₂, hp₂, -, htold₂⟩ := Report.exists_place hr₂
    obtain ⟨q, hq, hoffset⟩ := hsame.exists_place hp
    rw [hp₂, Option.some.injEq] at hq
    subst hq
    have htake := congrArg (List.take p.offset) hcommon
    rw [List.take_take, List.take_take, Nat.min_eq_left (Nat.le_succ _)] at htake
    rw [Report.ofText_eq_decode, Decoder.decode_eq_error_iff]
    refine ⟨f₂, c₂, hr₂, ?_⟩
    rw [Stream.delivered_ofText, htold₂, ← he, hsame.cause, Place.count, Place.count, hoffset,
      htake]

/-- An empty report with a letter after it, on its second line. -/
theorem Report.ofText_letter_local :
    Report.ofText "[\n]x " =
        .error { cause := .trailingCharacters, position := some { line := 2, column := 2 } } ∧
      ∃ i ≤ (Stream.ofText "[\n]x ").bytes.length,
        (i < (Stream.ofText "[\n]x ").bytes.length → ∀ text' : String,
          (Stream.ofText text').bytes.take (i + 1) = (Stream.ofText "[\n]x ").bytes.take (i + 1) →
          Report.ofText text' = .error
            { cause := .trailingCharacters, position := some { line := 2, column := 2 } }) := by
  have h : Report.ofText "[\n]x " =
      .error { cause := .trailingCharacters, position := some { line := 2, column := 2 } } := by cbv
  obtain ⟨-, i, -, hi, -, -, hlocal⟩ := Report.ofText_error_local "[\n]x " _ h
  exact ⟨h, i, hi, hlocal⟩

end Findings
