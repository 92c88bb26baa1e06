import Findings.Proofs.Composed

/-!
# Where faults are seen

A position tells apart all places in a document, and a place that a fault names lies in it: not even
a reader of a stream, who may have pulled one byte more, has pulled more than there is.

Main statements: `Position.after_take_inj` and, for every composed decoder, `Composed.sound`.
-/

namespace Findings.Json

/-! ## Positions -/

namespace Position

/-- Bytes that do not change the line are all counted as columns. -/
theorem foldl_step (bytes : List UInt8) (p : Position) :
    p.line ≤ (bytes.foldl step p).line ∧
      ((bytes.foldl step p).line = p.line →
        (bytes.foldl step p).column = p.column + bytes.length) := by
  induction bytes generalizing p with
  | nil => simp
  | cons b bytes ih =>
    rw [List.foldl_cons, List.length_cons]
    obtain ⟨hline, hcolumn⟩ := ih (p.step b)
    by_cases hb : b = 10
    · have hl : (p.step b).line = p.line + 1 := by simp [step, hb]
      refine ⟨by omega, ?_⟩
      intro h
      omega
    · have hl : (p.step b).line = p.line := by simp [step, hb]
      have hc : (p.step b).column = p.column + 1 := by simp [step, hb]
      refine ⟨by omega, ?_⟩
      intro h
      rw [hcolumn (h.trans hl.symm), hc]
      omega

theorem after_append (xs ys : List UInt8) : after (xs ++ ys) = ys.foldl step (after xs) := by
  unfold after
  rw [List.foldl_append]

theorem eq_nil_of_after_append {xs ys : List UInt8} (h : after (xs ++ ys) = after xs) :
    ys = [] := by
  rw [after_append] at h
  obtain ⟨-, hcolumn⟩ := foldl_step ys (after xs)
  rw [h] at hcolumn
  have hlength := hcolumn rfl
  exact List.length_eq_zero_iff.mp (by omega)

/-- Two places of a document have two positions. -/
theorem after_take_inj {bytes : List UInt8} {i j : Nat} (hi : i ≤ bytes.length)
    (hj : j ≤ bytes.length) (h : after (bytes.take i) = after (bytes.take j)) : i = j := by
  have aux : ∀ {i j : Nat}, i ≤ j → j ≤ bytes.length →
      after (bytes.take i) = after (bytes.take j) → i = j := by
    intro i j hij hj h
    obtain ⟨k, rfl⟩ := Nat.exists_eq_add_of_le hij
    rw [List.take_add] at h
    have hnil := congrArg List.length (eq_nil_of_after_append h.symm)
    rw [List.length_take, List.length_drop, List.length_nil] at hnil
    omega
  rcases Nat.le_total i j with hij | hji
  · exact aux hij hj h
  · exact (aux hji hi h.symm).symm

end Position

/-! ## Places -/

namespace Place

theorem offset_le_count (p : Place) (source : Source) : p.offset ≤ p.count source := by
  cases source with
  | text => exact Nat.le_refl _
  | stream =>
    unfold count
    simp only
    split <;> omega

theorem count_le_succ_offset (p : Place) (source : Source) : p.count source ≤ p.offset + 1 := by
  cases source with
  | text => exact Nat.le_succ _
  | stream =>
    unfold count
    simp only
    split <;> omega

theorem position_of_back_eq_zero {p : Place} (h : p.back = 0) (source : Source)
    (bytes : List UInt8) :
    p.position source bytes = Position.after (bytes.take (p.count source)) := by
  unfold position
  rw [h]
  rfl

end Place

theorem Cursor.count_here_le (c : Cursor) : c.here.count .stream ≤ c.offset + c.unread.length := by
  unfold Cursor.here Place.count
  cases hr : c.rest with
  | nil => simp
  | cons b r =>
    rw [unread_of_rest_cons hr]
    simp only [List.length_cons]
    split <;> omega

theorem Cursor.count_next_le (c : Cursor) : c.next.count .stream ≤ c.offset + c.unread.length := by
  unfold Cursor.next Place.count
  cases hr : c.rest with
  | nil => simp
  | cons b r => simp [unread_of_rest_cons hr]

/-! ## Faults of composed decoders -/

/-- What is known of a fault in a document of `total` bytes. -/
structure Fault.Sound {ε : Type} (texts : Prop) (total : Nat) (f : Fault ε) : Prop where
  /-- Its place lies in the document. -/
  inside : ∀ p, f.place = some p → p.count .stream ≤ total
  /-- Only a text that is refused for its bytes has its fault told before the place. -/
  unmoved : f.cause.isBadUnicode = false → ∀ p, f.place = some p → p.back = 0
  /-- A text is refused for its bytes only where texts are read. -/
  legible : f.cause.isBadUnicode = true → texts

/-- A place that is given to a fault later must lie in the document as well. -/
theorem Fault.Sound.placeAt {ε : Type} {texts : Prop} {total : Nat} {f : Fault ε}
    (h : f.Sound texts total) {p : Place} (hp : p.count .stream ≤ total) (hback : p.back = 0) :
    (f.placeAt p).Sound texts total := by
  obtain ⟨cause, place⟩ := f
  cases place with
  | some q => exact h
  | none =>
    refine ⟨?_, ?_, h.legible⟩
    · intro q hq
      cases hq
      exact hp
    · intro _ q hq
      cases hq
      exact hback

namespace Decoder

variable {ε α : Type} {texts : Prop}

/-- A fault that has no place yet. -/
theorem sound_of_cause {total : Nat} {cause : Cause ε} (h : cause.isBadUnicode = false) :
    Fault.Sound texts total { cause, place := none } where
  inside := by
    intro q hq
    cases hq
  unmoved := by
    intro _ q hq
    cases hq
  legible := by
    intro hc
    rw [h] at hc
    cases hc

/-- A fault that is seen at once. -/
theorem sound_of_place {c : Cursor} {cause : Cause ε} (h : cause.isBadUnicode = false) {p : Place}
    (hp : p.count .stream ≤ c.offset + c.unread.length) (hback : p.back = 0) :
    Fault.Sound texts (c.offset + c.unread.length) { cause, place := some p } where
  inside := by
    intro q hq
    cases hq
    exact hp
  unmoved := by
    intro _ q hq
    cases hq
    exact hback
  legible := by
    intro hc
    rw [h] at hc
    cases hc

/-- Every fault of a composed decoder is sound, whatever is left of the document. -/
theorem Composed.sound {d : Decoder ε α} (h : Composed texts d) {c c' : Cursor} {f : Fault ε}
    (hr : d.run c = .fail f c') : f.Sound texts (c.offset + c.unread.length) := by
  -- Going forward keeps the number of bytes used up or unread, so later cursors give the same
  -- bound.
  induction h generalizing c c' f with
  | pure a => cases hr
  | peek =>
    obtain ⟨reason, rfl⟩ := of_run_peek_fail hr
    exact sound_of_cause rfl
  | eat => exact absurd hr run_eat_ne_fail
  | failAnywhere h =>
    cases hr
    exact sound_of_cause h
  | failHere h =>
    cases hr
    exact sound_of_place h c.count_here_le rfl
  | failText h back =>
    cases hr
    refine ⟨?_, ?_, fun _ => h⟩
    · intro p hp
      cases hp
      exact c.count_here_le
    · intro hc
      cases hc
  | failNext h =>
    cases hr
    exact sound_of_place h c.count_next_le rfl
  | failAfter hd h ih =>
    obtain ⟨hreach, o, p, rfl, hp⟩ := of_run_failAfter_fail hr
    rw [← hreach.total]
    rcases hp with rfl | rfl
    · exact sound_of_place (h o) c'.count_next_le rfl
    · exact sound_of_place (h o) c'.count_here_le rfl
  | bind hd hk ihd ihk =>
    rcases of_run_bind_fail hr with h₁ | ⟨a, c₁, h₁, h₂⟩
    · exact ihd h₁
    · rw [← (reaches_of_ok h₁).total]
      exact ihk a h₂
  | placed hd ih =>
    -- A fault that has no place yet gets that of the cursor where the run ended.
    obtain ⟨f₁, h₁, rfl⟩ := of_run_placed_fail hr
    have hplace := c'.count_here_le
    rw [(reaches_of_fail h₁).total] at hplace
    exact (ih h₁).placeAt hplace rfl
  | closing hd hclose ihd ihclose =>
    rcases of_run_closing_fail hr with ⟨c₁, h₁⟩ | ⟨a, c₁, h₁, h₂⟩
    · exact ihd h₁
    · rw [← (reaches_of_ok h₁).total]
      exact ihclose h₂
  | iterate hround s ih =>
    obtain ⟨s₁, c₁, hreach, h₁⟩ := of_run_iterate_fail hr
    rw [← hreach.total]
    exact ih s₁ h₁

end Decoder

end Findings.Json
