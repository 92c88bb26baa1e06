import Findings.Text.Utf8

/-!
# Bytes that are UTF-8

`decode` reads all bytes exactly if `encode` wrote them (`decode_eq_iff`). A byte of ASCII is a
character of its own, so bytes on both sides of one are UTF-8 if the whole is (`of_encode_split`).
-/

namespace Findings.Text.Utf8

/-! ## The bytes of a character -/

/-- Whether a byte continues a character. -/
def IsTail (b : UInt8) : Prop :=
  0x80 ≤ b.toNat ∧ b.toNat < 0xC0

theorem isTail_tailByte (n : Nat) : IsTail (tailByte n) := by
  rw [IsTail, toNat_tailByte]
  omega

theorem encodeChar_of_lt {c : Char} (h : c.toNat < 0x80) :
    encodeChar c = [UInt8.ofNat c.toNat] := by
  simp [encodeChar, h]

/-- A character is written as one byte that continues none, and bytes that do. -/
theorem exists_encodeChar (c : Char) :
    ∃ b t, encodeChar c = b :: t ∧ ¬IsTail b ∧ ∀ x ∈ t, IsTail x := by
  have hlt := toNat_lt c
  unfold encodeChar
  simp only
  split
  · refine ⟨_, _, rfl, ?_, by simp⟩
    simp only [IsTail, UInt8.toNat_ofNat']
    omega
  · split
    · refine ⟨_, _, rfl, ?_, by simp [isTail_tailByte]⟩
      simp only [IsTail, UInt8.toNat_ofNat']
      omega
    · split
      · refine ⟨_, _, rfl, ?_, by simp [isTail_tailByte]⟩
        simp only [IsTail, UInt8.toNat_ofNat']
        omega
      · refine ⟨_, _, rfl, ?_, by simp [isTail_tailByte]⟩
        simp only [IsTail, UInt8.toNat_ofNat']
        omega

/-- A byte of ASCII is written by no other character. -/
theorem toNat_of_mem_encodeChar {c : Char} {b : UInt8} (hb : b.toNat < 0x80)
    (h : b ∈ encodeChar c) : c.toNat = b.toNat := by
  obtain ⟨x, t, he, -, ht⟩ := exists_encodeChar c
  by_cases hc : c.toNat < 0x80
  · rw [encodeChar_of_lt hc, List.mem_singleton] at h
    rw [h, UInt8.toNat_ofNat']
    omega
  · exfalso
    rw [he, List.mem_cons] at h
    rcases h with rfl | h
    · have hlt := toNat_lt c
      unfold encodeChar at he
      simp only [hc, if_false] at he
      split at he
      · simp only [List.cons.injEq] at he
        rw [← he.1, UInt8.toNat_ofNat'] at hb
        omega
      · split at he
        · simp only [List.cons.injEq] at he
          rw [← he.1, UInt8.toNat_ofNat'] at hb
          omega
        · simp only [List.cons.injEq] at he
          rw [← he.1, UInt8.toNat_ofNat'] at hb
          omega
    · exact absurd (ht b h).1 (by omega)

theorem encodeChar_eq_of_mem {c : Char} {b : UInt8} (hb : b.toNat < 0x80)
    (h : b ∈ encodeChar c) : encodeChar c = [b] := by
  have hc := toNat_of_mem_encodeChar hb h
  rw [encodeChar_of_lt (by omega), hc, UInt8.ofNat_toNat]

/-! ## What is read was written -/

theorem of_readTails?_succ {k n : Nat} {bytes : List UInt8} {p : Nat × List UInt8}
    (h : readTails? (k + 1) n bytes = some p) :
    ∃ m r, bytes = tailByte m :: r ∧ m < 64 ∧ readTails? k (n * 64 + m) r = some p := by
  cases bytes with
  | nil => simp [readTails?] at h
  | cons b r =>
    rw [readTails?] at h
    split at h
    · rename_i hb
      refine ⟨b.toNat - 0x80, r, ?_, by omega, h⟩
      rw [List.cons.injEq]
      refine ⟨UInt8.toNat_inj.mp ?_, rfl⟩
      rw [toNat_tailByte]
      omega
    · simp at h

theorem tailByte_congr {n m : Nat} (h : n % 64 = m % 64) : tailByte n = tailByte m := by
  rw [tailByte, tailByte, h]

theorem eq_ofNat {b : UInt8} {n : Nat} (h : b.toNat = n) : b = UInt8.ofNat n := by
  rw [← h, UInt8.ofNat_toNat]

/-- The first byte and the bits after it are those that are written. -/
theorem encodeChar_of_lead {b : UInt8} {t r : List UInt8} {l : Lead} {c : Char}
    (hl : lead? b = some l) (hr : readTails? l.tails l.bits t = some (c.toNat, r))
    (hn : l.least ≤ c.toNat) : b :: t = encodeChar c ++ r := by
  have hb := b.toNat_lt
  unfold lead? at hl
  simp only at hl
  unfold encodeChar
  -- The first byte tells how many follow, and the least number for so many tells `encodeChar`.
  split at hl
  · obtain rfl := Option.some.inj hl
    simp only [readTails?, Option.some.injEq, Prod.mk.injEq] at hr
    obtain ⟨hc, rfl⟩ := hr
    rw [if_pos (by omega), eq_ofNat hc]
    rfl
  split at hl
  · simp at hl
  split at hl
  · obtain rfl := Option.some.inj hl
    simp only at hr hn
    obtain ⟨m, t, rfl, hm, hr⟩ := of_readTails?_succ hr
    simp only [readTails?, Option.some.injEq, Prod.mk.injEq] at hr
    obtain ⟨hc, rfl⟩ := hr
    simp only
    rw [if_neg (by omega), if_pos (by omega),
      eq_ofNat (b := b) (n := 0xC0 + c.toNat / 64) (by omega),
      tailByte_congr (n := m) (m := c.toNat) (by omega)]
    rfl
  split at hl
  · obtain rfl := Option.some.inj hl
    simp only at hr hn
    obtain ⟨m, t, rfl, hm, hr⟩ := of_readTails?_succ hr
    obtain ⟨m', t, rfl, hm', hr⟩ := of_readTails?_succ hr
    simp only [readTails?, Option.some.injEq, Prod.mk.injEq] at hr
    obtain ⟨hc, rfl⟩ := hr
    simp only
    rw [if_neg (by omega), if_neg (by omega), if_pos (by omega),
      eq_ofNat (b := b) (n := 0xE0 + c.toNat / 4096) (by omega),
      tailByte_congr (n := m) (m := c.toNat / 64) (by omega),
      tailByte_congr (n := m') (m := c.toNat) (by omega)]
    rfl
  split at hl
  · obtain rfl := Option.some.inj hl
    simp only at hr hn
    obtain ⟨m, t, rfl, hm, hr⟩ := of_readTails?_succ hr
    obtain ⟨m', t, rfl, hm', hr⟩ := of_readTails?_succ hr
    obtain ⟨m'', t, rfl, hm'', hr⟩ := of_readTails?_succ hr
    simp only [readTails?, Option.some.injEq, Prod.mk.injEq] at hr
    obtain ⟨hc, rfl⟩ := hr
    simp only
    rw [if_neg (by omega), if_neg (by omega), if_neg (by omega),
      eq_ofNat (b := b) (n := 0xF0 + c.toNat / 262144) (by omega),
      tailByte_congr (n := m) (m := c.toNat / 4096) (by omega),
      tailByte_congr (n := m') (m := c.toNat / 64) (by omega),
      tailByte_congr (n := m'') (m := c.toNat) (by omega)]
    rfl
  · simp at hl

/-- A character that is read was written. -/
theorem eq_of_decodeChar? {bytes r : List UInt8} {c : Char}
    (h : decodeChar? bytes = some (c, r)) : bytes = encodeChar c ++ r := by
  cases bytes with
  | nil => simp [decodeChar?] at h
  | cons b t =>
    simp only [decodeChar?] at h
    split at h
    · simp at h
    · rename_i l hl
      split at h
      · simp at h
      · rename_i n r' hr
        split at h
        · rename_i hn
          simp only [Option.some.injEq, Prod.mk.injEq] at h
          obtain ⟨rfl, rfl⟩ := h
          have hc : (Char.ofNat n).toNat = n := by
            rw [Char.ofNat, dif_pos hn.2]
            rfl
          exact encodeChar_of_lead hl (by rw [hc]; exact hr) (by rw [hc]; exact hn.1)
        · simp at h

theorem eq_of_decodeFrom {done cs : List Char} {bytes r : List UInt8}
    (h : decodeFrom done bytes = (cs, r)) :
    ∃ cs', cs = done.reverse ++ cs' ∧ bytes = encode cs' ++ r := by
  fun_induction decodeFrom done bytes with
  | case1 done bytes hd =>
    simp only [Prod.mk.injEq] at h
    exact ⟨[], by simp [h.1], by simp [h.2]⟩
  | case2 done bytes c rest hd ih =>
    obtain ⟨cs', rfl, rfl⟩ := ih h
    exact ⟨c :: cs', by simp, by simp [eq_of_decodeChar? hd]⟩

/-- All bytes are read exactly if they were written. -/
theorem decode_eq_iff {bytes : List UInt8} {cs : List Char} :
    decode bytes = (cs, []) ↔ bytes = encode cs := by
  constructor
  · intro h
    obtain ⟨cs', rfl, rfl⟩ := eq_of_decodeFrom h
    simp
  · rintro rfl
    exact decode_encode cs

theorem encode_inj {cs cs' : List Char} (h : encode cs = encode cs') : cs = cs' := by
  have h' := decode_encode cs
  rw [h, decode_encode, Prod.mk.injEq] at h'
  exact h'.1.symm

@[simp] theorem encode_append (cs cs' : List Char) :
    encode (cs ++ cs') = encode cs ++ encode cs' := by
  simp [encode]

/-! ## Bytes around a byte of ASCII -/

/-- Bytes around a byte of ASCII are UTF-8 if all together are. -/
theorem of_encode_split {cs : List Char} {xs ys : List UInt8} {b : UInt8} (hb : b.toNat < 0x80)
    (h : encode cs = xs ++ b :: ys) : ∃ cs₁ cs₂, xs = encode cs₁ ∧ ys = encode cs₂ := by
  induction cs generalizing xs with
  | nil => simp at h
  | cons c cs ih =>
    rw [encode_cons] at h
    rcases List.append_eq_append_iff.mp h with ⟨u, rfl, hu⟩ | ⟨u, hu, hu'⟩
    · obtain ⟨cs₁, cs₂, rfl, rfl⟩ := ih hu
      exact ⟨c :: cs₁, cs₂, rfl, rfl⟩
    · cases u with
      | nil =>
        obtain ⟨cs₁, cs₂, h₁, rfl⟩ := @ih [] hu'.symm
        exact ⟨[c], cs₂, by simpa using hu.symm, rfl⟩
      | cons x u =>
        rw [List.cons_append, List.cons.injEq] at hu'
        obtain ⟨rfl, rfl⟩ := hu'
        -- The character that holds a byte of ASCII holds no other one.
        have hc := encodeChar_eq_of_mem hb (c := c) (by rw [hu]; simp)
        rw [hu, List.append_eq_singleton_iff] at hc
        rcases hc with ⟨rfl, hc⟩ | ⟨-, hc⟩
        · rw [List.cons_eq_cons] at hc
          exact ⟨[], cs, rfl, by rw [hc.2]; rfl⟩
        · simp at hc

end Findings.Text.Utf8
