/-!
# UTF-8

Characters as bytes and bytes as characters. `encode` writes characters, and `decode` reads as many
characters as there are and says which bytes begin no character, so that a reader can tell how much
of a text was sound.

Main statement: what `encode` writes `decode` reads, with nothing left (`decode_encode`).

## Why reading ends

Every character takes at least one byte (`length_of_decodeChar?`).
-/

namespace Findings.Text.Utf8

/-! ## Writing -/

/-- A byte that continues a character: it holds the lowest six bits of `n`. -/
def tailByte (n : Nat) : UInt8 :=
  UInt8.ofNat (0x80 + n % 64)

/-- The bytes of one character. -/
def encodeChar (c : Char) : List UInt8 :=
  let n := c.toNat
  if n < 0x80 then [UInt8.ofNat n]
  else if n < 0x800 then [UInt8.ofNat (0xC0 + n / 64), tailByte n]
  else if n < 0x10000 then [UInt8.ofNat (0xE0 + n / 4096), tailByte (n / 64), tailByte n]
  else [UInt8.ofNat (0xF0 + n / 262144), tailByte (n / 4096), tailByte (n / 64), tailByte n]

/-- The bytes of a list of characters. -/
def encode (cs : List Char) : List UInt8 :=
  cs.flatMap encodeChar

@[simp] theorem encode_nil : encode [] = [] := rfl

@[simp] theorem encode_cons (c : Char) (cs : List Char) :
    encode (c :: cs) = encodeChar c ++ encode cs := rfl

/-! ## Reading -/

/-- What the first byte of a character says. -/
structure Lead where
  /-- How many bytes follow. -/
  tails : Nat
  /-- The highest bits of the character. -/
  bits : Nat
  /-- The least character that needs that many bytes. -/
  least : Nat

/-- The first byte of a character. -/
def lead? (b : UInt8) : Option Lead :=
  let n := b.toNat
  if n < 0x80 then some { tails := 0, bits := n, least := 0 }
  else if n < 0xC0 then none
  else if n < 0xE0 then some { tails := 1, bits := n - 0xC0, least := 0x80 }
  else if n < 0xF0 then some { tails := 2, bits := n - 0xE0, least := 0x800 }
  else if n < 0xF8 then some { tails := 3, bits := n - 0xF0, least := 0x10000 }
  else none

/-- Reads `k` bytes that continue a character whose highest bits are `n`. -/
def readTails? : Nat → Nat → List UInt8 → Option (Nat × List UInt8)
  | 0, n, r => some (n, r)
  | _ + 1, _, [] => none
  | k + 1, n, b :: r =>
    if 0x80 ≤ b.toNat ∧ b.toNat < 0xC0 then readTails? k (n * 64 + (b.toNat - 0x80)) r else none

/-- The first character and the bytes after it. A character in more bytes than it needs is none. -/
def decodeChar? : List UInt8 → Option (Char × List UInt8)
  | [] => none
  | b :: r =>
    match lead? b with
    | none => none
    | some l =>
      match readTails? l.tails l.bits r with
      | none => none
      | some (n, r') => if l.least ≤ n ∧ n.isValidChar then some (Char.ofNat n, r') else none

theorem length_of_readTails? {k n m : Nat} {bytes rest : List UInt8}
    (h : readTails? k n bytes = some (m, rest)) : rest.length ≤ bytes.length := by
  fun_induction readTails? k n bytes with
  | case1 => simp_all
  | case2 => simp_all
  | case3 k n b r _ ih => exact Nat.le_trans (ih h) (by simp)
  | case4 => simp_all

/-- A character takes at least one byte. -/
theorem length_of_decodeChar? {bytes rest : List UInt8} {c : Char}
    (h : decodeChar? bytes = some (c, rest)) : rest.length < bytes.length := by
  unfold decodeChar? at h
  split at h
  · simp at h
  · split at h
    · simp at h
    · split at h
      · simp at h
      · rename_i hr
        split at h
        · simp only [Option.some.injEq, Prod.mk.injEq] at h
          have := length_of_readTails? hr
          rw [← h.2]
          simp only [List.length_cons]
          omega
        · simp at h

/-- Reads characters until none is left or the bytes begin no character; `done` holds those read
before, the last one first. -/
def decodeFrom (done : List Char) (bytes : List UInt8) : List Char × List UInt8 :=
  match _h : decodeChar? bytes with
  | none => (done.reverse, bytes)
  | some (c, rest) => decodeFrom (c :: done) rest
termination_by bytes.length
decreasing_by exact length_of_decodeChar? _h

/-- The characters that the bytes begin with, and the bytes that follow them. -/
def decode (bytes : List UInt8) : List Char × List UInt8 :=
  decodeFrom [] bytes

/-! ## Reading what was written -/

theorem toNat_tailByte (n : Nat) : (tailByte n).toNat = 0x80 + n % 64 := by
  simp only [tailByte, UInt8.toNat_ofNat']
  omega

theorem readTails?_tailByte (k n m : Nat) (r : List UInt8) :
    readTails? (k + 1) n (tailByte m :: r) = readTails? k (n * 64 + m % 64) r := by
  rw [readTails?, toNat_tailByte, if_pos (by omega), Nat.add_sub_cancel_left]

theorem toNat_lt (c : Char) : c.toNat < 0x110000 := by
  have h : c.toNat < 0xD800 ∨ 0xDFFF < c.toNat ∧ c.toNat < 0x110000 := c.valid
  omega

/-- Where the bytes after the first give the lowest bits of a character, it is read. -/
theorem decodeChar?_eq_some {b : UInt8} {bytes r : List UInt8} {l : Lead} {c : Char}
    (hb : lead? b = some l) (hr : readTails? l.tails l.bits bytes = some (c.toNat, r))
    (hl : l.least ≤ c.toNat) : decodeChar? (b :: bytes) = some (c, r) := by
  have hv : c.toNat.isValidChar := c.valid
  simp [decodeChar?, hb, hr, hl, hv]

/-- The first character is the one that was written first. -/
theorem decodeChar?_encodeChar (c : Char) (r : List UInt8) :
    decodeChar? (encodeChar c ++ r) = some (c, r) := by
  have hlt := toNat_lt c
  unfold encodeChar
  simp only
  split
  · rename_i h
    have hb : (UInt8.ofNat c.toNat).toNat = c.toNat := by
      simp only [UInt8.toNat_ofNat']; omega
    refine decodeChar?_eq_some (l := { tails := 0, bits := c.toNat, least := 0 }) ?_ rfl (by simp)
    simp only [lead?, hb]
    rw [if_pos h]
  · split
    · rename_i h₁ h₂
      have hb : (UInt8.ofNat (0xC0 + c.toNat / 64)).toNat = 0xC0 + c.toNat / 64 := by
        simp only [UInt8.toNat_ofNat']; omega
      refine decodeChar?_eq_some (l := { tails := 1, bits := c.toNat / 64, least := 0x80 })
        ?_ ?_ (by simp only; omega)
      · simp only [lead?, hb]
        rw [if_neg (by omega), if_neg (by omega), if_pos (by omega), Nat.add_sub_cancel_left]
      · refine (readTails?_tailByte 0 _ _ _).trans ?_
        rw [readTails?, show c.toNat / 64 * 64 + c.toNat % 64 = c.toNat by omega]
        rfl
    · split
      · rename_i h₁ h₂ h₃
        have hb : (UInt8.ofNat (0xE0 + c.toNat / 4096)).toNat = 0xE0 + c.toNat / 4096 := by
          simp only [UInt8.toNat_ofNat']; omega
        refine decodeChar?_eq_some (l := { tails := 2, bits := c.toNat / 4096, least := 0x800 })
          ?_ ?_ (by simp only; omega)
        · simp only [lead?, hb]
          rw [if_neg (by omega), if_neg (by omega), if_neg (by omega), if_pos (by omega),
            Nat.add_sub_cancel_left]
        · refine (readTails?_tailByte 1 _ _ _).trans ((readTails?_tailByte 0 _ _ _).trans ?_)
          rw [readTails?, show (c.toNat / 4096 * 64 + c.toNat / 64 % 64) * 64 + c.toNat % 64
            = c.toNat by omega]
          rfl
      · rename_i h₁ h₂ h₃
        have hb : (UInt8.ofNat (0xF0 + c.toNat / 262144)).toNat = 0xF0 + c.toNat / 262144 := by
          simp only [UInt8.toNat_ofNat']; omega
        refine decodeChar?_eq_some (l := { tails := 3, bits := c.toNat / 262144, least := 0x10000 })
          ?_ ?_ (by simp only; omega)
        · simp only [lead?, hb]
          rw [if_neg (by omega), if_neg (by omega), if_neg (by omega), if_neg (by omega),
            if_pos (by omega), Nat.add_sub_cancel_left]
        · refine (readTails?_tailByte 2 _ _ _).trans
            ((readTails?_tailByte 1 _ _ _).trans ((readTails?_tailByte 0 _ _ _).trans ?_))
          rw [readTails?, show ((c.toNat / 262144 * 64 + c.toNat / 4096 % 64) * 64
            + c.toNat / 64 % 64) * 64 + c.toNat % 64 = c.toNat by omega]
          rfl

theorem decodeFrom_encode (done cs : List Char) :
    decodeFrom done (encode cs) = (done.reverse ++ cs, []) := by
  induction cs generalizing done with
  | nil =>
    rw [decodeFrom]
    simp [decodeChar?]
  | cons c cs ih =>
    rw [decodeFrom]
    split
    · rename_i h
      simp [decodeChar?_encodeChar] at h
    · rename_i h
      simp only [encode_cons, decodeChar?_encodeChar, Option.some.injEq, Prod.mk.injEq] at h
      rw [← h.1, ← h.2, ih]
      simp

/-- What was written is read, and nothing is left. -/
theorem decode_encode (cs : List Char) : decode (encode cs) = (cs, []) := by
  simpa [decode] using decodeFrom_encode [] cs

end Findings.Text.Utf8
