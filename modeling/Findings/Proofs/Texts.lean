import Findings.Proofs.Tokens
import Findings.Proofs.Utf8

/-!
# Texts are read as the grammar has them

A reader of a text assembles bytes and looks for characters in them only at the end. `RawText` is
what it assembles; the characters are found again because an escape begins with a byte that
continues no character (`rawText_encode_iff`).
-/

namespace Findings.Json

open Text.Utf8 (encode encodeChar)

/-! ## Escapes -/

/-- What holds of the numbers below 256 as bytes holds of every byte. -/
theorem forall_byte {P : UInt8 → Prop} (h : ∀ k < 256, P (UInt8.ofNat k)) (b : UInt8) : P b := by
  have hb := h b.toNat b.toNat_lt
  rwa [UInt8.ofNat_toNat] at hb

theorem hexValue?_eq_some_iff {b : UInt8} {n : Nat} : hexValue? b = some n ↔ HexDigit n b := by
  constructor
  · intro h
    have all : ∀ b : UInt8, ∀ n ∈ hexValue? b,
        n < 16 ∧ (b = n.digitChar.toUInt8 ∨ b = n.digitChar.toUpper.toUInt8) :=
      forall_byte (by decide +kernel)
    exact all b n h
  · have digit : ∀ n < 16, hexValue? n.digitChar.toUInt8 = some n ∧
        hexValue? n.digitChar.toUpper.toUInt8 = some n := by
      decide
    rintro ⟨hn, rfl | rfl⟩
    · exact (digit n hn).1
    · exact (digit n hn).2

theorem hexNumber?_eq_some_iff {a b c d : UInt8} {n : Nat} :
    hexNumber? a b c d = some n ↔ HexText n [a, b, c, d] := by
  simp only [hexNumber?, bind, Option.bind_eq_some_iff, hexValue?_eq_some_iff, pure,
    Option.some.injEq]
  constructor
  · rintro ⟨n₁, h₁, n₂, h₂, n₃, h₃, n₄, h₄, rfl⟩
    have h := HexText.quad h₁ h₂ h₃ h₄
    rwa [show ((n₁ * 16 + n₂) * 16 + n₃) * 16 + n₄
      = n₁ * 4096 + n₂ * 256 + n₃ * 16 + n₄ by omega]
  · intro h
    cases h with
    | quad h₁ h₂ h₃ h₄ => exact ⟨_, h₁, _, h₂, _, h₃, _, h₄, by omega⟩

theorem HexText.lt {n : Nat} {u : List UInt8} (h : HexText n u) : n < 0x10000 := by
  cases h with
  | quad h₁ h₂ h₃ h₄ =>
    have := h₁.1
    have := h₂.1
    have := h₃.1
    have := h₄.1
    omega

theorem escaped?_eq_some_iff {b : UInt8} {c : Char} :
    escaped? b = some c ↔ ∃ l, (l, c) ∈ shortEscapes ∧ b = l.toUInt8 := by
  constructor
  · intro h
    have found : ∀ l d, (l, d) ∈ shortEscapes → b = l.toUInt8 → some d = some c →
        ∃ l, (l, c) ∈ shortEscapes ∧ b = l.toUInt8 := by
      intro l d hl hb hd
      cases hd
      exact ⟨l, hl, hb⟩
    unfold escaped? at h
    split at h
    · next hb => exact found '"' '"' (by decide) hb h
    split at h
    · next hb => exact found '\\' '\\' (by decide) hb h
    split at h
    · next hb => exact found '/' '/' (by decide) hb h
    split at h
    · next hb => exact found 'b' '\x08' (by decide) hb h
    split at h
    · next hb => exact found 'f' '\x0c' (by decide) hb h
    split at h
    · next hb => exact found 'n' '\n' (by decide) hb h
    split at h
    · next hb => exact found 'r' '\r' (by decide) hb h
    split at h
    · next hb => exact found 't' '\t' (by decide) hb h
    · cases h
  · have each : ∀ e ∈ shortEscapes, escaped? e.1.toUInt8 = some e.2 := by
      decide
    rintro ⟨l, hl, rfl⟩
    exact each (l, c) hl

theorem toNat_ofNat {n : Nat} (h : n.isValidChar) : (Char.ofNat n).toNat = n := by
  rw [Char.ofNat, dif_pos h]
  rfl

/-- What follows the first unit of a character by number. -/
inductive UnitFollows (n : Nat) : List UInt8 → Char → List UInt8 → Prop
  | single {bs : List UInt8} {c : Char} (ht : isTrailing n = false) (hl : isLeading n = false)
    (hc : c = Char.ofNat n) : UnitFollows n bs c bs
  | pair {m : Nat} {bs r v : List UInt8} {c : Char} (ht : isTrailing n = false)
    (hl : isLeading n = true) (hm : isTrailing m = true) (hv : HexText m v) (hc : c = pairChar n m)
    (hb : bs = '\\'.toUInt8 :: 'u'.toUInt8 :: (v ++ r)) : UnitFollows n bs c r

theorem isLeading_iff {n : Nat} : isLeading n = true ↔ 0xD800 ≤ n ∧ n < 0xDC00 := by
  simp only [isLeading, Bool.and_eq_true, decide_eq_true_eq]
  omega

theorem isTrailing_iff {n : Nat} : isTrailing n = true ↔ 0xDC00 ≤ n ∧ n < 0xE000 := by
  simp only [isTrailing, Bool.and_eq_true, decide_eq_true_eq]
  omega

/-- A number is that of a character unless it is a unit of a pair. -/
theorem isValidChar_iff {n : Nat} (h : n < 0x10000) :
    n.isValidChar ↔ isLeading n = false ∧ isTrailing n = false := by
  rw [← Bool.not_eq_true, ← Bool.not_eq_true, isLeading_iff, isTrailing_iff]
  unfold Nat.isValidChar
  omega

theorem toNat_pairChar {n m : Nat} (hn : isLeading n = true) (hm : isTrailing m = true) :
    (pairChar n m).toNat = 0x10000 + (n - 0xD800) * 0x400 + (m - 0xDC00) := by
  rw [isLeading_iff] at hn
  rw [isTrailing_iff] at hm
  refine toNat_ofNat ?_
  unfold Nat.isValidChar
  omega

/-- No short escape has the letter of those by number. -/
theorem ne_short {e : Char × Char} (h : e ∈ shortEscapes) : 'u'.toUInt8 ≠ e.1.toUInt8 := by
  have hall : ∀ e ∈ shortEscapes, 'u'.toUInt8 ≠ e.1.toUInt8 := by
    decide
  exact hall e h

/-- The escapes by number, taken apart after the first unit. -/
theorem escapeText_number_iff {bs r : List UInt8} {c : Char} :
    (∃ u, EscapeText c ('u'.toUInt8 :: u) ∧ bs = u ++ r) ↔
      ∃ n m, (∃ u, HexText n u ∧ bs = u ++ m) ∧ UnitFollows n m c r := by
  constructor
  · rintro ⟨u, h, rfl⟩
    generalize hx : 'u'.toUInt8 :: u = x at h
    cases h with
    | short h =>
      exact absurd (List.cons.inj hx).1 (ne_short h)
    | number h =>
      rw [List.cons.injEq] at hx
      obtain ⟨hl, ht⟩ := (isValidChar_iff h.lt).mp c.valid
      obtain ⟨-, rfl⟩ := hx
      exact ⟨_, r, ⟨u, h, rfl⟩, .single ht hl (Char.ofNat_toNat c).symm⟩
    | pair hn hm hu hv hc =>
      rw [List.cons.injEq] at hx
      obtain ⟨-, rfl⟩ := hx
      rw [← isLeading_iff] at hn
      rw [← isTrailing_iff] at hm
      refine ⟨_, _, ⟨_, hu, by rw [List.append_assoc]; rfl⟩, .pair ?_ hn hm hv ?_ rfl⟩
      · rw [← Bool.not_eq_true, isTrailing_iff]
        rw [isLeading_iff] at hn
        omega
      · rw [← toNat_pairChar hn hm] at hc
        exact Char.toNat_inj.mp hc
  · rintro ⟨n, m, ⟨u, hu, rfl⟩, hf⟩
    cases hf with
    | single ht hl hc =>
      refine ⟨u, .number ?_, rfl⟩
      rwa [hc, toNat_ofNat ((isValidChar_iff hu.lt).mpr ⟨hl, ht⟩)]
    | @pair k _ _ v _ ht hl hk hv hc hb =>
      refine ⟨u ++ '\\'.toUInt8 :: 'u'.toUInt8 :: v, ?_, by rw [hb]; simp⟩
      refine .pair (isLeading_iff.mp hl) (isTrailing_iff.mp hk) hu hv ?_
      rw [hc, toNat_pairChar hl hk]

/-- An escape that does not begin with `u` is one of the short ones. -/
theorem escapeText_cons_iff {b : UInt8} (hb : b ≠ 'u'.toUInt8) {c : Char} {u : List UInt8} :
    EscapeText c (b :: u) ↔ escaped? b = some c ∧ u = [] := by
  rw [escaped?_eq_some_iff]
  constructor
  · intro h
    generalize hx : b :: u = x at h
    cases h with
    | short h =>
      obtain ⟨rfl, rfl⟩ := List.cons.inj hx
      exact ⟨⟨_, h, rfl⟩, rfl⟩
    | number h => exact absurd (List.cons.inj hx).1 hb
    | pair => exact absurd (List.cons.inj hx).1 hb
  · rintro ⟨⟨l, hl, rfl⟩, rfl⟩
    exact .short hl

namespace Decoder

variable {ε α : Type}

theorem yields_textByte :
    Yields (textByte : Decoder ε UInt8) fun bs b r => bs = b :: r := by
  refine (yields_next.bind_eq (M := fun o m b r => o = some b ∧ r = m) fun o => ?_).congr ?_
  · cases o with
    | none => exact (refuses_failHere _ _).congr fun _ _ _ => by simp
    | some b => exact (yields_pure b).congr fun _ _ _ => by simp [eq_comm]
  · intro bs b r
    cases bs <;> simp [eq_comm]

/-- What a byte begins that is there. -/
theorem yields_textByte_bind {k : UInt8 → Decoder ε α} {P : α → List UInt8 → Prop}
    (hnil : ∀ a, ¬P a [])
    (hk : ∀ b, Yields (k b) fun bs a r => ∃ u, P a (b :: u) ∧ bs = u ++ r) :
    Yields (textByte >>= k) fun bs a r => ∃ u, P a u ∧ bs = u ++ r := by
  refine (yields_textByte.bind hk).congr fun bs a r => ?_
  constructor
  · rintro ⟨u, hu, rfl⟩
    cases u with
    | nil => exact absurd hu (hnil a)
    | cons b u => exact ⟨b, _, rfl, u, hu, rfl⟩
  · rintro ⟨b, _, rfl, u, hu, rfl⟩
    exact ⟨b :: u, hu, rfl⟩

theorem yields_hexQuad :
    Yields (hexQuad : Decoder ε Nat) fun bs n r => ∃ u, HexText n u ∧ bs = u ++ r := by
  refine (yields_textByte.bind fun a => yields_textByte.bind fun b => yields_textByte.bind fun c =>
    yields_textByte.bind (M := fun d m n r => HexText n [a, b, c, d] ∧ r = m) fun d => ?_).congr ?_
  · cases h : hexNumber? a b c d with
    | none =>
      refine (refuses_failHere _ _).congr fun _ n _ => ?_
      simp [← hexNumber?_eq_some_iff, h]
    | some k =>
      refine (yields_pure k).congr fun _ n _ => ?_
      simp [← hexNumber?_eq_some_iff, h, eq_comm]
  · intro bs n r
    constructor
    · rintro ⟨u, hu, rfl⟩
      cases hu with
      | quad h₁ h₂ h₃ h₄ =>
        exact ⟨_, _, rfl, _, _, rfl, _, _, rfl, _, _, rfl, .quad h₁ h₂ h₃ h₄, rfl⟩
    · rintro ⟨a, _, rfl, b, _, rfl, c, _, rfl, d, _, rfl, h, rfl⟩
      exact ⟨_, h, rfl⟩

theorem yields_joint (b : UInt8) :
    Yields (joint b : Decoder ε Unit) fun bs _ r => bs = b :: r := by
  refine (yields_peek.bind_eq (M := fun o m _ r => o = some b ∧ r = m.tail) fun o => ?_).congr ?_
  · cases o with
    | none => exact (refuses_failHere _ _).congr fun _ _ _ => by simp
    | some x =>
      by_cases hx : x = b
      · simp only [hx, if_true]
        exact (yields_eat_bind (yields_pure ())).congr fun _ _ _ => by simp
      · simp only [hx, if_false]
        exact (refuses_bind _ fun _ => refuses_failHere _ _).congr fun _ _ _ => by simp [hx]
  · intro bs _ r
    cases bs <;> simp [eq_comm]

/-- A character by number: one unit of UTF-16, or two. -/
theorem yields_numberedChar :
    Yields (numberedChar : Decoder ε Char) fun bs c r =>
      ∃ u, EscapeText c ('u'.toUInt8 :: u) ∧ bs = u ++ r := by
  refine (yields_hexQuad.bind (M := UnitFollows) fun n => ?_).congr fun _ _ _ =>
    escapeText_number_iff
  cases ht : isTrailing n with
  | true =>
    refine (refuses_failHere _ _).congr fun _ _ _ => ?_
    rw [iff_false]
    rintro (⟨ht', -, -⟩ | ⟨ht', -, -, -, -, -⟩)
    · simp [ht] at ht'
    · simp [ht] at ht'
  | false =>
    cases hl : isLeading n with
    | true =>
      refine ((yields_joint _).bind fun _ => (yields_joint _).bind fun _ => yields_hexQuad.bind
        (M := fun k m c r => isTrailing k = true ∧ c = pairChar n k ∧ r = m) fun k => ?_).congr ?_
      · cases hk : isTrailing k with
        | true => exact (yields_pure _).congr fun _ _ _ => by simp
        | false => exact (refuses_failHere _ _).congr fun _ _ _ => by simp
      · intro bs c r
        constructor
        · rintro (⟨-, hl', -⟩ | ⟨-, -, hk, hv, hc, rfl⟩)
          · simp [hl] at hl'
          · exact ⟨(), _, rfl, (), _, rfl, _, r, ⟨_, hv, rfl⟩, hk, hc, rfl⟩
        · rintro ⟨-, _, rfl, -, _, rfl, k, m, ⟨v, hv, rfl⟩, hk, hc, rfl⟩
          exact .pair ht hl hk hv hc rfl
    | false =>
      refine (yields_pure _).congr fun bs c r => ?_
      constructor
      · rintro (⟨-, -, hc⟩ | ⟨-, hl', -, -, -, -⟩)
        · exact ⟨hc, rfl⟩
        · simp [hl] at hl'
      · rintro ⟨hc, rfl⟩
        exact .single ht hl hc

theorem yields_escape :
    Yields (escape : Decoder ε Char) fun bs c r => ∃ u, EscapeText c u ∧ bs = u ++ r := by
  refine yields_textByte_bind (fun c h => by cases h) fun b => ?_
  by_cases hb : b = 'u'.toUInt8
  · rw [if_pos hb, hb]
    exact yields_numberedChar
  · rw [if_neg hb]
    simp only [escapeText_cons_iff hb]
    cases escaped? b with
    | none => exact (refuses_failHere _ _).congr fun _ _ _ => by simp
    | some c => exact (yields_pure c).congr fun _ _ _ => by simp [eq_comm]

end Decoder

/-! ## Texts -/

/-- The bytes that a text stands for, found without looking for characters among them. -/
inductive RawText : List UInt8 → List UInt8 → Prop
  | nil : RawText [] []
  | byte {b : UInt8} {l o : List UInt8} (hc : 0x20 ≤ b.toNat) (hq : b ≠ '"'.toUInt8)
    (hb : b ≠ '\\'.toUInt8) (t : RawText l o) : RawText (b :: l) (b :: o)
  | escape {c : Char} {u l o : List UInt8} (h : EscapeText c u) (t : RawText l o) :
    RawText ('\\'.toUInt8 :: (u ++ l)) (encodeChar c ++ o)

/-- Whether a byte stands for itself between quotes. -/
def IsPlain (b : UInt8) : Prop :=
  0x20 ≤ b.toNat ∧ b ≠ '"'.toUInt8 ∧ b ≠ '\\'.toUInt8

theorem isControl_eq_false_iff {b : UInt8} : isControl b = false ↔ 0x20 ≤ b.toNat := by
  simp [isControl, UInt8.le_iff_toNat_le]

/-- The bytes of a character that stands for itself do so. -/
theorem isPlain_of_mem {c : Char} (hc : 0x20 ≤ c.toNat) (hq : c ≠ '"') (hb : c ≠ '\\')
    {b : UInt8} (h : b ∈ encodeChar c) : IsPlain b := by
  by_cases hlt : b.toNat < 0x80
  · have hn := Text.Utf8.toNat_of_mem_encodeChar hlt h
    refine ⟨by omega, ?_, ?_⟩
    · rintro rfl
      exact hq (Char.toNat_inj.mp hn)
    · rintro rfl
      exact hb (Char.toNat_inj.mp hn)
  · refine ⟨by omega, ?_, ?_⟩
    · rintro rfl
      exact hlt (by decide)
    · rintro rfl
      exact hlt (by decide)

/-- A character stands for itself if its first byte does. -/
theorem charText_encodeChar {c : Char} {b : UInt8} {t : List UInt8} (h : encodeChar c = b :: t)
    (hb : IsPlain b) : CharText c (encodeChar c) := by
  obtain ⟨hc, hq, hs⟩ := hb
  refine .itself ?_ ?_ ?_
  · by_cases hlt : c.toNat < 0x20
    · rw [Text.Utf8.encodeChar_of_lt (by omega), List.cons.injEq] at h
      rw [← h.1, UInt8.toNat_ofNat'] at hc
      omega
    · omega
  · rintro rfl
    exact hq (List.cons.inj h).1.symm
  · rintro rfl
    exact hs (List.cons.inj h).1.symm

namespace RawText

theorem append {l o t : List UInt8} (ht : ∀ b ∈ t, IsPlain b) (h : RawText l o) :
    RawText (t ++ l) (t ++ o) := by
  induction t with
  | nil => exact h
  | cons b t ih =>
    obtain ⟨hc, hq, hb⟩ := ht b List.mem_cons_self
    exact .byte hc hq hb (ih fun x hx => ht x (List.mem_cons_of_mem _ hx))

/-- Bytes that continue a character come from themselves, since an escape is a whole character. -/
theorem of_append {l o t : List UInt8} (ht : ∀ b ∈ t, Text.Utf8.IsTail b)
    (h : RawText l (t ++ o)) : ∃ l', l = t ++ l' ∧ RawText l' o := by
  induction t generalizing l with
  | nil => exact ⟨l, rfl, h⟩
  | cons b t ih =>
    generalize hx : b :: t ++ o = x at h
    cases h with
    | nil => simp at hx
    | byte hc hq hb h =>
      rw [List.cons_append, List.cons.injEq] at hx
      obtain ⟨rfl, rfl⟩ := hx
      obtain ⟨l', rfl, h'⟩ := ih (fun x hx => ht x (List.mem_cons_of_mem _ hx)) h
      exact ⟨l', rfl, h'⟩
    | @escape c _ _ _ _ _ =>
      obtain ⟨x, u, he, hx', -⟩ := Text.Utf8.exists_encodeChar c
      rw [he, List.cons_append, List.cons_append, List.cons.injEq] at hx
      exact absurd (hx.1 ▸ ht b List.mem_cons_self) hx'

end RawText

/-- Characters stand between quotes exactly if the bytes there stand for theirs. -/
theorem rawText_encode_iff {cs : List Char} {l : List UInt8} :
    RawText l (encode cs) ↔ CharsText cs l := by
  constructor
  · intro h
    induction cs generalizing l with
    | nil =>
      generalize hx : encode [] = x at h
      cases h with
      | nil => exact .nil
      | byte => simp at hx
      | @escape c _ _ _ _ _ =>
        obtain ⟨x, u, he, -, -⟩ := Text.Utf8.exists_encodeChar c
        simp [he] at hx
    | cons c cs ih =>
      obtain ⟨x, u, he, -, hu⟩ := Text.Utf8.exists_encodeChar c
      generalize hx : encode (c :: cs) = y at h
      rw [Text.Utf8.encode_cons] at hx
      cases h with
      | nil => simp [he] at hx
      | byte hc hq hb h =>
        rw [he, List.cons_append, List.cons.injEq] at hx
        obtain ⟨rfl, rfl⟩ := hx
        obtain ⟨l', rfl, h'⟩ := RawText.of_append hu h
        rw [← List.cons_append, ← he]
        exact .cons (charText_encodeChar he ⟨hc, hq, hb⟩) (ih h')
      | escape h' h =>
        have hd := congrArg Text.Utf8.decodeChar? hx
        rw [Text.Utf8.decodeChar?_encodeChar, Text.Utf8.decodeChar?_encodeChar,
          Option.some.injEq, Prod.mk.injEq] at hd
        obtain ⟨rfl, rfl⟩ := hd
        rw [← List.cons_append]
        exact .cons (.escape h') (ih h)
  · intro h
    induction h with
    | nil => exact .nil
    | cons h t ih =>
      rw [Text.Utf8.encode_cons]
      cases h with
      | itself hc hq hb => exact ih.append fun b hm => isPlain_of_mem hc hq hb hm
      | escape h => exact .escape h ih

/-- What the first byte says of a text and its closing quote. -/
theorem rawText_cons_iff {b : UInt8} {t o r : List UInt8} :
    (∃ l, RawText l o ∧ b :: t = l ++ '"'.toUInt8 :: r) ↔
      (b = '"'.toUInt8 ∧ o = [] ∧ t = r) ∨
      (b = '\\'.toUInt8 ∧ ∃ c u l o', EscapeText c u ∧ RawText l o' ∧
        t = u ++ (l ++ '"'.toUInt8 :: r) ∧ o = encodeChar c ++ o') ∨
      (IsPlain b ∧ ∃ l o', RawText l o' ∧ t = l ++ '"'.toUInt8 :: r ∧ o = b :: o') := by
  constructor
  · intro h
    obtain ⟨l, hl, hb⟩ := h
    cases hl with
    | nil =>
      obtain ⟨rfl, rfl⟩ := List.cons.inj hb
      exact Or.inl ⟨rfl, rfl, rfl⟩
    | @byte x l o hc hq hs hl =>
      obtain ⟨rfl, rfl⟩ := List.cons.inj hb
      exact Or.inr (Or.inr ⟨⟨hc, hq, hs⟩, l, o, hl, rfl, rfl⟩)
    | @escape c u l o hu hl =>
      obtain ⟨rfl, rfl⟩ := List.cons.inj hb
      exact Or.inr (Or.inl ⟨rfl, c, u, l, o, hu, hl, List.append_assoc _ _ _, rfl⟩)
  · intro h
    rcases h with ⟨rfl, rfl, rfl⟩ | ⟨rfl, c, u, l, o', hu, hl, rfl, rfl⟩ | ⟨hb, l, o', hl, rfl, rfl⟩
    · exact ⟨[], .nil, rfl⟩
    · exact ⟨_, .escape hu hl, by simp⟩
    · exact ⟨_, .byte hb.1 hb.2.1 hb.2.2 hl, rfl⟩

theorem looseText_cons_iff {b : UInt8} {t r : List UInt8} :
    (∃ l, LooseText l ∧ b :: t = l ++ '"'.toUInt8 :: r) ↔
      (b = '"'.toUInt8 ∧ t = r) ∨
      (b = '\\'.toUInt8 ∧ ∃ u l, LooseEscape u ∧ LooseText l ∧
        t = u ++ (l ++ '"'.toUInt8 :: r)) ∨
      (IsPlain b ∧ ∃ l, LooseText l ∧ t = l ++ '"'.toUInt8 :: r) := by
  constructor
  · intro h
    obtain ⟨l, hl, hb⟩ := h
    cases hl with
    | nil =>
      obtain ⟨rfl, rfl⟩ := List.cons.inj hb
      exact Or.inl ⟨rfl, rfl⟩
    | @byte x l hc hq hs hl =>
      obtain ⟨rfl, rfl⟩ := List.cons.inj hb
      exact Or.inr (Or.inr ⟨⟨hc, hq, hs⟩, l, hl, rfl⟩)
    | @escape u l hu hl =>
      obtain ⟨rfl, rfl⟩ := List.cons.inj hb
      exact Or.inr (Or.inl ⟨rfl, u, l, hu, hl, List.append_assoc _ _ _⟩)
  · intro h
    rcases h with ⟨rfl, rfl⟩ | ⟨rfl, u, l, hu, hl, rfl⟩ | ⟨hb, l, hl, rfl⟩
    · exact ⟨[], .nil, rfl⟩
    · exact ⟨_, .escape hu hl, by simp⟩
    · exact ⟨_, .byte hb.1 hb.2.1 hb.2.2 hl, rfl⟩

theorem looseEscape_number_iff {u : List UInt8} :
    LooseEscape ('u'.toUInt8 :: u) ↔ ∃ n, HexText n u := by
  constructor
  · intro h
    generalize hx : 'u'.toUInt8 :: u = x at h
    cases h with
    | short h => exact absurd (List.cons.inj hx).1 (ne_short h)
    | number h =>
      obtain ⟨-, rfl⟩ := List.cons.inj hx
      exact ⟨_, h⟩
  · intro h
    obtain ⟨n, h⟩ := h
    exact .number h

theorem looseEscape_cons_iff {b : UInt8} (hb : b ≠ 'u'.toUInt8) {u : List UInt8} :
    LooseEscape (b :: u) ↔ (escaped? b).isSome = true ∧ u = [] := by
  rw [Option.isSome_iff_exists]
  constructor
  · intro h
    generalize hx : b :: u = x at h
    cases h with
    | @short k c h =>
      obtain ⟨rfl, rfl⟩ := List.cons.inj hx
      exact ⟨⟨c, escaped?_eq_some_iff.mpr ⟨k, h, rfl⟩⟩, rfl⟩
    | number h => exact absurd (List.cons.inj hx).1 hb
  · rintro ⟨⟨c, hc⟩, rfl⟩
    obtain ⟨k, h, rfl⟩ := escaped?_eq_some_iff.mp hc
    exact .short h

theorem not_isPlain_quote : ¬IsPlain '"'.toUInt8 := by
  intro h
  exact h.2.1 rfl

theorem not_isPlain_backslash : ¬IsPlain '\\'.toUInt8 := by
  intro h
  exact h.2.2 rfl

theorem quote_ne_backslash : '"'.toUInt8 ≠ '\\'.toUInt8 := by
  decide

namespace Decoder

variable {ε : Type}

theorem yields_textBytes :
    Yields (textBytes : Decoder ε (List UInt8)) fun bs o r =>
      ∃ l, RawText l o ∧ bs = l ++ '"'.toUInt8 :: r := by
  refine (yields_sweep (E := fun _ _ _ _ => False) (L := fun done bs o r =>
    ∃ o', (∃ l, RawText l o' ∧ bs = l ++ '"'.toUInt8 :: r) ∧ o = done.reverse ++ o')
    (fun _ => refuses_failHere _ _) ?_ ?_ []).congr fun _ _ _ => by simp
  · intro done o r
    simp
  · -- The first byte decides which of the three cases of a text is at hand.
    intro done b
    by_cases hq : b = '"'.toUInt8
    · rw [if_pos hq, hq]
      refine .leave (D := fun bs o r => o = done.reverse ∧ bs.tail = r)
        ((yields_eat_bind (yields_pure _)).congr fun _ _ _ => by simp [eq_comm]) ?_
      intro t o r
      simp only [rawText_cons_iff, quote_ne_backslash, not_isPlain_quote, false_and, or_false]
      constructor
      · intro h
        obtain ⟨_, ⟨-, rfl, rfl⟩, rfl⟩ := h
        exact ⟨List.append_nil _, rfl⟩
      · intro h
        obtain ⟨rfl, rfl⟩ := h
        exact ⟨[], ⟨trivial, rfl, rfl⟩, (List.append_nil _).symm⟩
    rw [if_neg hq]
    by_cases hs : b = '\\'.toUInt8
    · rw [if_pos hs, hs]
      refine .take yields_escape.bind_pure ?_
      intro t o r
      simp only [rawText_cons_iff, quote_ne_backslash.symm, not_isPlain_backslash, false_and,
        or_false, false_or, true_and]
      constructor
      · intro h
        obtain ⟨_, ⟨c, u, l, o', hu, hl, rfl, rfl⟩, rfl⟩ := h
        exact ⟨_, _, ⟨c, rfl, u, hu, rfl⟩, o', ⟨l, hl, rfl⟩, by simp⟩
      · intro h
        obtain ⟨_, _, ⟨c, rfl, u, hu, rfl⟩, o', ⟨l, hl, rfl⟩, rfl⟩ := h
        exact ⟨_, ⟨c, u, l, o', hu, hl, rfl, rfl⟩, by simp⟩
    rw [if_neg hs]
    cases hc : isControl b with
    | true =>
      refine .leave (refuses_bind _ fun _ => refuses_failHere _ _) ?_
      intro t o r
      simp only [rawText_cons_iff, hq, hs, IsPlain, ← isControl_eq_false_iff, hc,
        Bool.true_eq_false, false_and, or_false, exists_false]
    | false =>
      refine .take (yields_pure _) ?_
      intro t o r
      simp only [rawText_cons_iff, hq, hs, IsPlain, ← isControl_eq_false_iff, hc, ne_eq,
        not_false_eq_true, false_and, and_self, true_and, false_or]
      constructor
      · intro h
        obtain ⟨_, ⟨l, o', hl, rfl, rfl⟩, rfl⟩ := h
        exact ⟨_, _, ⟨rfl, rfl⟩, o', ⟨l, hl, rfl⟩, by simp⟩
      · intro h
        obtain ⟨_, _, ⟨rfl, rfl⟩, o', ⟨l, hl, rfl⟩, rfl⟩ := h
        exact ⟨_, ⟨l, o', hl, rfl, rfl⟩, by simp⟩

/-- A text, after its opening quote. -/
theorem yields_text :
    Yields (text : Decoder ε String) fun bs s r =>
      ∃ l, CharsText s.toList l ∧ bs = l ++ '"'.toUInt8 :: r := by
  refine (yields_textBytes.bind (M := fun o m s r => o = encode s.toList ∧ r = m) fun o => ?_).congr
    ?_
  · split
    · rename_i cs hd
      refine (yields_pure _).congr fun m s r => ?_
      rw [Text.Utf8.decode_eq_iff] at hd
      refine and_congr_left fun _ => ?_
      rw [hd, ← String.toList_inj, String.toList_ofList]
      constructor
      · intro h
        exact (Text.Utf8.encode_inj h).symm
      · intro h
        rw [h]
    · rename_i hne hd
      refine (refuses_failHere _ _).congr fun m s r => ?_
      rw [iff_false]
      rintro ⟨h, -⟩
      rw [Text.Utf8.decode_eq_iff.mpr h, Prod.mk.injEq] at hd
      exact hne hd.2.symm
  · intro bs s r
    constructor
    · rintro ⟨l, h, rfl⟩
      exact ⟨_, r, ⟨l, rawText_encode_iff.mpr h, rfl⟩, rfl, rfl⟩
    · rintro ⟨_, _, ⟨l, h, rfl⟩, rfl, rfl⟩
      exact ⟨l, rawText_encode_iff.mp h, rfl⟩

/-! ## Texts that are passed over -/

theorem yields_skipEscape :
    Yields (skipEscape : Decoder ε Unit) fun bs _ r => ∃ u, LooseEscape u ∧ bs = u ++ r := by
  refine yields_textByte_bind (P := fun _ => LooseEscape) (fun _ h => by cases h) fun b => ?_
  by_cases hb : b = 'u'.toUInt8
  · rw [if_pos hb, hb]
    refine yields_hexQuad.bind_pure.congr fun m _ r => ?_
    constructor
    · rintro ⟨u, h, rfl⟩
      obtain ⟨n, h⟩ := looseEscape_number_iff.mp h
      exact ⟨n, rfl, u, h, rfl⟩
    · rintro ⟨n, -, u, h, rfl⟩
      exact ⟨u, .number h, rfl⟩
  · rw [if_neg hb]
    simp only [looseEscape_cons_iff hb]
    cases (escaped? b).isSome with
    | false => exact (refuses_failHere _ _).congr fun _ _ _ => by simp
    | true => exact (yields_pure ()).congr fun _ _ _ => by simp [eq_comm]

theorem yields_skipText :
    Yields (skipText : Decoder ε Unit) fun bs _ r =>
      ∃ l, LooseText l ∧ bs = l ++ '"'.toUInt8 :: r := by
  refine yields_sweep (E := fun _ _ _ _ => False) (L := fun _ bs _ r =>
    ∃ l, LooseText l ∧ bs = l ++ '"'.toUInt8 :: r) (fun _ => refuses_failHere _ _) ?_ ?_ ()
  · intro _ _ r
    simp
  · intro _ b
    by_cases hq : b = '"'.toUInt8
    · rw [if_pos hq, hq]
      refine .leave yields_eat ?_
      intro t _ r
      simp only [looseText_cons_iff, quote_ne_backslash, not_isPlain_quote, false_and, or_false,
        true_and]
      exact eq_comm
    rw [if_neg hq]
    by_cases hs : b = '\\'.toUInt8
    · rw [if_pos hs, hs]
      refine .take yields_skipEscape ?_
      intro t _ r
      simp only [looseText_cons_iff, quote_ne_backslash.symm, not_isPlain_backslash, false_and,
        or_false, false_or, true_and]
      constructor
      · intro h
        obtain ⟨u, l, hu, hl, rfl⟩ := h
        exact ⟨(), _, ⟨u, hu, rfl⟩, l, hl, rfl⟩
      · intro h
        obtain ⟨-, _, ⟨u, hu, rfl⟩, l, hl, rfl⟩ := h
        exact ⟨u, l, hu, hl, rfl⟩
    rw [if_neg hs]
    cases hc : isControl b with
    | true =>
      refine .leave (refuses_failHere _ _) ?_
      intro t _ r
      simp only [looseText_cons_iff, hq, hs, IsPlain, ← isControl_eq_false_iff, hc,
        Bool.true_eq_false, false_and, or_false]
    | false =>
      refine .take (yields_pure _) ?_
      intro t _ r
      simp only [looseText_cons_iff, hq, hs, IsPlain, ← isControl_eq_false_iff, hc, ne_eq,
        not_false_eq_true, false_and, and_self, true_and, false_or]
      constructor
      · intro h
        exact ⟨(), t, rfl, h⟩
      · intro h
        obtain ⟨-, _, rfl, h⟩ := h
        exact h

end Decoder

end Findings.Json
