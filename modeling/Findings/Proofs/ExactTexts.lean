import Findings.Proofs.Gaps
import Findings.Proofs.Unambiguous

/-!
# Texts are read exactly

What stands between two quotes is a spelling of one text, or it has a fault (`faulty_iff`). The
faults are those of single bytes and escapes: a control, bytes that are no UTF-8, an unknown escape,
a number of fewer than four digits, and a unit of UTF-16 without its partner. So a text is read as
what its literal spells, and a document whose literal has a fault is refused.

Where an escape begins is told by the bytes before it, since a backslash takes the next byte along
(`BetweenQuotes`). The reader takes longer steps: an escape by number has four digits more, and an
escape of a pair has another escape inside. Only there a place where an escape begins is none where
the reader begins a character (`RawText.escape_cases`).

Main statement: `Report.exact_texts`.
-/

namespace Findings

open Json Decoder
open Text.Utf8 (encode)

namespace Json

/-! ## Between quotes -/

/-- Bytes that a quote closes where they end: a backslash takes the next byte along, and no other
byte is a quote. -/
inductive BetweenQuotes : List UInt8 → Prop
  | nil : BetweenQuotes []
  | byte {b : UInt8} {l : List UInt8} (hq : b ≠ '"'.toUInt8) (hs : b ≠ '\\'.toUInt8)
    (t : BetweenQuotes l) : BetweenQuotes (b :: l)
  | escape {b : UInt8} {l : List UInt8} (t : BetweenQuotes l) :
    BetweenQuotes ('\\'.toUInt8 :: b :: l)

theorem betweenQuotes_cons_iff {b : UInt8} {l : List UInt8} :
    BetweenQuotes (b :: l) ↔ (b ≠ '"'.toUInt8 ∧ b ≠ '\\'.toUInt8 ∧ BetweenQuotes l) ∨
      (b = '\\'.toUInt8 ∧ ∃ x t, l = x :: t ∧ BetweenQuotes t) := by
  constructor
  · intro h
    cases h with
    | byte hq hs t => exact .inl ⟨hq, hs, t⟩
    | escape t => exact .inr ⟨rfl, _, _, rfl, t⟩
  · rintro (⟨hq, hs, t⟩ | ⟨rfl, x, t, rfl, h⟩)
    · exact .byte hq hs t
    · exact .escape h

theorem betweenQuotes_escape_iff {b : UInt8} {l : List UInt8} :
    BetweenQuotes ('\\'.toUInt8 :: b :: l) ↔ BetweenQuotes l := by
  simp [betweenQuotes_cons_iff]

namespace BetweenQuotes

variable {l l' p r r' : List UInt8}

theorem append_iff (hp : BetweenQuotes p) : BetweenQuotes (p ++ l) ↔ BetweenQuotes l := by
  induction hp with
  | nil => rfl
  | byte hq hs t ih =>
    rw [List.cons_append, betweenQuotes_cons_iff]
    simp [hq, hs, ih]
  | escape t ih => rw [List.cons_append, List.cons_append, betweenQuotes_escape_iff, ih]

theorem of_plain (h : ∀ b ∈ l, IsPlain b) : BetweenQuotes l := by
  induction l with
  | nil => exact .nil
  | cons b l ih =>
    obtain ⟨⟨-, hq, hs⟩, h⟩ := List.forall_mem_cons.mp h
    exact .byte hq hs (ih h)

/-- The closing quote is the first one. -/
theorem eq_of_append (h : BetweenQuotes l) (h' : BetweenQuotes l')
    (he : l ++ '"'.toUInt8 :: r = l' ++ '"'.toUInt8 :: r') : l = l' := by
  induction h generalizing l' with
  | nil =>
    cases h' with
    | nil => rfl
    | byte hq _ _ => exact absurd (List.cons.inj he).1.symm hq
    | escape _ => exact absurd (List.cons.inj he).1 quote_ne_backslash
  | byte hq hs t ih =>
    cases h' with
    | nil => exact absurd (List.cons.inj he).1 hq
    | byte _ _ t' =>
      obtain ⟨rfl, ht⟩ := List.cons.inj he
      rw [ih t' ht]
    | escape _ => exact absurd (List.cons.inj he).1 hs
  | escape t ih =>
    cases h' with
    | nil => exact absurd (List.cons.inj he).1.symm quote_ne_backslash
    | byte _ hs _ => exact absurd (List.cons.inj he).1.symm hs
    | escape t' =>
      obtain ⟨rfl, ht⟩ := List.cons.inj (List.cons.inj he).2
      rw [ih t' ht]

end BetweenQuotes

/-! ## Bytes of escapes -/

theorem HexText.eq_of_append {n m : Nat} {u v r s : List UInt8} (h : HexText n u)
    (h' : HexText m v) (he : u ++ r = v ++ s) : n = m ∧ r = s :=
  (yields_hexQuad (ε := Empty)).unique ⟨u, h, rfl⟩ ⟨v, h', he⟩

theorem EscapeText.betweenQuotes {c : Char} {u : List UInt8} (h : EscapeText c u) :
    BetweenQuotes ('\\'.toUInt8 :: u) := by
  cases h with
  | short h => exact .escape .nil
  | number h => exact .escape (.of_plain h.isPlain)
  | pair _ _ h h' _ =>
    exact .escape ((BetweenQuotes.of_plain h.isPlain).append_iff.mpr
      (.escape (.of_plain h'.isPlain)))

theorem RawText.betweenQuotes {l o : List UInt8} (h : RawText l o) : BetweenQuotes l := by
  induction h with
  | nil => exact .nil
  | byte hc hq hs t ih => exact .byte hq hs ih
  | escape h t ih => exact h.betweenQuotes.append_iff.mpr ih

theorem RawText.le_toNat {l o : List UInt8} (h : RawText l o) : ∀ b ∈ l, 0x20 ≤ b.toNat := by
  induction h with
  | nil => exact List.forall_mem_nil _
  | byte hc hq hs t ih => exact List.forall_mem_cons.mpr ⟨hc, ih⟩
  | escape h t ih =>
    exact List.forall_mem_cons.mpr ⟨by decide, List.forall_mem_append.mpr ⟨h.le_toNat, ih⟩⟩

/-! ## Where an escape begins -/

/-- Bytes that end with the escape of a leading unit. -/
def EndsLeading (p : List UInt8) : Prop :=
  ∃ q n u, BetweenQuotes q ∧ HexText n u ∧ (0xD800 ≤ n ∧ n < 0xDC00) ∧
    p = q ++ '\\'.toUInt8 :: 'u'.toUInt8 :: u

/-- Bytes that begin with the escape of a trailing unit. -/
def BeginsTrailing (l : List UInt8) : Prop :=
  ∃ n u r, HexText n u ∧ (0xDC00 ≤ n ∧ n < 0xE000) ∧
    l = '\\'.toUInt8 :: 'u'.toUInt8 :: (u ++ r)

theorem EndsLeading.append {p q : List UInt8} (hq : BetweenQuotes q) (h : EndsLeading p) :
    EndsLeading (q ++ p) := by
  obtain ⟨q', n, u, hq', hu, hn, rfl⟩ := h
  exact ⟨q ++ q', n, u, hq.append_iff.mpr hq', hu, hn, (List.append_assoc _ _ _).symm⟩

variable {l o p t : List UInt8}

/-- A backslash stands behind all bytes that are plain. -/
theorem exists_append_of_plain {u : List UInt8} (hu : ∀ b ∈ u, IsPlain b)
    (h : u ++ l = p ++ '\\'.toUInt8 :: t) : ∃ q, p = u ++ q ∧ l = q ++ '\\'.toUInt8 :: t := by
  rcases List.append_eq_append_iff.mp h with ⟨q, hp, hl⟩ | ⟨q, rfl, hq⟩
  · exact ⟨q, hp, hl⟩
  · cases q with
    | nil => exact ⟨[], by simp, hq.symm⟩
    | cons b q =>
      obtain ⟨rfl, -⟩ := List.cons.inj hq
      exact absurd (hu _ (by simp)) not_isPlain_backslash

/-- An escape begins behind another one, or it is the second one of a pair. -/
theorem EscapeText.cut {c : Char} {u : List UInt8} (h : EscapeText c u)
    (hp : BetweenQuotes ('\\'.toUInt8 :: p)) (he : u ++ l = p ++ '\\'.toUInt8 :: t) :
    (∃ q, p = u ++ q ∧ l = q ++ '\\'.toUInt8 :: t) ∨
      EndsLeading ('\\'.toUInt8 :: p) ∧ BeginsTrailing ('\\'.toUInt8 :: t) := by
  cases hp with
  | byte _ hs _ => exact absurd rfl hs
  | escape hp =>
    cases h with
    | short h =>
      obtain ⟨rfl, hl⟩ := List.cons.inj he
      exact .inl ⟨_, rfl, hl⟩
    | number h =>
      obtain ⟨rfl, ht⟩ := List.cons.inj he
      obtain ⟨q, rfl, hl⟩ := exists_append_of_plain h.isPlain ht
      exact .inl ⟨q, rfl, hl⟩
    | pair hn hm hu hv hc =>
      obtain ⟨rfl, ht⟩ := List.cons.inj he
      obtain ⟨q, rfl, hsecond⟩ := exists_append_of_plain hu.isPlain
        ((List.append_assoc _ _ _).symm.trans ht)
      rw [(BetweenQuotes.of_plain hu.isPlain).append_iff] at hp
      cases hp with
      | nil =>
        obtain ⟨-, rfl⟩ := List.cons.inj hsecond
        exact .inr ⟨⟨[], _, _, .nil, hu, hn, by simp⟩, _, _, _, hv, hm, rfl⟩
      | byte _ hs _ => exact absurd (List.cons.inj hsecond).1.symm hs
      | escape hq =>
        obtain ⟨rfl, hw⟩ := List.cons.inj (List.cons.inj hsecond).2
        obtain ⟨q, rfl, hl⟩ := exists_append_of_plain hv.isPlain hw
        exact .inl ⟨q, by simp, hl⟩

/-- Where an escape begins in a text, the reader finds one, or the escape is the second one of a
pair. -/
theorem RawText.escape_cases (h : RawText (p ++ '\\'.toUInt8 :: t) o) (hp : BetweenQuotes p) :
    (∃ c u r, EscapeText c u ∧ t = u ++ r) ∨
      EndsLeading p ∧ BeginsTrailing ('\\'.toUInt8 :: t) := by
  generalize hx : p ++ '\\'.toUInt8 :: t = x at h
  induction h generalizing p with
  | nil => simp at hx
  | byte hc hq hs h ih =>
    cases hp with
    | nil => exact absurd (List.cons.inj hx).1.symm hs
    | byte hq' hs' hp =>
      refine (ih hp (List.cons.inj hx).2).imp id fun ⟨hends, hbegins⟩ => ⟨?_, hbegins⟩
      exact hends.append (.byte hq' hs' .nil)
    | escape _ => exact absurd (List.cons.inj hx).1.symm hs
  | @escape c u l o hu h ih =>
    cases p with
    | nil => exact .inl ⟨c, u, l, hu, (List.cons.inj hx).2⟩
    | cons b p =>
      obtain ⟨rfl, ht⟩ := List.cons.inj hx
      rcases hu.cut hp ht.symm with ⟨q, rfl, hl⟩ | hpair
      · rw [← List.cons_append, hu.betweenQuotes.append_iff] at hp
        refine (ih hp hl.symm).imp id fun ⟨hends, hbegins⟩ => ⟨?_, hbegins⟩
        exact hends.append hu.betweenQuotes
      · exact .inr hpair

/-! ## Faults -/

/-- What follows a backslash is no escape. It stands behind the bytes `p`. -/
inductive BadEscape (p : List UInt8) : List UInt8 → Prop
  | unknown {b : UInt8} {t : List UInt8} (hu : b ≠ 'u'.toUInt8)
    (hb : ∀ e ∈ shortEscapes, b ≠ e.1.toUInt8) : BadEscape p (b :: t)
  | digits {t : List UInt8} (h : ¬∃ n u r, HexText n u ∧ t = u ++ r) :
    BadEscape p ('u'.toUInt8 :: t)
  | leading {n : Nat} {u t : List UInt8} (hu : HexText n u) (hn : 0xD800 ≤ n ∧ n < 0xDC00)
    (ht : ¬BeginsTrailing t) : BadEscape p ('u'.toUInt8 :: (u ++ t))
  | trailing {n : Nat} {u t : List UInt8} (hu : HexText n u) (hn : 0xDC00 ≤ n ∧ n < 0xE000)
    (hp : ¬EndsLeading p) : BadEscape p ('u'.toUInt8 :: (u ++ t))

/-- A fault between quotes. -/
inductive Faulty (l : List UInt8) : Prop
  | control {b : UInt8} (hb : b ∈ l) (hc : b.toNat < 0x20)
  | encoding (h : ∀ cs, l ≠ encode cs)
  | escape {p t : List UInt8} (hp : BetweenQuotes p) (h : BadEscape p t)
    (hl : l = p ++ '\\'.toUInt8 :: t)

/-- The first unit of an escape by number. -/
theorem EscapeText.exists_unit {c : Char} {u r : List UInt8} (h : EscapeText c u)
    (ht : 'u'.toUInt8 :: t = u ++ r) :
    ∃ n v m, HexText n v ∧ t = v ++ m ∧ UnitFollows n m c r := by
  have hu : ∃ w, u = 'u'.toUInt8 :: w ∧ t = w ++ r := by
    cases u with
    | nil => cases h
    | cons b w =>
      obtain ⟨rfl, hw⟩ := List.cons.inj ht
      exact ⟨w, rfl, hw⟩
  obtain ⟨w, rfl, rfl⟩ := hu
  obtain ⟨n, m, ⟨v, hv, ht⟩, hf⟩ := escapeText_number_iff.mp ⟨w, h, rfl⟩
  exact ⟨n, v, m, hv, ht, hf⟩

theorem BadEscape.not_escapeText (h : BadEscape p t) :
    ¬∃ c u r, EscapeText c u ∧ t = u ++ r := by
  rintro ⟨c, u, r, he, ht⟩
  cases h with
  | unknown hu hb =>
    cases he with
    | short h => exact hb _ h (List.cons.inj ht).1
    | number _ => exact hu (List.cons.inj ht).1
    | pair => exact hu (List.cons.inj ht).1
  | digits h =>
    obtain ⟨n, v, m, hv, ht, -⟩ := he.exists_unit ht
    exact h ⟨n, v, m, hv, ht⟩
  | leading hu hn hno =>
    obtain ⟨n, v, m, hv, ht, hf⟩ := he.exists_unit ht
    obtain ⟨rfl, rfl⟩ := hu.eq_of_append hv ht
    cases hf with
    | single _ hl _ => simp [isLeading_iff.mpr hn] at hl
    | pair _ _ hk hw _ hm => exact hno ⟨_, _, _, hw, isTrailing_iff.mp hk, hm⟩
  | trailing hu hn _ =>
    obtain ⟨n, v, m, hv, ht, hf⟩ := he.exists_unit ht
    obtain ⟨rfl, rfl⟩ := hu.eq_of_append hv ht
    cases hf with
    | single hno _ _ => simp [isTrailing_iff.mpr hn] at hno
    | pair hno _ _ _ _ _ => simp [isTrailing_iff.mpr hn] at hno

theorem BadEscape.not_pair (h : BadEscape p t) :
    ¬(EndsLeading p ∧ BeginsTrailing ('\\'.toUInt8 :: t)) := by
  rintro ⟨hends, m, v, r, hv, hm, ht⟩
  obtain ⟨-, ht⟩ := List.cons.inj ht
  cases h with
  | unknown hu _ => exact hu (List.cons.inj ht).1
  | digits h => exact h ⟨m, v, r, hv, (List.cons.inj ht).2⟩
  | leading hu hn _ =>
    obtain ⟨rfl, -⟩ := hu.eq_of_append hv (List.cons.inj ht).2
    omega
  | trailing _ _ hp => exact hp hends

/-- A text does not end with the escape of a leading unit. -/
theorem RawText.not_endsLeading (h : RawText l o) : ¬EndsLeading l := by
  rintro ⟨q, n, u, hq, hu, hn, rfl⟩
  have hend : u ++ [] = u := List.append_nil u
  rcases h.escape_cases hq with ⟨c, w, r, he, ht⟩ | ⟨-, m, v, r, hv, hm, ht⟩
  · obtain ⟨k, v, m, hv, ht, hf⟩ := he.exists_unit ht
    obtain ⟨rfl, rfl⟩ := hu.eq_of_append hv (hend.trans ht)
    cases hf with
    | single _ hl _ => simp [isLeading_iff.mpr hn] at hl
    | pair _ _ _ _ _ hm => cases hm
  · obtain ⟨-, ht⟩ := List.cons.inj ht
    obtain ⟨rfl, -⟩ := hu.eq_of_append hv (hend.trans (List.cons.inj ht).2)
    omega

theorem not_endsLeading_nil : ¬EndsLeading [] :=
  RawText.nil.not_endsLeading

/-- What is no escape at the front is none behind a text. -/
theorem BadEscape.behind (h : BadEscape [] t) (hl : RawText l o) : BadEscape l t := by
  cases h with
  | unknown hu hb => exact .unknown hu hb
  | digits h => exact .digits h
  | leading hu hn ht => exact .leading hu hn ht
  | trailing hu hn _ => exact .trailing hu hn hl.not_endsLeading

/-- What follows a backslash is an escape, or it is none. -/
theorem escapeText_or_bad (b : UInt8) (t : List UInt8) :
    (∃ c u r, EscapeText c u ∧ b :: t = u ++ r) ∨ BadEscape [] (b :: t) := by
  by_cases hb : b = 'u'.toUInt8
  · subst hb
    by_cases hdigits : ∃ n u r, HexText n u ∧ t = u ++ r
    · obtain ⟨n, u, r, hu, rfl⟩ := hdigits
      cases ht : isTrailing n with
      | true => exact .inr (.trailing hu (isTrailing_iff.mp ht) not_endsLeading_nil)
      | false =>
        cases hl : isLeading n with
        | false =>
          have hf : UnitFollows n r (Char.ofNat n) r := .single ht hl rfl
          obtain ⟨w, hw, he⟩ := escapeText_number_iff.mpr ⟨n, r, ⟨u, hu, rfl⟩, hf⟩
          exact .inl ⟨_, _, r, hw, congrArg _ he⟩
        | true =>
          by_cases hpair : BeginsTrailing r
          · obtain ⟨m, v, s, hv, hm, rfl⟩ := hpair
            have hf := UnitFollows.pair (r := s) ht hl (isTrailing_iff.mpr hm) hv rfl rfl
            obtain ⟨w, hw, he⟩ := escapeText_number_iff.mpr ⟨n, _, ⟨u, hu, rfl⟩, hf⟩
            exact .inl ⟨_, _, s, hw, congrArg _ he⟩
          · exact .inr (.leading hu (isLeading_iff.mp hl) hpair)
    · exact .inr (.digits hdigits)
  · by_cases hshort : ∃ e ∈ shortEscapes, b = e.1.toUInt8
    · obtain ⟨e, he, rfl⟩ := hshort
      exact .inl ⟨e.2, _, t, .short he, rfl⟩
    · exact .inr (.unknown hb fun e he hbe => hshort ⟨e, he, hbe⟩)

/-- Without controls, the bytes between quotes stand for others or have an escape that is none. -/
theorem BetweenQuotes.rawText_or_bad (hl : BetweenQuotes l) (hc : ∀ b ∈ l, 0x20 ≤ b.toNat) :
    (∃ o, RawText l o) ∨ ∃ p t o, RawText p o ∧ BadEscape [] t ∧ l = p ++ '\\'.toUInt8 :: t := by
  -- The induction is on the length since an escape takes more than the byte behind its backslash.
  induction hn : l.length using Nat.strongRecOn generalizing l with
  | ind n ih =>
    subst hn
    cases hl with
    | nil => exact .inl ⟨[], .nil⟩
    | @byte b l hq hs hl =>
      obtain ⟨hb, hc⟩ := List.forall_mem_cons.mp hc
      rcases ih _ (Nat.lt_succ_self _) hl hc rfl with ⟨o, h⟩ | ⟨p, t, o, hp, ht, rfl⟩
      · exact .inl ⟨_, .byte hb hq hs h⟩
      · exact .inr ⟨_, t, _, .byte hb hq hs hp, ht, rfl⟩
    | @escape b l hl =>
      rcases escapeText_or_bad b l with ⟨c, u, r, hu, he⟩ | hbad
      · have hwhole := BetweenQuotes.escape (b := b) hl
        rw [he] at hwhole hc ⊢
        have hr := hu.betweenQuotes.append_iff.mp hwhole
        have hcr := (List.forall_mem_append.mp (List.forall_mem_cons.mp hc).2).2
        have hlt : r.length < ('\\'.toUInt8 :: b :: l).length := by
          rw [he, List.length_cons, List.length_append]
          omega
        rcases ih _ hlt hr hcr rfl with ⟨o, h⟩ | ⟨p, t, o, hp, ht, rfl⟩
        · exact .inl ⟨_, .escape hu h⟩
        · exact .inr ⟨_, t, _, .escape hu hp, ht, by simp⟩
      · exact .inr ⟨[], _, [], .nil, hbad, rfl⟩

/-- Bytes of ASCII are UTF-8. -/
theorem exists_encode_of_ascii {u : List UInt8} (hu : ∀ b ∈ u, b.toNat < 0x80) :
    ∃ cs, u = encode cs := by
  induction u with
  | nil => exact ⟨[], rfl⟩
  | cons b u ih =>
    obtain ⟨hb, hu⟩ := List.forall_mem_cons.mp hu
    obtain ⟨cs, rfl⟩ := ih hu
    have hvalid : b.toNat.isValidChar := .inl (by omega)
    refine ⟨Char.ofNat b.toNat :: cs, ?_⟩
    rw [Text.Utf8.encode_cons, Text.Utf8.encodeChar_of_lt (by rwa [toNat_ofNat hvalid]),
      toNat_ofNat hvalid, UInt8.ofNat_toNat]
    rfl

/-- A spelling of a text is UTF-8 itself. -/
theorem CharsText.exists_encode {cs : List Char} (h : CharsText cs l) : ∃ ds, l = encode ds := by
  induction h with
  | nil => exact ⟨[], rfl⟩
  | @cons c cs u l h t ih =>
    have hu : ∃ ds, u = encode ds := by
      cases h with
      | itself => exact ⟨[c], (encode_singleton c).symm⟩
      | escape h => exact exists_encode_of_ascii (List.forall_mem_cons.mpr ⟨by decide, h.toNat_lt⟩)
    obtain ⟨ds, rfl⟩ := hu
    obtain ⟨ds', rfl⟩ := ih
    exact ⟨ds ++ ds', (Text.Utf8.encode_append ds ds').symm⟩

/-- What stands between quotes has a fault exactly if it spells no text. -/
theorem faulty_iff (hl : BetweenQuotes l) : Faulty l ↔ ¬∃ cs, CharsText cs l := by
  constructor
  · rintro hfaulty ⟨cs, h⟩
    have hraw := rawText_encode_iff.mpr h
    cases hfaulty with
    | control hb hc => exact absurd (hraw.le_toNat _ hb) (Nat.not_le_of_lt hc)
    | encoding hno =>
      obtain ⟨ds, hds⟩ := h.exists_encode
      exact hno ds hds
    | escape hp hbad hl =>
      rw [hl] at hraw
      rcases hraw.escape_cases hp with hescape | hpair
      · exact hbad.not_escapeText hescape
      · exact hbad.not_pair hpair
  · intro hno
    by_cases hcontrol : ∃ b ∈ l, b.toNat < 0x20
    · obtain ⟨b, hb, hc⟩ := hcontrol
      exact .control hb hc
    by_cases hencoding : ∃ cs, l = encode cs
    · have hc : ∀ b ∈ l, 0x20 ≤ b.toNat := fun b hb =>
        Nat.le_of_not_lt fun hlt => hcontrol ⟨b, hb, hlt⟩
      rcases hl.rawText_or_bad hc with ⟨o, h⟩ | ⟨p, t, o, hp, hbad, hl⟩
      · obtain ⟨cs, hcs⟩ := hencoding
        obtain ⟨ds, rfl⟩ := h.exists_encode (t := []) (List.forall_mem_nil _) hcs
        exact absurd ⟨ds, rawText_encode_iff.mp h⟩ hno
      · exact .escape hp.betweenQuotes (hbad.behind hp) hl
    · exact .encoding fun cs hcs => hencoding ⟨cs, hcs⟩

/-! ## Literals -/

theorem quote_starts (l : List UInt8) : Starts (quote l) :=
  ⟨_, _, rfl, by decide, by decide⟩

theorem Decoder.rejects_faulty {ε : Type} (hl : BetweenQuotes l) (h : Faulty l) :
    Rejects (string : Decoder ε String) (quote l) fun _ => True where
  starts := quote_starts l
  fails w r hw _ := by
    refine yields_string.fails ?_
    rintro s m ⟨l', hl', he⟩
    rw [afterBlank_of_starts hw (quote_starts l)] at he
    obtain ⟨-, he⟩ := List.cons.inj he
    have hend := (rawText_encode_iff.mpr hl').betweenQuotes
    obtain rfl := hl.eq_of_append (r := r) hend (by simpa using he)
    exact (faulty_iff hl).mp h ⟨_, hl'⟩

end Json

/-! ## Documents -/

/-- Take a document, read either way, that is good but for one literal, which is the path of a file
or the rule or the text of a finding. If the literal spells a text, the document is read with that
text there. It is refused exactly if the literal has a fault. -/
theorem Report.exact_texts (l bytes : List UInt8) (o : Except Refusal Report)
    (ho : Reading bytes o) (fill : String → Report) (h : TextPlace (quote l) bytes fill) :
    (∀ t : String, CharsText t.toList l → o = .ok (fill t)) ∧
    (BetweenQuotes l → ((∃ e, o = .error e) ↔ Faulty l)) := by
  have hspelled : ∀ t : String, CharsText t.toList l → o = .ok (fill t) := fun t ht =>
    ho.eq_ok_iff.mpr (h.reportText ⟨l, ht, rfl⟩)
  refine ⟨hspelled, fun hl => ⟨?_, ?_⟩⟩
  · rintro ⟨e, he⟩
    rw [faulty_iff hl]
    rintro ⟨cs, hcs⟩
    have hok := hspelled (String.ofList cs) (by rwa [String.toList_ofList])
    rw [he] at hok
    cases hok
  · intro hfaulty
    have hnull : (quote l).head? ≠ some 'n'.toUInt8 := by
      rw [quote, List.head?_cons]
      decide
    obtain ⟨e, -, he, -⟩ := ho.of_fails (h.fails hnull (rejects_faulty hl hfaulty))
    exact ⟨e, he⟩

/-- A character of two units, by their numbers in order and the other way round. -/
theorem Report.exact_texts_of_units :
    ∃ document : String → List UInt8,
      document = (fun literal => encode (writtenOfParts "a" [Writer.text "b", Writer.natural 1,
        '"' :: literal.toList ++ ['"'], Writer.natural 1, Writer.natural 1])) ∧
      ofStream { bytes := document "\\ud83d\\uDE00" } =
        .ok [{ path := "a", findings := [{ rule := "b", severity := .warning, text := "😀" }] }] ∧
      ∃ e, ofStream { bytes := document "\\uDE00\\ud83d" } = .error e := by
  let f : Finding := { rule := "b", severity := .warning, text := "" }
  obtain ⟨u, hu⟩ : ∃ u, u = encode ['d', '8', '3', 'd'] := ⟨_, rfl⟩
  obtain ⟨v, hv⟩ : ∃ v, v = encode ['D', 'E', '0', '0'] := ⟨_, rfl⟩
  have hleading : HexText 0xD83D u := hu ▸ hexNumber?_eq_some_iff.mp (by decide)
  have htrailing : HexText 0xDE00 v := hv ▸ hexNumber?_eq_some_iff.mp (by decide)
  refine ⟨_, rfl, ?_, ?_⟩
  · let l := '\\'.toUInt8 :: 'u'.toUInt8 :: (u ++ '\\'.toUInt8 :: 'u'.toUInt8 :: v)
    have hplace := textPlace_written f "a" ('"' :: "\\ud83d\\uDE00".toList ++ ['"'])
    have hquote : encode ('"' :: "\\ud83d\\uDE00".toList ++ ['"']) = quote l := by
      simp only [l, hu, hv]
      decide
    have hchars : CharsText ['😀'] (l ++ []) :=
      .cons (.escape (.pair (by decide) (by decide) hleading htrailing rfl)) .nil
    rw [List.append_nil] at hchars
    rw [hquote] at hplace
    exact (exact_texts l _ _ .stream _ hplace).1 "😀" hchars
  · let l := '\\'.toUInt8 :: 'u'.toUInt8 :: (v ++ '\\'.toUInt8 :: 'u'.toUInt8 :: u)
    have hplace := textPlace_written f "a" ('"' :: "\\uDE00\\ud83d".toList ++ ['"'])
    have hquote : encode ('"' :: "\\uDE00\\ud83d".toList ++ ['"']) = quote l := by
      simp only [l, hu, hv]
      decide
    have hl : BetweenQuotes l :=
      .escape ((BetweenQuotes.of_plain htrailing.isPlain).append_iff.mpr
        (.escape (.of_plain hleading.isPlain)))
    have hfaulty : Faulty l :=
      .escape .nil (.trailing htrailing (by decide) not_endsLeading_nil) rfl
    rw [hquote] at hplace
    exact ((exact_texts l _ _ .stream _ hplace).2 hl).mpr hfaulty

end Findings
