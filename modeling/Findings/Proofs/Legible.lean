import Findings.Proofs.Places
import Findings.Proofs.Texts

/-!
# Texts in a document of UTF-8

A text between quotes is refused for its bytes only if the document itself is not UTF-8: what stands
between two quotes of such a document is UTF-8, and escapes put characters in the place of ASCII.

A decoder is *legible* if it never refuses a text for its bytes in what is left of a document in
UTF-8. A text is legible only where its opening quote is known to come next, so the decoders that
look at a byte before they read on are taken at each byte that they may see (`LegibleAt`).

Main statement: the decoder of whole reports is legible (`Report.legible_decoder`).
-/

namespace Findings.Json

open Text.Utf8 (encode encodeChar IsTail)

/-! ## Bytes between quotes -/

section Bytes

variable {P : UInt8 → Prop} {n : Nat} {c : Char} {b : UInt8} {u : List UInt8}

theorem HexDigit.of_digits (hP : ∀ m < 16, P m.digitChar.toUInt8 ∧ P m.digitChar.toUpper.toUInt8)
    (h : HexDigit n b) : P b := by
  obtain ⟨hn, rfl | rfl⟩ := h
  · exact (hP n hn).1
  · exact (hP n hn).2

theorem HexText.forall_mem (hP : ∀ m < 16, P m.digitChar.toUInt8 ∧ P m.digitChar.toUpper.toUInt8)
    (h : HexText n u) : ∀ b ∈ u, P b := by
  obtain ⟨h₁, h₂, h₃, h₄⟩ := h
  simp only [List.forall_mem_cons, List.not_mem_nil, false_implies, implies_true, and_true]
  exact ⟨h₁.of_digits hP, h₂.of_digits hP, h₃.of_digits hP, h₄.of_digits hP⟩

/-- What holds of the letters, the digits and the backslash holds of every byte of an escape. -/
theorem EscapeText.forall_mem
    (hP : ∀ m < 16, P m.digitChar.toUInt8 ∧ P m.digitChar.toUpper.toUInt8)
    (hshort : ∀ e ∈ shortEscapes, P e.1.toUInt8) (hu : P 'u'.toUInt8) (hs : P '\\'.toUInt8)
    (h : EscapeText c u) : ∀ b ∈ u, P b := by
  cases h with
  | short h => exact List.forall_mem_singleton.mpr (hshort _ h)
  | number h => exact List.forall_mem_cons.mpr ⟨hu, h.forall_mem hP⟩
  | pair _ _ h h' _ =>
    refine List.forall_mem_cons.mpr ⟨hu, List.forall_mem_append.mpr ⟨h.forall_mem hP, ?_⟩⟩
    exact List.forall_mem_cons.mpr ⟨hs, List.forall_mem_cons.mpr ⟨hu, h'.forall_mem hP⟩⟩

/-- Escapes are written in ASCII. -/
theorem EscapeText.toNat_lt (h : EscapeText c u) : ∀ b ∈ u, b.toNat < 0x80 :=
  h.forall_mem (by decide) (by decide) (by decide) (by decide)

/-- No byte of an escape is a control. -/
theorem EscapeText.le_toNat (h : EscapeText c u) : ∀ b ∈ u, 0x20 ≤ b.toNat :=
  h.forall_mem (by decide) (by decide) (by decide) (by decide)

theorem HexText.isPlain (h : HexText n u) : ∀ b ∈ u, IsPlain b := by
  refine h.forall_mem ?_
  unfold IsPlain
  decide

end Bytes

theorem exists_encode_of_ascii_append {u l : List UInt8} (hu : ∀ b ∈ u, b.toNat < 0x80)
    {cs : List Char} (h : encode cs = u ++ l) : ∃ cs', l = encode cs' := by
  induction u generalizing cs with
  | nil => exact ⟨cs, h.symm⟩
  | cons b u ih =>
    have hb : b.toNat < 0x80 := hu b List.mem_cons_self
    have hsplit : encode cs = [] ++ b :: (u ++ l) := h
    obtain ⟨-, cs', -, h'⟩ := Text.Utf8.of_encode_split hb hsplit
    exact ih (fun x hx => hu x (List.mem_cons_of_mem b hx)) h'.symm

/-- What stands between quotes comes to UTF-8 if it is. The bytes `t` complete a character of which
the first bytes have been taken already. -/
theorem RawText.exists_encode {l o : List UInt8} (h : RawText l o) {t : List UInt8}
    {cs : List Char} (ht : ∀ b ∈ t, IsTail b) (hl : l = t ++ encode cs) :
    ∃ cs', o = t ++ encode cs' := by
  induction h generalizing t cs with
  | nil =>
    obtain ⟨rfl, -⟩ := List.append_eq_nil_iff.mp hl.symm
    exact ⟨[], rfl⟩
  | @byte b l o hc hq hb h ih =>
    cases t with
    | cons x t =>
      rw [List.cons_append, List.cons.injEq] at hl
      obtain ⟨rfl, hl⟩ := hl
      obtain ⟨cs', rfl⟩ := ih (fun y hy => ht y (List.mem_cons_of_mem b hy)) hl
      exact ⟨cs', rfl⟩
    | nil =>
      cases cs with
      | nil => simp at hl
      | cons c cs =>
        obtain ⟨x, t, hx, -, ht'⟩ := Text.Utf8.exists_encodeChar c
        rw [List.nil_append, Text.Utf8.encode_cons, hx, List.cons_append, List.cons.injEq] at hl
        obtain ⟨rfl, hl⟩ := hl
        obtain ⟨cs', rfl⟩ := ih ht' hl
        refine ⟨c :: cs', ?_⟩
        rw [Text.Utf8.encode_cons, hx]
        rfl
  | @escape c u l o hu h ih =>
    cases t with
    | cons x t =>
      -- A backslash continues no character.
      rw [List.cons_append, List.cons.injEq] at hl
      have hx : IsTail '\\'.toUInt8 := hl.1 ▸ ht x List.mem_cons_self
      exact absurd hx (by unfold IsTail; decide)
    | nil =>
      have hascii : ∀ b ∈ '\\'.toUInt8 :: u, b.toNat < 0x80 :=
        List.forall_mem_cons.mpr ⟨by decide, hu.toNat_lt⟩
      obtain ⟨cs₁, hl⟩ := exists_encode_of_ascii_append hascii hl.symm
      obtain ⟨cs', ho⟩ := ih (t := []) (List.forall_mem_nil _) hl
      refine ⟨c :: cs', ?_⟩
      rw [ho, List.nil_append, List.nil_append, Text.Utf8.encode_cons]

/-! ## Legible decoders -/

/-- What is left is the end of a document in UTF-8, and all that is heard. -/
structure Cursor.OfText (c : Cursor) : Prop where
  later : c.later = []
  rest : ∃ cs, c.rest <:+ encode cs

theorem Cursor.OfText.reaches {c c' : Cursor} (h : c.OfText) (hr : c.Reaches c') : c'.OfText := by
  have hlater' : c'.later = [] := List.suffix_nil.mp (h.later ▸ hr.later)
  obtain ⟨cs, hcs⟩ := h.rest
  have hsuffix := hr.suffix
  rw [unread_of_later_nil h.later, unread_of_later_nil hlater'] at hsuffix
  exact ⟨hlater', cs, hsuffix.trans hcs⟩

/-- What follows a byte of ASCII is UTF-8 from its first byte on. -/
theorem Cursor.OfText.exists_encode {c : Cursor} (h : c.OfText) {b : UInt8} {r : List UInt8}
    (hb : b.toNat < 0x80) (hr : c.rest = b :: r) : ∃ cs, r = encode cs := by
  obtain ⟨cs, x, hx⟩ := h.rest
  rw [hr] at hx
  obtain ⟨-, cs', -, hcs'⟩ := Text.Utf8.of_encode_split hb hx.symm
  exact ⟨cs', hcs'⟩

namespace Decoder

variable {ε α β σ : Type}

/-- A decoder that refuses no text for its bytes. -/
def Legible (d : Decoder ε α) : Prop :=
  ∀ c f c', c.OfText → d.run c = .fail f c' → f.cause.isBadUnicode = false

/-- A decoder that refuses no text for its bytes if the byte `b` comes next. -/
def LegibleAt (b : UInt8) (d : Decoder ε α) : Prop :=
  ∀ c r f c', c.OfText → c.rest = b :: r → d.run c = .fail f c' → f.cause.isBadUnicode = false

theorem Composed.legible {d : Decoder ε α} (h : Composed False d) : Legible d := by
  intro c f c' _ hr
  cases hf : f.cause.isBadUnicode with
  | false => rfl
  | true => exact ((h.sound hr).legible hf).elim

theorem Legible.legibleAt {d : Decoder ε α} (h : Legible d) (b : UInt8) : LegibleAt b d := by
  intro c r f c' hc _ hr
  exact h c f c' hc hr

theorem Legible.bind {d : Decoder ε α} {k : α → Decoder ε β} (hd : Legible d)
    (hk : ∀ a, Legible (k a)) : Legible (d >>= k) := by
  intro c f c' hc hr
  rcases of_run_bind_fail hr with h₁ | ⟨a, c₁, h₁, h₂⟩
  · exact hd c f c' hc h₁
  · exact hk a c₁ f c' (hc.reaches (reaches_of_ok h₁)) h₂

theorem LegibleAt.bind {b : UInt8} {d : Decoder ε α} {k : α → Decoder ε β} (hd : LegibleAt b d)
    (hk : ∀ a, Legible (k a)) : LegibleAt b (d >>= k) := by
  intro c r f c' hc hb hr
  rcases of_run_bind_fail hr with h₁ | ⟨a, c₁, h₁, h₂⟩
  · exact hd c r f c' hc hb h₁
  · exact hk a c₁ f c' (hc.reaches (reaches_of_ok h₁)) h₂

theorem Legible.map {d : Decoder ε α} (h : Legible d) (g : α → β) :
    Legible (d >>= fun a => pure (g a)) :=
  h.bind fun a => (Composed.pure (g a)).legible

theorem Legible.ite {d d' : Decoder ε α} (c : Prop) [Decidable c] (h : Legible d)
    (h' : Legible d') : Legible (if c then d else d') := by
  split
  · exact h
  · exact h'

theorem LegibleAt.ite {b : UInt8} {d d' : Decoder ε α} {c : Prop} [Decidable c]
    (h : c → LegibleAt b d) (h' : LegibleAt b d') : LegibleAt b (if c then d else d') := by
  split
  · next hc => exact h hc
  · exact h'

/-- What follows a byte that is used up. -/
theorem Legible.afterEat {d : Decoder ε α} (h : Legible d) : Legible (eat >>= fun _ => d) :=
  Composed.eat.legible.bind fun _ => h

theorem Legible.closing {d : Decoder ε α} {close : Decoder ε Unit} (hd : Legible d)
    (hclose : Legible close) : Legible (closing d close) := by
  intro c f c' hc hr
  rcases of_run_closing_fail hr with ⟨c₁, h₁⟩ | ⟨a, c₁, h₁, h₂⟩
  · exact hd c f c₁ hc h₁
  · exact hclose c₁ f c' (hc.reaches (reaches_of_ok h₁)) h₂

theorem Legible.iterate {round : σ → Decoder ε (Round σ β)} {advances : Advances round}
    (h : ∀ s, Legible (round s)) (s : σ) : Legible (iterate round advances s) := by
  intro c f c' hc hr
  obtain ⟨s₁, c₁, hreach, h₁⟩ := of_run_iterate_fail hr
  exact h s₁ c₁ f c' (hc.reaches hreach) h₁

/-! ## Values -/

/-- The body of a value finds the byte that it was given for. -/
theorem legible_value {body : UInt8 → Decoder ε α} (h : ∀ b, LegibleAt b (body b)) :
    Legible (value body) := by
  intro c f c' hc hr
  unfold value at hr
  rcases of_run_bind_fail hr with h₁ | ⟨o, c₁, h₁, h₂⟩
  · exact composed_blank.legible c f c' hc h₁
  have hc₁ := hc.reaches (reaches_of_ok h₁)
  cases o with
  | none =>
    have hend : Legible (failNext .endInValue : Decoder ε α) := Composed.legible (.failNext rfl)
    exact hend c₁ f c' hc₁ h₂
  | some b =>
    obtain ⟨r, hb⟩ := rest_of_blank h₁
    obtain ⟨f₂, hbody, rfl⟩ := of_run_placed_fail h₂
    exact h b c₁ r f₂ c' hc₁ hb hbody

/-- A text is legible from its opening quote on. -/
theorem legibleAt_text :
    LegibleAt '"'.toUInt8 (eat >>= fun _ => text : Decoder ε String) := by
  intro c r f c' hc hb hr
  obtain ⟨cs, hcs⟩ := hc.exists_encode (by decide) hb
  rw [run_bind_ok (run_eat_cons hb)] at hr
  rcases of_run_bind_fail hr with h₁ | ⟨bytes, c₁, h₁, h₂⟩
  · exact composed_textBytes.legible _ _ _
      { later := by exact hc.later, rest := ⟨cs, hcs ▸ List.suffix_refl _⟩ } h₁
  · -- The bytes between the quotes are UTF-8, so they are decoded without a remainder.
    obtain ⟨⟨l, hl, hrest⟩, -⟩ := yields_textBytes.sound h₁
    have hsplit : encode cs = l ++ '"'.toUInt8 :: c₁.rest := hcs.symm.trans hrest
    obtain ⟨cs₁, -, hl₁, -⟩ := Text.Utf8.of_encode_split (by decide) hsplit
    obtain ⟨cs₂, hbytes⟩ := hl.exists_encode (t := []) (List.forall_mem_nil _) hl₁
    rw [List.nil_append] at hbytes
    rw [Text.Utf8.decode_eq_iff.mpr hbytes] at h₂
    cases h₂

/-- What begins with a byte that is a quote, and goes on with the text after it. -/
theorem LegibleAt.afterText {b : UInt8} {k : String → Decoder ε α} (hb : b = '"'.toUInt8)
    (hk : ∀ s, Legible (k s)) : LegibleAt b (eat >>= fun _ => text >>= k) := by
  rw [hb, ← bind_assoc]
  exact legibleAt_text.bind hk

theorem legibleAt_mismatch (expected : Expected) (b : UInt8) :
    LegibleAt b (mismatch expected b : Decoder ε α) := by
  have wrong : ∀ found, Composed False (failHere (.wrongType found expected) : Decoder ε α) :=
    fun found => .failHere rfl
  have word : ∀ w found, LegibleAt b (eat >>= fun _ => word w >>= fun _ =>
      (failHere (.wrongType found expected) : Decoder ε α)) :=
    fun w found => (Composed.afterWord (wrong found) w).legible.legibleAt b
  unfold mismatch
  refine .ite (fun _ => word _ _) (.ite (fun _ => word _ _) (.ite (fun _ => word _ _) ?_))
  refine .ite (fun _ => ?_) (.ite (fun hq => ?_) ?_)
  · refine (Composed.legible ?_).legibleAt b
    exact .bind .eat fun _ => .bind (composed_number b) fun x => wrong _
  · exact .afterText hq fun s => (wrong _).legible
  · refine (Composed.legible ?_).legibleAt b
    exact .ite _ (wrong _) (.ite _ (wrong _) (.failNext rfl))

theorem legible_string : Legible (string : Decoder ε String) := by
  refine legible_value fun b => .ite (fun hq => ?_) (legibleAt_mismatch _ b)
  rw [hq]
  exact legibleAt_text

theorem legible_boolean : Legible (boolean : Decoder ε Bool) := by
  refine legible_value fun b => .ite (fun _ => ?_) (.ite (fun _ => ?_) (legibleAt_mismatch _ b))
  · exact (Composed.afterWord (.pure true) _).legible.legibleAt b
  · exact (Composed.afterWord (.pure false) _).legible.legibleAt b

theorem legible_integer (expected : Expected) (least most : Int) :
    Legible (integer expected least most : Decoder ε Int) := by
  refine legible_value fun b => .ite (fun _ => ?_) (legibleAt_mismatch _ b)
  refine (Composed.legible ?_).legibleAt b
  refine .bind .eat fun _ => .bind (composed_number b) fun x => ?_
  cases x with
  | integer n => exact .ite _ (.pure n) (.failHere rfl)
  | real x => exact .failHere rfl

theorem legible_unsigned : Legible (unsigned : Decoder ε UInt32) :=
  (legible_integer _ _ _).map _

theorem Legible.optional {d : Decoder ε α} (h : Legible d) : Legible (optional d) := by
  refine composed_blank.legible.bind fun o => .ite _ ?_ (h.map some)
  exact (Composed.afterWord (.pure none) _).legible

/-! ## Containers -/

theorem Legible.elements {element : Decoder ε α} (h : Legible element) :
    Legible (elements element) := by
  have hread : ∀ done : List α, Legible (element >>= fun a => pure (a :: done)) :=
    fun done => h.map _
  refine (composed_nextElement true).legible.bind fun first => .ite _ ?_ ?_
  · refine (hread []).bind fun one =>
      Legible.map (Legible.iterate (fun done => ?_) one) List.reverse
    refine (composed_nextElement false).legible.bind fun more => .ite _ ?_ ?_
    · exact (hread done).map _
    · exact (Composed.pure _).legible
  · exact (Composed.pure []).legible

theorem Legible.sequence {element : Decoder ε α} (h : Legible element) :
    Legible (sequence element) := by
  refine legible_value fun b => .ite (fun _ => ?_) (legibleAt_mismatch _ b)
  exact (h.elements.closing composed_endSequence.legible).afterEat.legibleAt b

/-- A key is asked for only where its quote is. -/
theorem Legible.afterKey {first : Bool} {k : Bool → Decoder ε α}
    (hmore : LegibleAt '"'.toUInt8 (k true)) (hend : Legible (k false)) :
    Legible (nextKey first >>= k) := by
  intro c f c' hc hr
  rcases of_run_bind_fail hr with h₁ | ⟨more, c₁, h₁, h₂⟩
  · exact (composed_nextKey first).legible c f c' hc h₁
  have hc₁ := hc.reaches (reaches_of_ok h₁)
  cases more with
  | false => exact hend c₁ f c' hc₁ h₂
  | true =>
    obtain ⟨hkey, -⟩ := (yields_nextKey first).sound h₁
    obtain ⟨b, r, hrest, rfl⟩ := hkey.exists_cons
    exact hmore c₁ r f c' hc₁ hrest h₂

theorem legible_entries {entry : σ → Decoder ε σ} (h : ∀ s, LegibleAt '"'.toUInt8 (entry s))
    (s : σ) : Legible (entries entry s) := by
  refine Legible.afterKey ?_ (Composed.pure s).legible
  refine (h s).bind fun s' => Legible.iterate (fun s => ?_) s'
  exact Legible.afterKey ((h s).bind fun s' => (Composed.pure _).legible) (Composed.pure _).legible

theorem Legible.whole {d : Decoder ε α} (h : Legible d) : Legible (whole d) := by
  refine h.bind fun a => Composed.legible ?_
  exact .bind composed_blank (.option (.pure a) fun _ => .failNext rfl)

end Decoder

/-! ## Records -/

namespace Record

open Decoder

variable {ε σ : Type} {r : Record ε σ}

theorem legibleAt_entry (hr : ∀ f ∈ r.fields, ∀ s, Legible (f.read s)) (p : Progress σ) :
    LegibleAt '"'.toUInt8 (r.entry p) := by
  refine .afterText rfl fun key => ?_
  cases hf : r.field? key with
  | none =>
    refine Composed.legible ?_
    exact .bind composed_colon fun _ => composed_skip.map _
  | some f =>
    have hmem : f ∈ r.fields := List.mem_of_find?_eq_some hf
    refine .ite _ (Composed.legible (.failAnywhere rfl)) ?_
    exact composed_colon.legible.bind fun _ => (hr f hmem p.state).map _

theorem legible_fromObject (hr : ∀ f ∈ r.fields, ∀ s, Legible (f.read s)) (s : σ) :
    Legible (r.fromObject s) := by
  refine (legible_entries (legibleAt_entry hr) _).bind fun p => Composed.legible ?_
  cases r.fields.find? fun f => f.absence == .never && f.key ∉ p.given with
  | none => exact .pure _
  | some f => exact .failAnywhere rfl

theorem legible_fromElements {fields : List (Field ε σ)}
    (hr : ∀ f ∈ fields, ∀ s, Legible (f.read s)) (read : Nat) (s : σ) :
    Legible (r.fromElements fields read s) := by
  induction fields generalizing read s with
  | nil => exact (Composed.pure s).legible
  | cons f fs ih =>
    have hf : ∀ s, Legible (f.read s) := hr f List.mem_cons_self
    have hfs := ih fun g hg => hr g (List.mem_cons_of_mem f hg)
    refine (composed_nextElement _).legible.bind fun more => .ite _ ?_ (.ite _ (hfs _ _) ?_)
    · exact (hf s).bind fun s' => hfs _ s'
    · exact Composed.legible (.failAnywhere rfl)

theorem legible_decoder (hr : ∀ f ∈ r.fields, ∀ s, Legible (f.read s)) (s : σ) :
    Legible (r.decoder s) := by
  refine legible_value fun b => .ite (fun _ => ?_) (.ite (fun _ => ?_) (legibleAt_mismatch _ b))
  · have hbody := (legible_fromElements (r := r) hr 0 s).closing composed_endSequence.legible
    exact hbody.afterEat.legibleAt b
  · have hbody := (legible_fromObject hr s).closing composed_endObject.legible
    exact hbody.afterEat.legibleAt b

end Record

end Findings.Json

/-! ## Reports -/

namespace Findings

open Json Decoder

theorem Finding.legible_decoder : Legible Finding.decoder := by
  have hstring : Legible (optional (string : Decoder Draft.Problem String)) :=
    legible_string.optional
  have hunsigned : Legible (optional (unsigned : Decoder Draft.Problem UInt32)) :=
    legible_unsigned.optional
  refine (Record.legible_decoder (fun f hf s => ?_) _).bind fun d => Composed.legible ?_
  · simp only [Draft.record, List.mem_cons, List.not_mem_nil, or_false] at hf
    rcases hf with rfl | rfl | rfl | rfl | rfl | rfl
    · exact hstring.map _
    · exact (legible_integer _ _ _).optional.map _
    · exact hstring.map _
    · exact hunsigned.map _
    · exact hunsigned.map _
    · exact legible_boolean.map _
  · cases d.check with
    | error p => exact .failAnywhere rfl
    | ok f => exact .pure f

theorem FileReport.legible_decoder : Legible FileReport.decoder := by
  refine Record.legible_decoder (fun f hf s => ?_) _
  simp only [FileReport.record, List.mem_cons, List.not_mem_nil, or_false] at hf
  rcases hf with rfl | rfl
  · exact legible_string.map _
  · exact Finding.legible_decoder.sequence.map _

theorem Report.legible_decoder : Legible Report.decoder :=
  FileReport.legible_decoder.sequence

end Findings
