import Findings.Proofs.Legible
import Findings.Proofs.Reports

/-!
# Texts and streams

A document may be read from a text or from a stream of its bytes. What comes of it is the same, and
so is the wording of a refusal, except that a stream tells the position after the byte that it has
pulled and not yet used up, where a text tells the one before it.

Main statement: `Report.ofText_agrees_ofStream`.
-/

namespace Findings.Json

open Text.Utf8 (encode)

/-- The stream of the bytes of a text. -/
def Stream.ofText (text : String) : Stream where
  bytes := encode text.toList

@[simp] theorem Stream.delivered_ofText (text : String) :
    (Stream.ofText text).delivered = (Stream.ofText text).bytes :=
  delivered_mk _ _

/-! ## The wording of positions -/

/-- The words for a position at the end of a diagnostic. -/
def Position.words (p : Position) : String :=
  " at line " ++ toString p.line ++ " column " ++ toString p.column

theorem Diagnostic.message_eq {ε : Type} {d : Diagnostic ε} {p : Position}
    (h : d.position = some p) (wording : ε → String) :
    d.message wording = d.cause.message wording ++ p.words := by
  unfold Diagnostic.message Position.words
  rw [h]

namespace Decoder

variable {ε α β : Type} {texts : Prop}

/-! ## Faults that have a place -/

/-- A decoder whose faults all have a place, unless the stream breaks off. -/
def Locates (d : Decoder ε α) : Prop :=
  ∀ c f c', c.failure = none → d.run c = .fail f c' → ∃ p, f.place = some p

/-- White space is passed over without a fault. -/
theorem locates_blank : Locates (blank : Decoder ε (Option UInt8)) := by
  intro c f c' hc hr
  obtain ⟨c₁, h₁, -⟩ := yields_blank.run hc ⟨rfl, rfl⟩
  rw [h₁] at hr
  cases hr

theorem locates_failNext (cause : Cause ε) : Locates (failNext cause : Decoder ε α) := by
  intro c f c' _ hr
  cases hr
  exact ⟨_, rfl⟩

theorem locates_placed (d : Decoder ε α) : Locates (placed d) := by
  intro c f c' _ hr
  obtain ⟨f₁, -, rfl⟩ := of_run_placed_fail hr
  exact ⟨_, rfl⟩

/-- A decoder that succeeds leaves it to the next one whether the stream breaks off. -/
theorem Locates.bind {d : Decoder ε α} {L : List UInt8 → α → List UInt8 → Prop}
    {k : α → Decoder ε β} (h : Locates d) (hd : Yields d L) (hk : ∀ a, Locates (k a)) :
    Locates (d >>= k) := by
  intro c f c' hc hr
  rcases of_run_bind_fail hr with h₁ | ⟨a, c₁, h₁, h₂⟩
  · exact h c f c' hc h₁
  · have hc₁ : c₁.failure = none := (hd.sound h₁).2.trans hc
    exact hk a c₁ f c' hc₁ h₂

/-- What a decoder that starts with white space does after it. -/
theorem locates_blank_bind {k : Option UInt8 → Decoder ε α} (hnone : Locates (k none))
    (hsome : ∀ b, Locates (k (some b))) : Locates (blank >>= k) := by
  refine locates_blank.bind yields_blank fun o => ?_
  cases o with
  | none => exact hnone
  | some b => exact hsome b

theorem locates_value (body : UInt8 → Decoder ε α) : Locates (value body) :=
  locates_blank_bind (locates_failNext _) fun b => locates_placed (body b)

theorem Locates.whole {d : Decoder ε α} {L : List UInt8 → α → List UInt8 → Prop} (h : Locates d)
    (hd : Yields d L) : Locates (whole d) := by
  refine h.bind hd fun a => locates_blank_bind ?_ fun _ => locates_failNext _
  intro c f c' _ hr
  cases hr

/-! ## Both ways of counting -/

theorem decode_eq_error_iff {d : Decoder ε α} {source : Source} {s : Stream} {e : Diagnostic ε} :
    d.decode source s = .error e ↔
      ∃ f c, d.whole.run (Cursor.start s) = .fail f c ∧
        Diagnostic.ofFault source s.delivered f = e := by
  unfold decode
  cases d.whole.run (Cursor.start s) with
  | ok a c => simp
  | fail f c => simp

/-- A fault in a text is told at a place in it, however the text comes. -/
theorem exists_place_of_fail {d : Decoder ε α} (hd : Composed texts d) (hlegible : Legible d)
    (hplace : Locates d.whole) {text : String} {f : Fault ε} {c : Cursor}
    (hr : d.whole.run (Cursor.start (.ofText text)) = .fail f c) :
    ∃ p : Place, f.place = some p ∧ p.count .stream ≤ (Stream.ofText text).bytes.length ∧
      ∀ source, Diagnostic.ofFault source (Stream.ofText text).bytes f = {
        cause := f.cause
        position := some (Position.after ((Stream.ofText text).bytes.take (p.count source))) } := by
  have hstart : (Cursor.start (.ofText text)).OfText :=
    ⟨rfl, text.toList, List.suffix_refl _⟩
  have hsound := hd.whole.sound hr
  have hcause := hlegible.whole _ f c hstart hr
  obtain ⟨p, hp⟩ := hplace _ f c rfl hr
  have hback : p.back = 0 := hsound.unmoved hcause p hp
  refine ⟨p, hp, ?_, ?_⟩
  · have hinside := hsound.inside p hp
    simpa using hinside
  · intro source
    unfold Diagnostic.ofFault
    rw [hp, Option.map_some, Place.position_of_back_eq_zero hback]

/-- However a text comes, the outcome is the same value or the same cause, and one place in the text
gives both positions. -/
theorem decode_cases {d : Decoder ε α} (hd : Composed texts d) (hlegible : Legible d)
    (hplace : Locates d.whole) (text : String) :
    (∃ a, ∀ source, d.decode source (.ofText text) = .ok a) ∨
      ∃ cause, ∃ p : Place, p.count .stream ≤ (Stream.ofText text).bytes.length ∧
        ∀ source, d.decode source (.ofText text) = .error {
          cause
          position := some (.after ((Stream.ofText text).bytes.take (p.count source))) } := by
  unfold decode
  rw [Stream.delivered_ofText]
  cases hr : d.whole.run (Cursor.start (.ofText text)) with
  | ok a c =>
    left
    exact ⟨a, fun _ => rfl⟩
  | fail f c =>
    right
    obtain ⟨p, -, hinside, htold⟩ := exists_place_of_fail hd hlegible hplace hr
    exact ⟨f.cause, p, hinside, fun source => congrArg Except.error (htold source)⟩

end Decoder

end Findings.Json

namespace Findings

open Json

/-- A report is refused at some place, unless the stream breaks off. -/
theorem Report.locates_decoder : Decoder.Locates Report.decoder.whole :=
  (Decoder.locates_value _).whole Report.reads_decoder.yields

/-- A fault in the text of a report is told at a place in it. -/
theorem Report.exists_place {text : String} {f : Fault Draft.Problem} {c : Cursor}
    (hr : Report.decoder.whole.run (Cursor.start (.ofText text)) = .fail f c) :
    ∃ p : Place, f.place = some p ∧ p.count .stream ≤ (Stream.ofText text).bytes.length ∧
      ∀ source, Diagnostic.ofFault source (Stream.ofText text).bytes f = {
        cause := f.cause
        position := some (Position.after ((Stream.ofText text).bytes.take (p.count source))) } :=
  Decoder.exists_place_of_fail Report.composed_decoder Report.legible_decoder
    Report.locates_decoder hr

theorem Report.ofText_eq_decode (text : String) :
    Report.ofText text = Report.decoder.decode .text (.ofText text) :=
  rfl

/-- A text and the stream of its bytes hold the same report, or are refused in the same words but
for the position at their end. The position in the text is that of a place in it, and the one in the
stream is that of the same place or of the next, which is then in the document as well. -/
theorem Report.ofText_agrees_ofStream (text : String) :
    (∃ r, Report.ofText text = .ok r ∧ Report.ofStream (.ofText text) = .ok r) ∨
    ∃ (e e' : Refusal) (p p' : Position) (words : String),
      Report.ofText text = .error e ∧ Report.ofStream (.ofText text) = .error e' ∧
      e.text = words ++ p.words ∧ e'.text = words ++ p'.words ∧
      (∃ i ≤ (Stream.ofText text).bytes.length,
        p = Position.after ((Stream.ofText text).bytes.take i)) ∧
      ∀ i ≤ (Stream.ofText text).bytes.length,
        p = Position.after ((Stream.ofText text).bytes.take i) →
        p' = Position.after ((Stream.ofText text).bytes.take i) ∨
          i + 1 ≤ (Stream.ofText text).bytes.length ∧
            p' = Position.after ((Stream.ofText text).bytes.take (i + 1)) := by
  have hcases := Decoder.decode_cases Report.composed_decoder Report.legible_decoder
    Report.locates_decoder text
  rcases hcases with ⟨r, hr⟩ | ⟨cause, place, hinside, herror⟩
  · left
    exact ⟨r, hr .text, hr .stream⟩
  · right
    have htext := place.offset_le_count .stream
    have hstream := place.count_le_succ_offset .stream
    refine ⟨_, _, _, _, cause.message Draft.Problem.message, herror .text, herror .stream,
      Diagnostic.message_eq rfl _, Diagnostic.message_eq rfl _, ?_, ?_⟩
    · exact ⟨place.offset, by omega, rfl⟩
    · intro i hi hp
      have hplace : place.offset = i := Position.after_take_inj (by omega) hi hp
      rw [hplace] at htext hstream
      by_cases hsame : place.count .stream = i
      · left
        rw [hsame]
      · right
        have hnext : place.count .stream = i + 1 := by omega
        rw [hnext] at hinside ⊢
        exact ⟨hinside, rfl⟩

end Findings
