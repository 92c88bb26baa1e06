import Findings.Proofs.Numerals
import Findings.Report.Decoding

/-!
# What decoders are made of

All decoders are put together from a few that read a byte or fail and from a few ways of joining
decoders. `Composed` says so of a decoder, and a law of decoders need then be shown for those few
only: it holds of the others by induction.

A decoder may refuse a text because its bytes are not UTF-8. The parameter `texts` of `Composed`
says whether one does, because such a fault differs from all others: it alone is told some columns
before the place where it is seen.

Main statement: the decoder of whole reports is composed (`Report.composed_decoder`).
-/

namespace Findings.Json

/-- Whether a text is refused for its bytes. -/
def Cause.isBadUnicode {ε : Type} : Cause ε → Bool
  | badUnicode => true
  | _ => false

namespace Decoder

variable {ε α β σ : Type} {texts : Prop}

/-! ## Where faults come from -/

theorem of_run_peek_fail {c c' : Cursor} {f : Fault ε}
    (h : (peek : Decoder ε (Option UInt8)).run c = .fail f c') :
    ∃ reason, f = { cause := .unreadable reason, place := none } := by
  cases hc : c.rest with
  | cons b r =>
    rw [run_peek_cons hc] at h
    cases h
  | nil =>
    cases hf : c.failure with
    | none =>
      rw [run_peek_end hc hf] at h
      cases h
    | some reason =>
      rw [run_peek_failure hc hf] at h
      cases h
      exact ⟨reason, rfl⟩

theorem run_eat_ne_fail {c c' : Cursor} {f : Fault ε} :
    (eat : Decoder ε Unit).run c ≠ .fail f c' := by
  intro h
  unfold eat at h
  simp only at h
  split at h <;> cases h

theorem of_run_failAfter_fail {d : Decoder ε α} {cause : Option α → Cause ε} {c c' : Cursor}
    {f : Fault ε} (h : (failAfter d cause : Decoder ε β).run c = .fail f c') :
    c.Reaches c' ∧
      ∃ o p, f = { cause := cause o, place := some p } ∧ (p = c'.next ∨ p = c'.here) := by
  have hreach := reaches_of_fail h
  simp only [failAfter] at h
  split at h
  · cases h
    exact ⟨hreach, _, _, rfl, .inl rfl⟩
  · cases h
    exact ⟨hreach, _, _, rfl, .inr rfl⟩

theorem of_run_bind_fail {d : Decoder ε α} {k : α → Decoder ε β} {c c' : Cursor} {f : Fault ε}
    (h : (d >>= k).run c = .fail f c') :
    d.run c = .fail f c' ∨ ∃ a c₁, d.run c = .ok a c₁ ∧ (k a).run c₁ = .fail f c' := by
  rw [run_bind] at h
  split at h
  · next a c₁ h₁ => exact Or.inr ⟨a, c₁, h₁, h⟩
  · next f₁ c₁ h₁ =>
    cases h
    exact Or.inl h₁

theorem of_run_placed_fail {d : Decoder ε α} {c c' : Cursor} {f : Fault ε}
    (h : (placed d).run c = .fail f c') :
    ∃ f₁, d.run c = .fail f₁ c' ∧ f = f₁.placeAt c'.here := by
  simp only [placed] at h
  split at h
  · cases h
  · next f₁ c₁ h₁ =>
    cases h
    exact ⟨f₁, h₁, rfl⟩

theorem of_run_closing_fail {d : Decoder ε α} {close : Decoder ε Unit} {c c' : Cursor}
    {f : Fault ε} (h : (closing d close).run c = .fail f c') :
    (∃ c₁, d.run c = .fail f c₁) ∨
      ∃ a c₁, d.run c = .ok a c₁ ∧ close.run c₁ = .fail f c' := by
  simp only [closing] at h
  split at h
  · next a c₁ h₁ =>
    split at h
    · cases h
    · next f₂ c₂ h₂ =>
      cases h
      exact Or.inr ⟨a, c₁, h₁, h₂⟩
  · next f₁ c₁ h₁ =>
    cases h
    exact Or.inl ⟨c₁, h₁⟩

/-- A fault of a loop is one of a round. -/
theorem of_run_iterate_fail {round : σ → Decoder ε (Round σ β)} {advances : Advances round} {s : σ}
    {c c' : Cursor} {f : Fault ε} (h : (iterate round advances s).run c = .fail f c') :
    ∃ s₁ c₁, c.Reaches c₁ ∧ (round s₁).run c₁ = .fail f c' := by
  change iterateFrom round advances s c = .fail f c' at h
  fun_induction iterateFrom round advances s c with
  | case1 s c s' c₁ h₁ ih =>
    obtain ⟨s₂, c₂, hreach, h₂⟩ := ih h
    exact ⟨s₂, c₂, (reaches_of_ok h₁).trans hreach, h₂⟩
  | case2 => cases h
  | case3 s c f₁ c₁ h₁ =>
    cases h
    exact ⟨s, c, .refl c, h₁⟩

/-! ## The primitives -/

/-- A decoder that is put together from the primitives, and refuses a text for its bytes only if
`texts` holds. -/
inductive Composed (texts : Prop) : {α : Type} → Decoder ε α → Prop where
  | pure {α : Type} (a : α) : Composed texts (pure a)
  | peek : Composed texts peek
  | eat : Composed texts eat
  | failAnywhere {α : Type} {cause : Cause ε} (h : cause.isBadUnicode = false) :
    Composed texts (failAnywhere cause : Decoder ε α)
  | failHere {α : Type} {cause : Cause ε} (h : cause.isBadUnicode = false) :
    Composed texts (failHere cause : Decoder ε α)
  | failText {α : Type} (h : texts) (back : Nat) :
    Composed texts (failHere .badUnicode back : Decoder ε α)
  | failNext {α : Type} {cause : Cause ε} (h : cause.isBadUnicode = false) :
    Composed texts (failNext cause : Decoder ε α)
  | failAfter {α β : Type} {d : Decoder ε α} {cause : Option α → Cause ε} (hd : Composed texts d)
    (h : ∀ o, (cause o).isBadUnicode = false) : Composed texts (failAfter d cause : Decoder ε β)
  | bind {α β : Type} {d : Decoder ε α} {k : α → Decoder ε β} (hd : Composed texts d)
    (hk : ∀ a, Composed texts (k a)) : Composed texts (d >>= k)
  | placed {α : Type} {d : Decoder ε α} (hd : Composed texts d) : Composed texts (placed d)
  | closing {α : Type} {d : Decoder ε α} {close : Decoder ε Unit} (hd : Composed texts d)
    (hclose : Composed texts close) : Composed texts (closing d close)
  | iterate {σ β : Type} {round : σ → Decoder ε (Round σ β)} {advances : Advances round}
    (hround : ∀ s, Composed texts (round s)) (s : σ) : Composed texts (iterate round advances s)

namespace Composed

theorem ite {d d' : Decoder ε α} (c : Prop) [Decidable c] (h : Composed texts d)
    (h' : Composed texts d') : Composed texts (if c then d else d') := by
  split
  · exact h
  · exact h'

/-- What is done with a byte or at the end. -/
theorem option {k : Option UInt8 → Decoder ε α} (hnone : Composed texts (k none))
    (hsome : ∀ b, Composed texts (k (some b))) (o : Option UInt8) : Composed texts (k o) := by
  cases o with
  | none => exact hnone
  | some b => exact hsome b

theorem map {d : Decoder ε α} (h : Composed texts d) (g : α → β) :
    Composed texts (d >>= fun a => Pure.pure (g a)) :=
  .bind h fun a => .pure (g a)

theorem next : Composed texts (next : Decoder ε (Option UInt8)) :=
  .bind .peek fun o => .bind .eat fun _ => .pure o

end Composed

/-! ## Loops -/

/-- What a sweep does at a byte is composed. -/
def Turn.Composed (texts : Prop) : Turn ε σ β → Prop
  | .take d => Decoder.Composed texts d
  | .leave d => Decoder.Composed texts d

theorem Turn.Composed.ite {t t' : Turn ε σ β} (c : Prop) [Decidable c] (h : t.Composed texts)
    (h' : t'.Composed texts) : (if c then t else t').Composed texts := by
  split
  · exact h
  · exact h'

theorem Composed.sweep {atEnd : σ → Decoder ε β} {turn : σ → UInt8 → Turn ε σ β}
    (hend : ∀ s, Composed texts (atEnd s)) (hturn : ∀ s b, (turn s b).Composed texts) (s : σ) :
    Composed texts (sweep atEnd turn s) := by
  refine .iterate (fun s => ?_) s
  refine .bind .peek (.option ((hend s).map _) fun b => ?_)
  have hb : (turn s b).Composed texts := hturn s b
  cases ht : turn s b with
  | take d =>
    rw [ht] at hb
    simp only [ht]
    exact .bind .eat fun _ => hb.map _
  | leave d =>
    rw [ht] at hb
    simp only [ht]
    exact hb.map _

theorem Composed.whileNext {more : Decoder ε Bool} {leads : Leads more} {body : σ → Decoder ε σ}
    (hmore : Composed texts more) (hbody : ∀ s, Composed texts (body s)) (s : σ) :
    Composed texts (whileNext more leads body s) := by
  refine .iterate (fun s => .bind hmore fun b => ?_) s
  exact .ite _ ((hbody s).map _) (.pure _)

/-! ## Tokens -/

theorem composed_blank : Composed texts (blank : Decoder ε (Option UInt8)) := by
  refine .sweep (fun _ => .pure none) (fun _ b => ?_) ()
  exact .ite _ (.pure ()) (.pure (some b))

theorem composed_word (w : List UInt8) : Composed texts (word w : Decoder ε Unit) := by
  induction w with
  | nil => exact .pure ()
  | cons b w ih =>
    refine .bind .next (.option (.failHere rfl) fun x => ?_)
    exact .ite _ ih (.failHere rfl)

/-! ## Containers -/

theorem composed_nextElement (first : Bool) :
    Composed texts (nextElement first : Decoder ε Bool) := by
  refine .bind composed_blank (.option (.failNext rfl) fun b => ?_)
  refine .ite _ (.pure false) (.ite _ (.pure true) (.ite _ ?_ (.failNext rfl)))
  refine .bind .eat fun _ => .bind composed_blank (.option (.failNext rfl) fun b' => ?_)
  exact .ite _ (.failNext rfl) (.pure true)

theorem composed_endSequence : Composed texts (endSequence : Decoder ε Unit) := by
  refine .bind composed_blank (.option (.failNext rfl) fun b => ?_)
  refine .ite _ .eat (.ite _ ?_ (.failNext rfl))
  refine .bind .eat fun _ => .failAfter composed_blank fun o => ?_
  split <;> rfl

theorem composed_nextKey (first : Bool) : Composed texts (nextKey first : Decoder ε Bool) := by
  refine .bind composed_blank (.option (.failNext rfl) fun b => ?_)
  refine .ite _ (.pure false) (.ite _ (.ite _ (.pure true) (.failNext rfl)) ?_)
  refine .ite _ ?_ (.failNext rfl)
  refine .bind .eat fun _ => .bind composed_blank (.option (.failNext rfl) fun b' => ?_)
  exact .ite _ (.pure true) (.ite _ (.failNext rfl) (.failNext rfl))

theorem composed_endObject : Composed texts (endObject : Decoder ε Unit) := by
  refine .bind composed_blank (.option (.failNext rfl) fun b => ?_)
  exact .ite _ .eat (.ite _ (.failNext rfl) (.failNext rfl))

theorem composed_colon : Composed texts (colon : Decoder ε Unit) := by
  refine .bind composed_blank (.option (.failNext rfl) fun b => ?_)
  exact .ite _ .eat (.failNext rfl)

theorem Composed.elements {element : Decoder ε α} (h : Composed texts element) :
    Composed texts (elements element) := by
  have hread : ∀ done : List α, Composed texts (element >>= fun a => Pure.pure (a :: done)) :=
    fun done => h.map _
  refine .bind (composed_nextElement true) fun first => .ite _ ?_ (.pure [])
  exact .bind (hread []) fun one =>
    (Composed.whileNext (composed_nextElement false) hread one).map List.reverse

theorem Composed.entries {entry : σ → Decoder ε σ} (h : ∀ s, Composed texts (entry s)) (s : σ) :
    Composed texts (entries entry s) := by
  refine .bind (composed_nextKey true) fun first => .ite _ ?_ (.pure s)
  exact .bind (h s) (.whileNext (composed_nextKey false) h)

/-! ## Texts -/

theorem composed_textByte : Composed texts (textByte : Decoder ε UInt8) :=
  .bind .next (.option (.failHere rfl) .pure)

theorem composed_hexQuad : Composed texts (hexQuad : Decoder ε Nat) := by
  refine .bind composed_textByte fun a => .bind composed_textByte fun b =>
    .bind composed_textByte fun c => .bind composed_textByte fun d => ?_
  cases hexNumber? a b c d with
  | none => exact .failHere rfl
  | some n => exact .pure n

theorem composed_joint (b : UInt8) : Composed texts (joint b : Decoder ε Unit) := by
  refine .bind .peek (.option (.failHere rfl) fun x => ?_)
  exact .bind .eat fun _ => .ite _ (.pure ()) (.failHere rfl)

theorem composed_numberedChar : Composed texts (numberedChar : Decoder ε Char) := by
  refine .bind composed_hexQuad fun n => .ite _ (.failHere rfl) (.ite _ ?_ (.pure _))
  refine .bind (composed_joint _) fun _ => .bind (composed_joint _) fun _ => ?_
  exact .bind composed_hexQuad fun m => .ite _ (.pure _) (.failHere rfl)

theorem composed_escape : Composed texts (escape : Decoder ε Char) := by
  refine .bind composed_textByte fun b => .ite _ composed_numberedChar ?_
  cases escaped? b with
  | none => exact .failHere rfl
  | some c => exact .pure c

theorem composed_textBytes : Composed texts (textBytes : Decoder ε (List UInt8)) := by
  refine .sweep (fun _ => ?_) (fun done b => .ite _ ?_ (.ite _ ?_ (.ite _ ?_ ?_))) []
  · exact .failHere rfl
  · exact .bind .eat fun _ => .pure _
  · exact composed_escape.map _
  · exact .bind .eat fun _ => .failHere rfl
  · exact .pure _

theorem composed_text (h : texts) : Composed texts (text : Decoder ε String) := by
  refine .bind composed_textBytes fun bytes => ?_
  split
  · exact .pure _
  · exact .failText h _

theorem composed_skipEscape : Composed texts (skipEscape : Decoder ε Unit) := by
  refine .bind composed_textByte fun b => ?_
  exact .ite _ (composed_hexQuad.map _) (.ite _ (.pure ()) (.failHere rfl))

theorem composed_skipText : Composed texts (skipText : Decoder ε Unit) := by
  refine .sweep (fun _ => ?_) (fun _ b => .ite _ ?_ (.ite _ ?_ (.ite _ ?_ ?_))) ()
  · exact .failHere rfl
  · exact .eat
  · exact composed_skipEscape
  · exact .failHere rfl
  · exact .pure ()

/-! ## Numbers -/

theorem isBadUnicode_cut (use : Use) : (use.cut : Cause ε).isBadUnicode = false := by
  cases use <;> rfl

theorem composed_digits (done : List Nat) :
    Composed texts (digits done : Decoder ε (List Nat)) := by
  refine .sweep (fun _ => .pure _) (fun _ b => ?_) done
  exact .ite _ (.pure _) (.pure _)

theorem composed_wholeDigits (use : Use) (first : Option UInt8) :
    Composed texts (wholeDigits use first : Decoder ε (List Nat)) := by
  cases first with
  | none => exact .failHere (isBadUnicode_cut use)
  | some b =>
    refine .ite _ (.bind .peek ?_) (.ite _ (composed_digits _) (.failHere rfl))
    exact .option (.pure [0]) fun b' => .ite _ (.failNext rfl) (.pure [0])

theorem composed_fractionDigits (use : Use) :
    Composed texts (fractionDigits use : Decoder ε (List Nat)) := by
  refine .bind .peek fun o => .ite _ (.bind .eat fun _ => ?_) (.pure [])
  refine .bind (composed_digits []) fun ds => .ite _ (.bind .peek ?_) (.pure ds)
  exact .option (.failNext (isBadUnicode_cut use)) fun _ => .failNext rfl

theorem composed_exponentDigits (tooLarge : Bool) (first : Nat) :
    Composed texts (exponentDigits tooLarge first : Decoder ε Nat) := by
  refine .sweep (fun n => .pure n) (fun n b => .ite _ (.ite _ ?_ ?_) ?_) first
  · exact .bind .eat fun _ => .failHere rfl
  · exact .pure _
  · exact .pure n

theorem composed_exponentTail (use : Use) (zero negative : Bool) :
    Composed texts (exponentTail use zero negative : Decoder ε (Option Int)) := by
  refine .bind .next (.option (.failHere (isBadUnicode_cut use)) fun d => ?_)
  exact .ite _ ((composed_exponentDigits _ _).map _) (.failHere rfl)

theorem composed_exponentPart (use : Use) (zero : Bool) :
    Composed texts (exponentPart use zero : Decoder ε (Option Int)) := by
  rw [exponentPart_eq]
  refine .bind .peek (.option (.pure none) fun b => .ite _ (.bind .eat fun _ => ?_) (.pure none))
  exact .bind .peek fun o => .ite _ (.bind .eat fun _ => composed_exponentTail _ _ _)
    (composed_exponentTail _ _ _)

theorem composed_numeral (use : Use) (b : UInt8) :
    Composed texts (numeral use b : Decoder ε Numeral) := by
  rw [numeral_eq]
  refine .bind (.bind (.ite _ .next (.pure _)) (composed_wholeDigits use)) fun whole => ?_
  refine .bind (composed_fractionDigits use) fun fraction => ?_
  exact (composed_exponentPart use _).map _

theorem composed_number (b : UInt8) : Composed texts (number b : Decoder ε Number) := by
  refine .bind (composed_numeral .valued b) fun n => ?_
  cases n.number? with
  | none => exact .failHere rfl
  | some x => exact .pure x

/-! ## Values that are passed over -/

theorem composed_completeValue {d : Decoder ε Unit} (h : Composed texts d)
    (brackets : List Bracket) : (completeValue brackets d).Composed texts := by
  cases brackets with
  | nil => exact .bind .eat fun _ => h
  | cons top below => exact h.map _

theorem composed_valueTurn (brackets : List Bracket) (b : UInt8) :
    (valueTurn brackets b : Turn ε Skipping Unit).Composed texts := by
  have hword : ∀ w, (completeValue brackets (word w) : Turn ε Skipping Unit).Composed texts :=
    fun w => composed_completeValue (composed_word w) brackets
  unfold valueTurn
  refine .ite _ (hword _) (.ite _ (hword _) (.ite _ (hword _) (.ite _ ?_ (.ite _ ?_ ?_))))
  · exact composed_completeValue ((composed_numeral .skipped b).map _) brackets
  · exact composed_completeValue composed_skipText brackets
  · exact .ite _ (.pure _) (.ite _ (.pure _) (.failNext rfl))

theorem composed_keyTurn (below : List Bracket) (b : UInt8) :
    (keyTurn below b : Turn ε Skipping Unit).Composed texts := by
  refine .ite _ ?_ (.failNext rfl)
  exact .bind composed_skipText fun _ => composed_colon.map _

theorem composed_skipTurn (s : Skipping) (b : UInt8) :
    (skipTurn s b : Turn ε Skipping Unit).Composed texts := by
  refine .ite _ (.pure s) ?_
  cases s with
  | value brackets => exact composed_valueTurn brackets b
  | opened top below =>
    refine .ite _ (composed_completeValue (.pure ()) below) ?_
    cases top with
    | square => exact composed_valueTurn _ b
    | curly => exact composed_keyTurn below b
  | key below => exact composed_keyTurn below b
  | after top below =>
    refine .ite _ (composed_completeValue (.pure ()) below) (.ite _ ?_ ?_)
    · cases top <;> exact .pure _
    · cases top <;> exact .failNext rfl

theorem composed_skip : Composed texts (skip : Decoder ε Unit) := by
  refine .sweep (fun s => ?_) composed_skipTurn _
  cases s with
  | value _ => exact .failNext rfl
  | opened top _ => cases top <;> exact .failNext rfl
  | key _ => exact .failNext rfl
  | after top _ => cases top <;> exact .failNext rfl

/-! ## Values of a wanted type -/

theorem Composed.value {body : UInt8 → Decoder ε α} (h : ∀ b, Composed texts (body b)) :
    Composed texts (value body) :=
  .bind composed_blank (.option (.failNext rfl) fun b => .placed (h b))

/-- A fixed word and what is done after it, once its first letter is looked at. -/
theorem Composed.afterWord {d : Decoder ε α} (h : Composed texts d) (w : List UInt8) :
    Composed texts (Decoder.eat >>= fun _ => word w >>= fun _ => d) :=
  .bind .eat fun _ => .bind (composed_word w) fun _ => h

theorem composed_mismatch (h : texts) (expected : Expected) (b : UInt8) :
    Composed texts (mismatch expected b : Decoder ε α) := by
  have wrong : ∀ found, Composed texts (failHere (.wrongType found expected) : Decoder ε α) :=
    fun found => .failHere rfl
  refine .ite _ (.afterWord (wrong _) _) (.ite _ (.afterWord (wrong _) _) ?_)
  refine .ite _ (.afterWord (wrong _) _) (.ite _ ?_ (.ite _ ?_ ?_))
  · exact .bind .eat fun _ => .bind (composed_number b) fun x => wrong _
  · exact .bind .eat fun _ => .bind (composed_text h) fun s => wrong _
  · exact .ite _ (wrong _) (.ite _ (wrong _) (.failNext rfl))

theorem composed_string (h : texts) : Composed texts (string : Decoder ε String) :=
  .value fun b => .ite _ (.bind .eat fun _ => composed_text h) (composed_mismatch h _ b)

theorem composed_boolean (h : texts) : Composed texts (boolean : Decoder ε Bool) := by
  refine .value fun b => .ite _ (.afterWord (.pure true) _) ?_
  exact .ite _ (.afterWord (.pure false) _) (composed_mismatch h _ b)

theorem composed_integer (h : texts) (expected : Expected) (least most : Int) :
    Composed texts (integer expected least most : Decoder ε Int) := by
  refine .value fun b => .ite _ (.bind .eat fun _ => ?_) (composed_mismatch h _ b)
  refine .bind (composed_number b) fun x => ?_
  cases x with
  | integer n => exact .ite _ (.pure n) (.failHere rfl)
  | real x => exact .failHere rfl

theorem composed_signed (h : texts) : Composed texts (signed : Decoder ε Int) :=
  composed_integer h _ _ _

theorem composed_unsigned (h : texts) : Composed texts (unsigned : Decoder ε UInt32) :=
  (composed_integer h _ _ _).map _

theorem Composed.optional {d : Decoder ε α} (h : Composed texts d) :
    Composed texts (optional d) :=
  .bind composed_blank fun _ => .ite _ (.afterWord (.pure none) _) (h.map _)

theorem Composed.sequence {element : Decoder ε α} (ht : texts) (h : Composed texts element) :
    Composed texts (sequence element) := by
  refine .value fun b => .ite _ (.bind .eat fun _ => ?_) (composed_mismatch ht _ b)
  exact .closing h.elements composed_endSequence

/-! ## Whole documents -/

theorem Composed.whole {d : Decoder ε α} (h : Composed texts d) : Composed texts (whole d) :=
  .bind h fun a => .bind composed_blank (.option (.pure a) fun _ => .failNext rfl)

end Decoder

/-! ## Records -/

namespace Record

open Decoder

variable {ε σ : Type} {texts : Prop} {r : Record ε σ}

theorem composed_entry (ht : texts) (hr : ∀ f ∈ r.fields, ∀ s, Composed texts (f.read s))
    (p : Progress σ) : Composed texts (r.entry p) := by
  refine .bind .eat fun _ => .bind (composed_text ht) fun key => ?_
  cases hf : r.field? key with
  | none => exact .bind composed_colon fun _ => composed_skip.map _
  | some f =>
    have hmem : f ∈ r.fields := List.mem_of_find?_eq_some hf
    refine .ite _ (.failAnywhere rfl) (.bind composed_colon fun _ => ?_)
    exact (hr f hmem p.state).map _

theorem composed_fromObject (ht : texts) (hr : ∀ f ∈ r.fields, ∀ s, Composed texts (f.read s))
    (s : σ) : Composed texts (r.fromObject s) := by
  refine .bind (.entries (composed_entry ht hr) _) fun p => ?_
  cases r.fields.find? fun f => f.absence == .never && f.key ∉ p.given with
  | none => exact .pure _
  | some f => exact .failAnywhere rfl

theorem composed_fromElements {fields : List (Field ε σ)}
    (hr : ∀ f ∈ fields, ∀ s, Composed texts (f.read s)) (read : Nat) (s : σ) :
    Composed texts (r.fromElements fields read s) := by
  induction fields generalizing read s with
  | nil => exact .pure s
  | cons f fs ih =>
    have hf : ∀ s, Composed texts (f.read s) := hr f List.mem_cons_self
    have hfs := ih fun g hg => hr g (List.mem_cons_of_mem f hg)
    refine .bind (composed_nextElement _) fun more => .ite _ ?_ (.ite _ (hfs _ _) ?_)
    · exact .bind (hf s) fun s' => hfs _ s'
    · exact .failAnywhere rfl

theorem composed_decoder (ht : texts) (hr : ∀ f ∈ r.fields, ∀ s, Composed texts (f.read s))
    (s : σ) : Composed texts (r.decoder s) := by
  refine .value fun b => .ite _ (.bind .eat fun _ => ?_) (.ite _ (.bind .eat fun _ => ?_) ?_)
  · exact .closing (composed_fromElements hr _ _) composed_endSequence
  · exact .closing (composed_fromObject ht hr s) composed_endObject
  · exact composed_mismatch ht _ b

end Record

end Findings.Json

/-! ## Reports -/

namespace Findings

open Json Decoder

theorem Finding.composed_decoder : Composed True Finding.decoder := by
  have hstring : Composed True (optional (string : Decoder Draft.Problem String)) :=
    .optional (composed_string trivial)
  have hunsigned : Composed True (optional (unsigned : Decoder Draft.Problem UInt32)) :=
    .optional (composed_unsigned trivial)
  refine .bind (Record.composed_decoder trivial (fun f hf s => ?_) _) fun d => ?_
  · simp only [Draft.record, List.mem_cons, List.not_mem_nil, or_false] at hf
    rcases hf with rfl | rfl | rfl | rfl | rfl | rfl
    · exact hstring.map _
    · exact (Composed.optional (composed_signed trivial)).map _
    · exact hstring.map _
    · exact hunsigned.map _
    · exact hunsigned.map _
    · exact (composed_boolean trivial).map _
  · cases d.check with
    | error p => exact .failAnywhere rfl
    | ok f => exact .pure f

theorem FileReport.composed_decoder : Composed True FileReport.decoder := by
  refine Record.composed_decoder trivial (fun f hf s => ?_) _
  simp only [FileReport.record, List.mem_cons, List.not_mem_nil, or_false] at hf
  rcases hf with rfl | rfl
  · exact (composed_string trivial).map _
  · exact (Composed.sequence trivial Finding.composed_decoder).map _

theorem Report.composed_decoder : Composed True Report.decoder :=
  .sequence trivial FileReport.composed_decoder

end Findings
