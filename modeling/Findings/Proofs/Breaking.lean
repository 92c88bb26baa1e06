import Findings.Proofs.Sources
import Findings.Proofs.Truncated
import Findings.Proofs.Runs

/-!
# Streams that break off

A stream may break off anywhere: in a token, in a nested value that is passed over, or after the
last byte of a report. If what it has delivered is the beginning of a report, then its reason is
what the refusal tells, whatever was being read, however many containers were open, and whatever is
heard of the stream after the break. If that is nothing, then the refusal's place, if it has one, is
the end of what was delivered.

Two runs are compared, one on the whole stream and one on the stream that breaks off. The second
does the same as the first until it meets the break, and from then on fails with it
(`Composed.meets`).

A refusal is all that comes of it: a stream that breaks off is a `LoadProblem.document`, as one is
that holds no report. A `LoadProblem.file` comes only of what cannot be opened.

Main statement: `Program.load_of_breaking`.
-/

namespace Findings.Json

/-! ## A stream and its beginning -/

/-- The second cursor is on a stream that breaks off for `reason`, no later than the first one's
bytes end, and of which `later` is heard after that. -/
structure Cursor.Breaks (reason : String) (later : List Heard) (c c₂ : Cursor) : Prop where
  rest : c₂.rest <+: c.rest
  failure : c₂.failure = some reason
  later : c₂.later = later

/-- A fault that is the break of a stream, after which the run has come to `c`. -/
structure Fault.IsBreak {ε : Type} (reason : String) (later : List Heard) (f : Fault ε)
    (c : Cursor) : Prop where
  cause : f.cause = .unreadable reason
  /-- If nothing is heard after the break, then it is met at the end. -/
  atEnd : later = [] → c.unread = [] ∧
    ∀ p, f.place = some p → p = { offset := c.offset, ahead := false }

/-- What comes of a stream that breaks off, where `a` comes of the whole one: the same, or the
break. -/
inductive Outcome.Meets {ε α : Type} (reason : String) (later : List Heard) (a : α) (c : Cursor) :
    Outcome ε α → Prop
  | ok {c₂ : Cursor} (h : c.Breaks reason later c₂) : Meets reason later a c (.ok a c₂)
  | fail {f : Fault ε} {c₂ : Cursor} (h : f.IsBreak reason later c₂) :
    Meets reason later a c (.fail f c₂)

/-- Nothing is reached from the end but the end. -/
theorem Cursor.Reaches.at_end {c c' : Cursor} (h : c.Reaches c') (hc : c.unread = []) :
    c'.unread = [] ∧ c'.offset = c.offset := by
  have hunread := h.suffix
  have htotal := h.total
  rw [hc, List.suffix_nil] at hunread
  rw [hc, hunread] at htotal
  exact ⟨hunread, htotal⟩

theorem Cursor.here_at_end {c : Cursor} (h : c.unread = []) :
    c.here = { offset := c.offset, ahead := false } := by
  obtain ⟨hrest, -⟩ := List.append_eq_nil_iff.mp h
  simp [Cursor.here, hrest]

namespace Fault.IsBreak

variable {ε : Type} {reason : String} {later : List Heard} {f : Fault ε} {c c' : Cursor}

/-- After a break at the end nothing more can be used up. -/
theorem reaches (h : f.IsBreak reason later c) (hc : c.Reaches c') : f.IsBreak reason later c' where
  cause := h.cause
  atEnd hlater := by
    obtain ⟨hunread, hplace⟩ := h.atEnd hlater
    obtain ⟨hunread', hoffset⟩ := hc.at_end hunread
    exact ⟨hunread', by rw [hoffset]; exact hplace⟩

theorem placeAt (h : f.IsBreak reason later c) : (f.placeAt c.here).IsBreak reason later c where
  cause := h.cause
  atEnd hlater := by
    obtain ⟨hunread, hplace⟩ := h.atEnd hlater
    refine ⟨hunread, ?_⟩
    intro p hp
    cases hf : f.place with
    | none =>
      simp only [Fault.placeAt, hf, Option.getD_none, Option.some.injEq] at hp
      rw [← hp, Cursor.here_at_end hunread]
    | some q =>
      simp only [Fault.placeAt, hf, Option.getD_some, Option.some.injEq] at hp
      rw [← hp]
      exact hplace q hf

end Fault.IsBreak

namespace Decoder

variable {ε α β σ : Type} {texts : Prop} {reason : String} {later : List Heard}

/-- On a stream that breaks off, a decoder yields what it yields on the whole one or meets the
break. -/
structure Meets (reason : String) (later : List Heard) (d : Decoder ε α) : Prop where
  run : ∀ {c c₂ c' : Cursor} {a : α}, c.Breaks reason later c₂ → d.run c = .ok a c' →
    (d.run c₂).Meets reason later a c'

namespace Meets

/-- Nothing is asked of a decoder that never yields. -/
theorem of_refuses {d : Decoder ε α} (h : Refuses d) : Meets reason later d :=
  ⟨fun _ hr => (h.sound hr).1.elim⟩

theorem pure (a : α) : Meets reason later (pure a : Decoder ε α) where
  run {c c₂ c' b} hc hr := by
    cases hr
    exact .ok hc

theorem peek : Meets reason later (peek : Decoder ε (Option UInt8)) where
  run {c c₂ c' o} hc hr := by
    cases hr₂ : c₂.rest with
    | nil =>
      rw [run_peek_failure hr₂ hc.failure]
      refine .fail { cause := rfl, atEnd := fun hlater => ?_ }
      have hunread : c₂.unread = [] := by
        rw [Cursor.unread_of_later_nil (hc.later.trans hlater), hr₂]
      exact ⟨((Cursor.Reaches.resume hr₂).at_end hunread).1, by simp⟩
    | cons b r₂ =>
      obtain ⟨r, hrest⟩ := hr₂ ▸ hc.rest
      rw [run_peek_cons hrest.symm] at hr
      cases hr
      rw [run_peek_cons hr₂]
      exact .ok { rest := hc.rest, failure := hc.failure, later := hc.later }

/-- A byte that is not there any more is used up in vain: the break comes with the next look. -/
theorem eat : Meets reason later (eat : Decoder ε Unit) where
  run {c c₂ c' _} hc hr := by
    cases hr₂ : c₂.rest with
    | nil =>
      have hrun : (Decoder.eat : Decoder ε Unit).run c₂ = .ok () c₂ := by simp [Decoder.eat, hr₂]
      rw [hrun]
      exact .ok { rest := hr₂ ▸ List.nil_prefix, failure := hc.failure, later := hc.later }
    | cons b r₂ =>
      obtain ⟨r, hrest⟩ := hr₂ ▸ hc.rest
      rw [run_eat_cons hrest.symm] at hr
      cases hr
      rw [run_eat_cons hr₂]
      exact .ok { rest := List.prefix_append r₂ r, failure := hc.failure, later := hc.later }

theorem bind {d : Decoder ε α} {k : α → Decoder ε β} (hd : Meets reason later d)
    (hk : ∀ a, Meets reason later (k a)) : Meets reason later (d >>= k) where
  run {c c₂ c' b} hc hr := by
    obtain ⟨a, c₁, h₁, h₂⟩ := of_run_bind hr
    -- What comes after is not run any more once the break is met.
    rw [run_bind]
    have hmeets := hd.run hc h₁
    generalize d.run c₂ = o at hmeets
    cases hmeets with
    | ok hc₁ => exact (hk a).run hc₁ h₂
    | fail h => exact .fail h

/-- The break gets its place where it is met. -/
theorem placed {d : Decoder ε α} (h : Meets reason later d) : Meets reason later (placed d) where
  run {c c₂ c' a} hc hr := by
    have hrun : d.run c = .ok a c' := by
      simp only [Decoder.placed] at hr
      split at hr
      · next h₁ => rw [h₁, hr]
      · cases hr
    have hmeets := h.run hc hrun
    simp only [Decoder.placed]
    generalize d.run c₂ = o at hmeets
    cases hmeets with
    | ok hc₁ => exact .ok hc₁
    | fail h => exact .fail h.placeAt

/-- Of the break and what comes of closing the container after it, the break is told. -/
theorem closing {d : Decoder ε α} {close : Decoder ε Unit} (hd : Meets reason later d)
    (hclose : Meets reason later close) : Meets reason later (closing d close) where
  run {c c₂ c' a} hc hr := by
    obtain ⟨c₁, h₁, h₂⟩ : ∃ c₁, d.run c = .ok a c₁ ∧ close.run c₁ = .ok () c' := by
      simp only [Decoder.closing] at hr
      split at hr
      · next a₁ c₁ h₁ =>
        split at hr
        · next h₂ =>
          cases hr
          exact ⟨c₁, h₁, h₂⟩
        · cases hr
      · cases hr
    have hmeets := hd.run hc h₁
    simp only [Decoder.closing]
    generalize d.run c₂ = o at hmeets
    cases hmeets with
    | ok hc₁ =>
      have hmeets := hclose.run hc₁ h₂
      simp only
      generalize close.run _ = o at hmeets
      cases hmeets with
      | ok hc₂ => exact .ok hc₂
      | fail h => exact .fail h
    | fail h =>
      -- Closing is tried after the break as well. Whatever it finds, its own fault is dropped.
      exact .fail (h.reaches (close.forward _))

theorem iterate {round : σ → Decoder ε (Round σ β)} {advances : Advances round}
    (h : ∀ s, Meets reason later (round s)) (s : σ) :
    Meets reason later (iterate round advances s) where
  run {c c₂ c' b} hc hr := by
    change iterateFrom round advances s c = .ok b c' at hr
    change (iterateFrom round advances s c₂).Meets reason later b c'
    fun_induction iterateFrom round advances s c generalizing c₂ with
    | case1 s c s' c₁ h₁ ih =>
      have hmeets := (h s).run hc h₁
      generalize hrun : (round s).run c₂ = o at hmeets
      cases hmeets with
      | ok hc₁ =>
        rw [iterateFrom_again hrun]
        exact ih hc₁ hr
      | fail hbreak =>
        rw [iterateFrom_fail hrun]
        exact .fail hbreak
    | case2 s c b₁ c₁ h₁ =>
      cases hr
      have hmeets := (h s).run hc h₁
      generalize hrun : (round s).run c₂ = o at hmeets
      cases hmeets with
      | ok hc₁ =>
        rw [iterateFrom_done hrun]
        exact .ok hc₁
      | fail hbreak =>
        rw [iterateFrom_fail hrun]
        exact .fail hbreak
    | case3 => cases hr

end Meets

/-- Every composed decoder meets the break of a stream, unless it is done before. -/
theorem Composed.meets {d : Decoder ε α} (h : Composed texts d) (reason : String)
    (later : List Heard) : Meets reason later d := by
  induction h with
  | pure a => exact .pure a
  | peek => exact .peek
  | eat => exact .eat
  | failAnywhere _ => exact .of_refuses (refuses_failAnywhere _)
  | failHere _ => exact .of_refuses (refuses_failHere _ _)
  | failText _ back => exact .of_refuses (refuses_failHere _ back)
  | failNext _ => exact .of_refuses (refuses_failNext _)
  | failAfter _ _ => exact .of_refuses (refuses_failAfter _ _)
  | bind _ _ ihd ihk => exact .bind ihd ihk
  | placed _ ih => exact .placed ih
  | closing _ _ ihd ihclose => exact .closing ihd ihclose
  | iterate _ s ih => exact .iterate ih s

/-- The break of a stream of which nothing more is heard is told at the end of what was delivered,
if at any place. -/
theorem position_of_isBreak {d : Decoder ε α} {s : Stream} {f : Fault ε} {c : Cursor}
    (hr : d.run (.start s) = .fail f c) (h : f.IsBreak reason [] c) :
    ∀ p, (Diagnostic.ofFault .stream s.delivered f).position = some p →
      p = Position.after s.delivered := by
  obtain ⟨hunread, hplace⟩ := h.atEnd rfl
  have htotal := (reaches_of_fail hr).total
  rw [hunread] at htotal
  have hoffset : c.offset = s.delivered.length := by simpa using htotal
  intro p hp
  obtain ⟨q, hq, rfl⟩ := Option.map_eq_some_iff.mp hp
  rw [hplace q hq, hoffset, Place.position_of_back_eq_zero rfl]
  exact congrArg Position.after List.take_length

end Decoder

end Findings.Json

namespace Findings

open Json

/-- What a stream that breaks off within a report comes to. -/
theorem Report.ofStream_of_breaking {b q : List UInt8} {r : Report}
    (h : ofStream { bytes := b ++ q } = .ok r) (reason : String) (later : List Heard) :
    ∃ position, ofStream { bytes := b, failure := some reason, later } =
        .error { cause := .unreadable reason, position } ∧
      (later = [] → ∀ p, position = some p → p = Position.after b) := by
  obtain ⟨c, hr⟩ := Decoder.decode_eq_ok_iff_run.mp h
  have hbreaks : (Cursor.start { bytes := b ++ q }).Breaks reason later
      (.start { bytes := b, failure := some reason, later }) :=
    { rest := List.prefix_append b q, failure := rfl, later := rfl }
  have hmeets := (Report.composed_decoder.whole.meets reason later).run hbreaks hr
  generalize hrun : Report.decoder.whole.run
    (.start { bytes := b, failure := some reason, later }) = o at hmeets
  cases hmeets with
  | ok hc =>
    -- White space is passed over to the end, so a report is never done before the break.
    have hok : ofStream { bytes := b, failure := some reason, later } = .ok r :=
      Decoder.decode_eq_ok_iff_run.mpr ⟨_, hrun⟩
    exact absurd hok (ofStream_ne_ok_of_failure (Option.some_ne_none reason) r)
  | @fail f c₂ hbreak =>
    refine ⟨(Diagnostic.ofFault .stream
      (Stream.delivered { bytes := b, failure := some reason, later }) f).position,
      Decoder.decode_eq_error_iff.mpr ⟨f, c₂, hrun, ?_⟩, ?_⟩
    · rw [← hbreak.cause]
      rfl
    · rintro rfl
      have hposition := Decoder.position_of_isBreak hrun hbreak
      rw [Stream.delivered_mk] at hposition ⊢
      exact hposition

namespace Program

theorem load_of_ofStream {s : Stream} {e : Refusal} (h : Report.ofStream s = .error e) :
    load (.ok s) = .error (.document e) := by
  change (Report.ofStream s).mapError LoadProblem.document = _
  rw [h]
  rfl

/-- Only what cannot be opened is a problem of the file. -/
theorem load_eq_file_iff {input : Except FileProblem Stream} {p : FileProblem} :
    load input = .error (.file p) ↔ input = .error p := by
  constructor
  · intro h
    cases input with
    | error e =>
      cases h
      rfl
    | ok s =>
      change (Report.ofStream s).mapError LoadProblem.document = _ at h
      cases hs : Report.ofStream s <;> rw [hs] at h <;> cases h
  · rintro rfl
    rfl

/-- What comes of an input is a problem of the file exactly if it cannot be opened. A stream that
breaks off within a report is refused as a document is, in the words of its reason, wherever it
breaks off and whatever is heard of it later; if that is nothing, the position, if one is told, is
the end of what was delivered. So is a directory, which can be opened and not read. -/
theorem load_of_breaking (input : Except FileProblem Stream) :
    (∀ p, load input = .error (.file p) ↔ input = .error p) ∧
    (∀ (b q : List UInt8) (r : Report) (reason : String) (later : List Heard),
      input = .ok { bytes := b, failure := some reason, later } →
      Report.ofStream { bytes := b ++ q } = .ok r →
      ∃ position, load input = .error (.document { cause := .unreadable reason, position }) ∧
        (later = [] → ∀ p, position = some p → p = Position.after b)) ∧
    (input = .ok Stream.ofDirectory → load input = .error (.document {
      cause := .unreadable FileProblem.isDirectory.message, position := none })) := by
  refine ⟨fun _ => load_eq_file_iff, ?_, ?_⟩
  · rintro b q r reason later rfl h
    obtain ⟨position, hrefused, hposition⟩ := Report.ofStream_of_breaking h reason later
    exact ⟨position, load_of_ofStream hrefused, hposition⟩
  · rintro rfl
    refine load_of_ofStream ?_
    cbv

/-- The report `[]` that breaks off after its first bracket, and the working directory. -/
theorem load_of_breaking_after_bracket :
    Report.ofStream { bytes := ['['.toUInt8] ++ [']'.toUInt8] } = .ok [] ∧
      (∃ position, load (.ok { bytes := ['['.toUInt8], failure := some "broken pipe" }) =
          .error (.document { cause := .unreadable "broken pipe", position }) ∧
        ∀ p, position = some p → p = { line := 1, column := 1 }) ∧
      Files.read {} "." = .ok Stream.ofDirectory ∧
      load (Files.read {} ".") = .error (.document {
        cause := .unreadable FileProblem.isDirectory.message, position := none }) := by
  have hread : Report.ofStream { bytes := ['['.toUInt8] ++ [']'.toUInt8] } = .ok [] := by cbv
  have hdirectory : Files.read {} "." = .ok Stream.ofDirectory := rfl
  obtain ⟨-, hstream, -⟩ :=
    load_of_breaking (.ok { bytes := ['['.toUInt8], failure := some "broken pipe" })
  obtain ⟨-, -, hfile⟩ := load_of_breaking (Files.read {} ".")
  obtain ⟨position, hrefused, hposition⟩ := hstream _ _ _ _ _ rfl hread
  exact ⟨hread, ⟨position, hrefused, hposition rfl⟩, hdirectory, hfile hdirectory⟩

/-- Not every stream that breaks off within a report is a problem of the file. -/
theorem not_file_of_breaking :
    ¬∀ (b q : List UInt8) (r : Report) (reason : String),
      Report.ofStream { bytes := b ++ q } = .ok r →
        ∃ p, load (.ok { bytes := b, failure := some reason }) = .error (.file p) := by
  intro h
  obtain ⟨p, hp⟩ := h ['['.toUInt8] [']'.toUInt8] [] "broken pipe" (by cbv)
  cases load_eq_file_iff.mp hp

end Program

end Findings
