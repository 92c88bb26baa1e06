import Findings.Proofs.RoundTrip

/-!
# Streams that end early

A report ends with its last bracket. So a stream that is cut off before that bracket holds no
report, wherever the cut falls: if it held one, that would be the report of the whole stream, and
what comes after the cut would be white space. A stream that breaks off is not read to its end and
never accepted, whatever it has delivered and whatever is heard of it later.

An interruption is no such break, since the reader is asked again, and it cuts nothing off.

Main statement: `Report.ofStream_not_cut`.
-/

namespace Findings

open Json Decoder

namespace Json.Decoder

variable {ε α : Type}

/-- The bytes before a decoder tell what it yields. -/
theorem Yields.unique {d : Decoder ε α} {L : List UInt8 → α → List UInt8 → Prop} (h : Yields d L)
    {bs r r' : List UInt8} {a a' : α} (hl : L bs a r) (hl' : L bs a' r') : a = a' ∧ r = r' := by
  obtain ⟨c, hr, rfl⟩ := h.complete (c := Cursor.start { bytes := bs }) rfl hl
  obtain ⟨c', hr', rfl⟩ := h.complete (c := Cursor.start { bytes := bs }) rfl hl'
  rw [hr, Outcome.ok.injEq] at hr'
  exact ⟨hr'.1, congrArg Cursor.rest hr'.2⟩

/-! ## The end of a stream -/

theorem failure_of_peek {c c' : Cursor}
    (h : (peek : Decoder ε (Option UInt8)).run c = .ok none c') : c'.failure = none := by
  cases hr : c.rest with
  | cons b r =>
    rw [run_peek_cons hr] at h
    cases h
  | nil =>
    cases hf : c.failure with
    | none =>
      rw [run_peek_end hr hf] at h
      cases h
      exact hf
    | some reason =>
      rw [run_peek_failure hr hf] at h
      cases h

/-- White space reaches the end only of a stream that does not break off. -/
theorem failure_of_blank {c c' : Cursor}
    (h : (blank : Decoder ε (Option UInt8)).run c = .ok none c') : c'.failure = none := by
  refine of_iterateFrom_ok (P := fun o c' => o = none → c'.failure = none) ?_ h rfl
  rintro _ c₀ o c₁ hr rfl
  obtain ⟨b?, c₂, hpeek, hturn⟩ := of_run_bind hr
  cases b? with
  | none =>
    cases hturn
    exact failure_of_peek hpeek
  | some b =>
    by_cases hb : isBlank b = true
    · simp only [hb, if_true] at hturn
      obtain ⟨_, c₃, -, hagain⟩ := of_run_bind hturn
      cases hagain
    · simp only [hb] at hturn
      cases hturn

/-- A whole document is read from a stream that does not break off only. -/
theorem failure_of_whole {d : Decoder ε α} {L : List UInt8 → α → List UInt8 → Prop}
    (hd : Yields d L) {c c' : Cursor} {a : α} (h : d.whole.run c = .ok a c') :
    c.failure = none := by
  obtain ⟨a', c₁, h₁, h₂⟩ := of_run_bind h
  obtain ⟨b?, c₂, hblank, h₃⟩ := of_run_bind h₂
  cases b? with
  | some b => cases h₃
  | none =>
    rw [← (hd.sound h₁).2, ← (yields_blank.sound hblank).2]
    exact failure_of_blank hblank

end Json.Decoder

/-! ## Reports -/

namespace Report

/-- If a stream and a beginning of it hold a report, it is the same one, and the rest is white
space. -/
theorem blank_of_ofStream_append {p q : List UInt8} {r r' : Report}
    (h : ofStream { bytes := p ++ q } = .ok r) (h' : ofStream { bytes := p } = .ok r') :
    r' = r ∧ Blank q := by
  obtain ⟨w, x, w₁, hw, hx, hw₁, he⟩ := ofStream_eq_ok_iff.mp h
  obtain ⟨v, y, v₁, hv, hy, -, rfl⟩ := ofStream_eq_ok_iff.mp h'
  have he' : v ++ (y ++ (v₁ ++ q)) = w ++ (x ++ w₁) := by simpa using he
  obtain ⟨hr, hrest⟩ := (yields_sequence FileReport.reads_decoder).unique
    ⟨v, y, hv, hy, rfl⟩ ⟨w, x, hw, hx, he'⟩
  refine ⟨hr, ?_⟩
  intro b hb
  exact hw₁ b (hrest ▸ List.mem_append_right v₁ hb)

theorem ofStream_ne_ok_of_failure {s : Stream} (hs : s.failure ≠ none) (r : Report) :
    ofStream s ≠ .ok r := by
  intro h
  obtain ⟨c, hr⟩ := decode_eq_ok_iff_run.mp h
  exact hs (failure_of_whole reads_decoder.yields hr)

/-- What is cut off or breaks off is never taken for a whole report. A stream that holds a report
holds none if it ends anywhere before the last bracket. A reader that fails at some time gives none,
whatever it has delivered before and whatever it answers afterwards. -/
theorem ofStream_not_cut :
    (∀ (p q : List UInt8) (r : Report), ofStream { bytes := p ++ q } = .ok r →
      ']'.toUInt8 ∈ q → ∃ e, ofStream { bytes := p } = .error e) ∧
    ∀ (before after : List Answer) (problem : ReadProblem), problem ≠ .interrupted →
      ∃ e, ofStream (.ofAnswers (before ++ .problem problem :: after)) = .error e := by
  constructor
  · intro p q r h hmem
    cases h' : ofStream { bytes := p } with
    | error e => exact ⟨e, rfl⟩
    | ok r' =>
      obtain ⟨-, hq⟩ := blank_of_ofStream_append h h'
      exact absurd (hq _ hmem) (by decide)
  · intro before after problem hproblem
    cases problem with
    | interrupted => exact absurd rfl hproblem
    | failed reason =>
      cases h : ofStream (.ofAnswers (before ++ .problem (.failed reason) :: after)) with
      | error e => exact ⟨e, rfl⟩
      | ok r =>
        have hfailure := Stream.failure_ofAnswers_ne_none before after reason
        exact absurd h (ofStream_ne_ok_of_failure hfailure r)

/-- A report of one file whose name is a bracket, cut off after that bracket, and whole, by a reader
that fails once and is then at its end. -/
theorem ofStream_not_cut_in_name :
    ∃ p q : List UInt8,
      p = Text.Utf8.encode "[\x7b\"filePath\":\"]".toList ∧
      ofStream { bytes := p ++ q } = .ok [{ path := "]", findings := [] }] ∧
      ']'.toUInt8 ∈ q ∧
      (∃ e, ofStream { bytes := p } = .error e) ∧
      ReadProblem.failed "broken pipe" ≠ .interrupted ∧
      ∃ e, ofStream (.ofAnswers
        ((p ++ q).map .byte ++ .problem (.failed "broken pipe") :: [])) = .error e := by
  have hwhole := ofStream_eq_ok_iff.mpr (reportText_toJson [{ path := "]", findings := [] }])
  have hcut : Text.Utf8.encode (toJson [{ path := "]", findings := [] }]).toList =
      Text.Utf8.encode "[\x7b\"filePath\":\"]".toList ++
        Text.Utf8.encode "\",\"messages\":[]\x7d]".toList := by decide +kernel
  rw [hcut] at hwhole
  have hmem : ']'.toUInt8 ∈ Text.Utf8.encode "\",\"messages\":[]\x7d]".toList := by decide +kernel
  have hproblem : ReadProblem.failed "broken pipe" ≠ .interrupted := by decide
  obtain ⟨hends, hbroken⟩ := ofStream_not_cut
  exact ⟨_, _, rfl, hwhole, hmem, hends _ _ _ hwhole hmem, hproblem, hbroken _ [] _ hproblem⟩

/-- Not every problem keeps a report from being read. A reader that is interrupted after `[]`, and
is then at its end, gives that report. -/
theorem not_error_of_problem :
    ¬∀ (before after : List Answer) (problem : ReadProblem),
      ∃ e, ofStream (.ofAnswers (before ++ .problem problem :: after)) = .error e := by
  intro h
  obtain ⟨e, he⟩ := h [.byte '['.toUInt8, .byte ']'.toUInt8] [] .interrupted
  have hread : ofStream (.ofAnswers [.byte '['.toUInt8, .byte ']'.toUInt8]) = .ok [] := by cbv
  rw [Stream.ofAnswers_interrupted, List.append_nil, hread] at he
  cases he

end Report

end Findings
