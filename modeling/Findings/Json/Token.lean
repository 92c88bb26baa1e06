import Findings.Json.Decoder

/-!
# White space and fixed words

The two tokens that carry no value: what may stand between tokens, and the letters of `null`, `true`
and `false`.
-/

namespace Findings.Json

/-- Whether a byte may stand between tokens. -/
def isBlank (b : UInt8) : Bool :=
  b == ' '.toUInt8 || b == '\t'.toUInt8 || b == '\n'.toUInt8 || b == '\r'.toUInt8

/-- Whether a byte is a decimal digit. -/
def isDigit (b : UInt8) : Bool :=
  '0'.toUInt8 ≤ b && b ≤ '9'.toUInt8

/-- The letters of `null` after the first. -/
def nullTail : List UInt8 :=
  ['u'.toUInt8, 'l'.toUInt8, 'l'.toUInt8]

/-- The letters of `true` after the first. -/
def trueTail : List UInt8 :=
  ['r'.toUInt8, 'u'.toUInt8, 'e'.toUInt8]

/-- The letters of `false` after the first. -/
def falseTail : List UInt8 :=
  ['a'.toUInt8, 'l'.toUInt8, 's'.toUInt8, 'e'.toUInt8]

namespace Decoder

variable {ε : Type}

/-- Passes over white space and looks at the byte after it. -/
def blank : Decoder ε (Option UInt8) :=
  sweep (fun _ => pure none)
    (fun _ b => if isBlank b then .take (pure ()) else .leave (pure (some b))) ()

/-- The byte that `blank` looks at is there. -/
theorem rest_of_blank {c c' : Cursor} {b : UInt8}
    (h : (blank : Decoder ε (Option UInt8)).run c = .ok (some b) c') : ∃ r, c'.rest = b :: r := by
  refine of_iterateFrom_ok (P := fun o c' => ∀ b, o = some b → ∃ r, c'.rest = b :: r) ?_ h b rfl
  intro _ c₀ o c₁ hr b hb
  unfold sweepRound at hr
  rw [run_bind] at hr
  cases h₀ : c₀.rest with
  | nil =>
    cases hf : c₀.failure with
    | none =>
      rw [run_peek_end h₀ hf] at hr
      simp only [run_bind, run_pure, Outcome.ok.injEq, Round.done.injEq] at hr
      simp [← hr.1] at hb
    | some reason =>
      rw [run_peek_failure h₀ hf] at hr
      simp at hr
  | cons b₀ r =>
    rw [run_peek_cons h₀] at hr
    by_cases hw : isBlank b₀ = true
    · simp only [hw, if_true] at hr
      rw [run_bind_ok (run_eat_cons (c := { c₀ with looked := true }) h₀), run_bind] at hr
      simp at hr
    · simp only [hw, Bool.false_eq_true, if_false, run_bind, run_pure, Outcome.ok.injEq,
        Round.done.injEq] at hr
      rw [← hr.1] at hb
      simp only [Option.some.injEq] at hb
      exact ⟨r, by rw [← hr.2, ← hb]; exact h₀⟩

/-- Reads the bytes of a fixed word. What follows the word is not looked at. -/
def word : List UInt8 → Decoder ε Unit
  | [] => pure ()
  | b :: r => do
    match ← next with
    | none => failHere .endInValue
    | some x => if x = b then word r else failHere .badWord

end Decoder

end Findings.Json
