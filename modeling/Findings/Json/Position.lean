/-!
# Positions in a text

A position is a line and a column. Lines count from one, columns count the bytes since the line
began, so the position after no byte at all is line 1, column 0, and the position after a line feed
is column 0 of the next line.
-/

namespace Findings.Json

/-- A line and a column. -/
structure Position where
  line : Nat
  column : Nat
  deriving DecidableEq

namespace Position

/-- Where every text begins. -/
def start : Position :=
  { line := 1, column := 0 }

/-- The position one byte further. -/
def step (p : Position) (b : UInt8) : Position :=
  if b = 10 then { line := p.line + 1, column := 0 } else { p with column := p.column + 1 }

/-- The position after `bytes`. -/
def after (bytes : List UInt8) : Position :=
  bytes.foldl step start

@[simp] theorem after_nil : after [] = start := rfl

theorem after_concat (bytes : List UInt8) (b : UInt8) :
    after (bytes ++ [b]) = (after bytes).step b := by
  simp [after]

/-- The line is one more than the line feeds passed. -/
theorem line_after (bytes : List UInt8) : (after bytes).line = 1 + bytes.count 10 := by
  have h : ∀ (bs : List UInt8) (p : Position), (bs.foldl step p).line = p.line + bs.count 10 := by
    intro bs
    induction bs with
    | nil => simp
    | cons b r ih =>
      intro p
      rw [List.foldl_cons, ih]
      by_cases hb : b = 10
      · simp [step, hb]; omega
      · simp [step, hb]
  exact h bytes start

end Position

end Findings.Json
