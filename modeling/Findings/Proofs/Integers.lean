import Findings.Proofs.Numerals
import Findings.Json.Value

/-!
# Integers are read as the grammar has them

A numeral stands for an integer if it has neither point nor exponent and a word of 64 bits holds
it. Within such a range an integer of the grammar is read whatever its digits are
(`yields_integerBody`).
-/

namespace Findings.Json

/-! ## What a numeral stands for -/

namespace Numeral

/-- Digits find room exactly if their number does. -/
theorem absorb_snd_eq_nil_iff {n : Nat} {ds : List Nat} (hn : n < UInt64.size) :
    (absorb n ds).2 = [] ↔ decimal n ds < UInt64.size := by
  induction ds generalizing n with
  | nil => exact iff_of_true rfl hn
  | cons d ds ih =>
    rw [absorb, decimal_cons]
    split
    · rename_i h
      exact ih h
    · rename_i h
      have hle := le_decimal (n * 10 + d) ds
      simp only [reduceCtorEq, false_iff]
      omega

theorem absorb_fst {n : Nat} {ds : List Nat} (h : (absorb n ds).2 = []) :
    (absorb n ds).1 = decimal n ds := by
  induction ds generalizing n with
  | nil => rfl
  | cons d ds ih =>
    rw [absorb] at h ⊢
    split
    · rename_i hlt
      rw [if_pos hlt] at h
      exact ih h
    · rename_i hlt
      rw [if_neg hlt] at h
      simp at h

theorem isWhole_iff {n : Numeral} :
    n.isWhole = true ↔
      n.fraction = [] ∧ n.exponent = none ∧ decimal 0 n.whole < UInt64.size := by
  rw [isWhole, Bool.and_eq_true, Bool.and_eq_true, List.isEmpty_iff, Option.isNone_iff_eq_none,
    List.isEmpty_iff, absorb_snd_eq_nil_iff (by decide), and_assoc]

theorem parts_fst_of_isWhole {n : Numeral} (h : n.isWhole = true) :
    n.parts.1 = decimal 0 n.whole := by
  obtain ⟨hf, -, hlt⟩ := isWhole_iff.mp h
  rw [parts, hf]
  exact absorb_fst ((absorb_snd_eq_nil_iff (by decide)).mpr hlt)

/-- A numeral is told as an integer exactly if it is one that a word holds. -/
theorem number?_eq_integer_iff {n : Numeral} {k : Int} :
    n.number? = some (.integer k) ↔ n.fraction = [] ∧ n.exponent = none ∧
      (n.negative = false ∧ k = decimal 0 n.whole ∧ k < UInt64.size ∨
        n.negative = true ∧ k = -(decimal 0 n.whole : Int) ∧ k ≠ 0 ∧
          Int64.minValue.toInt ≤ k) := by
  have hsize : UInt64.size = Int64.size := rfl
  have hleast : Int64.minValue.toInt = -(Int64.size / 2 : Nat) := rfl
  have hpos : 2 ≤ Int64.size := by decide
  unfold number?
  have hreal : ∀ o : Option Float, ∀ f : Float → Float,
      o.map (fun x => Number.real (f x)) ≠ some (.integer k) := by
    intro o f
    cases o <;> simp
  cases hw : n.isWhole with
  | false =>
    simp only [Bool.false_and, Bool.false_eq_true, if_false, hreal, false_iff]
    rintro ⟨hf, he, h⟩
    -- Digits that find no room form a number beyond both ranges.
    have hge : ¬decimal 0 n.whole < UInt64.size := by
      intro hlt
      rw [isWhole_iff.mpr ⟨hf, he, hlt⟩] at hw
      simp at hw
    rcases h with ⟨-, rfl, hlt⟩ | ⟨-, rfl, -, hle⟩
    · omega
    · omega
  | true =>
    obtain ⟨hf, he, hlt⟩ := isWhole_iff.mp hw
    have hp := parts_fst_of_isWhole hw
    cases hn : n.negative with
    | false =>
      simp only [hf, he, hp, Bool.not_false, Bool.and_true, if_true, Option.some.injEq,
        Number.integer.injEq, true_and, reduceCtorEq, false_and, or_false]
      omega
    | true =>
      simp only [hf, he, hp, Bool.not_true, Bool.and_false, Bool.false_eq_true, if_false,
        Bool.true_and, Bool.and_eq_true, decide_eq_true_eq, true_and, Bool.true_eq_false,
        false_and, false_or]
      split
      · rename_i h
        simp only [Option.some.injEq, Number.integer.injEq]
        omega
      · rename_i h
        simp only [hreal, false_iff]
        omega

end Numeral

/-- An integer is a numeral without point and exponent. -/
theorem isInteger_iff {k : Int} {x : List UInt8} :
    IsInteger k x ↔ ∃ n : Numeral, NumeralText n x ∧ n.fraction = [] ∧ n.exponent = none ∧
      (n.negative = false ∧ k = decimal 0 n.whole ∨
        n.negative = true ∧ k = -(decimal 0 n.whole : Int) ∧ k ≠ 0) := by
  constructor
  · rintro (⟨ds, hds, rfl⟩ | ⟨hn, ds, hds, rfl⟩)
    · refine ⟨{ negative := false, whole := ds, fraction := [], exponent := none },
        ⟨x, [], [], hds, .none, .none, by simp⟩, rfl, rfl, .inl ⟨rfl, rfl⟩⟩
    · refine ⟨{ negative := true, whole := ds, fraction := [], exponent := none },
        ⟨_, [], [], hds, .none, .none, by simp⟩, rfl, rfl, .inr ⟨rfl, rfl, by omega⟩⟩
  · rintro ⟨⟨negative, ds, fraction, exponent⟩, ⟨w, f, e, hw, hf, he, rfl⟩, rfl, rfl, h⟩
    rw [hf.eq_nil, he.eq_nil, List.append_nil, List.append_nil]
    rcases h with ⟨rfl, rfl⟩ | ⟨rfl, rfl, hk⟩
    · exact .natural ⟨ds, hw, rfl⟩
    · exact .negative (by omega) ⟨ds, hw, rfl⟩

/-- A number below ten has one digit. -/
theorem isNatural_digit_iff {n : Nat} (hn : n < 10) {x : List UInt8} :
    IsNatural n x ↔ x = [digitByte n] := by
  constructor
  · rintro ⟨ds, hds, rfl⟩
    cases ds with
    | nil => exact absurd rfl hds.ne_nil
    | cons d ds =>
      have hd : decimal 0 (d :: ds) = decimal d ds := by
        rw [decimal_cons, Nat.zero_mul, Nat.zero_add]
      rw [hd] at hn ⊢
      cases ds with
      | nil => exact hds.digits.2
      | cons e ds =>
        have hle := le_decimal (d * 10 + e) ds
        rw [decimal_cons] at hn
        obtain rfl : d = 0 := by omega
        have hone := hds.zero rfl
        simp at hone
  · rintro rfl
    refine ⟨[n], ⟨⟨by simpa using hn, rfl⟩, by simp, fun h => ?_⟩, by simp⟩
    rw [Option.some.inj h]

/-- Whether bytes do not go on with an integer or make it another number. -/
structure IntegerEnds (r : List UInt8) : Prop where
  digit : NoDigit r
  exponent : NoExponent r
  point : r.head? ≠ some '.'.toUInt8

theorem Numeral.ends_iff_integerEnds {n : Numeral} (hf : n.fraction = []) (he : n.exponent = none)
    {r : List UInt8} : n.Ends r ↔ IntegerEnds r := by
  constructor
  · rintro ⟨hd, hn, hp⟩
    exact ⟨hd, hn he, hp he hf⟩
  · rintro ⟨hd, hn, hp⟩
    exact ⟨hd, fun _ => hn, fun _ _ => hp⟩

namespace Decoder

variable {ε : Type}

theorem yields_number (b : UInt8) :
    Yields (number b : Decoder ε Number) fun bs a r =>
      ∃ n x, n.number? = some a ∧ NumeralText n (b :: x) ∧ bs = x ++ r ∧ n.Ends r ∧
        n.Fits .valued := by
  refine ((yields_numeral .valued b).bind
    (M := fun n m a r => n.number? = some a ∧ r = m) fun n => ?_).congr ?_
  · cases n.number? with
    | none => exact (refuses_failHere _ _).congr fun _ _ _ => by simp
    | some a => exact (yields_pure a).congr fun _ _ _ => by simp [eq_comm]
  · intro bs a r
    constructor
    · rintro ⟨n, x, ha, hx, rfl, hr, hf⟩
      exact ⟨n, r, ⟨x, hx, rfl, hr, hf⟩, ha, rfl⟩
    · rintro ⟨n, _, ⟨x, hx, rfl, hr, hf⟩, ha, rfl⟩
      exact ⟨n, x, ha, hx, rfl, hr, hf⟩

/-- The integers of a range that words of 64 bits hold, after the first byte. -/
theorem yields_integerBody (expected : Expected) (b : UInt8) {least most : Int}
    (hleast : Int64.minValue.toInt ≤ least) (hmost : most < UInt64.size)
    {k : Number → Decoder ε Int}
    (hinteger : ∀ n, k (.integer n) = if least ≤ n ∧ n ≤ most then pure n else
      failHere (.wrongValue n expected))
    (hreal : ∀ x, Refuses (k (.real x))) :
    Yields (number b >>= k) fun bs n r =>
      ∃ x, IsInteger n (b :: x) ∧ bs = x ++ r ∧ IntegerEnds r ∧ least ≤ n ∧ n ≤ most := by
  refine ((yields_number b).bind (M := fun a m n r => a = .integer n ∧ least ≤ n ∧ n ≤ most ∧ r = m)
    fun a => ?_).congr ?_
  · cases a with
    | integer n =>
      rw [hinteger]
      by_cases h : least ≤ n ∧ n ≤ most
      · rw [if_pos h]
        refine (yields_pure n).congr fun _ _ _ => ?_
        rw [Number.integer.injEq]
        constructor
        · rintro ⟨rfl, -, -, rfl⟩
          exact ⟨rfl, rfl⟩
        · rintro ⟨rfl, rfl⟩
          exact ⟨rfl, h.1, h.2, rfl⟩
      · rw [if_neg h]
        refine (refuses_failHere _ _).congr fun _ _ _ => ?_
        rw [iff_false, Number.integer.injEq]
        rintro ⟨rfl, hl, hm, -⟩
        exact h ⟨hl, hm⟩
    | real x => exact (hreal x).congr fun _ _ _ => by simp
  · intro bs k r
    constructor
    · rintro ⟨x, hx, rfl, hr, hl, hm⟩
      obtain ⟨n, hn, hf, he, hk⟩ := isInteger_iff.mp hx
      refine ⟨.integer k, r, ⟨n, x, Numeral.number?_eq_integer_iff.mpr ⟨hf, he, ?_⟩, hn, rfl,
        (Numeral.ends_iff_integerEnds hf he).mpr hr, ?_⟩, rfl, hl, hm, rfl⟩
      · rcases hk with ⟨hs, hk⟩ | ⟨hs, hk, h0⟩
        · exact .inl ⟨hs, hk, by omega⟩
        · exact .inr ⟨hs, hk, h0, by omega⟩
      · intro e hm
        simp [he] at hm
    · rintro ⟨_, _, ⟨n, x, ha, hx, rfl, hr, -⟩, rfl, hl, hm, rfl⟩
      obtain ⟨hf, he, hk⟩ := Numeral.number?_eq_integer_iff.mp ha
      refine ⟨x, isInteger_iff.mpr ⟨n, hx, hf, he, ?_⟩, rfl,
        (Numeral.ends_iff_integerEnds hf he).mp hr, hl, hm⟩
      rcases hk with ⟨hs, hk, -⟩ | ⟨hs, hk, h0, -⟩
      · exact .inl ⟨hs, hk⟩
      · exact .inr ⟨hs, hk, h0⟩

end Decoder

end Findings.Json
