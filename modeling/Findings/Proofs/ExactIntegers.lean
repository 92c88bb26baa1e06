import Findings.Proofs.Gaps
import Findings.Proofs.Truncated

/-!
# Integers are read exactly

A decimal literal stands for a number of its own, however long it is, and a reader of integers has
that number or refuses the literal; no literal wraps around to another one. A literal that is no
integer is never cut down to one: what an integer could be read from is the literal to its end
(`DecimalText.eq_of_append`), since the byte after an integer goes on with no number.

An integer out of range is refused in whatever way its size demands (`OutOfRange`): as an integer,
as the binary64 number nearest to it, or as a number larger than all of these.

Main statement: `Report.exact_integers`.
-/

namespace Findings

open Json Decoder
open Text.Utf8 (encode)

namespace Json

/-! ## Decimal literals -/

/-- A decimal literal: a sign or none, digits with any zeros in front, perhaps a fraction, perhaps
an exponent. -/
def DecimalText (x : List UInt8) : Prop :=
  ∃ negative s ds w fs f k e, SignText negative s ∧ DigitsText ds w ∧ ds ≠ [] ∧
    FractionText fs f ∧ ExponentText k e ∧ x = s ++ (w ++ (f ++ e))

/-- How digits begin. -/
theorem DigitsText.eq_cons {ds : List Nat} {w : List UInt8} (h : DigitsText ds w) (hds : ds ≠ []) :
    ∃ b t, w = b :: t ∧ isDigit b = true := by
  obtain ⟨d, ds, rfl⟩ := List.exists_cons_of_ne_nil hds
  obtain ⟨t, hd, -, rfl⟩ := digitsText_cons.mp h
  exact ⟨_, t, rfl, isDigit_digitByte hd⟩

/-- Digits that are followed by none end at one place. -/
theorem DigitsText.eq_of_append {ds ds' : List Nat} {w w' m m' : List UInt8}
    (h : DigitsText ds w) (h' : DigitsText ds' w') (hm : NoDigit m) (hm' : NoDigit m')
    (he : w ++ m = w' ++ m') : w = w' ∧ m = m' := by
  have hyields : Yields (digits [] : Decoder Unit (List Nat)) _ := yields_digits []
  obtain ⟨rfl, rfl⟩ := hyields.unique ⟨ds, w, h, hm, rfl, rfl⟩ ⟨ds', w', h', hm', he, rfl⟩
  exact ⟨List.append_cancel_right he, rfl⟩

/-- Neither a fraction nor an exponent begins with a digit. -/
theorem noDigit_of_fraction {fs : List Nat} {k : Option Int} {f e r : List UInt8}
    (hf : FractionText fs f) (he : ExponentText k e) (hr : NoDigit r) :
    NoDigit (f ++ (e ++ r)) := by
  cases hf with
  | some => exact noDigit_cons (by decide)
  | none =>
    cases he with
    | none => exact hr
    | some he => exact noDigit_cons (isDigit_of_exponent he).1

/-- An integer is digits, perhaps after a minus. -/
theorem IsInteger.exists_digits {n : Int} {x : List UInt8} (h : IsInteger n x) :
    ∃ s ds w, (s = [] ∨ s = ['-'.toUInt8]) ∧ DigitsText ds w ∧ ds ≠ [] ∧ x = s ++ w := by
  cases h with
  | natural h =>
    obtain ⟨ds, hds, -⟩ := h
    exact ⟨[], ds, x, .inl rfl, hds.digits, hds.ne_nil, rfl⟩
  | @negative n x _ h =>
    obtain ⟨ds, hds, -⟩ := h
    exact ⟨_, ds, x, .inr rfl, hds.digits, hds.ne_nil, rfl⟩

theorem IsInteger.decimalText {n : Int} {x : List UInt8} (h : IsInteger n x) : DecimalText x := by
  obtain ⟨s, ds, w, hs, hw, hds, rfl⟩ := h.exists_digits
  have hsign : ∃ negative, SignText negative s := by
    rcases hs with rfl | rfl
    · exact ⟨_, .none⟩
    · exact ⟨_, .minus⟩
  obtain ⟨negative, hsign⟩ := hsign
  exact ⟨negative, s, ds, w, [], [], none, [], hsign, hw, hds, .none, .none, by simp⟩

/-- A sign is told from the digits after it. -/
theorem sign_eq_of_append {negative : Bool} {s s' u u' : List UInt8} (hs : SignText negative s)
    (hs' : s' = [] ∨ s' = ['-'.toUInt8]) (hu : ∃ b t, u = b :: t ∧ isDigit b = true)
    (hu' : ∃ b t, u' = b :: t ∧ isDigit b = true) (he : s ++ u = s' ++ u') : s = s' ∧ u = u' := by
  obtain ⟨b, t, rfl, hb⟩ := hu
  obtain ⟨b', t', rfl, hb'⟩ := hu'
  have hne : ∀ {b c : UInt8}, isDigit b = true → isDigit c = false → b ≠ c := by
    rintro b c hb hc rfl
    rw [hb] at hc
    cases hc
  rcases hs' with rfl | rfl
  · cases hs with
    | none => exact ⟨rfl, he⟩
    | plus => exact absurd (List.cons.inj he).1.symm (hne hb' (by decide))
    | minus => exact absurd (List.cons.inj he).1.symm (hne hb' (by decide))
  · cases hs with
    | none => exact absurd (List.cons.inj he).1 (hne hb (by decide))
    | plus => exact absurd (List.cons.inj he).1 (by decide)
    | minus => exact ⟨rfl, (List.cons.inj he).2⟩

namespace DecimalText

variable {x : List UInt8}

theorem begins (h : DecimalText x) :
    ∃ b t, x = b :: t ∧ (isDigit b = true ∨ b = '+'.toUInt8 ∨ b = '-'.toUInt8) := by
  obtain ⟨negative, s, ds, w, fs, f, k, e, hs, hw, hds, -, -, rfl⟩ := h
  obtain ⟨b, t, rfl, hb⟩ := hw.eq_cons hds
  cases hs with
  | none => exact ⟨b, _, rfl, .inl hb⟩
  | plus => exact ⟨_, _, rfl, .inr (.inl rfl)⟩
  | minus => exact ⟨_, _, rfl, .inr (.inr rfl)⟩

theorem starts (h : DecimalText x) : Starts x := by
  have all : ∀ b : UInt8, isDigit b = true ∨ b = '+'.toUInt8 ∨ b = '-'.toUInt8 →
      isBlank b = false ∧ b ≠ ']'.toUInt8 :=
    forall_byte (by decide +kernel)
  obtain ⟨b, t, rfl, hb⟩ := h.begins
  exact ⟨b, t, rfl, all b hb⟩

theorem head?_ne (h : DecimalText x) : x.head? ≠ some 'n'.toUInt8 := by
  obtain ⟨b, t, rfl, hb⟩ := h.begins
  intro he
  rw [Option.some.inj he] at hb
  exact absurd hb (by decide)

/-- What can be read as an integer from a decimal literal on is the whole of it. -/
theorem eq_of_append (h : DecimalText x) {r x' r' : List UInt8} {n : Int} (hr : Delimited r)
    (hx' : IsInteger n x') (hr' : IntegerEnds r') (he : x ++ r = x' ++ r') : x = x' := by
  obtain ⟨negative, s, ds, w, fs, f, k, e, hs, hw, hds, hf, hk, rfl⟩ := h
  obtain ⟨s', ds', w', hs', hw', hds', rfl⟩ := hx'.exists_digits
  have hsigned : s ++ (w ++ (f ++ (e ++ r))) = s' ++ (w' ++ r') := by
    simpa using he
  obtain ⟨b, t, hb, hdigit⟩ := hw.eq_cons hds
  obtain ⟨b', t', hb', hdigit'⟩ := hw'.eq_cons hds'
  obtain ⟨rfl, hdigits⟩ := sign_eq_of_append hs hs' ⟨b, _, by rw [hb]; rfl, hdigit⟩
    ⟨b', _, by rw [hb']; rfl, hdigit'⟩ hsigned
  have hend : NoDigit (f ++ (e ++ r)) := noDigit_of_fraction hf hk hr.integerEnds.digit
  obtain ⟨rfl, rfl⟩ := hw.eq_of_append hw' hend hr'.digit hdigits
  -- After an integer there is neither a point nor an exponent.
  cases hf with
  | some => exact absurd rfl hr'.point
  | none =>
    cases hk with
    | none => simp
    | @some b _ _ _ _ hb =>
      obtain ⟨hlower, hupper⟩ := hr'.exponent b rfl
      exact absurd hb (not_or.mpr ⟨hlower, hupper⟩)

end DecimalText

namespace Decoder

variable {ε : Type} {x : List UInt8} {least most : Int}

/-- A decimal literal that is no integer of the range is refused. -/
theorem rejects_decimal (expected : Expected) (hleast : Int64.minValue.toInt ≤ least)
    (hmost : most < UInt64.size) (hx : DecimalText x)
    (hno : ∀ n, IsInteger n x → ¬(least ≤ n ∧ n ≤ most)) :
    Rejects (integer expected least most : Decoder ε Int) x fun _ => True where
  starts := hx.starts
  fails w r hw hr := by
    refine (yields_integer expected hleast hmost).fails ?_
    rintro n m ⟨x', he, hn, hm, hrange⟩
    rw [afterBlank_of_starts hw hx.starts] at he
    obtain rfl := hx.eq_of_append hr hn hm he
    exact hno n hn hrange

/-- What an integer is refused for that is out of range. -/
inductive OutOfRange (expected : Expected) (n : Int) : Cause ε → Prop
  | integer : OutOfRange expected n (.wrongValue n expected)
  | real {digits : String} : OutOfRange expected n (.wrongType (.real digits) expected)
  | tooLarge : OutOfRange expected n .numberOutOfRange

/-- The integer that the digits of a numeral write is the one that it is read as. -/
theorem eq_of_number?_eq_integer {m : Numeral} {n k : Int}
    (hn : m.negative = false ∧ n = decimal 0 m.whole ∨
      m.negative = true ∧ n = -(decimal 0 m.whole : Int) ∧ n ≠ 0)
    (h : m.number? = some (.integer k)) : n = k := by
  obtain ⟨-, -, hk⟩ := Numeral.number?_eq_integer_iff.mp h
  rcases hn with ⟨hs, rfl⟩ | ⟨hs, rfl, -⟩
  · rcases hk with ⟨-, hk, -⟩ | ⟨hs', -⟩
    · exact hk.symm
    · rw [hs] at hs'
      cases hs'
  · rcases hk with ⟨hs', -⟩ | ⟨-, hk, -⟩
    · rw [hs] at hs'
      cases hs'
    · exact hk.symm

theorem rejects_outOfRange (expected : Expected) {n : Int} (hx : IsInteger n x)
    (hn : ¬(least ≤ n ∧ n ≤ most)) :
    Rejects (integer expected least most : Decoder ε Int) x (OutOfRange expected n) := by
  obtain ⟨b, t, rfl, hb⟩ := hx.begins
  obtain ⟨m, hm, hf, he, hk⟩ := isInteger_iff.mp hx
  have hfits : m.Fits .valued := by
    intro e hexponent
    rw [he] at hexponent
    cases hexponent
  refine rejects_value hx.starts fun r hr => ?_
  rw [if_pos hb]
  refine fails_eat_bind ?_
  cases hnumber : m.number? with
  | none =>
    have hnone : Fails (number b : Decoder ε Number) (t ++ r) (OutOfRange expected n) := by
      refine (yields_numeral .valued b).bind_fails ⟨t, hm, rfl, hr.ends m, hfits⟩ ?_
      rw [hnumber]
      exact fails_failHere .tooLarge _
    exact hnone.bind _
  | some a =>
    refine (yields_number b).bind_fails ⟨m, t, hnumber, hm, rfl, hr.ends m, hfits⟩ ?_
    cases a with
    | integer k =>
      obtain rfl := eq_of_number?_eq_integer hk hnumber
      show Fails (if least ≤ n ∧ n ≤ most then _ else _) _ _
      rw [if_neg hn]
      exact fails_failHere .integer _
    | real y => exact fails_failHere .real _

end Decoder

end Json

/-! ## Places for integers -/

/-- A natural number that is written out is an unsigned word exactly if it is small enough. -/
theorem isUnsigned_ofNat {n : Nat} {x : List UInt8} (hx : IsNatural n x) (hn : n ≤ 4294967295) :
    IsUnsigned (UInt32.ofNat n) x := by
  rw [IsUnsigned, UInt32.toNat_ofNat', Nat.mod_eq_of_lt (by omega)]
  exact hx

section Places

variable {x bytes : List UInt8} {o : Except Refusal Report}

theorem NumberPlace.eq_ok_iff {fill : UInt32 → Report} (h : NumberPlace x bytes fill)
    (ho : Reading bytes o) (hx : DecimalText x) (r : Report) :
    o = .ok r ↔ ∃ n : Nat, IsNatural n x ∧ n ≤ 4294967295 ∧ r = fill (UInt32.ofNat n) := by
  constructor
  · intro hr
    by_cases hn : ∃ n : Nat, IsNatural n x ∧ n ≤ 4294967295
    · obtain ⟨n, hn, hle⟩ := hn
      have hok := ho.eq_ok_iff.mpr (h.reportText (isUnsigned_ofNat hn hle))
      rw [hok, Except.ok.injEq] at hr
      exact ⟨n, hn, hle, hr.symm⟩
    · have hrejects : Rejects unsigned x fun _ : Cause Draft.Problem => True := by
        refine (rejects_decimal .unsigned (by decide) (by decide) hx ?_).bind _
        rintro k hk ⟨hzero, hle⟩
        obtain ⟨m, rfl⟩ := Int.eq_ofNat_of_zero_le hzero
        have hsize : UInt32.size = 4294967296 := rfl
        exact hn ⟨m, isInteger_iff_isNatural.mp hk, by omega⟩
      obtain ⟨e, -, he, -⟩ := ho.of_fails (h.fails hx.head?_ne hrejects)
      rw [he] at hr
      cases hr
  · rintro ⟨n, hn, hle, rfl⟩
    exact ho.eq_ok_iff.mpr (h.reportText (isUnsigned_ofNat hn hle))

namespace SeverityPlace

variable {fill : Severity → Report}

/-- The literals of severities are the only integers of their values. -/
theorem eq_code_of_isSigned {n : Int} (hx : IsSigned n x) (hn : n = 1 ∨ n = 2) :
    ∃ s : Severity, x = [digitByte s.code] := by
  rcases hn with rfl | rfl
  · exact ⟨.warning, Draft.isSigned_code_iff.mp hx⟩
  · exact ⟨.error, Draft.isSigned_code_iff.mp hx⟩

theorem eq_ok_iff (h : SeverityPlace x bytes fill) (ho : Reading bytes o) (hx : DecimalText x)
    (r : Report) : o = .ok r ↔ ∃ s : Severity, x = [digitByte s.code] ∧ r = fill s := by
  constructor
  · intro hr
    by_cases hs : ∃ s : Severity, x = [digitByte s.code]
    · obtain ⟨s, hs⟩ := hs
      have hok := ho.eq_ok_iff.mpr (h.reportText hs)
      rw [hok, Except.ok.injEq] at hr
      exact ⟨s, hs, hr.symm⟩
    · have hfails : ∃ C, Fails Report.decoder bytes C := by
        by_cases hn : ∃ n, IsSigned n x
        · obtain ⟨n, hn⟩ := hn
          have hne : n ≠ 1 ∧ n ≠ 2 := not_or.mp fun he => hs (eq_code_of_isSigned hn he)
          exact ⟨_, h.fails_unknown hn hne⟩
        · refine ⟨_, h.fails hx.head?_ne (rejects_decimal .signed (by decide) (by decide) hx ?_)⟩
          intro n hinteger hrange
          exact hn ⟨n, hinteger, hrange⟩
      obtain ⟨C, hfails⟩ := hfails
      obtain ⟨e, -, he, -⟩ := ho.of_fails hfails
      rw [he] at hr
      cases hr
  · rintro ⟨s, hs, rfl⟩
    exact ho.eq_ok_iff.mpr (h.reportText hs)

/-- What is told of a number that is out of range are not the words for an unknown severity. -/
theorem not_prefix_of_outOfRange {n : Int} {cause : Cause Draft.Problem}
    (h : OutOfRange .signed n cause) (words : String) :
    ¬"unknown severity".toList <+: (cause.message Draft.Problem.message ++ words).toList := by
  have hhead : ∃ c, (cause.message Draft.Problem.message ++ words).toList.head? = some c ∧
      c ≠ 'u' := by
    cases h with
    | tooLarge =>
      refine ⟨'n', ?_, by decide⟩
      show ("number out of range" ++ words).toList.head? = _
      simp
    | integer =>
      refine ⟨'i', ?_, by decide⟩
      show ("invalid value: " ++ _ ++ _ ++ _ ++ words).toList.head? = _
      simp
    | real =>
      refine ⟨'i', ?_, by decide⟩
      show ("invalid type: " ++ _ ++ _ ++ _ ++ words).toList.head? = _
      simp
  obtain ⟨c, hc, hne⟩ := hhead
  rintro ⟨l, hl⟩
  rw [← hl] at hc
  exact hne (Option.some.inj hc).symm

end SeverityPlace

end Places

/-! ## Documents -/

/-- Take a document, read either way, that is good but for one decimal literal. As a line or a
column the literal is read exactly if it is the number that it gives, written out without a zero in
front, and a word of 32 bits holds it. As a severity it is read exactly if it is one of the two
codes; any other integer that a signed word of 64 bits holds is told as an unknown severity with its
value, and an integer beyond that is refused for something else. -/
theorem Report.exact_integers (x bytes : List UInt8) (o : Except Refusal Report)
    (ho : Reading bytes o) :
    (∀ fill, NumberPlace x bytes fill → DecimalText x → ∀ r, o = .ok r ↔
      ∃ n : Nat, IsNatural n x ∧ n ≤ 4294967295 ∧ r = fill (UInt32.ofNat n)) ∧
    ∀ fill, SeverityPlace x bytes fill →
      (DecimalText x → ∀ r, o = .ok r ↔ ∃ s : Severity, x = [digitByte s.code] ∧ r = fill s) ∧
      ∀ n : Int, IsInteger n x →
        (-9223372036854775808 ≤ n → n ≤ 9223372036854775807 → n ≠ 1 → n ≠ 2 →
          ∃ (e : Refusal) (p : Position), o = .error e ∧ e.text = "unknown severity " ++
            toString n ++ " (expected 1 for warning or 2 for error)" ++ p.words) ∧
        (n < -9223372036854775808 ∨ 9223372036854775807 < n →
          ∃ e : Refusal, o = .error e ∧ OutOfRange .signed n e.cause ∧
            ¬"unknown severity".toList <+: e.text.toList) := by
  refine ⟨fun fill h => h.eq_ok_iff ho, fun fill h => ⟨h.eq_ok_iff ho, ?_⟩⟩
  intro n hx
  have hleast : Int64.minValue.toInt = -9223372036854775808 := rfl
  have hmost : Int64.maxValue.toInt = 9223372036854775807 := rfl
  refine ⟨?_, ?_⟩
  · intro hle hge hone htwo
    have hsigned : IsSigned n x := ⟨hx, by omega, by omega⟩
    obtain ⟨e, p, he, hcause, htext⟩ := ho.of_fails (h.fails_unknown hsigned ⟨hone, htwo⟩)
    rw [hcause] at htext
    exact ⟨e, p, he, htext⟩
  · intro hn
    have hrejects : Rejects (ε := Draft.Problem) signed x (OutOfRange .signed n) :=
      rejects_outOfRange .signed hx (by omega)
    obtain ⟨e, p, he, hcause, htext⟩ := ho.of_fails (h.fails hx.head?_ne hrejects)
    refine ⟨e, he, hcause, ?_⟩
    rw [htext]
    exact SeverityPlace.not_prefix_of_outOfRange hcause p.words

/-- The largest line that there is, the least number that is told as an unknown severity, and a
number that a word of 64 bits would take for a warning. -/
theorem Report.exact_integers_at_bounds :
    ∃ document : List Char → List Char → List UInt8,
      document = (fun severity line => encode (writtenOfParts "a"
        [Writer.text "b", severity, Writer.text "c", line, Writer.natural 2])) ∧
      ofStream { bytes := document (Writer.natural 1) (Writer.natural 4294967295) } =
        .ok [{ path := "a", findings := [⟨"b", .warning, "c", 4294967295, 2⟩] }] ∧
      (∃ (e : Refusal) (p : Position),
        ofStream
          { bytes := document ('-' :: Writer.natural 9223372036854775808) (Writer.natural 1) } =
            .error e ∧
        e.text = "unknown severity -9223372036854775808 (expected 1 for warning or 2 for error)" ++
          p.words) ∧
      ∃ e : Refusal,
        ofStream { bytes := document (Writer.natural 18446744073709551617) (Writer.natural 1) } =
          .error e ∧
        ¬"unknown severity".toList <+: e.text.toList := by
  let f : Finding := { rule := "b", severity := .warning, text := "c", column := 2 }
  refine ⟨_, rfl, ?_, ?_, ?_⟩
  · have hline := numberPlace_written f "a" (Writer.natural 4294967295)
    have hnatural := isNatural_natural 4294967295
    obtain ⟨hnumber, -⟩ := exact_integers _ _ _ .stream
    exact (hnumber _ hline (IsInteger.natural hnatural).decimalText _).mpr
      ⟨_, hnatural, by decide, rfl⟩
  · have hseverity := severityPlace_written f "a" ('-' :: Writer.natural 9223372036854775808)
    have hinteger : IsInteger (-9223372036854775808)
        (encode ('-' :: Writer.natural 9223372036854775808)) :=
      .negative (by decide) (isNatural_natural 9223372036854775808)
    obtain ⟨-, hplace⟩ := exact_integers _ _ _ .stream
    obtain ⟨hunknown, -⟩ := (hplace _ hseverity).2 _ hinteger
    exact hunknown (by decide) (by decide) (by decide) (by decide)
  · have hseverity := severityPlace_written f "a" (Writer.natural 18446744073709551617)
    have hinteger : IsInteger 18446744073709551617
        (encode (Writer.natural 18446744073709551617)) :=
      .natural (isNatural_natural 18446744073709551617)
    obtain ⟨-, hplace⟩ := exact_integers _ _ _ .stream
    obtain ⟨-, hother⟩ := (hplace _ hseverity).2 _ hinteger
    obtain ⟨e, he, -, htext⟩ := hother (.inr (by decide))
    exact ⟨e, he, htext⟩

end Findings
