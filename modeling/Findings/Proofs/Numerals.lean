import Findings.Proofs.Texts
import Findings.Json.Number

/-!
# Numerals are read as the grammar has them

A numeral is read as far as it goes, so whether one is read depends on what follows it (`Ends`).
Only the size of an exponent can make a numeral of the grammar refused, and only if its number is
wanted (`Fits`).
-/

namespace Findings.Json

/-! ## Digits -/

theorem isDigit_digitByte {d : Nat} (h : d < 10) : isDigit (digitByte d) = true := by
  have all : ∀ d < 10, isDigit (digitByte d) = true := by
    decide
  exact all d h

theorem digitValue_digitByte {d : Nat} (h : d < 10) : digitValue (digitByte d) = d := by
  have all : ∀ d < 10, digitValue (digitByte d) = d := by
    decide
  exact all d h

theorem digitValue_lt {b : UInt8} (h : isDigit b = true) : digitValue b < 10 := by
  have all : ∀ b : UInt8, isDigit b = true → digitValue b < 10 :=
    forall_byte (by decide +kernel)
  exact all b h

theorem digitByte_digitValue {b : UInt8} (h : isDigit b = true) : digitByte (digitValue b) = b := by
  have all : ∀ b : UInt8, isDigit b = true → digitByte (digitValue b) = b :=
    forall_byte (by decide +kernel)
  exact all b h

/-- Whether no digit comes first. -/
def NoDigit (r : List UInt8) : Prop :=
  ∀ b ∈ r.head?, isDigit b = false

/-- Whether no exponent begins. -/
def NoExponent (r : List UInt8) : Prop :=
  ∀ b ∈ r.head?, b ≠ 'e'.toUInt8 ∧ b ≠ 'E'.toUInt8

theorem DigitsText.nil : DigitsText [] [] :=
  ⟨by simp, rfl⟩

theorem digitsText_cons {d : Nat} {ds : List Nat} {x : List UInt8} :
    DigitsText (d :: ds) x ↔ ∃ y, d < 10 ∧ DigitsText ds y ∧ x = digitByte d :: y := by
  unfold DigitsText
  constructor
  · rintro ⟨hd, rfl⟩
    exact ⟨_, hd d List.mem_cons_self, ⟨fun e he => hd e (List.mem_cons_of_mem _ he), rfl⟩, rfl⟩
  · rintro ⟨_, hd, ⟨hds, rfl⟩, rfl⟩
    refine ⟨fun e he => ?_, rfl⟩
    rcases List.mem_cons.mp he with rfl | he
    · exact hd
    · exact hds e he

/-- Digits that are followed by none are read one by one. -/
theorem digitsText_append_iff {b : UInt8} {t r : List UInt8} {P : List Nat → Prop} :
    (∃ ds x, DigitsText ds x ∧ NoDigit r ∧ b :: t = x ++ r ∧ P ds) ↔
      isDigit b = true ∧
          (∃ ds x, DigitsText ds x ∧ NoDigit r ∧ t = x ++ r ∧ P (digitValue b :: ds)) ∨
        isDigit b = false ∧ r = b :: t ∧ P [] := by
  constructor
  · rintro ⟨ds, x, hx, hr, hb, hp⟩
    cases ds with
    | nil =>
      obtain rfl : x = [] := hx.2
      obtain rfl : r = b :: t := hb.symm
      exact .inr ⟨hr b rfl, rfl, hp⟩
    | cons d ds =>
      obtain ⟨y, hd, hy, rfl⟩ := digitsText_cons.mp hx
      obtain ⟨rfl, rfl⟩ := List.cons.inj hb
      refine .inl ⟨isDigit_digitByte hd, ds, y, hy, hr, rfl, ?_⟩
      rwa [digitValue_digitByte hd]
  · rintro (⟨hb, ds, x, hx, hr, rfl, hp⟩ | ⟨hb, rfl, hp⟩)
    · refine ⟨_, b :: x, digitsText_cons.mpr ⟨x, digitValue_lt hb, hx, ?_⟩, hr, rfl, hp⟩
      rw [digitByte_digitValue hb]
    · refine ⟨[], [], .nil, ?_, rfl, hp⟩
      rintro _ ⟨⟩
      exact hb

theorem digitsText_nil_append_iff {r : List UInt8} {P : List Nat → Prop} :
    (∃ ds x, DigitsText ds x ∧ NoDigit r ∧ [] = x ++ r ∧ P ds) ↔ r = [] ∧ P [] := by
  constructor
  · rintro ⟨ds, x, ⟨-, rfl⟩, -, hb, hp⟩
    obtain ⟨hx, rfl⟩ := List.append_eq_nil_iff.mp hb.symm
    obtain rfl := List.map_eq_nil_iff.mp hx
    exact ⟨rfl, hp⟩
  · rintro ⟨rfl, hp⟩
    exact ⟨[], [], .nil, by simp [NoDigit], rfl, hp⟩

/-- What the first digit says of the digits before the point. -/
theorem wholeText_cons_iff {ds : List Nat} {b : UInt8} {x : List UInt8} :
    WholeText ds (b :: x) ↔ (b = '0'.toUInt8 ∧ ds = [0] ∧ x = []) ∨
      (b ≠ '0'.toUInt8 ∧ isDigit b = true ∧ ∃ es, DigitsText es x ∧ ds = digitValue b :: es) := by
  constructor
  · intro h
    cases ds with
    | nil => exact absurd rfl h.ne_nil
    | cons d ds =>
      obtain ⟨y, hd, hy, hx⟩ := digitsText_cons.mp h.digits
      obtain ⟨rfl, rfl⟩ := List.cons.inj hx
      by_cases h0 : d = 0
      · -- A zero in front is all that there is.
        have hds : d :: ds = [0] := h.zero (by rw [h0]; rfl)
        obtain ⟨-, rfl⟩ := List.cons.inj hds
        exact Or.inl ⟨by rw [h0]; rfl, hds, hy.2⟩
      · refine Or.inr ⟨?_, isDigit_digitByte hd, ds, hy, by rw [digitValue_digitByte hd]⟩
        intro hb
        rw [← digitValue_digitByte hd, hb] at h0
        exact h0 rfl
  · intro h
    rcases h with ⟨rfl, rfl, rfl⟩ | ⟨hz, hb, es, hes, rfl⟩
    · exact { digits := ⟨by simp, rfl⟩, ne_nil := by simp, zero := fun _ => rfl }
    · have hdigits : DigitsText (digitValue b :: es) (b :: x) :=
        digitsText_cons.mpr ⟨x, digitValue_lt hb, hes, by rw [digitByte_digitValue hb]⟩
      refine { digits := hdigits, ne_nil := List.cons_ne_nil _ _, zero := fun h => ?_ }
      have h0 : digitValue b = 0 := Option.some.inj h
      rw [← digitByte_digitValue hb, h0] at hz
      exact absurd rfl hz

@[simp] theorem decimal_nil (n : Nat) : decimal n [] = n := rfl

@[simp] theorem decimal_cons (n d : Nat) (ds : List Nat) :
    decimal n (d :: ds) = decimal (n * 10 + d) ds := rfl

theorem le_decimal (n : Nat) (ds : List Nat) : n ≤ decimal n ds := by
  induction ds generalizing n with
  | nil => exact Nat.le_refl _
  | cons d ds ih =>
    have h := ih (n * 10 + d)
    rw [decimal_cons]
    omega

namespace Decoder

variable {ε : Type}

theorem yields_digits (done : List Nat) :
    Yields (digits done : Decoder ε (List Nat)) fun bs o r =>
      ∃ ds x, DigitsText ds x ∧ NoDigit r ∧ bs = x ++ r ∧ o = done.reverse ++ ds := by
  refine yields_sweep (E := fun done bs o r => o = done.reverse ∧ r = bs)
    (L := fun done bs o r =>
      ∃ ds x, DigitsText ds x ∧ NoDigit r ∧ bs = x ++ r ∧ o = done.reverse ++ ds)
    (fun done => yields_pure _) ?_ ?_ done
  · intro done o r
    rw [digitsText_nil_append_iff, List.append_nil, and_comm]
  · intro done b
    by_cases hb : isDigit b = true
    · rw [if_pos hb]
      refine .take (yields_pure _) fun t o r => ?_
      rw [digitsText_append_iff]
      simp [hb]
    · rw [if_neg hb]
      refine .leave (yields_pure _) fun t o r => ?_
      rw [digitsText_append_iff]
      simp [hb, and_comm]

theorem yields_exponentDigits (tooLarge : Bool) (first : Nat) :
    Yields (exponentDigits tooLarge first : Decoder ε Nat) fun bs n r =>
      ∃ ds x, DigitsText ds x ∧ NoDigit r ∧ bs = x ++ r ∧ n = decimal first ds ∧
        (tooLarge = true → ds ≠ [] → n ≤ greatestExponent) := by
  refine yields_sweep (E := fun k bs n r => n = k ∧ r = bs) (L := fun k bs n r =>
    ∃ ds x, DigitsText ds x ∧ NoDigit r ∧ bs = x ++ r ∧ n = decimal k ds ∧
      (tooLarge = true → ds ≠ [] → n ≤ greatestExponent)) (fun k => yields_pure _) ?_ ?_ first
  · intro k n r
    rw [digitsText_nil_append_iff]
    simp [and_comm]
  · intro k b
    by_cases hb : isDigit b = true
    · rw [if_pos hb]
      by_cases hg : (tooLarge && decide (greatestExponent < k * 10 + digitValue b)) = true
      · simp only [hg, if_true]
        refine .leave (refuses_bind _ fun _ => refuses_failHere _ _) fun t n r => ?_
        rw [digitsText_append_iff, iff_false]
        rw [Bool.and_eq_true, decide_eq_true_eq] at hg
        rintro (⟨-, ds, x, -, -, -, rfl, hle⟩ | ⟨hb', -⟩)
        · have hle' := hle hg.1 (List.cons_ne_nil _ _)
          have hge := le_decimal (k * 10 + digitValue b) ds
          rw [decimal_cons] at hle'
          omega
        · rw [hb] at hb'
          simp at hb'
      · simp only [hg, Bool.false_eq_true, if_false]
        refine .take (yields_pure _) fun t n r => ?_
        rw [digitsText_append_iff]
        simp only [hb, true_and, Bool.true_eq_false, false_and, or_false,
          decimal_cons, exists_and_left, exists_eq_left, and_assoc]
        rw [Bool.and_eq_true, decide_eq_true_eq, not_and] at hg
        -- A number that one more digit does not make too large is not too large itself.
        constructor
        · rintro ⟨ds, x, hx, hr, rfl, rfl, hle⟩
          exact ⟨ds, x, hx, hr, rfl, rfl, fun h _ => hle h (List.cons_ne_nil _ _)⟩
        · rintro ⟨ds, x, hx, hr, rfl, rfl, hle⟩
          refine ⟨ds, x, hx, hr, rfl, rfl, fun h _ => ?_⟩
          by_cases hds : ds = []
          · rw [hds, decimal_nil]
            exact Nat.le_of_not_lt (hg h)
          · exact hle h hds
    · rw [if_neg hb]
      refine .leave (yields_pure _) fun t n r => ?_
      rw [digitsText_append_iff]
      simp [hb, and_comm]

/-! ## The parts of a numeral -/

theorem yields_wholeDigits (use : Use) (first : Option UInt8) :
    Yields (wholeDigits use first : Decoder ε (List Nat)) fun bs ds r =>
      ∃ b x, first = some b ∧ WholeText ds (b :: x) ∧ NoDigit r ∧ bs = x ++ r := by
  cases first with
  | none => exact (refuses_failHere _ _).congr fun _ _ _ => by simp
  | some b =>
    simp only [wholeText_cons_iff]
    show Yields (if b = '0'.toUInt8 then _ else _) _
    by_cases hz : b = '0'.toUInt8
    · rw [if_pos hz]
      refine (yields_peek.bind_eq
        (M := fun o m ds r => (∀ b ∈ o, isDigit b = false) ∧ ds = [0] ∧ r = m) fun o => ?_).congr ?_
      · cases o with
        | none => exact (yields_pure [0]).congr fun _ _ _ => by simp
        | some b' =>
          by_cases hb' : isDigit b' = true
          · simp only [hb', if_true]
            exact (refuses_failNext _).congr fun _ _ _ => by simp [hb']
          · simp only [hb', Bool.false_eq_true, if_false]
            exact (yields_pure [0]).congr fun _ _ _ => by simp [hb']
      · intro bs ds r
        constructor
        · intro h
          obtain ⟨_, x, ⟨⟩, ⟨-, rfl, rfl⟩ | ⟨hz', -⟩, hr, rfl⟩ := h
          · exact ⟨hr, rfl, rfl⟩
          · exact absurd hz hz'
        · intro h
          obtain ⟨hr, rfl, rfl⟩ := h
          exact ⟨b, [], rfl, Or.inl ⟨hz, rfl, rfl⟩, hr, rfl⟩
    rw [if_neg hz]
    cases hb : isDigit b with
    | true =>
      refine (yields_digits _).congr fun bs ds r => ?_
      constructor
      · intro h
        obtain ⟨_, x, ⟨⟩, ⟨hz', -⟩ | ⟨-, -, es, hes, rfl⟩, hr, rfl⟩ := h
        · exact absurd hz' hz
        · exact ⟨es, x, hes, hr, rfl, rfl⟩
      · intro h
        obtain ⟨es, x, hes, hr, rfl, rfl⟩ := h
        exact ⟨b, x, rfl, Or.inr ⟨hz, hb, es, hes, rfl⟩, hr, rfl⟩
    | false =>
      refine (refuses_failHere _ _).congr fun bs ds r => ?_
      rw [iff_false]
      intro h
      obtain ⟨_, x, ⟨⟩, ⟨hz', -⟩ | ⟨-, hb', -⟩, -⟩ := h
      · exact hz hz'
      · rw [hb] at hb'
        cases hb'

/-- The first byte tells whether there is a fraction. -/
theorem fractionText_iff {ds : List Nat} {bs r : List UInt8} :
    (∃ x, FractionText ds x ∧ bs = x ++ r ∧
      if ds = [] then r.head? ≠ some '.'.toUInt8 else NoDigit r) ↔
    if bs.head? = some '.'.toUInt8 then
      ds ≠ [] ∧ ∃ x, DigitsText ds x ∧ NoDigit r ∧ bs.tail = x ++ r
    else ds = [] ∧ r = bs := by
  constructor
  · rintro ⟨x, h, rfl, hr⟩
    cases h with
    | none =>
      rw [if_pos rfl] at hr
      rw [List.nil_append, if_neg hr]
      exact ⟨rfl, rfl⟩
    | some h hds =>
      rw [if_neg hds] at hr
      rw [List.cons_append, if_pos List.head?_cons]
      exact ⟨hds, _, h, hr, rfl⟩
  · intro h
    by_cases hd : bs.head? = some '.'.toUInt8
    · rw [if_pos hd] at h
      obtain ⟨hds, x, hx, hr, ht⟩ := h
      obtain ⟨t, rfl⟩ := List.head?_eq_some_iff.mp hd
      refine ⟨_, .some hx hds, ?_, by rwa [if_neg hds]⟩
      rw [List.cons_append, ← ht]
      rfl
    · rw [if_neg hd] at h
      obtain ⟨rfl, rfl⟩ := h
      exact ⟨[], .none, rfl, by rwa [if_pos rfl]⟩

theorem yields_fractionDigits (use : Use) :
    Yields (fractionDigits use : Decoder ε (List Nat)) fun bs ds r =>
      ∃ x, FractionText ds x ∧ bs = x ++ r ∧
        if ds = [] then r.head? ≠ some '.'.toUInt8 else NoDigit r := by
  simp only [fractionText_iff]
  refine yields_peek.bind_eq (M := fun o bs ds r =>
    if o = some '.'.toUInt8 then
      ds ≠ [] ∧ ∃ x, DigitsText ds x ∧ NoDigit r ∧ bs.tail = x ++ r
    else ds = [] ∧ r = bs) fun o => ?_
  by_cases ho : o = some '.'.toUInt8
  · simp only [ho, if_true]
    refine (yields_eat_bind ((yields_digits []).bind
      (M := fun es m ds r => es ≠ [] ∧ ds = es ∧ r = m) fun es => ?_)).congr ?_
    · cases es with
      | nil =>
        refine (refuses_bind _ fun o => ?_).congr fun _ _ _ => by simp
        cases o with
        | none => exact refuses_failNext _
        | some b => exact refuses_failNext _
      | cons d es => exact (yields_pure _).congr fun _ _ _ => by simp
    · intro bs ds r
      constructor
      · rintro ⟨hne, x, hx, hr, hb⟩
        exact ⟨ds, r, ⟨ds, x, hx, hr, hb, rfl⟩, hne, rfl, rfl⟩
      · rintro ⟨es, m, ⟨es', x, hx, hr, hb, rfl⟩, hne, rfl, rfl⟩
        exact ⟨hne, x, hx, hr, hb⟩
  · simp only [ho, if_false]
    exact yields_pure []

/-- Reads a sign, if there is one, and goes on with whether it is a minus. -/
def sign {α : Type} (k : Bool → Decoder ε α) : Decoder ε α := do
  let sign ← peek
  if (sign == some '-'.toUInt8 || sign == some '+'.toUInt8) = true then do
    eat
    k (sign == some '-'.toUInt8)
  else k (sign == some '-'.toUInt8)

/-- Reads the digits of an exponent. -/
def exponentTail (use : Use) (zero negative : Bool) : Decoder ε (Option Int) := do
  match ← next with
  | none => failHere use.cut
  | some d =>
    if isDigit d then
      let n ← exponentDigits (use = .valued && !zero && !negative) (digitValue d)
      return some (if negative then -n else n)
    else failHere .badNumber

theorem exponentPart_eq (use : Use) (zero : Bool) :
    (exponentPart use zero : Decoder ε (Option Int)) = do
      match ← peek with
      | some b =>
        if b = 'e'.toUInt8 || b = 'E'.toUInt8 then do
          eat
          sign (exponentTail use zero)
        else return none
      | none => return none := rfl

/-- A sign is used up before digits. -/
theorem yields_sign {α : Type} {k : Bool → Decoder ε α}
    {M : Bool → List UInt8 → α → List UInt8 → Prop}
    (hk : ∀ negative, Yields (k negative) (M negative))
    (hdigit : ∀ {negative bs a r}, M negative bs a r → ∀ b ∈ bs.head?, isDigit b = true) :
    Yields (sign k) fun bs a r =>
      ∃ negative s m, SignText negative s ∧ bs = s ++ m ∧ M negative m a r := by
  refine (yields_peek.bind_eq (M := fun o bs a r =>
    (o = some '-'.toUInt8 ∧ M true bs.tail a r) ∨ (o = some '+'.toUInt8 ∧ M false bs.tail a r) ∨
      (o ≠ some '-'.toUInt8 ∧ o ≠ some '+'.toUInt8 ∧ M false bs a r)) fun o => ?_).congr ?_
  · have hne : '-'.toUInt8 ≠ '+'.toUInt8 := by
      decide
    by_cases hm : o = some '-'.toUInt8
    · simp only [hm, beq_self_eq_true, Bool.true_or, if_true]
      exact (yields_eat_bind (hk true)).congr fun _ _ _ => by simp [hne]
    · have hm' : (o == some '-'.toUInt8) = false := beq_eq_false_iff_ne.mpr hm
      rw [hm', Bool.false_or]
      by_cases hp : o = some '+'.toUInt8
      · simp only [hp, beq_self_eq_true, if_true]
        exact (yields_eat_bind (hk false)).congr fun _ _ _ => by simp [hne.symm]
      · rw [if_neg (by simpa using hp)]
        exact (hk false).congr fun _ _ _ => by simp [hm, hp]
  · intro bs a r
    constructor
    · rintro ⟨negative, s, m, hs, rfl, h⟩
      cases hs with
      | none =>
        refine .inr (.inr ⟨fun hb => ?_, fun hb => ?_, h⟩)
        · exact absurd (hdigit h _ hb) (by decide)
        · exact absurd (hdigit h _ hb) (by decide)
      | plus => exact .inr (.inl ⟨rfl, h⟩)
      | minus => exact .inl ⟨rfl, h⟩
    · rintro (⟨hb, h⟩ | ⟨hb, h⟩ | ⟨-, -, h⟩)
      · obtain ⟨t, rfl⟩ := List.head?_eq_some_iff.mp hb
        exact ⟨true, _, t, .minus, rfl, h⟩
      · obtain ⟨t, rfl⟩ := List.head?_eq_some_iff.mp hb
        exact ⟨false, _, t, .plus, rfl, h⟩
      · exact ⟨false, [], _, .none, rfl, h⟩

/-- What the digits of an exponent come to after its sign, and what follows them. -/
def ExponentDigits (use : Use) (zero negative : Bool) (bs : List UInt8) (e : Option Int)
    (r : List UInt8) : Prop :=
  ∃ ds x, DigitsText ds x ∧ NoDigit r ∧ bs = x ++ r ∧ ds ≠ [] ∧
    e = some (if negative then -(decimal 0 ds : Int) else decimal 0 ds) ∧
    ((decide (use = .valued) && !zero && !negative) = true → decimal 0 ds ≤ greatestExponent)

theorem ExponentDigits.isDigit_head {use : Use} {zero negative : Bool} {bs r : List UInt8}
    {e : Option Int} (h : ExponentDigits use zero negative bs e r) :
    ∀ b ∈ bs.head?, isDigit b = true := by
  obtain ⟨ds, x, hx, -, rfl, hds, -⟩ := h
  intro b hb
  cases ds with
  | nil => exact absurd rfl hds
  | cons d ds =>
    obtain ⟨y, hd, hy, rfl⟩ := digitsText_cons.mp hx
    obtain rfl : digitByte d = b := Option.some.inj hb
    exact isDigit_digitByte hd

/-- An exponent that is read is a letter, a sign and digits, unless no letter is there. -/
theorem exponentText_iff {use : Use} {zero : Bool} {bs r : List UInt8} {e : Option Int} :
    (∃ x, ExponentText e x ∧ bs = x ++ r ∧ (e = none → NoExponent r) ∧
      ∀ k ∈ e, NoDigit r ∧ (use = .valued → zero = false → k ≤ greatestExponent)) ↔
    (NoExponent bs ∧ e = none ∧ r = bs) ∨
      ∃ b negative s m, bs = b :: (s ++ m) ∧ (b = 'e'.toUInt8 ∨ b = 'E'.toUInt8) ∧
        SignText negative s ∧ ExponentDigits use zero negative m e r := by
  constructor
  · rintro ⟨x, h, rfl, hnone, hsome⟩
    cases h with
    | none => exact .inl ⟨hnone rfl, rfl, rfl⟩
    | @some b negative ds s x he hs hx hds =>
      obtain ⟨hr, hle⟩ := hsome _ rfl
      have hbytes : b :: (s ++ x) ++ r = b :: (s ++ (x ++ r)) := by
        rw [List.cons_append, List.append_assoc]
      refine .inr ⟨b, negative, s, x ++ r, hbytes, he, hs, ds, x, hx, hr, rfl, hds, rfl, ?_⟩
      intro hu
      simp only [Bool.and_eq_true, decide_eq_true_eq, Bool.not_eq_true'] at hu
      have hle' := hle hu.1.1 hu.1.2
      rw [hu.2, if_neg (by simp)] at hle'
      exact Int.ofNat_le.mp hle'
  · rintro (⟨hb, rfl, rfl⟩ | ⟨b, negative, s, m, rfl, he, hs, ds, x, hx, hr, rfl, hds, rfl,
      hle⟩)
    · exact ⟨[], .none, rfl, fun _ => hb, by simp⟩
    · refine ⟨_, .some he hs hx hds, ?_, by simp, ?_⟩
      · rw [List.cons_append, List.append_assoc]
      · rintro _ ⟨⟩
        refine ⟨hr, fun hu hz => ?_⟩
        -- The bound is checked on digits after no minus only, and holds of the others by sign.
        cases negative with
        | true =>
          rw [if_pos rfl]
          omega
        | false =>
          rw [if_neg (by simp)]
          exact Int.ofNat_le.mpr (hle (by simp [hu, hz]))

/-- The digits of an exponent, the first of which must be there. -/
theorem yields_exponentTail (use : Use) (zero negative : Bool) :
    Yields (exponentTail use zero negative : Decoder ε (Option Int))
      (ExponentDigits use zero negative) := by
  unfold ExponentDigits
  generalize hl : (decide (use = .valued) && !zero && !negative) = tooLarge
  refine (yields_next.bind_eq (M := fun o bs e r => ∃ d, o = some d ∧ isDigit d = true ∧
    ∃ ds x, DigitsText ds x ∧ NoDigit r ∧ bs = x ++ r ∧
      e = some (if negative then -(decimal (digitValue d) ds : Int)
        else decimal (digitValue d) ds) ∧
      (tooLarge = true → decimal (digitValue d) ds ≤ greatestExponent)) fun o => ?_).congr ?_
  · cases o with
    | none => exact (refuses_failHere _ _).congr fun _ _ _ => by simp
    | some d =>
      by_cases hd : isDigit d = true
      · simp only [hd, if_true, hl]
        refine (yields_exponentDigits _ _).bind_pure.congr fun bs e r => ?_
        constructor
        · rintro ⟨_, ⟨⟩, -, ds, x, hx, hr, rfl, rfl, hle⟩
          exact ⟨_, rfl, ds, x, hx, hr, rfl, rfl, fun h _ => hle h⟩
        · rintro ⟨_, rfl, ds, x, hx, hr, rfl, rfl, hle⟩
          refine ⟨d, rfl, hd, ds, x, hx, hr, rfl, rfl, fun h => ?_⟩
          -- A digit alone is not compared with the greatest exponent, but cannot exceed it either.
          by_cases hds : ds = []
          · have hlt := digitValue_lt hd
            have hgreat : 9 ≤ greatestExponent := by decide
            rw [hds, decimal_nil]
            omega
          · exact hle h hds
      · simp only [hd, Bool.false_eq_true, if_false]
        refine (refuses_failHere _ _).congr fun bs e r => ?_
        rw [iff_false]
        rintro ⟨_, ⟨⟩, h, -⟩
        exact hd h
  · intro bs e r
    cases bs with
    | nil =>
      rw [digitsText_nil_append_iff]
      simp
    | cons b t =>
      rw [digitsText_append_iff]
      simp [decimal_cons]

theorem yields_exponentPart (use : Use) (zero : Bool) :
    Yields (exponentPart use zero : Decoder ε (Option Int)) fun bs e r =>
      ∃ x, ExponentText e x ∧ bs = x ++ r ∧ (e = none → NoExponent r) ∧
        ∀ k ∈ e, NoDigit r ∧ (use = .valued → zero = false → k ≤ greatestExponent) := by
  rw [exponentPart_eq]
  simp only [exponentText_iff]
  refine (yields_peek.bind_eq (M := fun o bs e r =>
    ((∀ b ∈ o, b ≠ 'e'.toUInt8 ∧ b ≠ 'E'.toUInt8) ∧ e = none ∧ r = bs) ∨
      ∃ b negative s m, o = some b ∧ bs.tail = s ++ m ∧ (b = 'e'.toUInt8 ∨ b = 'E'.toUInt8) ∧
        SignText negative s ∧ ExponentDigits use zero negative m e r) fun o => ?_).congr ?_
  · cases o with
    | none => exact (yields_pure none).congr fun _ _ _ => by simp
    | some b =>
      simp only
      by_cases hb : b = 'e'.toUInt8 ∨ b = 'E'.toUInt8
      · rw [if_pos (by simpa using hb)]
        refine (yields_eat_bind
          (yields_sign (yields_exponentTail use zero) ExponentDigits.isDigit_head)).congr ?_
        intro bs e r
        constructor
        · rintro (⟨h, -⟩ | ⟨_, negative, s, m, -, ht, -, hs, hm⟩)
          · have h' := h b rfl
            rcases hb with hb | hb
            · exact absurd hb h'.1
            · exact absurd hb h'.2
          · exact ⟨negative, s, m, hs, ht, hm⟩
        · rintro ⟨negative, s, m, hs, ht, hm⟩
          exact .inr ⟨b, negative, s, m, rfl, ht, hb, hs, hm⟩
      · rw [if_neg (by simpa using hb)]
        rw [not_or] at hb
        exact (yields_pure none).congr fun _ _ _ => by simp [hb]
  · intro bs e r
    constructor
    · rintro (h | ⟨b, negative, s, m, rfl, h⟩)
      · exact .inl h
      · exact .inr ⟨b, negative, s, m, rfl, rfl, h⟩
    · rintro (h | ⟨b, negative, s, m, hb, ht, h⟩)
      · exact .inl h
      · obtain ⟨t, rfl⟩ := List.head?_eq_some_iff.mp hb
        refine .inr ⟨b, negative, s, m, ?_, h⟩
        rw [← ht]
        rfl

end Decoder

/-! ## Numerals -/

/-- Whether bytes do not go on with a numeral. -/
structure Numeral.Ends (n : Numeral) (r : List UInt8) : Prop where
  digit : NoDigit r
  exponent : n.exponent = none → NoExponent r
  point : n.exponent = none → n.fraction = [] → r.head? ≠ some '.'.toUInt8

/-- Whether the digits of an exponent are read to the end. -/
def Numeral.Fits (n : Numeral) (use : Use) : Prop :=
  ∀ k ∈ n.exponent, use = .valued → (n.whole.all (· == 0) && n.fraction.all (· == 0)) = false →
    k ≤ greatestExponent

theorem noDigit_cons {b : UInt8} {r : List UInt8} (h : isDigit b = false) : NoDigit (b :: r) := by
  rintro _ ⟨⟩
  exact h

theorem digitByte_ne_minus {d : Nat} (h : d < 10) : digitByte d ≠ '-'.toUInt8 := by
  have all : ∀ d < 10, digitByte d ≠ '-'.toUInt8 := by
    decide
  exact all d h

/-- The digits before the point begin with one. -/
theorem WholeText.eq_cons {ds : List Nat} {x : List UInt8} (h : WholeText ds x) :
    ∃ d y, d < 10 ∧ x = digitByte d :: y := by
  cases ds with
  | nil => exact absurd rfl h.ne_nil
  | cons d ds =>
    obtain ⟨y, hd, -, hx⟩ := digitsText_cons.mp h.digits
    exact ⟨d, y, hd, hx⟩

theorem FractionText.eq_nil {x : List UInt8} (h : FractionText [] x) : x = [] := by
  cases h with
  | none => rfl
  | some _ hds => exact absurd rfl hds

theorem ExponentText.eq_nil {x : List UInt8} (h : ExponentText Option.none x) : x = [] := by
  cases h
  rfl

/-- An exponent begins with its letter. -/
theorem ExponentText.eq_cons {k : Int} {x : List UInt8} (h : ExponentText (Option.some k) x) :
    ∃ e y, x = e :: y ∧ (e = 'e'.toUInt8 ∨ e = 'E'.toUInt8) := by
  cases h with
  | some he hs h hds => exact ⟨_, _, rfl, he⟩

theorem isDigit_of_exponent {e : UInt8} (h : e = 'e'.toUInt8 ∨ e = 'E'.toUInt8) :
    isDigit e = false ∧ e ≠ '.'.toUInt8 := by
  rcases h with rfl | rfl
  · decide
  · decide

/-- The ends of the parts of a numeral are the end of the whole. -/
theorem Numeral.ends_iff {n : Numeral} {f e r : List UInt8} (hf : FractionText n.fraction f)
    (he : ExponentText n.exponent e) :
    n.Ends r ↔ NoDigit (f ++ (e ++ r)) ∧
      (if n.fraction = [] then (e ++ r).head? ≠ some '.'.toUInt8 else NoDigit (e ++ r)) ∧
      (n.exponent = none → NoExponent r) ∧ ∀ k ∈ n.exponent, NoDigit r := by
  obtain ⟨negative, whole, fraction, exponent⟩ := n
  simp only at hf he ⊢
  have hpoint : isDigit '.'.toUInt8 = false := by
    decide
  cases exponent with
  | none =>
    obtain rfl := he.eq_nil
    cases hf with
    | none =>
      constructor
      · rintro ⟨hd, hn, hp⟩
        exact ⟨hd, by simpa using hp rfl rfl, hn, by simp⟩
      · rintro ⟨hd, hp, hn, -⟩
        exact ⟨hd, hn, fun _ _ => by simpa using hp⟩
    | some h hds =>
      rw [if_neg hds]
      constructor
      · rintro ⟨hd, hn, -⟩
        exact ⟨noDigit_cons hpoint, hd, hn, by simp⟩
      · rintro ⟨-, hd, hn, -⟩
        exact ⟨hd, hn, fun _ h => absurd h hds⟩
  | some k =>
    obtain ⟨b, y, rfl, hb⟩ := he.eq_cons
    obtain ⟨hd, hp⟩ := isDigit_of_exponent hb
    have hd' : NoDigit (b :: y ++ r) := noDigit_cons hd
    constructor
    · rintro ⟨hr, -, -⟩
      refine ⟨?_, ?_, by simp, fun _ _ => hr⟩
      · cases hf with
        | none => exact hd'
        | some => exact noDigit_cons hpoint
      · split
        · simpa using hp
        · exact hd'
    · rintro ⟨-, -, -, hr⟩
      exact ⟨hr k rfl, by simp, by simp⟩

namespace Decoder

variable {ε : Type}

/-- A sign and the digits before the point. -/
theorem yields_signedWhole (use : Use) (b : UInt8) :
    Yields ((if (b == '-'.toUInt8) = true then next else pure (some b)) >>= wholeDigits use :
      Decoder ε (List Nat)) fun bs ds r => ∃ w, WholeText ds w ∧ NoDigit r ∧
        b :: bs = (if (b == '-'.toUInt8) = true then ['-'.toUInt8] else []) ++ (w ++ r) := by
  by_cases hb : b = '-'.toUInt8
  · simp only [hb, beq_self_eq_true, if_true]
    refine (yields_next.bind_eq fun o => yields_wholeDigits use o).congr fun bs ds r => ?_
    constructor
    · rintro ⟨w, hw, hr, he⟩
      obtain ⟨d, w, -, rfl⟩ := hw.eq_cons
      obtain ⟨-, rfl⟩ := List.cons.inj he
      exact ⟨_, w, rfl, hw, hr, rfl⟩
    · rintro ⟨x, w, hx, hw, hr, ht⟩
      obtain ⟨t, rfl⟩ := List.head?_eq_some_iff.mp hx
      obtain rfl : t = w ++ r := ht
      exact ⟨_, hw, hr, rfl⟩
  · have hb' : (b == '-'.toUInt8) = false := beq_eq_false_iff_ne.mpr hb
    simp only [hb', Bool.false_eq_true, if_false, pure_bind]
    refine (yields_wholeDigits use (some b)).congr fun bs ds r => ?_
    constructor
    · rintro ⟨w, hw, hr, he⟩
      obtain ⟨d, w, -, rfl⟩ := hw.eq_cons
      obtain ⟨rfl, rfl⟩ := List.cons.inj he
      exact ⟨_, w, rfl, hw, hr, rfl⟩
    · rintro ⟨_, w, ⟨⟩, hw, hr, rfl⟩
      exact ⟨_, hw, hr, rfl⟩

theorem numeral_eq (use : Use) (b : UInt8) :
    (numeral use b : Decoder ε Numeral) =
      (((if (b == '-'.toUInt8) = true then next else pure (some b)) >>= wholeDigits use) >>=
        fun whole => fractionDigits use >>= fun fraction =>
          exponentPart use (whole.all (· == 0) && fraction.all (· == 0)) >>= fun exponent =>
            pure { negative := b == '-'.toUInt8, whole, fraction, exponent }) := by
  unfold numeral
  by_cases hb : (b == '-'.toUInt8) = true
  · simp only [hb, if_true, bind_assoc]
  · simp only [hb, Bool.false_eq_true, if_false, bind_assoc]

/-- A numeral whose first byte is used up. -/
theorem yields_numeral (use : Use) (b : UInt8) :
    Yields (numeral use b : Decoder ε Numeral) fun bs n r =>
      ∃ x, NumeralText n (b :: x) ∧ bs = x ++ r ∧ n.Ends r ∧ n.Fits use := by
  rw [numeral_eq]
  refine ((yields_signedWhole use b).bind fun whole => (yields_fractionDigits use).bind
    fun fraction => (yields_exponentPart use _).bind_pure).congr ?_
  intro bs n r
  constructor
  · rintro ⟨x, ⟨w, f, e, hw, hf, he, hx⟩, rfl, hends, hfits⟩
    obtain ⟨hd, hp, hn, hr⟩ := (Numeral.ends_iff hf he).mp hends
    have hneg : (b == '-'.toUInt8) = n.negative := by
      cases hn : n.negative with
      | true =>
        rw [hn, if_pos rfl] at hx
        rw [(List.cons.inj hx).1]
        rfl
      | false =>
        obtain ⟨d, t, hd, rfl⟩ := hw.eq_cons
        rw [hn, if_neg (by simp)] at hx
        obtain rfl : b = digitByte d := (List.cons.inj hx).1
        exact beq_eq_false_iff_ne.mpr (digitByte_ne_minus hd)
    refine ⟨n.whole, _, ⟨w, hw, hd, ?_⟩, n.fraction, _, ⟨f, hf, rfl, hp⟩, n.exponent, ?_,
      ⟨e, he, rfl, hn, fun k hk => ⟨hr k hk, hfits k hk⟩⟩⟩
    · rw [hneg, ← List.cons_append, hx]
      simp
    · rw [hneg]
  · rintro ⟨whole, _, ⟨w, hw, hd, hb⟩, fraction, _, ⟨f, hf, rfl, hp⟩, exponent, rfl,
      ⟨e, he, rfl, hn, hr⟩⟩
    obtain ⟨d, t, -, rfl⟩ := hw.eq_cons
    rw [← List.append_assoc f, ← List.append_assoc (digitByte d :: t), ← List.append_assoc] at hb
    rcases List.cons_eq_append_iff.mp hb with ⟨hnil, -⟩ | ⟨x, hx, hbs⟩
    · simp at hnil
    · exact ⟨x, ⟨_, f, e, hw, hf, he, hx.symm⟩, hbs,
        (Numeral.ends_iff hf he).mpr ⟨hd, hp, hn, fun k hk => (hr k hk).1⟩,
        fun k hk => (hr k hk).2⟩

end Decoder

end Findings.Json
