import Findings.Proofs.Integers

/-!
# Values are read as the grammar has them

`Reads d P` says that `d` reads exactly what the language `P` holds: after white space, and up to
what may follow a value in a container or in a document. Only a number depends on what follows it,
but it is enough to ask it of every value.
-/

namespace Findings.Json

/-! ## Around a value -/

/-- Whether bytes may follow a value: none, white space, a comma or a closing bracket. -/
def Delimited (r : List UInt8) : Prop :=
  ∀ b ∈ r.head?, isBlank b = true ∨ b = ','.toUInt8 ∨ b = ']'.toUInt8 ∨ b = '\x7d'.toUInt8

theorem delimited_nil : Delimited [] := by
  simp [Delimited]

theorem delimited_cons {b : UInt8} {r : List UInt8}
    (h : isBlank b = true ∨ b = ','.toUInt8 ∨ b = ']'.toUInt8 ∨ b = '\x7d'.toUInt8) :
    Delimited (b :: r) := by
  rintro _ ⟨⟩
  exact h

theorem Delimited.blank_append {w r : List UInt8} (hw : Blank w) (h : Delimited r) :
    Delimited (w ++ r) := by
  cases w with
  | nil => exact h
  | cons b w => exact delimited_cons (.inl hw.head)

/-- A delimiter is no part of a numeral. -/
theorem Delimited.not_mem_numeral {r : List UInt8} (h : Delimited r) :
    ∀ b ∈ r.head?, isDigit b = false ∧ b ≠ 'e'.toUInt8 ∧ b ≠ 'E'.toUInt8 ∧ b ≠ '.'.toUInt8 := by
  intro b hb
  have all : ∀ b : UInt8, isBlank b = true ∨ b = ','.toUInt8 ∨ b = ']'.toUInt8 ∨
      b = '\x7d'.toUInt8 →
      isDigit b = false ∧ b ≠ 'e'.toUInt8 ∧ b ≠ 'E'.toUInt8 ∧ b ≠ '.'.toUInt8 :=
    forall_byte (by decide +kernel)
  exact all b (h b hb)

theorem Delimited.ends {r : List UInt8} (h : Delimited r) (n : Numeral) : n.Ends r where
  digit b hb := (h.not_mem_numeral b hb).1
  exponent _ b hb := ⟨(h.not_mem_numeral b hb).2.1, (h.not_mem_numeral b hb).2.2.1⟩
  point _ _ hb := (h.not_mem_numeral _ hb).2.2.2 rfl

theorem Delimited.integerEnds {r : List UInt8} (h : Delimited r) : IntegerEnds r where
  digit b hb := (h.not_mem_numeral b hb).1
  exponent b hb := ⟨(h.not_mem_numeral b hb).2.1, (h.not_mem_numeral b hb).2.2.1⟩
  point hb := (h.not_mem_numeral _ hb).2.2.2 rfl

/-- Whether bytes begin like a value: with no white space, and not with the end of a sequence. -/
def Starts (x : List UInt8) : Prop :=
  ∃ b t, x = b :: t ∧ isBlank b = false ∧ b ≠ ']'.toUInt8

theorem afterBlank_of_starts {w x r : List UInt8} (hw : Blank w) (hx : Starts x) :
    afterBlank (w ++ (x ++ r)) = x ++ r := by
  obtain ⟨b, t, rfl, hb, -⟩ := hx
  rw [afterBlank_append hw]
  exact afterBlank_cons hb

theorem nullText_starts : Starts nullText :=
  ⟨_, _, rfl, by decide, by decide⟩

theorem boolText_starts (b : Bool) : Starts (boolText b) := by
  cases b with
  | false => exact ⟨_, _, rfl, by decide, by decide⟩
  | true => exact ⟨_, _, rfl, by decide, by decide⟩

theorem IsText.starts {s : String} {x : List UInt8} (h : IsText s x) : Starts x := by
  obtain ⟨l, -, rfl⟩ := h
  exact ⟨_, _, rfl, by decide, by decide⟩

/-- An integer begins like a numeral. -/
theorem IsInteger.begins {n : Int} {x : List UInt8} (h : IsInteger n x) :
    ∃ b t, x = b :: t ∧ beginsNumeral b = true := by
  cases h with
  | natural h =>
    obtain ⟨ds, hds, -⟩ := h
    obtain ⟨d, t, hd, rfl⟩ := hds.eq_cons
    exact ⟨_, t, rfl, by simp [beginsNumeral, isDigit_digitByte hd]⟩
  | negative hn h => exact ⟨_, _, rfl, by decide⟩

theorem starts_of_beginsNumeral {b : UInt8} (h : beginsNumeral b = true) (t : List UInt8) :
    Starts (b :: t) := by
  have all : ∀ b : UInt8, beginsNumeral b = true → isBlank b = false ∧ b ≠ ']'.toUInt8 :=
    forall_byte (by decide +kernel)
  exact ⟨b, t, rfl, (all b h).1, (all b h).2⟩

theorem IsInteger.starts {n : Int} {x : List UInt8} (h : IsInteger n x) : Starts x := by
  obtain ⟨b, t, rfl, hb⟩ := h.begins
  exact starts_of_beginsNumeral hb t

/-- An integer that is not below zero is written as a natural number. -/
theorem isInteger_iff_isNatural {n : Nat} {x : List UInt8} : IsInteger n x ↔ IsNatural n x := by
  constructor
  · intro h
    generalize hk : (n : Int) = k at h
    cases h with
    | natural h =>
      obtain rfl := Int.ofNat.inj hk
      exact h
    | negative hn _ => omega
  · exact .natural

/-- A number begins otherwise than the null value. -/
theorem IsInteger.head?_ne {n : Int} {x : List UInt8} (h : IsInteger n x) :
    x.head? ≠ some 'n'.toUInt8 := by
  obtain ⟨b, t, rfl, hb⟩ := h.begins
  intro he
  rw [Option.some.inj he] at hb
  exact absurd hb (by decide)

theorem IsText.head?_ne {s : String} {x : List UInt8} (h : IsText s x) :
    x.head? ≠ some 'n'.toUInt8 := by
  obtain ⟨l, -, rfl⟩ := h
  intro he
  exact absurd (Option.some.inj he) (by decide)

/-- The null value or a value of the language `P`. -/
def NullOr {α : Type} (P : α → List UInt8 → Prop) (o : Option α) (x : List UInt8) : Prop :=
  (o = none ∧ x = nullText) ∨ ∃ a, o = some a ∧ P a x

theorem nullOr_some_iff {α : Type} {P : α → List UInt8 → Prop} {a : α} {x : List UInt8} :
    NullOr P (some a) x ↔ P a x := by
  constructor
  · rintro (⟨h, -⟩ | ⟨b, h, hx⟩)
    · simp at h
    · rwa [Option.some.inj h]
  · intro h
    exact .inr ⟨a, rfl, h⟩

namespace Decoder

variable {ε α β : Type}

/-- `d` reads a value of the language `P`. -/
inductive Reads (d : Decoder ε α) (P : α → List UInt8 → Prop) : Prop
  | intro {L : List UInt8 → α → List UInt8 → Prop} (yields : Yields d L)
    (starts : ∀ a x, P a x → Starts x)
    (sound : ∀ bs a r, L bs a r → ∃ w x, Blank w ∧ P a x ∧ bs = w ++ (x ++ r))
    (complete : ∀ w x a r, Blank w → P a x → Delimited r → L (w ++ (x ++ r)) a r)

theorem Reads.yields {d : Decoder ε α} {P : α → List UInt8 → Prop} (h : Reads d P) :
    Yields d d.graph := by
  obtain ⟨hL, -, -, -⟩ := h
  exact hL.graph

theorem Reads.starts {d : Decoder ε α} {P : α → List UInt8 → Prop} (h : Reads d P) {a : α}
    {x : List UInt8} (hx : P a x) : Starts x := by
  obtain ⟨-, starts, -, -⟩ := h
  exact starts a x hx

theorem Reads.sound {d : Decoder ε α} {P : α → List UInt8 → Prop} (h : Reads d P)
    {bs r : List UInt8} {a : α} (hg : d.graph bs a r) :
    ∃ w x, Blank w ∧ P a x ∧ bs = w ++ (x ++ r) := by
  obtain ⟨hL, -, sound, -⟩ := h
  exact sound bs a r (hL.graph_iff.mp hg)

theorem Reads.complete {d : Decoder ε α} {P : α → List UInt8 → Prop} (h : Reads d P)
    {w x r : List UInt8} {a : α} (hw : Blank w) (hx : P a x) (hr : Delimited r) :
    d.graph (w ++ (x ++ r)) a r := by
  obtain ⟨hL, -, -, complete⟩ := h
  exact hL.graph_iff.mpr (complete w x a r hw hx hr)

theorem Reads.congr {d : Decoder ε α} {P P' : α → List UInt8 → Prop} (h : Reads d P)
    (e : ∀ a x, P' a x ↔ P a x) : Reads d P' := by
  obtain rfl : P' = P := by
    funext a x
    exact propext (e a x)
  exact h

/-- What is made of a value that is read. -/
theorem Reads.map {d : Decoder ε α} {P : α → List UInt8 → Prop} (h : Reads d P) (f : α → β) :
    Reads (d >>= fun a => pure (f a)) fun b x => ∃ a, P a x ∧ b = f a := by
  obtain ⟨hL, starts, sound, complete⟩ := h
  refine .intro hL.bind_pure ?_ ?_ ?_
  · rintro _ x ⟨a, hx, -⟩
    exact starts a x hx
  · rintro bs _ r ⟨a, rfl, hl⟩
    obtain ⟨w, x, hw, hx, rfl⟩ := sound _ _ _ hl
    exact ⟨w, x, hw, ⟨a, hx, rfl⟩, rfl⟩
  · rintro w x _ r hw ⟨a, hx, rfl⟩ hr
    exact ⟨a, rfl, complete w x a r hw hx hr⟩

/-- What is read may be refused afterwards. -/
theorem Reads.filter {d : Decoder ε α} {P : α → List UInt8 → Prop} (h : Reads d P)
    {k : α → Decoder ε β} {Q : α → β → Prop}
    (hk : ∀ a, Yields (k a) fun bs b r => Q a b ∧ r = bs) :
    Reads (d >>= k) fun b x => ∃ a, P a x ∧ Q a b := by
  obtain ⟨hL, starts, sound, complete⟩ := h
  refine .intro (hL.bind hk) ?_ ?_ ?_
  · rintro _ x ⟨a, hx, -⟩
    exact starts a x hx
  · rintro bs b _ ⟨a, r, hl, hq, rfl⟩
    obtain ⟨w, x, hw, hx, rfl⟩ := sound _ _ _ hl
    exact ⟨w, x, hw, ⟨a, hx, hq⟩, rfl⟩
  · rintro w x b r hw ⟨a, hx, hq⟩ hr
    exact ⟨a, r, complete w x a r hw hx hr, hq, rfl⟩

/-! ## Values by their first bytes -/

theorem yields_value {body : UInt8 → Decoder ε α}
    {M : UInt8 → List UInt8 → α → List UInt8 → Prop} (h : ∀ b, Yields (body b) (M b)) :
    Yields (value body) fun bs a r => ∃ b t, afterBlank bs = b :: t ∧ M b (b :: t) a r :=
  yields_blank_bind (refuses_failNext _) fun b => (h b).placed

/-- A value is read if its body reads it from its first byte on. -/
theorem reads_value {body : UInt8 → Decoder ε α}
    {M : UInt8 → List UInt8 → α → List UInt8 → Prop} {P : α → List UInt8 → Prop}
    (h : ∀ b, Yields (body b) (M b)) (starts : ∀ a x, P a x → Starts x)
    (sound : ∀ b t a r, M b (b :: t) a r → ∃ x, P a x ∧ b :: t = x ++ r)
    (complete : ∀ b t a r, P a (b :: t) → Delimited r → M b (b :: (t ++ r)) a r) :
    Reads (value body) P := by
  refine .intro (yields_value h) starts ?_ ?_
  · rintro bs a r ⟨b, t, hb, hm⟩
    obtain ⟨-, w, hw, rfl⟩ := afterBlank_eq_cons_iff.mp hb
    obtain ⟨x, hx, he⟩ := sound b t a r hm
    exact ⟨w, x, hw, hx, by rw [he]⟩
  · intro w x a r hw hx hr
    obtain ⟨b, t, rfl, hb, hc⟩ := starts a x hx
    exact ⟨b, t ++ r, afterBlank_of_starts hw ⟨b, t, rfl, hb, hc⟩, complete b t a r hx hr⟩

/-- A value of another type is refused. -/
theorem refuses_mismatch (expected : Expected) (b : UInt8) :
    Refuses (mismatch expected b : Decoder ε α) := by
  unfold mismatch
  split
  · exact refuses_bind _ fun _ => refuses_bind _ fun _ => refuses_failHere _ _
  split
  · exact refuses_bind _ fun _ => refuses_bind _ fun _ => refuses_failHere _ _
  split
  · exact refuses_bind _ fun _ => refuses_bind _ fun _ => refuses_failHere _ _
  split
  · exact refuses_bind _ fun _ => refuses_bind _ fun _ => refuses_failHere _ _
  split
  · exact refuses_bind _ fun _ => refuses_bind _ fun _ => refuses_failHere _ _
  split
  · exact refuses_failHere _ _
  split
  · exact refuses_failHere _ _
  · exact refuses_failNext _

theorem yields_string : Yields (string : Decoder ε String) fun bs s r =>
    ∃ l, CharsText s.toList l ∧ afterBlank bs = quote l ++ r := by
  refine (yields_value (M := fun b bs s r => b = '"'.toUInt8 ∧
    ∃ l, CharsText s.toList l ∧ bs.tail = l ++ '"'.toUInt8 :: r) fun b => ?_).congr fun bs s r => ?_
  · by_cases hb : b = '"'.toUInt8
    · rw [if_pos hb]
      exact (yields_eat_bind yields_text).congr fun _ _ _ => by simp [hb]
    · rw [if_neg hb]
      exact (refuses_mismatch _ _).congr fun _ _ _ => by simp [hb]
  · constructor
    · rintro ⟨l, hl, he⟩
      exact ⟨_, _, he, rfl, l, hl, by simp⟩
    · rintro ⟨_, t, he, rfl, l, hl, ht⟩
      obtain rfl : t = l ++ '"'.toUInt8 :: r := ht
      exact ⟨l, hl, by simp [he, quote]⟩

theorem reads_string : Reads (string : Decoder ε String) IsText := by
  refine .intro yields_string (fun _ _ => IsText.starts) ?_ ?_
  · rintro bs s r ⟨l, hl, hx⟩
    obtain ⟨w, hw, he⟩ := exists_blank bs
    exact ⟨w, quote l, hw, ⟨l, hl, rfl⟩, by rw [he, hx]⟩
  · rintro w x s r hw hx -
    have he := afterBlank_of_starts (r := r) hw hx.starts
    obtain ⟨l, hl, rfl⟩ := hx
    exact ⟨l, hl, he⟩

theorem reads_boolean : Reads (boolean : Decoder ε Bool) fun b x => x = boolText b := by
  refine reads_value (M := fun b bs o r =>
    b = 't'.toUInt8 ∧ o = true ∧ bs.tail = trueTail ++ r ∨
      b = 'f'.toUInt8 ∧ o = false ∧ bs.tail = falseTail ++ r) (fun b => ?_) ?_ ?_ ?_
  · have hne : 't'.toUInt8 ≠ 'f'.toUInt8 := by
      decide
    by_cases ht : b = 't'.toUInt8
    · rw [if_pos ht]
      refine (yields_eat_bind (yields_word _).bind_pure).congr fun bs o r => ?_
      simp [ht, hne]
    rw [if_neg ht]
    by_cases hf : b = 'f'.toUInt8
    · rw [if_pos hf]
      refine (yields_eat_bind (yields_word _).bind_pure).congr fun bs o r => ?_
      simp [hf, hne.symm]
    · rw [if_neg hf]
      exact (refuses_mismatch _ _).congr fun _ _ _ => by simp [ht, hf]
  · rintro o _ rfl
    exact boolText_starts o
  · rintro _ t _ r (⟨rfl, rfl, ht⟩ | ⟨rfl, rfl, ht⟩)
    · exact ⟨_, rfl, congrArg _ ht⟩
    · exact ⟨_, rfl, congrArg _ ht⟩
  · rintro b t o r hx -
    cases o with
    | false =>
      obtain ⟨rfl, rfl⟩ := List.cons.inj hx
      exact .inr ⟨rfl, rfl, rfl⟩
    | true =>
      obtain ⟨rfl, rfl⟩ := List.cons.inj hx
      exact .inl ⟨rfl, rfl, rfl⟩

/-! ## Integers -/

theorem yields_integer (expected : Expected) {least most : Int}
    (hleast : Int64.minValue.toInt ≤ least) (hmost : most < UInt64.size) :
    Yields (integer expected least most : Decoder ε Int) fun bs n r =>
      ∃ x, afterBlank bs = x ++ r ∧ IsInteger n x ∧ IntegerEnds r ∧ least ≤ n ∧ n ≤ most := by
  refine (yields_value (M := fun b bs n r => ∃ x, IsInteger n (b :: x) ∧ bs.tail = x ++ r ∧
    IntegerEnds r ∧ least ≤ n ∧ n ≤ most) fun b => ?_).congr fun bs n r => ?_
  · by_cases hb : beginsNumeral b = true
    · rw [if_pos hb]
      exact yields_eat_bind (yields_integerBody expected b hleast hmost (fun n => rfl)
        fun x => refuses_failHere _ _)
    · rw [if_neg hb]
      refine (refuses_mismatch _ _).congr fun bs n r => ?_
      rw [iff_false]
      rintro ⟨x, hx, -⟩
      obtain ⟨b', t, he, hb'⟩ := hx.begins
      rw [(List.cons.inj he).1] at hb
      exact hb hb'
  · constructor
    · rintro ⟨x, hx, hn, h⟩
      obtain ⟨b, t, rfl, -⟩ := hn.begins
      exact ⟨b, t ++ r, hx, t, hn, rfl, h⟩
    · rintro ⟨b, t, hb, x, hn, ht, h⟩
      obtain rfl : t = x ++ r := ht
      exact ⟨b :: x, hb, hn, h⟩

theorem reads_integer (expected : Expected) {least most : Int}
    (hleast : Int64.minValue.toInt ≤ least) (hmost : most < UInt64.size) :
    Reads (integer expected least most : Decoder ε Int) fun n x =>
      IsInteger n x ∧ least ≤ n ∧ n ≤ most := by
  refine .intro (yields_integer expected hleast hmost) (fun n x h => h.1.starts) ?_ ?_
  · rintro bs n r ⟨x, hx, hn, -, h⟩
    obtain ⟨w, hw, he⟩ := exists_blank bs
    exact ⟨w, x, hw, ⟨hn, h⟩, by rw [he, hx]⟩
  · rintro w x n r hw ⟨hn, h⟩ hr
    exact ⟨x, afterBlank_of_starts hw hn.starts, hn, hr.integerEnds, h⟩

theorem reads_signed : Reads (signed : Decoder ε Int) IsSigned :=
  reads_integer _ (by decide) (by decide)

theorem reads_unsigned :
    Reads (unsigned : Decoder ε UInt32) IsUnsigned := by
  have hsize : UInt32.size = 4294967296 := rfl
  have hinteger : Reads (integer .unsigned 0 (UInt32.size - 1) : Decoder ε Int) fun n x =>
      IsInteger n x ∧ 0 ≤ n ∧ n ≤ UInt32.size - 1 :=
    reads_integer _ (by decide) (by decide)
  refine (hinteger.map fun n => UInt32.ofNat n.toNat).congr fun v x => ?_
  constructor
  · intro h
    have hlt := v.toNat_lt
    refine ⟨v.toNat, ⟨.natural h, by omega, by omega⟩, ?_⟩
    rw [Int.toNat_natCast, UInt32.ofNat_toNat]
  · rintro ⟨n, ⟨h, hn, hle⟩, rfl⟩
    obtain ⟨k, rfl⟩ := Int.eq_ofNat_of_zero_le hn
    rw [Int.toNat_natCast, IsUnsigned, UInt32.toNat_ofNat', Nat.mod_eq_of_lt (by omega)]
    exact isInteger_iff_isNatural.mp h

/-! ## Null -/

theorem reads_optional {d : Decoder ε α} {P : α → List UInt8 → Prop} (h : Reads d P)
    (hnull : ∀ a x, P a x → x.head? ≠ some 'n'.toUInt8) : Reads (optional d) (NullOr P) := by
  obtain ⟨hL, starts, sound, complete⟩ := h
  rename_i L
  refine .intro (L := fun bs o r =>
    if (afterBlank bs).head? = some 'n'.toUInt8 then
      o = none ∧ (afterBlank bs).tail = nullTail ++ r
    else ∃ a, o = some a ∧ L (afterBlank bs) a r) ?_ ?_ ?_ ?_
  · refine yields_blank.bind_eq (M := fun b m o r =>
      if b = some 'n'.toUInt8 then o = none ∧ m.tail = nullTail ++ r
      else ∃ a, o = some a ∧ L m a r) fun b => ?_
    by_cases hb : b = some 'n'.toUInt8
    · simp only [hb, if_true]
      exact (yields_eat_bind (yields_word _).bind_pure).congr fun _ _ _ => by simp
    · simp only [hb, if_false]
      exact hL.bind_pure
  · rintro o x (⟨-, rfl⟩ | ⟨a, -, hx⟩)
    · exact nullText_starts
    · exact starts a x hx
  · intro bs o r hl
    obtain ⟨w, hw, he⟩ := exists_blank bs
    split at hl
    · rename_i hb
      obtain ⟨rfl, ht⟩ := hl
      obtain ⟨t, hm⟩ := List.head?_eq_some_iff.mp hb
      refine ⟨w, nullText, hw, .inl ⟨rfl, rfl⟩, ?_⟩
      rw [hm, List.tail_cons] at ht
      rw [he, hm, ht]
      rfl
    · obtain ⟨a, rfl, hl⟩ := hl
      obtain ⟨w', x, hw', hx, hm⟩ := sound _ _ _ hl
      exact ⟨w ++ w', x, hw.append hw', .inr ⟨a, rfl, hx⟩, by rw [he, hm, List.append_assoc]⟩
  · rintro w x o r hw (⟨rfl, rfl⟩ | ⟨a, rfl, hx⟩) hr
    · rw [afterBlank_of_starts hw nullText_starts]
      exact ⟨rfl, rfl⟩
    · rw [afterBlank_of_starts hw (starts a x hx)]
      have hne : (x ++ r).head? ≠ some 'n'.toUInt8 := by
        obtain ⟨b, t, rfl, -, -⟩ := starts a x hx
        exact hnull a (b :: t) hx
      rw [if_neg hne]
      exact ⟨a, rfl, complete [] x a r .nil hx hr⟩

end Decoder

end Findings.Json
