import Findings.Proofs.Grammar
import Findings.Proofs.Yields
import Findings.Json.Container

/-!
# White space, words and separators are read as the grammar has them

White space is passed over to its end, so a reader after it stands before a byte that is not white
(`afterBlank`). A separator says whether another item follows, and `Continues` is what it makes of
the bytes, for sequences and objects alike.
-/

namespace Findings.Json

/-! ## White space -/

theorem isBlank_iff {b : UInt8} :
    isBlank b = true ↔ b ∈ [' '.toUInt8, '\t'.toUInt8, '\n'.toUInt8, '\r'.toUInt8] := by
  simp [isBlank, or_assoc]

namespace Blank

theorem nil : Blank [] := by
  simp [Blank]

theorem cons {b : UInt8} {w : List UInt8} (hb : isBlank b = true) (hw : Blank w) :
    Blank (b :: w) := by
  intro x hx
  rcases List.mem_cons.mp hx with rfl | hx
  · exact isBlank_iff.mp hb
  · exact hw x hx

theorem append {w w' : List UInt8} (hw : Blank w) (hw' : Blank w') : Blank (w ++ w') := by
  intro x hx
  rcases List.mem_append.mp hx with hx | hx
  · exact hw x hx
  · exact hw' x hx

theorem head {b : UInt8} {w : List UInt8} (h : Blank (b :: w)) : isBlank b = true :=
  isBlank_iff.mpr (h b List.mem_cons_self)

theorem tail {b : UInt8} {w : List UInt8} (h : Blank (b :: w)) : Blank w :=
  fun x hx => h x (List.mem_cons_of_mem _ hx)

end Blank

/-- The bytes after white space. -/
def afterBlank (bs : List UInt8) : List UInt8 :=
  bs.dropWhile isBlank

theorem afterBlank_cons_blank {b : UInt8} {bs : List UInt8} (h : isBlank b = true) :
    afterBlank (b :: bs) = afterBlank bs := by
  simp [afterBlank, h]

theorem afterBlank_cons {b : UInt8} {bs : List UInt8} (h : isBlank b = false) :
    afterBlank (b :: bs) = b :: bs := by
  simp [afterBlank, h]

theorem afterBlank_append {w : List UInt8} (hw : Blank w) (bs : List UInt8) :
    afterBlank (w ++ bs) = afterBlank bs := by
  induction w with
  | nil => rfl
  | cons b w ih => rw [List.cons_append, afterBlank_cons_blank hw.head, ih hw.tail]

theorem exists_blank (bs : List UInt8) : ∃ w, Blank w ∧ bs = w ++ afterBlank bs := by
  induction bs with
  | nil => exact ⟨[], Blank.nil, rfl⟩
  | cons b bs ih =>
    by_cases hb : isBlank b = true
    · obtain ⟨w, hw, he⟩ := ih
      refine ⟨b :: w, hw.cons hb, ?_⟩
      rw [afterBlank_cons_blank hb, List.cons_append, ← he]
    · exact ⟨[], Blank.nil, by rw [afterBlank_cons (by simpa using hb), List.nil_append]⟩

theorem isBlank_of_afterBlank {bs r : List UInt8} {b : UInt8} (h : afterBlank bs = b :: r) :
    isBlank b = false := by
  induction bs with
  | nil => simp [afterBlank] at h
  | cons x bs ih =>
    by_cases hx : isBlank x = true
    · rw [afterBlank_cons_blank hx] at h
      exact ih h
    · rw [afterBlank_cons (by simpa using hx), List.cons.injEq] at h
      rw [← h.1]
      simpa using hx

/-- A byte that is not white comes first after white space. -/
theorem afterBlank_eq_cons_iff {bs r : List UInt8} {b : UInt8} :
    afterBlank bs = b :: r ↔ isBlank b = false ∧ ∃ w, Blank w ∧ bs = w ++ b :: r := by
  constructor
  · intro h
    obtain ⟨w, hw, he⟩ := exists_blank bs
    exact ⟨isBlank_of_afterBlank h, w, hw, by rw [← h, ← he]⟩
  · rintro ⟨hb, w, hw, rfl⟩
    rw [afterBlank_append hw, afterBlank_cons hb]

/-- Bytes are white space if nothing is left after it. -/
theorem afterBlank_eq_nil_iff {bs : List UInt8} : afterBlank bs = [] ↔ Blank bs := by
  constructor
  · intro h
    obtain ⟨w, hw, he⟩ := exists_blank bs
    rw [h, List.append_nil] at he
    rwa [he]
  · intro h
    have h' := afterBlank_append h []
    rwa [List.append_nil] at h'

namespace Decoder

variable {ε : Type}

theorem yields_blank :
    Yields (blank : Decoder ε (Option UInt8)) fun bs o r =>
      o = (afterBlank bs).head? ∧ r = afterBlank bs := by
  refine yields_sweep (E := fun _ bs o r => o = none ∧ r = bs)
    (L := fun _ bs o r => o = (afterBlank bs).head? ∧ r = afterBlank bs)
    (fun _ => yields_pure none) ?_ ?_ ()
  · intro _ o r
    simp [afterBlank]
  · intro _ b
    by_cases hb : isBlank b = true
    · rw [if_pos hb]
      refine .take (yields_pure ()) ?_
      intro t o r
      simp [afterBlank_cons_blank hb]
    · rw [if_neg hb]
      refine .leave (yields_pure (some b)) ?_
      intro t o r
      rw [afterBlank_cons (by simpa using hb)]
      simp

/-- Reads what begins after white space. -/
theorem yields_blank_bind {α : Type} {k : Option UInt8 → Decoder ε α}
    {M : UInt8 → List UInt8 → α → List UInt8 → Prop} (hnone : Refuses (k none))
    (hsome : ∀ b, Yields (k (some b)) (M b)) :
    Yields (blank >>= k) fun bs a r => ∃ b t, afterBlank bs = b :: t ∧ M b (b :: t) a r := by
  refine (yields_blank.bind_eq (M := fun o m a r => ∃ b, o = some b ∧ M b m a r)
    fun o => ?_).congr ?_
  · cases o with
    | none => exact hnone.congr fun _ _ _ => by simp
    | some b => exact (hsome b).congr fun _ _ _ => by simp
  · intro bs a r
    cases afterBlank bs <;> simp

/-! ## Words -/

theorem yields_word (w : List UInt8) :
    Yields (word w : Decoder ε Unit) fun bs _ r => bs = w ++ r := by
  induction w with
  | nil => exact (yields_pure ()).congr fun bs _ r => by simp [eq_comm]
  | cons b w ih =>
    refine (yields_next.bind_eq (M := fun o m _ r => o = some b ∧ m = w ++ r) fun o => ?_).congr ?_
    · cases o with
      | none => exact (refuses_failHere _ _).congr fun _ _ _ => by simp
      | some x =>
        by_cases hx : x = b
        · simp only [hx, if_true]
          exact ih.congr fun _ _ _ => by simp
        · simp only [hx, if_false]
          exact (refuses_failHere _ _).congr fun _ _ _ => by simp [hx]
    · intro bs _ r
      cases bs with
      | nil => simp
      | cons x t => simp

/-! ## Separators -/

/-- Whether the items of a container go on. An item begins with a byte that `opens` admits. -/
inductive Continues (close : UInt8) (opens : UInt8 → Prop) :
    Bool → List UInt8 → Bool → List UInt8 → Prop
  | stop {first : Bool} {bs t : List UInt8} (h : afterBlank bs = close :: t) :
    Continues close opens first bs false (close :: t)
  | first {bs t : List UInt8} {b : UInt8} (h : afterBlank bs = b :: t) (hb : opens b) :
    Continues close opens true bs true (b :: t)
  | more {bs t t' : List UInt8} {b : UInt8} (h : afterBlank bs = ','.toUInt8 :: t)
    (h' : afterBlank t = b :: t') (hb : opens b) : Continues close opens false bs true (b :: t')

section Continues

variable {close : UInt8} {opens : UInt8 → Prop} {bs r : List UInt8} {more : Bool}

/-- Where items go on, one begins. -/
theorem Continues.exists_cons {first : Bool} (h : Continues close opens first bs true r) :
    ∃ b t, r = b :: t ∧ opens b := by
  cases h with
  | first h hb => exact ⟨_, _, rfl, hb⟩
  | more h h' hb => exact ⟨_, _, rfl, hb⟩

theorem continues_true_iff :
    Continues close opens true bs more r ↔ ∃ b t, afterBlank bs = b :: t ∧
      r = b :: t ∧ (b = close ∧ more = false ∨ opens b ∧ more = true) := by
  constructor
  · intro h
    cases h with
    | stop h => exact ⟨_, _, h, rfl, .inl ⟨rfl, rfl⟩⟩
    | first h hb => exact ⟨_, _, h, rfl, .inr ⟨hb, rfl⟩⟩
  · rintro ⟨b, t, h, rfl, ⟨rfl, rfl⟩ | ⟨hb, rfl⟩⟩
    · exact .stop h
    · exact .first h hb

theorem continues_false_iff :
    Continues close opens false bs more r ↔ ∃ b t, afterBlank bs = b :: t ∧
      (b = close ∧ more = false ∧ r = b :: t ∨ b = ','.toUInt8 ∧ more = true ∧
        ∃ b' t', afterBlank t = b' :: t' ∧ opens b' ∧ r = b' :: t') := by
  constructor
  · intro h
    cases h with
    | stop h => exact ⟨_, _, h, .inl ⟨rfl, rfl, rfl⟩⟩
    | more h h' hb => exact ⟨_, _, h, .inr ⟨rfl, rfl, _, _, h', hb, rfl⟩⟩
  · rintro ⟨b, t, h, ⟨rfl, rfl, rfl⟩ | ⟨rfl, rfl, b', t', h', hb, rfl⟩⟩
    · exact .stop h
    · exact .more h h' hb

end Continues

section Separators

variable {close : UInt8} {opens : UInt8 → Prop} {k : Option UInt8 → Decoder ε Bool}

/-- What a separator does before the first item. -/
theorem yields_first (hnone : Refuses (k none)) (hclose : k (some close) = pure false)
    (hne : ¬opens close) (hopens : ∀ b, b ≠ close → opens b → k (some b) = pure true)
    (hother : ∀ b, b ≠ close → ¬opens b → Refuses (k (some b))) :
    Yields (blank >>= k) (Continues close opens true) := by
  refine (yields_blank_bind (M := fun b bs more r => r = bs ∧
    (b = close ∧ more = false ∨ opens b ∧ more = true)) hnone fun b => ?_).congr
    fun _ _ _ => continues_true_iff
  by_cases hb : b = close
  · rw [hb, hclose]
    exact (yields_pure false).congr fun _ _ _ => by simp [and_comm, hne]
  · by_cases ho : opens b
    · rw [hopens b hb ho]
      exact (yields_pure true).congr fun _ _ _ => by simp [and_comm, hb, ho]
    · exact (hother b hb ho).congr fun _ _ _ => by simp [hb, ho]

/-- What a separator does after an item. -/
theorem yields_more (hnone : Refuses (k none)) (hclose : k (some close) = pure false)
    (hne : close ≠ ','.toUInt8)
    (hcomma : Yields (k (some ','.toUInt8)) fun bs more r =>
      more = true ∧ ∃ b t, afterBlank bs.tail = b :: t ∧ opens b ∧ r = b :: t)
    (hother : ∀ b, b ≠ close → b ≠ ','.toUInt8 → Refuses (k (some b))) :
    Yields (blank >>= k) (Continues close opens false) := by
  refine (yields_blank_bind (M := fun b bs more r =>
    b = close ∧ more = false ∧ r = bs ∨ b = ','.toUInt8 ∧ more = true ∧
      ∃ b' t', afterBlank bs.tail = b' :: t' ∧ opens b' ∧ r = b' :: t') hnone fun b => ?_).congr
    fun _ _ _ => continues_false_iff
  by_cases hb : b = close
  · rw [hb, hclose]
    exact (yields_pure false).congr fun _ _ _ => by simp [hne]
  · by_cases hc : b = ','.toUInt8
    · rw [hc]
      exact hcomma.congr fun _ _ _ => by simp [hne.symm]
    · exact (hother b hb hc).congr fun _ _ _ => by simp [hb, hc]

/-- What a separator does after its comma. -/
theorem yields_afterComma (hnone : Refuses (k none))
    (hopens : ∀ b, opens b → k (some b) = pure true)
    (hother : ∀ b, ¬opens b → Refuses (k (some b))) :
    Yields (do
      eat
      k (← blank)) fun bs more r =>
        more = true ∧ ∃ b t, afterBlank bs.tail = b :: t ∧ opens b ∧ r = b :: t := by
  refine (yields_eat_bind (yields_blank_bind
    (M := fun b m more r => opens b ∧ more = true ∧ r = m) hnone fun b => ?_)).congr ?_
  · by_cases hb : opens b
    · rw [hopens b hb]
      exact (yields_pure true).congr fun _ _ _ => by simp [hb]
    · exact (hother b hb).congr fun _ _ _ => by simp [hb]
  · intro bs more r
    constructor
    · rintro ⟨rfl, b, t, h, hb, rfl⟩
      exact ⟨b, t, h, hb, rfl, rfl⟩
    · rintro ⟨b, t, h, hb, rfl, rfl⟩
      exact ⟨rfl, b, t, h, hb, rfl⟩

end Separators

theorem yields_nextElement (first : Bool) :
    Yields (nextElement first : Decoder ε Bool)
      (Continues ']'.toUInt8 (· ≠ ']'.toUInt8) first) := by
  cases first with
  | true =>
    refine yields_first (refuses_failNext _) rfl (by simp) (fun b hb _ => if_neg hb) ?_
    intro b hb hopens
    exact absurd hb hopens
  | false =>
    refine yields_more (refuses_failNext _) rfl (by decide) ?_ ?_
    · refine yields_afterComma (refuses_failNext _) (fun b hb => if_neg hb) fun b hb => ?_
      simp only [not_not.mp hb, if_true]
      exact refuses_failNext _
    · intro b hb hc
      simp only [hb, hc, if_false, Bool.false_eq_true]
      exact refuses_failNext _

theorem yields_nextKey (first : Bool) :
    Yields (nextKey first : Decoder ε Bool)
      (Continues '\x7d'.toUInt8 (· = '"'.toUInt8) first) := by
  cases first with
  | true =>
    refine yields_first (refuses_failNext _) rfl (by decide) ?_ ?_
    · intro b hb hq
      rw [hq]
      rfl
    · intro b hb hq
      simp only [hb, hq, if_false, if_true]
      exact refuses_failNext _
  | false =>
    refine yields_more (refuses_failNext _) rfl (by decide) ?_ ?_
    · refine yields_afterComma (refuses_failNext _) (fun b hb => if_pos hb) fun b hb => ?_
      simp only [hb, if_false]
      split
      · exact refuses_failNext _
      · exact refuses_failNext _
    · intro b hb hc
      simp only [hb, hc, if_false, Bool.false_eq_true]
      exact refuses_failNext _

/-! ## The ends of containers -/

/-- An end that is looked for after white space. -/
theorem yields_end {last : UInt8} {k : Option UInt8 → Decoder ε Unit} (hnone : Refuses (k none))
    (hlast : k (some last) = eat) (hother : ∀ b, b ≠ last → Refuses (k (some b))) :
    Yields (blank >>= k) fun bs _ r => afterBlank bs = last :: r := by
  refine (yields_blank_bind (M := fun b bs _ r => b = last ∧ r = bs.tail) hnone fun b => ?_).congr
    ?_
  · by_cases hb : b = last
    · rw [hb, hlast]
      exact yields_eat.congr fun _ _ _ => by simp
    · exact (hother b hb).congr fun _ _ _ => by simp [hb]
  · intro bs _ r
    constructor
    · intro h
      exact ⟨_, r, h, rfl, rfl⟩
    · rintro ⟨b, t, h, rfl, rfl⟩
      exact h

theorem yields_colon :
    Yields (colon : Decoder ε Unit) fun bs _ r => ∃ w, Blank w ∧ bs = w ++ ':'.toUInt8 :: r := by
  have hend : Yields (colon : Decoder ε Unit) fun bs _ r => afterBlank bs = ':'.toUInt8 :: r := by
    refine yields_end (refuses_failNext _) rfl fun b hb => ?_
    simp only [hb, if_false]
    exact refuses_failNext _
  refine hend.congr fun bs _ r => ?_
  rw [afterBlank_eq_cons_iff, and_iff_right (by decide)]

theorem yields_endSequence :
    Yields (endSequence : Decoder ε Unit) fun bs _ r => afterBlank bs = ']'.toUInt8 :: r := by
  refine yields_end (refuses_failNext _) rfl fun b hb => ?_
  simp only [hb, if_false]
  split
  · exact refuses_bind _ fun _ => refuses_failAfter _ _
  · exact refuses_failNext _

theorem yields_endObject :
    Yields (endObject : Decoder ε Unit) fun bs _ r => afterBlank bs = '\x7d'.toUInt8 :: r := by
  refine yields_end (refuses_failNext _) rfl fun b hb => ?_
  simp only [hb, if_false]
  split
  · exact refuses_failNext _
  · exact refuses_failNext _

end Decoder

end Findings.Json
