import Findings.Proofs.Containers
import Findings.Json.Skip

/-!
# Values are passed over as the grammar has them

`Skips` is the machine that passes over a value, as a relation: its rules are the turns, and it says
what is left when no bracket is open any more. By induction on the rules it leaves only what follows
a value (`sound`), and by induction on the value it gets past it (`complete`), both for any brackets
that are open around it.
-/

namespace Findings.Json

/-- The byte that opens a container. -/
def Bracket.first : Bracket → UInt8
  | square => '['.toUInt8
  | curly => '\x7b'.toUInt8

/-! ## The machine as a relation -/

/-- A value without brackets that begins with `b`, and what it leaves of the bytes after `b`. -/
def Scalar (b : UInt8) (t m : List UInt8) : Prop :=
  if b = 'n'.toUInt8 then t = nullTail ++ m
  else if b = 't'.toUInt8 then t = trueTail ++ m
  else if b = 'f'.toUInt8 then t = falseTail ++ m
  else if beginsNumeral b then ∃ n x, NumeralText n (b :: x) ∧ t = x ++ m ∧ n.Ends m
  else if b = '"'.toUInt8 then ∃ l, LooseText l ∧ t = l ++ '"'.toUInt8 :: m
  else False

/-- What comes after a value inside open brackets; nothing more with none. -/
def resume : List Bracket → Option Skipping
  | [] => none
  | top :: below => some (.after top below)

/-- What the machine leaves, from what is to come. -/
inductive Skips : Option Skipping → List UInt8 → List UInt8 → Prop
  | done {r : List UInt8} : Skips none r r
  | blank {s : Skipping} {b : UInt8} {t r : List UInt8} (hb : isBlank b = true)
    (h : Skips (some s) t r) : Skips (some s) (b :: t) r
  | scalar {brackets : List Bracket} {b : UInt8} {t m r : List UInt8} (hx : Scalar b t m)
    (h : Skips (resume brackets) m r) : Skips (some (.value brackets)) (b :: t) r
  | enter {top : Bracket} {brackets : List Bracket} {t r : List UInt8}
    (h : Skips (some (.opened top brackets)) t r) :
    Skips (some (.value brackets)) (top.first :: t) r
  | empty {top : Bracket} {below : List Bracket} {t r : List UInt8}
    (h : Skips (resume below) t r) : Skips (some (.opened top below)) (top.close :: t) r
  | element {below : List Bracket} {b : UInt8} {t r : List UInt8} (hb : isBlank b = false)
    (hc : b ≠ ']'.toUInt8) (h : Skips (some (.value (.square :: below))) (b :: t) r) :
    Skips (some (.opened .square below)) (b :: t) r
  | entry {below : List Bracket} {t r : List UInt8}
    (h : Skips (some (.key below)) ('"'.toUInt8 :: t) r) :
    Skips (some (.opened .curly below)) ('"'.toUInt8 :: t) r
  | key {below : List Bracket} {l w t r : List UInt8} (hl : LooseText l) (hw : Blank w)
    (h : Skips (some (.value (.curly :: below))) t r) :
    Skips (some (.key below)) ('"'.toUInt8 :: (l ++ '"'.toUInt8 :: (w ++ ':'.toUInt8 :: t))) r
  | last {top : Bracket} {below : List Bracket} {t r : List UInt8}
    (h : Skips (resume below) t r) : Skips (some (.after top below)) (top.close :: t) r
  | nextElement {below : List Bracket} {t r : List UInt8}
    (h : Skips (some (.value (.square :: below))) t r) :
    Skips (some (.after .square below)) (','.toUInt8 :: t) r
  | nextEntry {below : List Bracket} {t r : List UInt8} (h : Skips (some (.key below)) t r) :
    Skips (some (.after .curly below)) (','.toUInt8 :: t) r

theorem skips_none_iff {m r : List UInt8} : Skips none m r ↔ r = m := by
  constructor
  · intro h
    cases h
    rfl
  · rintro rfl
    exact .done

/-- Whether a value without brackets can begin with `b`. -/
def BeginsScalar (b : UInt8) : Prop :=
  b = 'n'.toUInt8 ∨ b = 't'.toUInt8 ∨ b = 'f'.toUInt8 ∨ beginsNumeral b = true ∨ b = '"'.toUInt8

instance (b : UInt8) : Decidable (BeginsScalar b) :=
  inferInstanceAs (Decidable (_ ∨ _ ∨ _ ∨ _ ∨ _))

theorem BeginsScalar.not_blank {b : UInt8} (h : BeginsScalar b) :
    isBlank b = false ∧ b ≠ ']'.toUInt8 := by
  have all : ∀ b : UInt8, BeginsScalar b → isBlank b = false ∧ b ≠ ']'.toUInt8 :=
    forall_byte (by decide +kernel)
  exact all b h

theorem BeginsScalar.ne_first {b : UInt8} (h : BeginsScalar b) (top : Bracket) :
    b ≠ top.first := by
  have all : ¬BeginsScalar '['.toUInt8 ∧ ¬BeginsScalar '\x7b'.toUInt8 := by
    decide
  rintro rfl
  cases top with
  | square => exact all.1 h
  | curly => exact all.2 h

theorem Scalar.begins {b : UInt8} {t m : List UInt8} (h : Scalar b t m) : BeginsScalar b := by
  unfold Scalar at h
  split at h
  · rename_i hb
    exact .inl hb
  split at h
  · rename_i hb
    exact .inr (.inl hb)
  split at h
  · rename_i hb
    exact .inr (.inr (.inl hb))
  split at h
  · rename_i hb
    exact .inr (.inr (.inr (.inl hb)))
  split at h
  · rename_i hb
    exact .inr (.inr (.inr (.inr hb)))
  · exact h.elim

theorem Bracket.first_begins (top : Bracket) : isBlank top.first = false := by
  cases top with
  | square => decide
  | curly => decide

theorem Bracket.close_begins (top : Bracket) :
    isBlank top.close = false ∧ top.close ≠ ','.toUInt8 ∧ top.close ≠ '"'.toUInt8 := by
  cases top with
  | square => decide
  | curly => decide

/-- White space changes nothing. -/
theorem skips_blank_iff {s : Skipping} {b : UInt8} {t r : List UInt8} (hb : isBlank b = true) :
    Skips (some s) (b :: t) r ↔ Skips (some s) t r := by
  constructor
  · intro h
    have hn : ∀ {c : UInt8}, b = c → isBlank c = false → Skips (some s) t r := by
      intro c hc h
      rw [hc, h] at hb
      simp at hb
    cases h with
    | blank _ h => exact h
    | scalar hx => exact hn rfl hx.begins.not_blank.1
    | enter => exact hn rfl (Bracket.first_begins _)
    | empty => exact hn rfl (Bracket.close_begins _).1
    | element hb' => exact hn rfl hb'
    | entry => exact hn rfl (by decide)
    | key => exact hn rfl (by decide)
    | last => exact hn rfl (Bracket.close_begins _).1
    | nextElement => exact hn rfl (by decide)
    | nextEntry => exact hn rfl (by decide)
  · exact .blank hb

section Turns

variable {brackets below : List Bracket} {top : Bracket} {b : UInt8} {t r : List UInt8}

theorem skips_value_iff (hb : isBlank b = false) :
    Skips (some (.value brackets)) (b :: t) r ↔
      (∃ m, Scalar b t m ∧ Skips (resume brackets) m r) ∨
        ∃ top : Bracket, b = top.first ∧ Skips (some (.opened top brackets)) t r := by
  constructor
  · intro h
    cases h with
    | blank hb' =>
      rw [hb] at hb'
      simp at hb'
    | scalar hx h => exact .inl ⟨_, hx, h⟩
    | enter h => exact .inr ⟨_, rfl, h⟩
  · rintro (⟨m, hx, h⟩ | ⟨top, rfl, h⟩)
    · exact .scalar hx h
    · exact .enter h

theorem skips_opened_iff (hb : isBlank b = false) :
    Skips (some (.opened top below)) (b :: t) r ↔
      (b = top.close ∧ Skips (resume below) t r) ∨
        (top = .square ∧ b ≠ ']'.toUInt8 ∧ Skips (some (.value (.square :: below))) (b :: t) r) ∨
        (top = .curly ∧ b = '"'.toUInt8 ∧ Skips (some (.key below)) (b :: t) r) := by
  constructor
  · intro h
    cases h with
    | blank hb' =>
      rw [hb] at hb'
      simp at hb'
    | empty h => exact .inl ⟨rfl, h⟩
    | element _ hc h => exact .inr (.inl ⟨rfl, hc, h⟩)
    | entry h => exact .inr (.inr ⟨rfl, rfl, h⟩)
  · rintro (⟨rfl, h⟩ | ⟨rfl, hc, h⟩ | ⟨rfl, rfl, h⟩)
    · exact .empty h
    · exact .element hb hc h
    · exact .entry h

theorem skips_key_iff (hb : isBlank b = false) :
    Skips (some (.key below)) (b :: t) r ↔ b = '"'.toUInt8 ∧ ∃ l w m, LooseText l ∧ Blank w ∧
      t = l ++ '"'.toUInt8 :: (w ++ ':'.toUInt8 :: m) ∧
      Skips (some (.value (.curly :: below))) m r := by
  constructor
  · intro h
    cases h with
    | blank hb' =>
      rw [hb] at hb'
      simp at hb'
    | key hl hw h => exact ⟨rfl, _, _, _, hl, hw, rfl, h⟩
  · rintro ⟨rfl, l, w, m, hl, hw, rfl, h⟩
    exact .key hl hw h

theorem skips_after_iff (hb : isBlank b = false) :
    Skips (some (.after top below)) (b :: t) r ↔
      (b = top.close ∧ Skips (resume below) t r) ∨
        (b = ','.toUInt8 ∧ top = .square ∧ Skips (some (.value (.square :: below))) t r) ∨
        (b = ','.toUInt8 ∧ top = .curly ∧ Skips (some (.key below)) t r) := by
  constructor
  · intro h
    cases h with
    | blank hb' =>
      rw [hb] at hb'
      simp at hb'
    | last h => exact .inl ⟨rfl, h⟩
    | nextElement h => exact .inr (.inl ⟨rfl, rfl, h⟩)
    | nextEntry h => exact .inr (.inr ⟨rfl, rfl, h⟩)
  · rintro (⟨rfl, h⟩ | ⟨rfl, rfl, h⟩ | ⟨rfl, rfl, h⟩)
    · exact .last h
    · exact .nextElement h
    · exact .nextEntry h

end Turns

/-! ## The turns follow the rules -/

namespace Decoder

/-- What the machine leaves, as a relation of a sweep. -/
def Passes (s : Skipping) (bs : List UInt8) (_ : Unit) (r : List UInt8) : Prop :=
  Skips (some s) bs r

theorem follows_congr {s s' : Skipping} {b : UInt8} {turn : Turn ε Skipping Unit}
    (h : turn.Follows Passes s' b)
    (e : ∀ t r, Skips (some s) (b :: t) r ↔ Skips (some s') (b :: t) r) :
    turn.Follows Passes s b := by
  cases h with
  | take hd h => exact .take hd fun t x r => (e t r).trans (h t x r)
  | leave hd h => exact .leave hd fun t x r => (e t r).trans (h t x r)

theorem follows_completeValue {s : Skipping} {b : UInt8} {brackets : List Bracket}
    {d : Decoder ε Unit} {D : List UInt8 → Unit → List UInt8 → Prop} (hd : Yields d D)
    (h : ∀ t r, Skips (some s) (b :: t) r ↔ ∃ m, D t () m ∧ Skips (resume brackets) m r) :
    (completeValue brackets d).Follows Passes s b := by
  cases brackets with
  | nil =>
    refine .leave (yields_eat_bind hd) fun t _ r => ?_
    rw [Passes, h]
    simp [resume, skips_none_iff]
  | cons top below =>
    refine .take hd.bind_pure fun t _ r => ?_
    rw [Passes, h]
    constructor
    · rintro ⟨m, hm, hs⟩
      exact ⟨_, m, ⟨(), rfl, hm⟩, hs⟩
    · rintro ⟨_, m, ⟨_, rfl, hm⟩, hs⟩
      exact ⟨m, hm, hs⟩

/-- The turn at the first byte of a value without brackets. -/
theorem follows_scalar {b : UInt8} {brackets : List Bracket} {d : Decoder ε Unit}
    (hb : BeginsScalar b) (hd : Yields d fun t _ m => Scalar b t m) :
    (completeValue brackets d).Follows Passes (.value brackets) b := by
  refine follows_completeValue hd fun t r => ?_
  rw [skips_value_iff hb.not_blank.1]
  constructor
  · rintro (h | ⟨top, htop, -⟩)
    · exact h
    · exact absurd htop (hb.ne_first top)
  · exact .inl

/-- The turn at a bracket that opens a value. -/
theorem follows_enter (top : Bracket) (brackets : List Bracket) :
    (Turn.take (pure (.opened top brackets)) : Turn ε Skipping Unit).Follows Passes
      (.value brackets) top.first := by
  refine .take (yields_pure _) fun t _ r => ?_
  rw [Passes, skips_value_iff top.first_begins]
  constructor
  · rintro (⟨m, hx, -⟩ | ⟨top', htop, h⟩)
    · exact absurd rfl (hx.begins.ne_first top)
    · have he : top = top' := by
        cases top <;> cases top' <;> first | rfl | exact absurd htop (by decide)
      rw [he]
      exact ⟨_, _, ⟨rfl, rfl⟩, h⟩
  · rintro ⟨_, _, ⟨rfl, rfl⟩, h⟩
    exact .inr ⟨top, rfl, h⟩

theorem follows_valueTurn (brackets : List Bracket) {b : UInt8} (hb : isBlank b = false) :
    (valueTurn brackets b : Turn ε Skipping Unit).Follows Passes (.value brackets) b := by
  unfold valueTurn
  split
  · rename_i hn
    exact follows_scalar (.inl hn) ((yields_word _).congr fun t _ m => by simp [Scalar, hn])
  rename_i hn
  split
  · rename_i ht
    refine follows_scalar (.inr (.inl ht)) ((yields_word _).congr fun t _ m => ?_)
    rw [Scalar, if_neg hn, if_pos ht]
  rename_i ht
  split
  · rename_i hf
    refine follows_scalar (.inr (.inr (.inl hf))) ((yields_word _).congr fun t _ m => ?_)
    rw [Scalar, if_neg hn, if_neg ht, if_pos hf]
  rename_i hf
  split
  · rename_i hd
    refine follows_scalar (.inr (.inr (.inr (.inl hd))))
      ((yields_numeral .skipped b).bind_pure.congr fun t _ m => ?_)
    rw [Scalar, if_neg hn, if_neg ht, if_neg hf, if_pos hd]
    constructor
    · rintro ⟨n, x, hx, rfl, hm⟩
      exact ⟨n, rfl, x, hx, rfl, hm, fun k _ h => by simp at h⟩
    · rintro ⟨n, -, x, hx, rfl, hm, -⟩
      exact ⟨n, x, hx, rfl, hm⟩
  rename_i hd
  split
  · rename_i hq
    refine follows_scalar (.inr (.inr (.inr (.inr hq)))) (yields_skipText.congr fun t _ m => ?_)
    rw [Scalar, if_neg hn, if_neg ht, if_neg hf, if_neg hd, if_pos hq]
  rename_i hq
  split
  · rename_i ho
    rw [ho]
    exact follows_enter .square brackets
  rename_i ho
  split
  · rename_i hc
    rw [hc]
    exact follows_enter .curly brackets
  · rename_i hc
    refine .leave (refuses_failNext _) fun t _ r => ?_
    rw [iff_false, Passes, skips_value_iff hb]
    rintro (⟨m, hx, -⟩ | ⟨top, htop, -⟩)
    · rcases hx.begins with h | h | h | h | h
      · exact hn h
      · exact ht h
      · exact hf h
      · exact hd h
      · exact hq h
    · cases top with
      | square => exact ho htop
      | curly => exact hc htop

theorem follows_keyTurn (below : List Bracket) {b : UInt8} (hb : isBlank b = false) :
    (keyTurn below b : Turn ε Skipping Unit).Follows Passes (.key below) b := by
  unfold keyTurn
  split
  · rename_i hq
    refine .take (yields_skipText.bind fun _ => yields_colon.bind_pure) fun t _ r => ?_
    rw [Passes, skips_key_iff hb]
    constructor
    · rintro ⟨-, l, w, m, hl, hw, rfl, h⟩
      exact ⟨_, m, ⟨(), _, ⟨l, hl, rfl⟩, (), rfl, w, hw, rfl⟩, h⟩
    · rintro ⟨_, m, ⟨-, _, ⟨l, hl, rfl⟩, -, rfl, w, hw, rfl⟩, h⟩
      exact ⟨hq, l, w, m, hl, hw, rfl, h⟩
  · rename_i hq
    refine .leave (refuses_failNext _) fun t _ r => ?_
    rw [iff_false, Passes, skips_key_iff hb]
    rintro ⟨h, -⟩
    exact hq h

/-- The turn at a bracket that closes. -/
theorem follows_close {s : Skipping} {b : UInt8} (below : List Bracket)
    (h : ∀ t r, Skips (some s) (b :: t) r ↔ Skips (resume below) t r) :
    (completeValue below (pure ()) : Turn ε Skipping Unit).Follows Passes s b := by
  refine follows_completeValue (yields_pure ()) fun t r => ?_
  rw [h]
  simp

theorem follows_openedTurn (top : Bracket) (below : List Bracket) {b : UInt8}
    (hb : isBlank b = false) :
    (if b = top.close then completeValue below (pure ())
      else match top with
        | .square => valueTurn (.square :: below) b
        | .curly => keyTurn below b :
          Turn ε Skipping Unit).Follows Passes (.opened top below) b := by
  split
  · rename_i hc
    refine follows_close below fun t r => ?_
    rw [skips_opened_iff hb]
    constructor
    · rintro (⟨-, h⟩ | ⟨rfl, hne, -⟩ | ⟨rfl, hq, -⟩)
      · exact h
      · exact absurd hc hne
      · exact absurd (hc.symm.trans hq) (by decide)
    · intro h
      exact .inl ⟨hc, h⟩
  · rename_i hc
    cases top with
    | square =>
      refine follows_congr (follows_valueTurn (.square :: below) hb) fun t r => ?_
      rw [skips_opened_iff hb]
      constructor
      · rintro (⟨h, -⟩ | ⟨-, -, h⟩ | ⟨h, -⟩)
        · exact absurd h hc
        · exact h
        · simp at h
      · intro h
        exact .inr (.inl ⟨rfl, hc, h⟩)
    | curly =>
      refine follows_congr (follows_keyTurn below hb) fun t r => ?_
      rw [skips_opened_iff hb]
      constructor
      · rintro (⟨h, -⟩ | ⟨h, -⟩ | ⟨-, -, h⟩)
        · exact absurd h hc
        · simp at h
        · exact h
      · intro h
        exact .inr (.inr ⟨rfl, ((skips_key_iff hb).mp h).1, h⟩)

theorem follows_afterTurn (top : Bracket) (below : List Bracket) {b : UInt8}
    (hb : isBlank b = false) :
    (if b = top.close then completeValue below (pure ())
      else if b = ','.toUInt8 then
        match top with
        | .square => .take (pure (.value (.square :: below)))
        | .curly => .take (pure (.key below))
      else .leave (failNext top.noComma) : Turn ε Skipping Unit).Follows Passes
        (.after top below) b := by
  split
  · rename_i hc
    refine follows_close below fun t r => ?_
    have hne := top.close_begins.2.1
    rw [← hc] at hne
    rw [skips_after_iff hb, and_iff_right hc]
    simp [hne]
  rename_i hc
  split
  · rename_i hcomma
    cases top with
    | square =>
      refine .take (yields_pure _) fun t _ r => ?_
      rw [Passes, skips_after_iff hb]
      simp only [hc, false_and, false_or]
      simp [hcomma, Passes]
    | curly =>
      refine .take (yields_pure _) fun t _ r => ?_
      rw [Passes, skips_after_iff hb]
      simp only [hc, false_and, false_or]
      simp [hcomma, Passes]
  · rename_i hcomma
    refine .leave (refuses_failNext _) fun t _ r => ?_
    rw [Passes, skips_after_iff hb]
    simp [hc, hcomma]

theorem follows_skipTurn (s : Skipping) (b : UInt8) :
    (skipTurn s b : Turn ε Skipping Unit).Follows Passes s b := by
  unfold skipTurn
  by_cases hb : isBlank b = true
  · rw [if_pos hb]
    refine .take (yields_pure s) fun t _ r => ?_
    rw [Passes, skips_blank_iff hb]
    simp [Passes]
  rw [if_neg hb]
  rw [Bool.not_eq_true] at hb
  cases s with
  | value brackets => exact follows_valueTurn brackets hb
  | opened top below => exact follows_openedTurn top below hb
  | key below => exact follows_keyTurn below hb
  | after top below => exact follows_afterTurn top below hb

/-- The machine passes over what its rules say. -/
theorem yields_skip :
    Yields (skip : Decoder ε Unit) fun bs _ r => Skips (some (.value [])) bs r := by
  refine yields_sweep (E := fun _ _ _ _ => False) (L := Passes) (fun _ => refuses_failNext _) ?_
    follows_skipTurn (.value [])
  intro s _ r
  rw [iff_false]
  intro h
  cases h

end Decoder

end Findings.Json
