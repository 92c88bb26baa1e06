import Findings.Json.Decoder

/-!
# What a decoder yields

Whether a decoder succeeds, with which value, and which bytes it then leaves, depends on the bytes
before it alone and not on how many were used up or looked at. `Yields d L` says that `L` is that
relation between the bytes before, the value and the bytes after.

## Two halves

* `sound` speaks of every run that succeeds, also on a stream that breaks off, and says that such a
  run has not met the break.
* `complete` gives the run, on a stream that does not break off.

Each way of composing decoders composes the relations (`Yields.bind`, `Yields.closing`,
`Yields.iterate`), so that a relation is found for each decoder without looking at a cursor.
-/

namespace Findings.Json.Decoder

variable {ε α β σ : Type}

/-- On the bytes of its first argument, `d` yields the value and leaves the bytes that `L` says. -/
structure Yields (d : Decoder ε α) (L : List UInt8 → α → List UInt8 → Prop) : Prop where
  sound : ∀ {c c' : Cursor} {a : α}, d.run c = .ok a c' →
    L c.rest a c'.rest ∧ c'.failure = c.failure
  complete : ∀ {c : Cursor} {a : α} {r : List UInt8}, c.failure = none → L c.rest a r →
    ∃ c', d.run c = .ok a c' ∧ c'.rest = r

/-- A decoder that never yields. -/
abbrev Refuses (d : Decoder ε α) : Prop :=
  Yields d fun _ _ _ => False

namespace Yields

variable {d : Decoder ε α} {L L' : List UInt8 → α → List UInt8 → Prop}

theorem run (h : Yields d L) {c : Cursor} {a : α} {r : List UInt8} (hc : c.failure = none)
    (hl : L c.rest a r) : ∃ c', d.run c = .ok a c' ∧ c'.rest = r ∧ c'.failure = none := by
  obtain ⟨c', hr, hrest⟩ := h.complete hc hl
  exact ⟨c', hr, hrest, by rw [(h.sound hr).2, hc]⟩

theorem congr (h : Yields d L) (e : ∀ bs a r, L' bs a r ↔ L bs a r) : Yields d L' where
  sound hr := ⟨(e _ _ _).mpr (h.sound hr).1, (h.sound hr).2⟩
  complete hc hl := h.complete hc ((e _ _ _).mp hl)

end Yields

/-! ## Steps -/

/-- A composition succeeds if both parts do, one after the other. -/
theorem of_run_bind {d : Decoder ε α} {k : α → Decoder ε β} {c c'' : Cursor} {b : β}
    (h : (d >>= k).run c = .ok b c'') :
    ∃ a c', d.run c = .ok a c' ∧ (k a).run c' = .ok b c'' := by
  rw [run_bind] at h
  split at h
  · rename_i a c' hd
    exact ⟨a, c', hd, h⟩
  · simp at h

theorem yields_pure (a : α) : Yields (pure a : Decoder ε α) fun bs b r => b = a ∧ r = bs where
  sound h := by
    simp only [run_pure, Outcome.ok.injEq] at h
    obtain ⟨rfl, rfl⟩ := h
    exact ⟨⟨rfl, rfl⟩, rfl⟩
  complete := by
    rintro c b r - ⟨rfl, rfl⟩
    exact ⟨c, rfl, rfl⟩

theorem Yields.bind {d : Decoder ε α} {k : α → Decoder ε β}
    {L : List UInt8 → α → List UInt8 → Prop} {M : α → List UInt8 → β → List UInt8 → Prop}
    (hd : Yields d L) (hk : ∀ a, Yields (k a) (M a)) :
    Yields (d >>= k) fun bs b r => ∃ a m, L bs a m ∧ M a m b r where
  sound h := by
    obtain ⟨a, c₁, ha, hb⟩ := of_run_bind h
    obtain ⟨hl, hf⟩ := hd.sound ha
    obtain ⟨hm, hf'⟩ := (hk a).sound hb
    exact ⟨⟨a, _, hl, hm⟩, hf'.trans hf⟩
  complete hc := by
    rintro ⟨a, m, hl, hm⟩
    obtain ⟨c₁, ha, rfl, hc₁⟩ := hd.run hc hl
    obtain ⟨c₂, hb, hr⟩ := (hk a).complete hc₁ hm
    exact ⟨c₂, by rw [run_bind_ok ha, hb], hr⟩

/-- A value that is computed from one that was read. -/
theorem Yields.bind_pure {d : Decoder ε α} {L : List UInt8 → α → List UInt8 → Prop}
    (hd : Yields d L) {f : α → β} :
    Yields (d >>= fun a => pure (f a)) fun bs b r => ∃ a, b = f a ∧ L bs a r := by
  refine (hd.bind fun a => yields_pure (f a)).congr fun bs b r => ?_
  constructor
  · rintro ⟨a, rfl, hl⟩
    exact ⟨a, r, hl, rfl, rfl⟩
  · rintro ⟨a, m, hl, rfl, rfl⟩
    exact ⟨a, rfl, hl⟩

/-- What follows a step of which the bytes before it tell the value and the bytes after it. -/
theorem Yields.bind_eq {d : Decoder ε α} {k : α → Decoder ε β} {f : List UInt8 → α}
    {g : List UInt8 → List UInt8} {M : α → List UInt8 → β → List UInt8 → Prop}
    (hd : Yields d fun bs a r => a = f bs ∧ r = g bs) (hk : ∀ a, Yields (k a) (M a)) :
    Yields (d >>= k) fun bs b r => M (f bs) (g bs) b r := by
  refine (hd.bind hk).congr fun bs b r => ?_
  constructor
  · intro h
    exact ⟨_, _, ⟨rfl, rfl⟩, h⟩
  · rintro ⟨_, _, ⟨rfl, rfl⟩, h⟩
    exact h

/-- What is decided by a test. -/
theorem Yields.bind_bool {d : Decoder ε Bool} {k : Bool → Decoder ε β}
    {N : List UInt8 → Bool → List UInt8 → Prop} {F T : List UInt8 → β → List UInt8 → Prop}
    (hd : Yields d N) (hfalse : Yields (k false) F) (htrue : Yields (k true) T) :
    Yields (d >>= k) fun bs b r =>
      (∃ m, N bs false m ∧ F m b r) ∨ ∃ m, N bs true m ∧ T m b r := by
  refine (hd.bind (M := fun go m b r => (go = false ∧ F m b r) ∨ (go = true ∧ T m b r))
    fun go => ?_).congr fun bs b r => ?_
  · cases go with
    | false => exact hfalse.congr fun _ _ _ => by simp
    | true => exact htrue.congr fun _ _ _ => by simp
  · constructor
    · rintro (⟨m, hn, h⟩ | ⟨m, hn, h⟩)
      · exact ⟨false, m, hn, .inl ⟨rfl, h⟩⟩
      · exact ⟨true, m, hn, .inr ⟨rfl, h⟩⟩
    · rintro ⟨_, m, hn, ⟨rfl, h⟩ | ⟨rfl, h⟩⟩
      · exact .inl ⟨m, hn, h⟩
      · exact .inr ⟨m, hn, h⟩

theorem yields_peek :
    Yields (peek : Decoder ε (Option UInt8)) fun bs o r => o = bs.head? ∧ r = bs where
  sound {c c' a} h := by
    cases hr : c.rest with
    | cons b r =>
      rw [run_peek_cons hr, Outcome.ok.injEq] at h
      obtain ⟨rfl, rfl⟩ := h
      exact ⟨⟨rfl, hr⟩, rfl⟩
    | nil =>
      cases hf : c.failure with
      | none =>
        rw [run_peek_end hr hf, Outcome.ok.injEq] at h
        obtain ⟨rfl, rfl⟩ := h
        exact ⟨⟨rfl, hr⟩, hf⟩
      | some reason =>
        rw [run_peek_failure hr hf] at h
        simp at h
  complete {c a r} hc := by
    rintro ⟨rfl, rfl⟩
    cases hr : c.rest with
    | cons b r => exact ⟨_, run_peek_cons hr, hr⟩
    | nil => exact ⟨_, run_peek_end hr hc, hr⟩

theorem yields_eat : Yields (eat : Decoder ε Unit) fun bs _ r => r = bs.tail where
  sound {c c' _} h := by
    cases hr : c.rest with
    | nil =>
      simp only [eat, hr, Outcome.ok.injEq, true_and] at h
      rw [← h, hr]
      exact ⟨rfl, rfl⟩
    | cons b r =>
      rw [run_eat_cons hr, Outcome.ok.injEq] at h
      rw [← h.2]
      exact ⟨rfl, rfl⟩
  complete {c _ r} _ := by
    rintro rfl
    cases hr : c.rest with
    | nil => exact ⟨c, by simp [eat, hr], hr⟩
    | cons b r => exact ⟨_, run_eat_cons hr, rfl⟩

theorem yields_eat_bind {d : Decoder ε α} {L : List UInt8 → α → List UInt8 → Prop}
    (hd : Yields d L) : Yields (eat >>= fun _ => d) fun bs a r => L bs.tail a r :=
  (yields_eat.bind fun _ => hd).congr fun _ _ _ => by simp

theorem yields_next :
    Yields (next : Decoder ε (Option UInt8)) fun bs o r => o = bs.head? ∧ r = bs.tail :=
  yields_peek.bind_eq fun o => yields_eat_bind (yields_pure o)

/-! ## Refusals -/

theorem refuses_failAnywhere (cause : Cause ε) :
    Refuses (failAnywhere cause : Decoder ε α) where
  sound h := by simp [failAnywhere] at h
  complete _ h := h.elim

theorem refuses_failHere (cause : Cause ε) (back : Nat) :
    Refuses (failHere cause back : Decoder ε α) where
  sound h := by simp [failHere] at h
  complete _ h := h.elim

theorem refuses_failNext (cause : Cause ε) : Refuses (failNext cause : Decoder ε α) where
  sound h := by simp [failNext] at h
  complete _ h := h.elim

theorem refuses_failAfter (d : Decoder ε α) (cause : Option α → Cause ε) :
    Refuses (failAfter d cause : Decoder ε β) where
  sound {c c' _} h := by
    simp only [failAfter] at h
    split at h <;> cases h
  complete _ h := h.elim

theorem refuses_bind (d : Decoder ε α) {k : α → Decoder ε β} (hk : ∀ a, Refuses (k a)) :
    Refuses (d >>= k) where
  sound h := by
    obtain ⟨a, c₁, -, hb⟩ := of_run_bind h
    exact ((hk a).sound hb).1.elim
  complete _ h := h.elim

/-! ## Faults and containers -/

theorem Yields.placed {d : Decoder ε α} {L : List UInt8 → α → List UInt8 → Prop}
    (hd : Yields d L) : Yields (placed d) L where
  sound {c c' a} h := by
    simp only [Decoder.placed] at h
    split at h
    · rename_i a₁ c₁ hr
      rw [Outcome.ok.injEq] at h
      obtain ⟨rfl, rfl⟩ := h
      exact hd.sound hr
    · simp at h
  complete hc hl := by
    obtain ⟨c', hr, hrest⟩ := hd.complete hc hl
    exact ⟨c', by simp [Decoder.placed, hr], hrest⟩

theorem Yields.closing {d : Decoder ε α} {close : Decoder ε Unit}
    {L : List UInt8 → α → List UInt8 → Prop} {M : List UInt8 → Unit → List UInt8 → Prop}
    (hd : Yields d L) (hclose : Yields close M) :
    Yields (closing d close) fun bs a r => ∃ m, L bs a m ∧ M m () r where
  sound {c c' a} h := by
    simp only [Decoder.closing] at h
    split at h
    · rename_i a₁ c₁ hr
      split at h
      · rename_i u c₂ hr'
        rw [Outcome.ok.injEq] at h
        obtain ⟨rfl, rfl⟩ := h
        obtain ⟨hl, hf⟩ := hd.sound hr
        obtain ⟨hm, hf'⟩ := hclose.sound hr'
        exact ⟨⟨_, hl, hm⟩, hf'.trans hf⟩
      · simp at h
    · simp at h
  complete hc := by
    rintro ⟨m, hl, hm⟩
    obtain ⟨c₁, hr, rfl, hc₁⟩ := hd.run hc hl
    obtain ⟨c₂, hr', hrest⟩ := hclose.complete hc₁ hm
    exact ⟨c₂, by simp [Decoder.closing, hr, hr'], hrest⟩

/-! ## Loops -/

theorem iterateFrom_again {round : σ → Decoder ε (Round σ β)} {advances : Advances round}
    {s s' : σ} {c c' : Cursor} (h : (round s).run c = .ok (.again s') c') :
    iterateFrom round advances s c = iterateFrom round advances s' c' := by
  rw [iterateFrom]
  split <;> simp_all

theorem iterateFrom_done {round : σ → Decoder ε (Round σ β)} {advances : Advances round}
    {s : σ} {c c' : Cursor} {b : β} (h : (round s).run c = .ok (.done b) c') :
    iterateFrom round advances s c = .ok b c' := by
  rw [iterateFrom]
  split <;> simp_all

theorem iterateFrom_fail {round : σ → Decoder ε (Round σ β)} {advances : Advances round}
    {s : σ} {c c' : Cursor} {f : Fault ε} (h : (round s).run c = .fail f c') :
    iterateFrom round advances s c = .fail f c' := by
  rw [iterateFrom]
  split <;> simp_all

/-- A loop yields what a relation says that is unfolded by one round. -/
theorem Yields.iterate {round : σ → Decoder ε (Round σ β)} {advances : Advances round}
    {R : σ → List UInt8 → Round σ β → List UInt8 → Prop}
    {L : σ → List UInt8 → β → List UInt8 → Prop} (hr : ∀ s, Yields (round s) (R s))
    (unfold : ∀ s bs b r, L s bs b r ↔
      R s bs (.done b) r ∨ ∃ s' m, R s bs (.again s') m ∧ L s' m b r) (s : σ) :
    Yields (Decoder.iterate round advances s) (L s) where
  sound {c c' b} h := by
    change iterateFrom round advances s c = _ at h
    fun_induction iterateFrom round advances s c with
    | case1 s c s' c₁ hs ih =>
      obtain ⟨hl, hf⟩ := (hr s).sound hs
      obtain ⟨hl', hf'⟩ := ih h
      exact ⟨(unfold _ _ _ _).mpr (.inr ⟨s', _, hl, hl'⟩), hf'.trans hf⟩
    | case2 s c b₁ c₁ hs =>
      rw [Outcome.ok.injEq] at h
      obtain ⟨rfl, rfl⟩ := h
      obtain ⟨hl, hf⟩ := (hr s).sound hs
      exact ⟨(unfold _ _ _ _).mpr (.inl hl), hf⟩
    | case3 => simp at h
  complete {c b r} hc hl := by
    change ∃ c', iterateFrom round advances s c = _ ∧ _
    -- The bytes that are unread bound the rounds, as they do for the loop itself.
    induction hn : c.unread.length using Nat.strongRecOn generalizing s c with
    | ind n ih =>
      rcases (unfold _ _ _ _).mp hl with hdone | ⟨s', m, hagain, hl'⟩
      · obtain ⟨c', hrun, hrest⟩ := (hr s).complete hc hdone
        exact ⟨c', iterateFrom_done hrun, hrest⟩
      · obtain ⟨c₁, hrun, rfl, hc₁⟩ := (hr s).run hc hagain
        have hlt := advances _ _ _ _ hrun
        obtain ⟨c', hrun', hrest⟩ := ih _ (by omega) s' hc₁ hl' rfl
        exact ⟨c', (iterateFrom_again hrun).trans hrun', hrest⟩

/-! ## Sweeps

Each turn of a sweep has a relation of its own. `graph` names it without saying what it is, so that
one round has a relation before the turns are looked at.
-/

/-- What a decoder yields on the streams that do not break off. -/
def graph (d : Decoder ε α) (bs : List UInt8) (a : α) (r : List UInt8) : Prop :=
  ∃ c c', c.rest = bs ∧ c.failure = none ∧ d.run c = .ok a c' ∧ c'.rest = r

theorem Yields.graph_iff {d : Decoder ε α} {L : List UInt8 → α → List UInt8 → Prop}
    (h : Yields d L) {bs : List UInt8} {a : α} {r : List UInt8} : d.graph bs a r ↔ L bs a r := by
  constructor
  · rintro ⟨c, c', rfl, -, hr, rfl⟩
    exact (h.sound hr).1
  · intro hl
    obtain ⟨c', hr, hrest⟩ := h.complete (c := Cursor.start { bytes := bs }) rfl hl
    exact ⟨_, c', rfl, rfl, hr, hrest⟩

theorem Yields.graph {d : Decoder ε α} {L : List UInt8 → α → List UInt8 → Prop}
    (h : Yields d L) : Yields d d.graph :=
  h.congr fun _ _ _ => h.graph_iff

/-- What a turn makes of the bytes `bs`, of which it was made for the first. -/
def Turn.Leads (bs : List UInt8) (o : Round σ β) (r : List UInt8) : Turn ε σ β → Prop
  | .take d => ∃ s, o = .again s ∧ d.graph bs.tail s r
  | .leave d => ∃ x, o = .done x ∧ d.graph bs x r

/-- At the byte `b` and in state `s`, a turn does what `L` says of the bytes from `b` on. -/
inductive Turn.Follows (L : σ → List UInt8 → β → List UInt8 → Prop) (s : σ) (b : UInt8) :
    Turn ε σ β → Prop
  | take {d : Decoder ε σ} {D : List UInt8 → σ → List UInt8 → Prop} (hd : Yields d D)
    (h : ∀ t x r, L s (b :: t) x r ↔ ∃ s' m, D t s' m ∧ L s' m x r) : Follows L s b (.take d)
  | leave {d : Decoder ε β} {D : List UInt8 → β → List UInt8 → Prop} (hd : Yields d D)
    (h : ∀ t x r, L s (b :: t) x r ↔ D (b :: t) x r) : Follows L s b (.leave d)

/-- One round of a sweep. -/
theorem yields_sweepRound {atEnd : σ → Decoder ε β} {turn : σ → UInt8 → Turn ε σ β}
    {E : List UInt8 → β → List UInt8 → Prop} {L : σ → List UInt8 → β → List UInt8 → Prop} {s : σ}
    (hend : Yields (atEnd s) E) (hturn : ∀ b, (turn s b).Follows L s b) :
    Yields (sweepRound atEnd turn s) fun bs o r =>
      (bs = [] ∧ ∃ x, o = .done x ∧ E [] x r) ∨
        ∃ b, bs.head? = some b ∧ (turn s b).Leads bs o r := by
  refine (yields_peek.bind_eq (M := fun o m y r => (o = none ∧ ∃ x, y = .done x ∧ E m x r) ∨
    ∃ b, o = some b ∧ (turn s b).Leads m y r) fun o => ?_).congr ?_
  · cases o with
    | none => exact hend.bind_pure.congr fun _ _ _ => by simp
    | some b =>
      suffices h : Yields (match turn s b with
          | .take d => do
            eat
            return .again (← d)
          | .leave d => return .done (← d) : Decoder ε (Round σ β))
          fun m y r => (turn s b).Leads m y r from
        h.congr fun _ _ _ => by simp
      have hb := hturn b
      generalize turn s b = step at hb ⊢
      cases hb with
      | take hd h => exact yields_eat_bind hd.graph.bind_pure
      | leave hd h => exact hd.graph.bind_pure
  · intro bs y r
    cases bs <;> simp

/-- A sweep yields what a relation says that each turn follows. -/
theorem yields_sweep {atEnd : σ → Decoder ε β} {turn : σ → UInt8 → Turn ε σ β}
    {E L : σ → List UInt8 → β → List UInt8 → Prop} (hend : ∀ s, Yields (atEnd s) (E s))
    (hnil : ∀ s x r, L s [] x r ↔ E s [] x r) (hturn : ∀ s b, (turn s b).Follows L s b)
    (s : σ) : Yields (sweep atEnd turn s) (L s) := by
  refine Yields.iterate (fun s => yields_sweepRound (hend s) (hturn s)) ?_ s
  intro s bs x r
  cases bs with
  | nil => simp [hnil]
  | cons b t =>
    simp only [List.head?_cons, Option.some.injEq, reduceCtorEq, false_and, false_or,
      exists_eq_left']
    have hb := hturn s b
    generalize turn s b = step at hb ⊢
    cases hb with
    | take hd h => simp [h, Turn.Leads, hd.graph_iff]
    | leave hd h => simp [h, Turn.Leads, hd.graph_iff]

end Findings.Json.Decoder
