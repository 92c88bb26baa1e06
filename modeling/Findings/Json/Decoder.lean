import Findings.Json.Fault
import Findings.Json.Reader

/-!
# Decoders

A decoder reads from a cursor and either yields a value or fails; in both cases it says where the
cursor then stands, because a decoder that closes a container goes on after a fault.

## Why loops end

A decoder uses up bytes from the front and counts them, and gives none back (`Decoder.forward`);
`>>=` keeps that. There is one loop, `Decoder.iterate`, and it asks for a proof that each round that
is followed by another has used up a byte, so the bytes that are unread bound it. The two loops that
the modules use are made from it and bring that proof along: `sweep` takes one byte a round, and
`whileNext` is led by a decoder that uses up a byte whenever it asks for more.
-/

namespace Findings.Json

/-! ## The cursor -/

/-- What a decoder has not used up yet. -/
structure Cursor where
  /-- How many bytes are used up. -/
  offset : Nat
  rest : List UInt8
  /-- Whether what comes next, a byte or the end, has been looked at. -/
  looked : Bool
  /-- How the stream breaks off after its last byte, if it does. -/
  failure : Option String
  /-- What is heard of the stream after that. -/
  later : List Heard
  deriving DecidableEq

namespace Cursor

/-- The cursor before what is heard of a stream, with `offset` bytes used up. -/
def before (offset : Nat) (s : Stream) : Cursor :=
  { offset, rest := s.bytes, looked := false, failure := s.failure, later := s.later }

/-- The cursor before a document. -/
def start (s : Stream) : Cursor :=
  before 0 s

/-- The cursor after the stream has broken off, for those who ask on. -/
def resume (c : Cursor) : Cursor :=
  before c.offset (.ofHeard c.later)

/-- All bytes that may still be used up. -/
def unread (c : Cursor) : List UInt8 :=
  c.rest ++ c.later.filterMap Heard.byte?

@[simp] theorem offset_start (s : Stream) : (start s).offset = 0 := rfl

@[simp] theorem unread_start (s : Stream) : (start s).unread = s.delivered := rfl

theorem unread_of_later_nil {c : Cursor} (h : c.later = []) : c.unread = c.rest := by
  rw [unread, h, List.filterMap_nil, List.append_nil]

theorem unread_of_rest_cons {c : Cursor} {b : UInt8} {r : List UInt8} (h : c.rest = b :: r) :
    c.unread = b :: { c with offset := c.offset + 1, rest := r, looked := false }.unread := by
  rw [unread, h]
  rfl

/-- The place before what comes next. A byte that was looked at is pulled. -/
def here (c : Cursor) : Place :=
  { offset := c.offset, ahead := c.looked && !c.rest.isEmpty }

/-- The place of the byte that comes next, or the end. -/
def next (c : Cursor) : Place :=
  { offset := if c.rest.isEmpty then c.offset else c.offset + 1, ahead := false }

/-- A later cursor is reached by using up bytes from the front. -/
structure Reaches (c c' : Cursor) : Prop where
  suffix : c'.unread <:+ c.unread
  total : c'.offset + c'.unread.length = c.offset + c.unread.length
  later : c'.later <:+ c.later

namespace Reaches

theorem refl (c : Cursor) : c.Reaches c :=
  { suffix := List.suffix_refl _, total := rfl, later := List.suffix_refl _ }

theorem trans {c c' c'' : Cursor} (h : c.Reaches c') (h' : c'.Reaches c'') : c.Reaches c'' :=
  { suffix := h'.suffix.trans h.suffix
    total := h'.total.trans h.total
    later := h'.later.trans h.later }

theorem length_le {c c' : Cursor} (h : c.Reaches c') : c'.unread.length ≤ c.unread.length :=
  h.suffix.length_le

/-- At a failure no byte is used up. -/
theorem resume {c : Cursor} (h : c.rest = []) : c.Reaches c.resume := by
  have hunread : c.resume.unread = c.unread := by
    rw [unread, unread, h]
    exact Stream.delivered_ofHeard c.later
  exact
    { suffix := hunread ▸ List.suffix_refl _
      total := hunread ▸ rfl
      later := Stream.later_ofHeard_suffix c.later }

end Reaches

end Cursor

/-! ## Decoders and their composition -/

/-- What a decoder comes to. -/
inductive Outcome (ε α : Type) where
  | ok (value : α) (cursor : Cursor)
  | fail (fault : Fault ε) (cursor : Cursor)

namespace Outcome

/-- Where the cursor stands afterwards. -/
def cursor : Outcome ε α → Cursor
  | ok _ c => c
  | fail _ c => c

@[simp] theorem cursor_ok (a : α) (c : Cursor) : (ok a c : Outcome ε α).cursor = c := rfl

@[simp] theorem cursor_fail (f : Fault ε) (c : Cursor) : (fail f c : Outcome ε α).cursor = c := rfl

end Outcome

/-- A function from cursors to outcomes that only goes forward. -/
structure Decoder (ε α : Type) where
  run : Cursor → Outcome ε α
  forward : ∀ c : Cursor, c.Reaches (run c).cursor

namespace Decoder

variable {ε α β σ : Type}

theorem reaches_of_ok {d : Decoder ε α} {c c' : Cursor} {a : α} (h : d.run c = .ok a c') :
    c.Reaches c' := by
  simpa [h] using d.forward c

theorem reaches_of_fail {d : Decoder ε α} {c c' : Cursor} {f : Fault ε}
    (h : d.run c = .fail f c') : c.Reaches c' := by
  simpa [h] using d.forward c

instance : Monad (Decoder ε) where
  pure a := { run := fun c => .ok a c, forward := fun c => .refl c }
  bind d k :=
    { run := fun c =>
        match d.run c with
        | .ok a c' => (k a).run c'
        | .fail f c' => .fail f c'
      forward := fun c => by
        split
        · rename_i a c' h
          exact (reaches_of_ok h).trans ((k a).forward c')
        · rename_i f c' h
          exact reaches_of_fail h }

/-- A decoder is what it does. -/
theorem ext_run {d d' : Decoder ε α} (h : ∀ c, d.run c = d'.run c) : d = d' := by
  obtain ⟨run, _⟩ := d
  obtain ⟨run', _⟩ := d'
  obtain rfl : run = run' := funext h
  rfl

@[simp] theorem run_pure (a : α) (c : Cursor) : (pure a : Decoder ε α).run c = .ok a c := rfl

theorem run_bind (d : Decoder ε α) (k : α → Decoder ε β) (c : Cursor) :
    (d >>= k).run c =
      match d.run c with
      | .ok a c' => (k a).run c'
      | .fail f c' => .fail f c' := rfl

theorem run_bind_ok {d : Decoder ε α} {k : α → Decoder ε β} {c c' : Cursor} {a : α}
    (h : d.run c = .ok a c') : (d >>= k).run c = (k a).run c' := by
  rw [run_bind, h]

theorem run_bind_fail {d : Decoder ε α} {k : α → Decoder ε β} {c c' : Cursor} {f : Fault ε}
    (h : d.run c = .fail f c') : (d >>= k).run c = .fail f c' := by
  rw [run_bind, h]

instance : LawfulMonad (Decoder ε) :=
  LawfulMonad.mk' (Decoder ε)
    (by
      intro α d
      refine ext_run fun c => ?_
      show (d >>= fun a => pure (id a)).run c = d.run c
      rw [run_bind]
      cases d.run c <;> rfl)
    (by
      intro α β a k
      rfl)
    (by
      intro α β γ d k k'
      refine ext_run fun c => ?_
      simp only [run_bind]
      cases d.run c <;> rfl)

/-! ## Bytes -/

/-- Looks at the next byte, if there is one, and leaves it. At the end a stream that breaks off does
so. -/
def peek : Decoder ε (Option UInt8) where
  run c :=
    match c.rest, c.failure with
    | b :: _, _ => .ok (some b) { c with looked := true }
    | [], none => .ok none { c with looked := true }
    | [], some reason => .fail { cause := .unreadable reason, place := none } c.resume
  forward c := by
    split
    · exact { suffix := List.suffix_refl _, total := rfl, later := List.suffix_refl _ }
    · exact { suffix := List.suffix_refl _, total := rfl, later := List.suffix_refl _ }
    · rename_i hr _
      exact .resume hr

/-- Uses up the next byte, if there is one. -/
def eat : Decoder ε Unit where
  run c :=
    match c.rest with
    | [] => .ok () c
    | _ :: r => .ok () { c with offset := c.offset + 1, rest := r, looked := false }
  forward c := by
    split
    · exact .refl c
    · rename_i b r h
      refine { suffix := ?_, total := ?_, later := List.suffix_refl _ }
      · rw [Cursor.unread_of_rest_cons h]
        exact List.suffix_cons _ _
      · rw [Cursor.unread_of_rest_cons h, List.length_cons]
        exact Nat.add_right_comm _ _ _

theorem run_peek_cons {c : Cursor} {b : UInt8} {r : List UInt8} (h : c.rest = b :: r) :
    (peek : Decoder ε (Option UInt8)).run c = .ok (some b) { c with looked := true } := by
  simp [peek, h]

theorem run_peek_end {c : Cursor} (h : c.rest = []) (hf : c.failure = none) :
    (peek : Decoder ε (Option UInt8)).run c = .ok none { c with looked := true } := by
  simp [peek, h, hf]

theorem run_peek_failure {c : Cursor} {reason : String} (h : c.rest = [])
    (hf : c.failure = some reason) :
    (peek : Decoder ε (Option UInt8)).run c
      = .fail { cause := .unreadable reason, place := none } c.resume := by
  simp [peek, h, hf]

theorem run_eat_cons {c : Cursor} {b : UInt8} {r : List UInt8} (h : c.rest = b :: r) :
    (eat : Decoder ε Unit).run c
      = .ok () { c with offset := c.offset + 1, rest := r, looked := false } := by
  simp [eat, h]

/-- Looks at the next byte and uses it up. -/
def next : Decoder ε (Option UInt8) := do
  let b ← peek
  eat
  return b

/-! ## Faults -/

/-- Fails without a place. -/
def failAnywhere (cause : Cause ε) : Decoder ε α where
  run c := .fail { cause, place := none } c
  forward c := .refl c

/-- Fails before what comes next. -/
def failHere (cause : Cause ε) (back : Nat := 0) : Decoder ε α where
  run c := .fail { cause, place := some { c.here with back } } c
  forward c := .refl c

/-- Fails because of what comes next. -/
def failNext (cause : Cause ε) : Decoder ε α where
  run c := .fail { cause, place := some c.next } c
  forward c := .refl c

/-- A fault of `d` that has no place gets the one at which `d` stopped. -/
def placed (d : Decoder ε α) : Decoder ε α where
  run c :=
    match d.run c with
    | .ok a c' => .ok a c'
    | .fail f c' => .fail (f.placeAt c'.here) c'
  forward c := by
    split
    · rename_i a c' h
      exact reaches_of_ok h
    · rename_i f c' h
      exact reaches_of_fail h

/-- Reads what is in a container with `d` and then its end with `close`. The end is looked for even
after a fault; of two faults the first is told. -/
def closing (d : Decoder ε α) (close : Decoder ε Unit) : Decoder ε α where
  run c :=
    match d.run c with
    | .ok a c' =>
      match close.run c' with
      | .ok _ c'' => .ok a c''
      | .fail f c'' => .fail f c''
    | .fail f c' => .fail f (close.run c').cursor
  forward c := by
    split
    · rename_i a c' h
      refine (reaches_of_ok h).trans ?_
      split
      · rename_i h'
        exact reaches_of_ok h'
      · rename_i h'
        exact reaches_of_fail h'
    · rename_i f c' h
      exact (reaches_of_fail h).trans (close.forward c')

/-- Runs `d` and then fails because of what comes next. The cause is found from what `d` yields;
that `d` fails itself is not told, but then nothing that comes next has been seen. -/
def failAfter (d : Decoder ε α) (cause : Option α → Cause ε) : Decoder ε β where
  run c :=
    match d.run c with
    | .ok a c' => (failNext (cause (some a))).run c'
    | .fail _ c' => (failHere (cause none)).run c'
  forward c := by
    split
    · rename_i a c' h
      exact reaches_of_ok h
    · rename_i f c' h
      exact reaches_of_fail h

/-! ## Loops -/

/-- Whether a loop goes round again. -/
inductive Round (σ β : Type) where
  | again (state : σ)
  | done (result : β)

/-- Every round that is followed by another uses up a byte. -/
def Advances (round : σ → Decoder ε (Round σ β)) : Prop :=
  ∀ s s' c c', (round s).run c = .ok (.again s') c' → c'.unread.length < c.unread.length

/-- The outcome of going round from `s` until the loop is done. -/
def iterateFrom (round : σ → Decoder ε (Round σ β)) (advances : Advances round) (s : σ)
    (c : Cursor) : Outcome ε β :=
  match _h : (round s).run c with
  | .ok (.again s') c' => iterateFrom round advances s' c'
  | .ok (.done b) c' => .ok b c'
  | .fail f c' => .fail f c'
termination_by c.unread.length
decreasing_by exact advances _ _ _ _ _h

theorem reaches_iterateFrom (round : σ → Decoder ε (Round σ β)) (advances : Advances round)
    (s : σ) (c : Cursor) : c.Reaches (iterateFrom round advances s c).cursor := by
  fun_induction iterateFrom round advances s c with
  | case1 s c s' c' h ih => exact (reaches_of_ok h).trans ih
  | case2 s c b c' h => exact reaches_of_ok h
  | case3 s c f c' h => exact reaches_of_fail h

/-- What holds of whatever a last round yields holds of what the loop yields. -/
theorem of_iterateFrom_ok {round : σ → Decoder ε (Round σ β)} {advances : Advances round}
    {P : β → Cursor → Prop}
    (last : ∀ s c b c', (round s).run c = .ok (.done b) c' → P b c') {s : σ} {c c' : Cursor} {b : β}
    (h : iterateFrom round advances s c = .ok b c') : P b c' := by
  fun_induction iterateFrom round advances s c with
  | case1 s c s' c₁ _ ih => exact ih h
  | case2 s c b₁ c₁ hr =>
    simp only [Outcome.ok.injEq] at h
    rw [← h.1, ← h.2]
    exact last _ _ _ _ hr
  | case3 => simp at h

/-- Goes round from `s` until the loop is done. -/
def iterate (round : σ → Decoder ε (Round σ β)) (advances : Advances round) (s : σ) :
    Decoder ε β where
  run := iterateFrom round advances s
  forward := reaches_iterateFrom round advances s

/-- What a sweep does at a byte. -/
inductive Turn (ε σ β : Type) where
  /-- Use the byte up, decode on, and look at the next one. -/
  | take (decode : Decoder ε σ)
  /-- Leave the byte, and be done with what `decode` yields. -/
  | leave (decode : Decoder ε β)

/-- One round of a sweep. -/
def sweepRound (atEnd : σ → Decoder ε β) (turn : σ → UInt8 → Turn ε σ β) (s : σ) :
    Decoder ε (Round σ β) := do
  match ← peek with
  | none => return .done (← atEnd s)
  | some b =>
    match turn s b with
    | .take d => do
      eat
      return .again (← d)
    | .leave d => return .done (← d)

/-- A decoder never goes round again if it only reports being done. -/
theorem run_done_ne_again (d : Decoder ε β) (c c' : Cursor) (s : σ) :
    (d >>= fun b => pure (Round.done b) : Decoder ε (Round σ β)).run c ≠ .ok (.again s) c' := by
  rw [run_bind]
  split <;> simp

theorem advances_sweepRound (atEnd : σ → Decoder ε β) (turn : σ → UInt8 → Turn ε σ β) :
    Advances (sweepRound atEnd turn) := by
  intro s s' c c' h
  unfold sweepRound at h
  rw [run_bind] at h
  cases hr : c.rest with
  | nil =>
    cases hf : c.failure with
    | none =>
      rw [run_peek_end hr hf] at h
      exact absurd h (run_done_ne_again _ _ _ _)
    | some reason =>
      rw [run_peek_failure hr hf] at h
      simp at h
  | cons b r =>
    rw [run_peek_cons hr] at h
    simp only at h
    split at h
    · rename_i d _
      rw [run_bind_ok (run_eat_cons (c := { c with looked := true }) hr), run_bind] at h
      split at h
      · rename_i a c₁ hd
        simp only [run_pure, Outcome.ok.injEq] at h
        have := (reaches_of_ok hd).length_le
        rw [← h.2]
        refine Nat.lt_of_le_of_lt this ?_
        rw [Cursor.unread_of_rest_cons hr]
        exact Nat.lt_succ_self _
      · simp at h
    · exact absurd h (run_done_ne_again _ _ _ _)

/-- Goes over the bytes one by one from state `s`. -/
def sweep (atEnd : σ → Decoder ε β) (turn : σ → UInt8 → Turn ε σ β) (s : σ) : Decoder ε β :=
  iterate (sweepRound atEnd turn) (advances_sweepRound atEnd turn) s

/-- A decoder that uses up a byte whenever it asks for more. -/
def Leads (more : Decoder ε Bool) : Prop :=
  ∀ c c', more.run c = .ok true c' → c'.unread.length < c.unread.length

/-- One round of a loop that `more` leads. -/
def whileRound (more : Decoder ε Bool) (body : σ → Decoder ε σ) (s : σ) :
    Decoder ε (Round σ σ) := do
  if ← more then return .again (← body s)
  else return .done s

theorem advances_whileRound {more : Decoder ε Bool} (leads : Leads more)
    (body : σ → Decoder ε σ) : Advances (whileRound more body) := by
  intro s s' c c' h
  unfold whileRound at h
  rw [run_bind] at h
  split at h
  · rename_i b c₁ hm
    cases b with
    | false => simp at h
    | true =>
      simp only [if_true, run_bind] at h
      split at h
      · rename_i a c₂ hd
        simp only [run_pure, Outcome.ok.injEq] at h
        rw [← h.2]
        exact Nat.lt_of_le_of_lt (reaches_of_ok hd).length_le (leads _ _ hm)
      · simp at h
  · simp at h

/-- Runs `body` as long as `more` asks for it. -/
def whileNext (more : Decoder ε Bool) (leads : Leads more) (body : σ → Decoder ε σ) (s : σ) :
    Decoder ε σ :=
  iterate (whileRound more body) (advances_whileRound leads body) s

end Decoder

end Findings.Json
