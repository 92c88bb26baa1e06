import Findings.Proofs.Skipped

/-!
# What is passed over is a value

The machine that passes over a value leaves what follows a value of the grammar (`reads_skip`).
`Rest` says of each state what texts may be to come, with a list of unfinished containers in it; the
machine never leaves it, and gets through all of it.
-/

namespace Findings.Json

/-! ## The texts that are to come -/

/-- An item of a container of values that nobody asks for. -/
def ItemText : Bracket → List UInt8 → Prop
  | .square, x => IsValue x
  | .curly, x => ∃ e, LooseText e.1 ∧ IsValue e.2 ∧ EntryText e x

/-- The rest of the open containers after an item of the innermost one. -/
def Tail : List Bracket → List UInt8 → List UInt8 → Prop
  | [], m, r => r = m
  | top :: below, m, r => ∃ xs u w m', (∀ y ∈ xs, ItemText top y) ∧ MoreItems xs u ∧ Blank w ∧
      m = u ++ (w ++ top.close :: m') ∧ Tail below m' r

/-- What may be to come in a state of the machine. -/
def Rest : Option Skipping → List UInt8 → List UInt8 → Prop
  | none, bs, r => r = bs
  | some (.value brackets), bs, r => ∃ w x m, Blank w ∧ IsValue x ∧ bs = w ++ (x ++ m) ∧
      Tail brackets m r
  | some (.opened top below), bs, r => ∃ w xs u w' m, Blank w ∧ (∀ y ∈ xs, ItemText top y) ∧
      Items xs u ∧ Blank w' ∧ bs = w ++ (u ++ (w' ++ top.close :: m)) ∧ Tail below m r
  | some (.key below), bs, r => ∃ w x m, Blank w ∧ ItemText .curly x ∧ bs = w ++ (x ++ m) ∧
      Tail (.curly :: below) m r
  | some (.after top below), bs, r => Tail (top :: below) bs r

theorem rest_resume {brackets : List Bracket} {m r : List UInt8} :
    Rest (resume brackets) m r ↔ Tail brackets m r := by
  cases brackets with
  | nil => rfl
  | cons top below => rfl

/-- A container of such items is a value. -/
theorem isValue_enclosed {top : Bracket} {xs : List (List UInt8)} {x : List UInt8}
    (hxs : ∀ y ∈ xs, ItemText top y) (h : Enclosed top.first top.close xs x) : IsValue x := by
  cases top with
  | square => exact .sequence hxs h
  | curly =>
    have hes : ∃ es : List (List UInt8 × List UInt8), (∀ e ∈ es, LooseText e.1) ∧
        (∀ e ∈ es, IsValue e.2) ∧ List.Forall₂ EntryText es xs := by
      clear h
      induction xs with
      | nil => exact ⟨[], by simp, by simp, .nil⟩
      | cons y xs ih =>
        obtain ⟨e, hl, hv, he⟩ := hxs y List.mem_cons_self
        obtain ⟨es, hls, hvs, hes⟩ := ih fun z hz => hxs z (List.mem_cons_of_mem _ hz)
        exact ⟨e :: es, List.forall_mem_cons.mpr ⟨hl, hls⟩, List.forall_mem_cons.mpr ⟨hv, hvs⟩,
          .cons he hes⟩
    obtain ⟨es, hls, hvs, hes⟩ := hes
    exact .object hls hvs ⟨xs, hes, h⟩

theorem Scalar.isValue {b : UInt8} {t m : List UInt8} (h : Scalar b t m) :
    ∃ x, IsValue x ∧ b :: t = x ++ m := by
  unfold Scalar at h
  split at h
  · rename_i hb
    rw [h, hb]
    exact ⟨_, .null, rfl⟩
  split at h
  · rename_i hb
    rw [h, hb]
    exact ⟨_, .bool true, rfl⟩
  split at h
  · rename_i hb
    rw [h, hb]
    exact ⟨_, .bool false, rfl⟩
  split at h
  · obtain ⟨n, x, hx, rfl, -⟩ := h
    exact ⟨_, .number hx, rfl⟩
  split at h
  · rename_i hb
    obtain ⟨l, hl, rfl⟩ := h
    refine ⟨_, .text hl, ?_⟩
    rw [hb, quote]
    simp
  · exact h.elim

theorem tail_blank {top : Bracket} {below : List Bracket} {b : UInt8} {t r : List UInt8}
    (hb : isBlank b = true) (h : Tail (top :: below) t r) : Tail (top :: below) (b :: t) r := by
  obtain ⟨xs, u, w, m, hxs, hu, hw, rfl, h⟩ := h
  cases hu with
  | nil => exact ⟨[], [], b :: w, m, hxs, .nil, hw.cons hb, rfl, h⟩
  | cons hv hv' hu => exact ⟨_, _, w, m, hxs, .cons (hv.cons hb) hv' hu, hw, rfl, h⟩

/-- A first item and the rest of its container. -/
theorem rest_opened {top : Bracket} {below : List Bracket} {w x m r : List UInt8} (hw : Blank w)
    (hx : ItemText top x) (h : Tail (top :: below) m r) :
    Rest (some (.opened top below)) (w ++ (x ++ m)) r := by
  obtain ⟨xs, u, w', m', hxs, hu, hw', rfl, h⟩ := h
  refine ⟨w, x :: xs, x ++ u, w', m', hw, List.forall_mem_cons.mpr ⟨hx, hxs⟩, .cons hu, hw', ?_, h⟩
  rw [List.append_assoc]

/-- A further item and the rest of its container. -/
theorem tail_more {top : Bracket} {below : List Bracket} {w x m r : List UInt8} (hw : Blank w)
    (hx : ItemText top x) (h : Tail (top :: below) m r) :
    Tail (top :: below) (','.toUInt8 :: (w ++ (x ++ m))) r := by
  obtain ⟨xs, u, w', m', hxs, hu, hw', rfl, h⟩ := h
  refine ⟨x :: xs, _, w', m', List.forall_mem_cons.mpr ⟨hx, hxs⟩, .cons .nil hw hu, hw', ?_, h⟩
  simp

/-- What the machine leaves is what remains of the texts that are to come. -/
theorem Skips.sound {s : Option Skipping} {bs r : List UInt8} (h : Skips s bs r) :
    Rest s bs r := by
  induction h with
  | done => exact rfl
  | @blank s b t r hb _ ih =>
    cases s with
    | value brackets =>
      obtain ⟨w, x, m, hw, hx, rfl, h⟩ := ih
      exact ⟨b :: w, x, m, hw.cons hb, hx, rfl, h⟩
    | opened top below =>
      obtain ⟨w, xs, u, w', m, hw, hxs, hu, hw', rfl, h⟩ := ih
      exact ⟨b :: w, xs, u, w', m, hw.cons hb, hxs, hu, hw', rfl, h⟩
    | key below =>
      obtain ⟨w, x, m, hw, hx, rfl, h⟩ := ih
      exact ⟨b :: w, x, m, hw.cons hb, hx, rfl, h⟩
    | after top below => exact tail_blank hb ih
  | scalar hx _ ih =>
    obtain ⟨x, hv, he⟩ := hx.isValue
    exact ⟨[], x, _, .nil, hv, he, rest_resume.mp ih⟩
  | @enter top brackets t r _ ih =>
    obtain ⟨w, xs, u, w', m, hw, hxs, hu, hw', rfl, h⟩ := ih
    refine ⟨[], _, m, .nil, isValue_enclosed hxs ⟨w, u, w', hw, hu, hw', rfl⟩, ?_, h⟩
    simp
  | empty _ ih => exact ⟨[], [], [], [], _, .nil, by simp, .nil, .nil, rfl, rest_resume.mp ih⟩
  | element _ _ _ ih =>
    obtain ⟨w, x, m, hw, hx, he, h⟩ := ih
    rw [he]
    exact rest_opened hw hx h
  | entry _ ih =>
    obtain ⟨w, x, m, hw, hx, he, h⟩ := ih
    rw [he]
    exact rest_opened hw hx h
  | @key below l w t r hl hw _ ih =>
    obtain ⟨w', x, m, hw', hx, rfl, h⟩ := ih
    refine ⟨[], quote l ++ (w ++ ':'.toUInt8 :: (w' ++ x)), m, .nil,
      ⟨(l, x), hl, hx, w, w', hw, hw', rfl⟩, ?_, h⟩
    simp [quote]
  | last _ ih => exact ⟨[], [], [], _, by simp, .nil, .nil, rfl, rest_resume.mp ih⟩
  | nextElement _ ih =>
    obtain ⟨w, x, m, hw, hx, rfl, h⟩ := ih
    exact tail_more hw hx h
  | nextEntry _ ih =>
    obtain ⟨w, x, m, hw, hx, rfl, h⟩ := ih
    exact tail_more hw hx h

/-! ## The machine gets through -/

theorem NumeralText.begins {n : Numeral} {x : List UInt8} (h : NumeralText n x) :
    ∃ b t, x = b :: t ∧ beginsNumeral b = true := by
  obtain ⟨w, f, e, hw, -, -, rfl⟩ := h
  obtain ⟨d, t, hd, rfl⟩ := hw.eq_cons
  cases n.negative with
  | true => exact ⟨_, _, rfl, by decide⟩
  | false => exact ⟨_, _, rfl, by simp [beginsNumeral, isDigit_digitByte hd]⟩

/-- What begins a numeral begins no word. -/
theorem ne_of_beginsNumeral {b : UInt8} (h : beginsNumeral b = true) :
    b ≠ 'n'.toUInt8 ∧ b ≠ 't'.toUInt8 ∧ b ≠ 'f'.toUInt8 := by
  have all : ∀ b : UInt8, beginsNumeral b = true →
      b ≠ 'n'.toUInt8 ∧ b ≠ 't'.toUInt8 ∧ b ≠ 'f'.toUInt8 :=
    forall_byte (by decide +kernel)
  exact all b h

theorem IsValue.starts {x : List UInt8} (h : IsValue x) : Starts x := by
  cases h with
  | null => exact nullText_starts
  | bool b => exact boolText_starts b
  | number h =>
    obtain ⟨b, t, rfl, hb⟩ := h.begins
    exact starts_of_beginsNumeral hb t
  | text h => exact ⟨_, _, rfl, by decide, by decide⟩
  | sequence hxs h =>
    obtain ⟨w, u, w', -, -, -, rfl⟩ := h
    exact ⟨_, _, rfl, by decide, by decide⟩
  | object hkeys hes h =>
    obtain ⟨xs, -, w, u, w', -, -, -, rfl⟩ := h
    exact ⟨_, _, rfl, by decide, by decide⟩

theorem Skips.blank_append {s : Skipping} {w t r : List UInt8} (hw : Blank w)
    (h : Skips (some s) t r) : Skips (some s) (w ++ t) r := by
  induction w with
  | nil => exact h
  | cons b w ih => exact .blank hw.head (ih hw.tail)

/-- The state in which the machine is before an item. -/
def itemState : Bracket → List Bracket → Skipping
  | .square, below => .value (.square :: below)
  | .curly, below => .key below

/-- Whether the machine gets past a text in a container. -/
def Passable (top : Bracket) (x : List UInt8) : Prop :=
  ∀ below m r, Delimited m → Skips (some (.after top below)) m r →
    Skips (some (itemState top below)) (x ++ m) r

section Enclosed

variable {top : Bracket} {xs : List (List UInt8)}

theorem delimited_close (top : Bracket) (m : List UInt8) : Delimited (top.close :: m) := by
  cases top with
  | square => exact delimited_cons (.inr (.inr (.inl rfl)))
  | curly => exact delimited_cons (.inr (.inr (.inr rfl)))

theorem Skips.more (hxs : ∀ y ∈ xs, Passable top y) {below : List Bracket} {u w m r : List UInt8}
    (hu : MoreItems xs u) (hw : Blank w) (h : Skips (resume below) m r) :
    Skips (some (.after top below)) (u ++ (w ++ top.close :: m)) r := by
  induction hu with
  | nil =>
    rw [List.nil_append]
    exact Skips.blank_append hw (.last h)
  | @cons x u w₁ w₂ xs hw₁ hw₂ hu ih =>
    have hx := hxs x List.mem_cons_self below (u ++ (w ++ top.close :: m)) r
      (delimited_more hu hw (delimited_close top m))
      (ih fun y hy => hxs y (List.mem_cons_of_mem _ hy))
    have he : w₁ ++ ','.toUInt8 :: (w₂ ++ (x ++ u)) ++ (w ++ top.close :: m)
        = w₁ ++ ','.toUInt8 :: (w₂ ++ (x ++ (u ++ (w ++ top.close :: m)))) := by
      simp
    rw [he]
    refine Skips.blank_append hw₁ ?_
    cases top with
    | square => exact .nextElement (Skips.blank_append hw₂ hx)
    | curly => exact .nextEntry (Skips.blank_append hw₂ hx)

/-- The machine gets past a container if it gets past its items. -/
theorem Skips.enclosed (top : Bracket) (hxs : ∀ y ∈ xs, Passable top y)
    (hstarts : ∀ y ∈ xs, ∃ b t, y = b :: t ∧ isBlank b = false ∧
      (top = .square → b ≠ ']'.toUInt8) ∧ (top = .curly → b = '"'.toUInt8))
    {brackets : List Bracket} {x m r : List UInt8} (hx : Enclosed top.first top.close xs x)
    (h : Skips (resume brackets) m r) : Skips (some (.value brackets)) (x ++ m) r := by
  obtain ⟨w, u, w', hw, hu, hw', rfl⟩ := hx
  have he : top.first :: (w ++ (u ++ (w' ++ [top.close]))) ++ m
      = top.first :: (w ++ (u ++ (w' ++ top.close :: m))) := by
    simp
  rw [he]
  refine .enter (Skips.blank_append hw ?_)
  cases hu with
  | nil =>
    rw [List.nil_append]
    exact Skips.blank_append hw' (.empty h)
  | @cons y u xs hu =>
    have hy := hxs y List.mem_cons_self brackets (u ++ (w' ++ top.close :: m)) r
      (delimited_more hu hw' (delimited_close top m))
      (Skips.more (fun z hz => hxs z (List.mem_cons_of_mem _ hz)) hu hw' h)
    obtain ⟨b, t, rfl, hb, hsquare, hcurly⟩ := hstarts y List.mem_cons_self
    rw [List.append_assoc]
    cases top with
    | square => exact .element hb (hsquare rfl) hy
    | curly =>
      obtain rfl := hcurly rfl
      exact .entry hy

end Enclosed

/-- The machine gets past every value, whatever brackets are open. -/
theorem Skips.complete {x : List UInt8} (hx : IsValue x) {brackets : List Bracket}
    {m r : List UInt8} (hm : Delimited m) (h : Skips (resume brackets) m r) :
    Skips (some (.value brackets)) (x ++ m) r := by
  induction hx generalizing brackets m r with
  | null =>
    refine .scalar (m := m) ?_ h
    rw [Scalar, if_pos rfl]
    rfl
  | bool b =>
    cases b with
    | true =>
      refine .scalar (m := m) ?_ h
      rw [Scalar, if_neg (by decide), if_pos rfl]
      rfl
    | false =>
      refine .scalar (m := m) ?_ h
      rw [Scalar, if_neg (by decide), if_neg (by decide), if_pos rfl]
      rfl
  | @number n x hx =>
    obtain ⟨b, t, rfl, hb⟩ := hx.begins
    obtain ⟨hn, ht, hf⟩ := ne_of_beginsNumeral hb
    refine .scalar (m := m) ?_ h
    rw [Scalar, if_neg hn, if_neg ht, if_neg hf, if_pos hb]
    exact ⟨n, t, hx, rfl, hm.ends n⟩
  | @text l hl =>
    refine .scalar (m := m) ?_ h
    rw [Scalar, if_neg (by decide), if_neg (by decide), if_neg (by decide), if_neg (by decide),
      if_pos rfl]
    exact ⟨l, hl, by simp⟩
  | sequence hxs hx ih =>
    refine Skips.enclosed .square (fun y hy below m r hm h => ih y hy hm h) ?_ hx h
    intro y hy
    obtain ⟨b, t, rfl, hb, hc⟩ := (hxs y hy).starts
    exact ⟨b, t, rfl, hb, fun _ => hc, by simp⟩
  | @object es x hkeys hes hx ih =>
    obtain ⟨xs, hxs, hx⟩ := hx
    have hitem : ∀ y ∈ xs, ∃ e ∈ es, EntryText e y := by
      intro y hy
      obtain ⟨i, hi, rfl⟩ := List.getElem_of_mem hy
      have hi' : i < es.length := by
        rw [hxs.length_eq]
        exact hi
      exact ⟨es[i], List.getElem_mem hi', hxs.get hi' hi⟩
    refine Skips.enclosed .curly ?_ ?_ hx h
    · -- A key is passed over by one step, and the induction is on the value alone.
      intro y hy below m r hm h
      obtain ⟨⟨l, v⟩, he, w, w', hw, hw', rfl⟩ := hitem y hy
      have hv : Skips (some (.value (.curly :: below))) (v ++ m) r := ih _ he hm h
      have hq : quote l ++ (w ++ ':'.toUInt8 :: (w' ++ v)) ++ m
          = '"'.toUInt8 :: (l ++ '"'.toUInt8 :: (w ++ ':'.toUInt8 :: (w' ++ (v ++ m)))) := by
        simp [quote]
      rw [hq]
      exact .key (hkeys _ he) hw (Skips.blank_append hw' hv)
    · intro y hy
      obtain ⟨⟨l, v⟩, -, w, w', -, -, rfl⟩ := hitem y hy
      exact ⟨_, _, rfl, by decide, by simp, fun _ => rfl⟩

namespace Decoder

/-- Any value is passed over, and nothing else is. -/
theorem reads_skip {ε : Type} : Reads (skip : Decoder ε Unit) fun _ x => IsValue x := by
  refine .intro yields_skip (fun _ x hx => hx.starts) ?_ ?_
  · intro bs _ r h
    obtain ⟨w, x, m, hw, hx, rfl, hm⟩ := h.sound
    obtain rfl : r = m := hm
    exact ⟨w, x, hw, hx, rfl⟩
  · intro w x _ r hw hx hr
    exact Skips.blank_append hw (Skips.complete hx hr .done)

end Decoder

end Findings.Json
