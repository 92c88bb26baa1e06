import Findings.Files

/-!
# What writing a file changes

A name that can be written stands for one place. Writing stores a file there and leaves every other
place alone; the directories on the way stay what they were, so the name still leads to that place
and reading it gives back what was written.

Main statements: when a name can be written (`write_eq_ok_iff`), and what is read from it then
(`read_insert_of_writable`).
-/

namespace Findings.Files

open Json

variable {fs fs' : Files} {name : String} {l l' : Location} {bytes : List UInt8}

/-! ## Places -/

theorem path_down_ne_nil (l : Location) (part : String) : (l.down part).path ≠ [] := by
  simp [Location.down]

theorem get?_insert_of_ne (fs : Files) (e : Entry) (h : l' ≠ l) :
    (fs.insert l e).get? l' = fs.get? l' := by
  unfold get? insert
  have hl : (l' == l) = false := by simpa using h
  have hrest : ∀ es : List (Location × Entry),
      (es.filter (·.1 != l)).lookup l' = es.lookup l' := by
    intro es
    induction es with
    | nil => rfl
    | cons x es ih =>
      obtain ⟨k, v⟩ := x
      by_cases hk : k = l
      · have hkeep : ((k, v) :: es).filter (·.1 != l) = es.filter (·.1 != l) := by simp [hk]
        rw [hkeep, ih, List.lookup_cons, hk, hl]
      · have hkeep : ((k, v) :: es).filter (·.1 != l) = (k, v) :: es.filter (·.1 != l) := by
          simp [hk]
        rw [hkeep, List.lookup_cons, List.lookup_cons, ih]
  rw [List.lookup_cons, hl, hrest]

/-! ## Names that can be written -/

/-- The name leads to the place `l`: the directories on its way are there, and its last part is one
that a directory can store. -/
def Names (fs : Files) (name : String) (l : Location) : Prop :=
  ∃ n directory, Name.ofString name = .ok n ∧ fs.parent n = .ok directory ∧
    isDots n.last = false ∧ n.slash = false ∧ n.last.utf8ByteSize ≤ longestPart ∧
    l = directory.down n.last

/-- A file can be written under the name, and is stored at `l`. -/
def Writable (fs : Files) (name : String) (l : Location) : Prop :=
  fs.Names name l ∧ fs.get? l ≠ some .directory

theorem lookIn_eq (fs : Files) (directory : Location) {part : String}
    (h : part.utf8ByteSize ≤ longestPart) :
    fs.lookIn directory part = .ok (fs.get? (directory.down part)) := by
  unfold lookIn
  rw [if_neg (by omega)]

theorem write_eq_ok_iff :
    fs.write name bytes = .ok fs' ↔ ∃ l, fs.Writable name l ∧ fs' = fs.insert l (.file bytes) := by
  constructor
  · intro h
    unfold write at h
    cases hn : Name.ofString name with
    | error e => rw [hn] at h; cases h
    | ok n =>
      rw [hn] at h
      cases hd : fs.parent n with
      | error e => simp only [Except.bind, bind, hd] at h; cases h
      | ok d =>
        simp only [Except.bind, bind, hd] at h
        by_cases hdots : (isDots n.last || n.slash) = true
        · rw [if_pos hdots] at h; cases h
        · rw [if_neg hdots] at h
          obtain ⟨hlast, hslash⟩ : isDots n.last = false ∧ n.slash = false := by
            simpa using hdots
          by_cases hlong : longestPart < n.last.utf8ByteSize
          · simp only [lookIn, if_pos hlong] at h; cases h
          · simp only [lookIn, if_neg hlong] at h
            have hnames : fs.Names name (d.down n.last) :=
              ⟨n, d, hn, hd, hlast, hslash, by omega, rfl⟩
            split at h
            · cases h
            · next hget =>
              refine ⟨d.down n.last, ⟨hnames, hget⟩, ?_⟩
              exact (Except.ok.inj h).symm
  · intro h
    obtain ⟨l, ⟨⟨n, d, hn, hd, hlast, hslash, hlong, hl⟩, hget⟩, hfs⟩ := h
    have hdots : ¬ (isDots n.last || n.slash) = true := by simp [hlast, hslash]
    unfold write
    rw [hn]
    simp only [Except.bind, bind, hd, if_neg hdots, lookIn_eq fs d hlong]
    rw [← hl]
    split
    · next hdir => exact absurd hdir hget
    · rw [hfs]; rfl

/-- A name without a slash is its own last part. -/
theorem ofString_of_plain (hne : name ≠ "") (hslash : '/' ∉ name.toList)
    (hnul : '\x00' ∉ name.toList) (hlong : name.utf8ByteSize ≤ longestName) :
    Name.ofString name =
      .ok { start := { path := [] }, way := [], last := name, slash := false } := by
  have hparts : (name.toList.splitOn '/').filter (· != []) = [name.toList] := by
    have hchars : name.toList ≠ [] := by simpa using hne
    rw [List.splitOn_eq_singleton hslash]
    simp [hchars]
  have hstart : name.startsWith "/" = false := by
    rw [String.startsWith_string_eq_false_iff]
    intro hstarts
    exact hslash (hstarts.mem (List.mem_singleton_self '/'))
  have hend : name.endsWith "/" = false := by
    unfold String.endsWith
    rw [String.Slice.endsWith_string_eq_false_iff, String.copy_toSlice]
    intro hends
    exact hslash (hends.mem (List.mem_singleton_self '/'))
  unfold Name.ofString
  rw [if_neg hnul, if_neg (by omega), if_neg hne, hparts, hstart, hend]
  simp

/-- A name without a slash can be written in the working directory. -/
theorem writable_of_plain (hne : name ≠ "") (hdots : isDots name = false)
    (hslash : '/' ∉ name.toList) (hnul : '\x00' ∉ name.toList)
    (hlong : name.utf8ByteSize ≤ longestPart)
    (hget : fs.get? { path := [name] } ≠ some .directory) :
    fs.Writable name { path := [name] } := by
  have hfit : name.utf8ByteSize ≤ longestName := Nat.le_trans hlong (by decide)
  exact ⟨⟨_, _, ofString_of_plain hne hslash hnul hfit, rfl, hdots, rfl, hlong, rfl⟩, hget⟩

/-! ## Reading what was written -/

/-- A file in place of what is no directory bars no way. -/
theorem descend_insert (hl : fs.get? l ≠ some .directory) {d d' : Location} {part : String}
    (h : fs.descend d part = .ok d') :
    (fs.insert l (.file bytes)).descend d part = .ok d' := by
  unfold descend at h ⊢
  by_cases hdot : part = "."
  · rw [if_pos hdot] at h ⊢; exact h
  rw [if_neg hdot] at h ⊢
  by_cases hdots : part = ".."
  · rw [if_pos hdots] at h ⊢; exact h
  rw [if_neg hdots] at h ⊢
  by_cases hlong : longestPart < part.utf8ByteSize
  · simp only [lookIn, if_pos hlong] at h; cases h
  have hfit : part.utf8ByteSize ≤ longestPart := by omega
  rw [lookIn_eq _ _ hfit] at h ⊢
  have hget : fs.get? (d.down part) = some .directory := by
    cases hg : fs.get? (d.down part) with
    | none => rw [hg] at h; cases h
    | some e =>
      cases e with
      | file b => rw [hg] at h; cases h
      | directory => rfl
  have hne : d.down part ≠ l := by
    intro he
    exact hl (he ▸ hget)
  rw [get?_insert_of_ne _ _ hne]
  exact h

theorem parent_insert (hl : fs.get? l ≠ some .directory) {n : Name} {d : Location}
    (h : fs.parent n = .ok d) : (fs.insert l (.file bytes)).parent n = .ok d := by
  unfold parent at h ⊢
  generalize n.start = start at h ⊢
  generalize n.way = way at h ⊢
  induction way generalizing start with
  | nil => exact h
  | cons part way ih =>
    rw [List.foldlM_cons] at h ⊢
    cases hstep : fs.descend start part with
    | error e => rw [hstep] at h; cases h
    | ok next =>
      rw [hstep] at h
      rw [descend_insert hl hstep]
      exact ih next h

/-- What was written under a name is what the name then reads. -/
theorem read_insert_of_writable (h : fs.Writable name l) (bytes : List UInt8) :
    (fs.insert l (.file bytes)).read name = .ok { bytes } := by
  obtain ⟨⟨n, d, hn, hd, hlast, hslash, hlong, rfl⟩, hget⟩ := h
  have hd' : (fs.insert (d.down n.last) (.file bytes)).parent n = .ok d := parent_insert hget hd
  have hself : (fs.insert (d.down n.last) (.file bytes)).get? (d.down n.last) =
      some (.file bytes) :=
    get?_insert_self fs _ (path_down_ne_nil d n.last)
  unfold read
  rw [hn]
  simp only [Except.bind, bind, hd', lookIn_eq _ d hlong, hself, hlast, hslash]
  rfl

end Findings.Files
