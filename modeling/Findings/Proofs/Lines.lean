import Findings.Proofs.Rendering
import Mathlib.Data.List.Infix

/-!
# What a rendered report tells

Nothing is escaped in a rendered report, so a path, a rule or a text may imitate what stands around
it. A finding is `Clear` if its line can be taken apart: no part of it breaks the line, its rule has
no blank, and its path does not hold the mark `): ` that ends the position. Parentheses in a path
and colons in a text do no harm. The mark is then found where it stands first, the position where
the last parenthesis before it opens, and the rule where the next blanks stand.

Main statement: clear findings are determined by the rendered report (`render_inj_of_clear`).
-/

namespace Findings.VisualStudio

open Report

/-! ## Splitting -/

/-- A list is split in one way where an item stands first. -/
theorem eq_of_append_cons_eq {α : Type} {a : α} {l l' r r' : List α} (h : a ∉ l) (h' : a ∉ l')
    (he : l ++ a :: r = l' ++ a :: r') : l = l' ∧ r = r' := by
  induction l generalizing l' with
  | nil =>
    cases l' with
    | nil => exact ⟨rfl, (List.cons.inj he).2⟩
    | cons b l' => exact absurd ((List.cons.inj he).1 ▸ List.mem_cons_self) h'
  | cons b l ih =>
    cases l' with
    | nil => exact absurd ((List.cons.inj he).1 ▸ List.mem_cons_self) h
    | cons b' l' =>
      obtain ⟨rfl, ht⟩ := List.cons.inj he
      obtain ⟨rfl, rfl⟩ := ih (List.not_mem_of_not_mem_cons h) (List.not_mem_of_not_mem_cons h') ht
      exact ⟨rfl, rfl⟩

/-- A list is split in one way where an item stands last. -/
theorem eq_of_append_cons_eq_last {α : Type} {a : α} {l l' r r' : List α} (h : a ∉ r) (h' : a ∉ r')
    (he : l ++ a :: r = l' ++ a :: r') : l = l' ∧ r = r' := by
  have hrev : r.reverse ++ a :: l.reverse = r'.reverse ++ a :: l'.reverse := by
    simpa using congrArg List.reverse he
  obtain ⟨hr, hl⟩ := eq_of_append_cons_eq (by simpa using h) (by simpa using h') hrev
  exact ⟨List.reverse_inj.mp hl, List.reverse_inj.mp hr⟩

/-- What ends the position of a finding in its line. -/
def mark : List Char :=
  [')', ':', ' ']

/-- The mark does not overlap with itself. -/
theorem eq_nil_of_mark_append {l t t' : List Char} (h : ¬mark <:+: l)
    (he : mark ++ t = l ++ (mark ++ t')) : l = [] := by
  match l, h, he with
  | [], _, _ => rfl
  | [_], _, he => simp [mark] at he
  | [_, _], _, he => simp [mark] at he
  | _ :: _ :: _ :: l, h, he =>
    simp only [mark, List.cons_append, List.nil_append, List.cons.injEq] at he
    obtain ⟨rfl, rfl, rfl, -⟩ := he
    exact absurd (List.infix_append' [] mark l) h

/-- A list is split in one way where the mark stands first. -/
theorem eq_of_append_mark_eq {l l' t t' : List Char} (h : ¬mark <:+: l) (h' : ¬mark <:+: l')
    (he : l ++ (mark ++ t) = l' ++ (mark ++ t')) : l = l' ∧ t = t' := by
  have hlists : l = l' := by
    -- If one list were longer, the mark behind the other would begin inside it.
    rcases List.append_eq_append_iff.mp he with ⟨m, rfl, hm⟩ | ⟨m, rfl, hm⟩
    · rw [eq_nil_of_mark_append (fun hin => h' (hin.trans (List.suffix_append l m).isInfix)) hm,
        List.append_nil]
    · rw [eq_nil_of_mark_append (fun hin => h (hin.trans (List.suffix_append l' m).isInfix)) hm,
        List.append_nil]
  subst hlists
  exact ⟨rfl, List.append_cancel_left (List.append_cancel_left he)⟩

/-- A position adds no mark to what stands before it. -/
theorem not_mark_infix_append {l q : List Char} (h : ¬mark <:+: l) (hq : ')' ∉ q) :
    ¬mark <:+: l ++ '(' :: q := by
  rintro ⟨s, t, he⟩
  rw [List.append_assoc] at he
  -- The mark would have to stand before the parenthesis, which is none of its letters, or behind
  -- it, where no parenthesis is closed.
  rcases List.append_eq_append_iff.mp he with ⟨m, rfl, hm⟩ | ⟨m, rfl, hm⟩
  · match m, hm with
    | [], hm => simp [mark] at hm
    | [_], hm => simp [mark] at hm
    | [_, _], hm => simp [mark] at hm
    | _ :: _ :: _ :: m, hm =>
      simp only [mark, List.cons_append, List.nil_append, List.cons.injEq] at hm
      obtain ⟨rfl, rfl, rfl, -⟩ := hm
      exact h ⟨s, m, List.append_assoc _ _ _⟩
  · have hmem : ')' ∈ '(' :: q := by
      rw [hm]
      simp [mark]
    exact (List.mem_cons.mp hmem).elim (by decide) hq

/-! ## Numbers -/

theorem isDigit_of_mem_toString {n : Nat} {c : Char} (h : c ∈ (toString n).toList) :
    c.isDigit = true :=
  Nat.isDigit_of_mem_toDigits (by decide) (by decide) (Nat.toList_repr ▸ h)

/-- No number has a character that is no digit. -/
theorem notMem_toString {c : Char} (hc : c.isDigit = false) (n : Nat) :
    c ∉ (toString n).toList := by
  intro h
  rw [isDigit_of_mem_toString h] at hc
  cases hc

theorem toString_inj {n m : Nat} (h : (toString n).toList = (toString m).toList) : n = m := by
  have hdigits : Nat.toDigits 10 n = Nat.toDigits 10 m :=
    Nat.toList_repr.symm.trans (h.trans Nat.toList_repr)
  have hvalue := congrArg (Nat.ofDigitChars 10 · 0) hdigits
  simp only [Nat.ofDigitChars_ten_toDigits] at hvalue
  exact hvalue

/-! ## One line -/

/-- A finding whose line can be taken apart. -/
structure Clear (path : String) (f : Finding) : Prop where
  path_line : '\n' ∉ path.toList
  path_mark : ¬mark <:+: path.toList
  rule_line : '\n' ∉ f.rule.toList
  rule_blank : ' ' ∉ f.rule.toList
  text_line : '\n' ∉ f.text.toList

instance (path : String) (f : Finding) : Decidable (Clear path f) :=
  decidable_of_iff ('\n' ∉ path.toList ∧ ¬mark <:+: path.toList ∧ '\n' ∉ f.rule.toList ∧
      ' ' ∉ f.rule.toList ∧ '\n' ∉ f.text.toList)
    ⟨fun ⟨h₁, h₂, h₃, h₄, h₅⟩ => ⟨h₁, h₂, h₃, h₄, h₅⟩,
      fun ⟨h₁, h₂, h₃, h₄, h₅⟩ => ⟨h₁, h₂, h₃, h₄, h₅⟩⟩

/-- The position in a line, up to its mark. -/
def position (f : Finding) : List Char :=
  (toString f.line).toList ++ ',' :: (toString f.column).toList

/-- What a line holds after the mark. -/
def tail (f : Finding) : List Char :=
  f.severity.word.toList ++ ' ' :: (f.rule.toList ++ ' ' :: ([':', ' '] ++ f.text.toList))

theorem toList_line (path : String) (f : Finding) :
    (line path f).toList = (path.toList ++ '(' :: position f) ++ (mark ++ tail f) := by
  simp [line, position, tail, mark]

theorem notMem_position {c : Char} (hc : c.isDigit = false) (hcomma : c ≠ ',') (f : Finding) :
    c ∉ position f := by
  unfold position
  rw [List.mem_append, List.mem_cons]
  rintro (h | h | h)
  · exact notMem_toString hc f.line.toNat h
  · exact hcomma h
  · exact notMem_toString hc f.column.toNat h

theorem position_inj {f f' : Finding} (h : position f = position f') :
    f.line = f'.line ∧ f.column = f'.column := by
  obtain ⟨hline, hcolumn⟩ :=
    eq_of_append_cons_eq (notMem_toString (by decide) _) (notMem_toString (by decide) _) h
  exact ⟨UInt32.toNat_inj.mp (toString_inj hline), UInt32.toNat_inj.mp (toString_inj hcolumn)⟩

theorem blank_notMem_word (s : Severity) : ' ' ∉ s.word.toList := by
  cases s <;> decide

theorem word_inj {s s' : Severity} (h : s.word.toList = s'.word.toList) : s = s' := by
  cases s <;> cases s' <;> first | rfl | exact absurd h (by decide)

theorem tail_inj {f f' : Finding} (hf : ' ' ∉ f.rule.toList) (hf' : ' ' ∉ f'.rule.toList)
    (h : tail f = tail f') : f.severity = f'.severity ∧ f.rule = f'.rule ∧ f.text = f'.text := by
  obtain ⟨hword, h⟩ := eq_of_append_cons_eq (blank_notMem_word _) (blank_notMem_word _) h
  obtain ⟨hrule, h⟩ := eq_of_append_cons_eq hf hf' h
  exact ⟨word_inj hword, String.toList_inj.mp hrule,
    String.toList_inj.mp (List.append_cancel_left h)⟩

/-- The line of a clear finding tells its path and all about it. -/
theorem line_inj_of_clear {path path' : String} {f f' : Finding} (hf : Clear path f)
    (hf' : Clear path' f') (h : line path f = line path' f') : path = path' ∧ f = f' := by
  have he := congrArg String.toList h
  rw [toList_line, toList_line] at he
  have hmark : ∀ {path : String} {f : Finding}, Clear path f →
      ¬mark <:+: path.toList ++ '(' :: position f := fun hf =>
    not_mark_infix_append hf.path_mark (notMem_position (by decide) (by decide) _)
  -- First the mark, then in front of it the last parenthesis: the path may hold parentheses as
  -- well.
  obtain ⟨hhead, htail⟩ := eq_of_append_mark_eq (hmark hf) (hmark hf') he
  obtain ⟨hpath, hposition⟩ := eq_of_append_cons_eq_last
    (notMem_position (by decide) (by decide) _) (notMem_position (by decide) (by decide) _) hhead
  obtain ⟨hline, hcolumn⟩ := position_inj hposition
  obtain ⟨hseverity, hrule, htext⟩ := tail_inj hf.rule_blank hf'.rule_blank htail
  refine ⟨String.toList_inj.mp hpath, ?_⟩
  cases f
  cases f'
  rw [Finding.mk.injEq]
  exact ⟨hrule, hseverity, htext, hline, hcolumn⟩

theorem lineFeed_notMem_line {path : String} {f : Finding} (h : Clear path f) :
    '\n' ∉ (line path f).toList := by
  have hword : '\n' ∉ f.severity.word.toList := by cases f.severity <;> decide
  have hposition : '\n' ∉ position f := notMem_position (by decide) (by decide) f
  rw [toList_line]
  simp [mark, tail, h.path_line, h.rule_line, h.text_line, hword, hposition]

/-! ## Rows -/

/-- The rows of a rendered report: the lines of the findings, an empty one, and the summary. -/
def rows (r : Report) : List String :=
  if total r = 0 then [summary 0] else lines r ++ ["", summary (total r)]

theorem render_eq_intercalate (r : Report) : render r = "\n".intercalate (rows r) := by
  unfold rows
  by_cases h : total r = 0
  · rw [if_pos h, render_of_total_eq_zero h, String.intercalate_singleton]
  · rw [if_neg h, render_of_total_ne_zero h,
      String.intercalate_append_of_ne_nil (lines_ne_nil h) (by simp), String.intercalate_cons_cons,
      String.intercalate_singleton, body, String.append_assoc, String.append_assoc]
    rfl

theorem lineFeed_notMem_summary (n : Nat) : '\n' ∉ (summary n).toList := by
  unfold summary
  split
  · decide
  split
  · decide
  · rw [String.toList_append, List.mem_append]
    rintro (h | h)
    · exact notMem_toString (by decide) n h
    · exact absurd h (by decide)

/-- The rows of clear findings are found again in the text. -/
theorem splitOn_render {r : Report} (h : ∀ e ∈ located r, Clear e.1 e.2) :
    (render r).toList.splitOn '\n' = (rows r).map String.toList := by
  have hne : rows r ≠ [] := by
    unfold rows
    split <;> simp
  have hrows : ∀ row ∈ rows r, '\n' ∉ row.toList := by
    unfold rows
    split
    · intro row hrow
      rw [List.mem_singleton.mp hrow]
      exact lineFeed_notMem_summary 0
    · rw [lines_eq_map]
      intro row hrow
      simp only [List.mem_append, List.mem_map, List.mem_cons, List.not_mem_nil, or_false] at hrow
      rcases hrow with ⟨e, he, rfl⟩ | rfl | rfl
      · exact lineFeed_notMem_line (h e he)
      · decide
      · exact lineFeed_notMem_summary _
  rw [render_eq_intercalate, String.toList_intercalate]
  exact List.splitOn_intercalate '\n' (by simpa using hrows) (by simpa using hne)

/-- The rows tell the lines. -/
theorem lines_eq_of_rows_eq {r r' : Report} (h : rows r = rows r') : lines r = lines r' := by
  have hnil : ∀ {r : Report}, total r = 0 → lines r = [] := fun h =>
    List.eq_nil_of_length_eq_zero ((length_lines _).trans h)
  unfold rows at h
  by_cases hr : total r = 0 <;> by_cases hr' : total r' = 0
  · rw [hnil hr, hnil hr']
  · rw [if_pos hr, if_neg hr'] at h
    have hlength := congrArg List.length h
    simp at hlength
  · rw [if_neg hr, if_pos hr'] at h
    have hlength := congrArg List.length h
    simp at hlength
  · rw [if_neg hr, if_neg hr'] at h
    exact (List.append_inj' h rfl).1

/-- Lines of clear findings tell the findings. -/
theorem eq_of_map_line_eq {l l' : List (String × Finding)} (h : ∀ e ∈ l, Clear e.1 e.2)
    (h' : ∀ e ∈ l', Clear e.1 e.2)
    (he : (l.map fun e => line e.1 e.2) = l'.map fun e => line e.1 e.2) : l = l' := by
  induction l generalizing l' with
  | nil => exact (List.map_eq_nil_iff.mp he.symm).symm
  | cons e l ih =>
    cases l' with
    | nil => cases he
    | cons e' l' =>
      obtain ⟨hline, hlines⟩ := List.cons.inj he
      obtain ⟨hpath, hf⟩ :=
        line_inj_of_clear (h e List.mem_cons_self) (h' e' List.mem_cons_self) hline
      rw [Prod.ext hpath hf, ih (fun e he => h e (List.mem_cons_of_mem _ he))
        (fun e he => h' e (List.mem_cons_of_mem _ he)) hlines]

/-- A rendered report tells what it reports. If all findings of two reports are clear and the
reports are rendered alike, they hold the same findings with the same paths, in the same order. -/
theorem render_inj_of_clear {r r' : Report} (h : ∀ file ∈ r, ∀ f ∈ file.findings, Clear file.path f)
    (h' : ∀ file ∈ r', ∀ f ∈ file.findings, Clear file.path f) (he : render r = render r') :
    located r = located r' := by
  have hlocated : ∀ {r : Report}, (∀ file ∈ r, ∀ f ∈ file.findings, Clear file.path f) →
      ∀ e ∈ located r, Clear e.1 e.2 := by
    intro r h e hmem
    obtain ⟨file, hfile, he⟩ := List.mem_flatMap.mp hmem
    obtain ⟨f, hf, rfl⟩ := List.mem_map.mp he
    exact h file hfile f hf
  have hrows : (rows r).map String.toList = (rows r').map String.toList := by
    rw [← splitOn_render (hlocated h), ← splitOn_render (hlocated h'), he]
  have hlines : lines r = lines r' :=
    lines_eq_of_rows_eq ((List.map_inj_right fun _ _ => String.toList_inj.mp).mp hrows)
  rw [lines_eq_map, lines_eq_map] at hlines
  exact eq_of_map_line_eq (hlocated h) (hlocated h') hlines

/-- A path with a position of its own, an empty rule, and a text that looks like a line: told in one
file report, or in two with an empty one between. -/
theorem render_inj_of_imitation :
    ∃ (path : String) (f g : Finding) (r r' : Report),
      path = "a(1,2):b.scss" ∧
        f = { rule := "", severity := .error, text := "c(3,4): error x : y" } ∧
      g = { rule := "x", severity := .warning, text := "", line := 0, column := 4294967295 } ∧
      r = [{ path, findings := [f, g] }] ∧
      r' = [{ path, findings := [f] }, { path := "): " }, { path, findings := [g] }] ∧
      (∀ file ∈ r, ∀ f ∈ file.findings, Clear file.path f) ∧
      (∀ file ∈ r', ∀ f ∈ file.findings, Clear file.path f) ∧
      render r = render r' ∧ located r = located r' := by
  refine ⟨_, _, _, _, _, rfl, rfl, rfl, rfl, rfl, ?clear, ?clear', render_congr rfl,
    render_inj_of_clear ?clear ?clear' (render_congr rfl)⟩
  case clear => decide +kernel
  case clear' => decide +kernel

end Findings.VisualStudio
