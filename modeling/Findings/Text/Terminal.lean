/-!
# Texts that a terminal only shows

A terminal takes some characters as commands, which a text from outside must not give. Such a text
is shown with each of them replaced by its number: the escape and the few other controls that move,
ring or erase, and all controls of eight bits. Tabs, line ends and the other controls are harmless
and stay as they are.

Main statement: no command is left in a shown text (`not_isCommand_of_mem_shown`).
-/

namespace Findings.Text.Terminal

/-- Whether a character of ASCII is a command: bell, backspace, form feed, escape and delete. -/
def isShortCommand (c : Char) : Bool :=
  c == '\x07' || c == '\x08' || c == '\x0c' || c == '\x1b' || c == '\x7f'

/-- Whether a character is one of the controls of eight bits, from 0x80 to 0x9F. -/
def isLongCommand (c : Char) : Bool :=
  0x80 ≤ c.toNat && c.toNat ≤ 0x9F

/-- Whether a terminal takes a character as a command. -/
def isCommand (c : Char) : Bool :=
  isShortCommand c || isLongCommand c

/-- The two hexadecimal digits of a number below 256. -/
def hexDigits (n : Nat) : List Char :=
  [(n / 16).digitChar, (n % 16).digitChar]

/-- One character of a shown text. -/
def shownChar (c : Char) : List Char :=
  if isShortCommand c then '\\' :: 'x' :: hexDigits c.toNat
  else if isLongCommand c then '\\' :: 'u' :: '\x7b' :: hexDigits c.toNat ++ ['\x7d']
  else [c]

/-- A text in which no command is left. -/
def shown (s : String) : String :=
  String.ofList (s.toList.flatMap shownChar)

/-! ## No command is left -/

theorem not_isCommand_hexDigits {n : Nat} (hn : n < 256) :
    ∀ c ∈ hexDigits n, isCommand c = false := by
  have digit : ∀ d ∈ List.range 16, isCommand d.digitChar = false := by decide
  have high : n / 16 < 16 := by omega
  have low : n % 16 < 16 := by omega
  intro c hc
  simp only [hexDigits, List.mem_cons, List.not_mem_nil, or_false] at hc
  rcases hc with rfl | rfl
  · exact digit _ (List.mem_range.mpr high)
  · exact digit _ (List.mem_range.mpr low)

theorem toNat_lt_of_isShortCommand {c : Char} (h : isShortCommand c = true) : c.toNat < 256 := by
  simp only [isShortCommand, Bool.or_eq_true, beq_iff_eq] at h
  rcases h with (((rfl | rfl) | rfl) | rfl) | rfl <;> decide

theorem not_isCommand_of_mem_shownChar (c : Char) :
    ∀ d ∈ shownChar c, isCommand d = false := by
  intro d hd
  unfold shownChar at hd
  split at hd
  · rename_i hs
    simp only [List.mem_cons] at hd
    rcases hd with rfl | rfl | hd
    · decide
    · decide
    · exact not_isCommand_hexDigits (toNat_lt_of_isShortCommand hs) d hd
  · split at hd
    · rename_i hl
      have hn : c.toNat < 256 := by
        simp only [isLongCommand, Bool.and_eq_true, decide_eq_true_eq] at hl
        omega
      simp only [List.cons_append, List.mem_cons, List.mem_append, List.not_mem_nil,
        or_false] at hd
      rcases hd with rfl | rfl | rfl | hd | rfl
      · decide
      · decide
      · decide
      · exact not_isCommand_hexDigits hn d hd
      · decide
    · rename_i hs hl
      simp only [List.mem_cons, List.not_mem_nil, or_false] at hd
      subst hd
      simp [isCommand, hs, hl]

/-- No command is left in a shown text. -/
theorem not_isCommand_of_mem_shown (s : String) :
    ∀ c ∈ (shown s).toList, isCommand c = false := by
  intro c hc
  simp only [shown, String.toList_ofList, List.mem_flatMap] at hc
  obtain ⟨d, -, hd⟩ := hc
  exact not_isCommand_of_mem_shownChar d c hd

end Findings.Text.Terminal
