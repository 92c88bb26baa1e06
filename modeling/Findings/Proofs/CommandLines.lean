import Findings.CommandLine.Parse
import Findings.Proofs.Arguments

/-!
# The command lines that start a run

A command line starts a run exactly if it is a line of the language, and the options are then those
that its arguments give (`parse_eq_ok_iff`).

## What is pending

The reader keeps back what it read last. That decides which of two faults is told, but not which
lines are good: what is pending may be settled before the next word is read (`Settles`). So a line
is read argument by argument, and each argument adds to the options on its own
(`words_argument_iff`); and what is read is the words of an argument (`exists_argument`).
-/

namespace Findings.CommandLine

/-! ## What is pending is settled first -/

theorem bind_eq_ok_iff {α β : Type} {x : Except Stop α} {k : α → Except Stop β} {b : β} :
    (x >>= k) = .ok b ↔ ∃ a, x = .ok a ∧ k a = .ok b := by
  cases x with
  | error e => simp [bind, Except.bind]
  | ok a => simp [bind, Except.bind]

/-- A reader that succeeds in a state exactly if it does so once what is pending is settled. -/
def Settles {α : Type} (read : State → Except Stop α) : Prop :=
  ∀ s x, read s = .ok x ↔ ∃ o, s.settle = .ok o ∧ read { options := o } = .ok x

namespace Settles

variable {α β : Type} {read : State → Except Stop α}

theorem bind (h : Settles read) (k : α → Except Stop β) : Settles fun s => read s >>= k := by
  intro s x
  simp only [bind_eq_ok_iff, h s]
  constructor
  · rintro ⟨a, ⟨o, hs, ha⟩, hk⟩
    exact ⟨o, hs, a, ha, hk⟩
  · rintro ⟨o, hs, a, ha, hk⟩
    exact ⟨a, ⟨o, hs, ha⟩, hk⟩

theorem settle : Settles State.settle := by
  intro s x
  constructor
  · intro h
    exact ⟨x, h, rfl⟩
  · rintro ⟨o, hs, ho⟩
    exact hs.trans ho

theorem error (e : Stop) : Settles fun _ => (.error e : Except Stop α) := by
  intro s x
  simp

theorem flag (f : Flag) (attached : Option String) : Settles fun s => s.flag f attached := by
  intro s x
  show (s.settle >>= _) = _ ↔ _
  rw [bind_eq_ok_iff]
  rfl

theorem long (name : String) (value : Option String) : Settles fun s => s.long name value := by
  unfold State.long
  cases Flag.ofName? name with
  | none => exact error _
  | some f =>
    cases f with
    | output => exact flag _ _
    | _ =>
      simp only
      split
      · exact error _
      · exact flag _ _

theorem short (c : Char) (cs : List Char) : Settles fun s => s.short (c :: cs) := by
  unfold State.short
  cases Flag.ofLetter? c with
  | none => exact error _
  | some f =>
    cases f with
    | output =>
      cases cs with
      | nil => exact flag _ _
      | cons c' cs =>
        simp only
        split
        · simp_all
        · exact flag _ _
        · exact flag _ _
    | _ => exact (flag _ none).bind _

end Settles

/-! ## What is kept -/

namespace Options

variable {o o' : Options} {v : String}

theorem setOutput_eq_ok_iff :
    o.setOutput v = .ok o' ↔ o.output = none ∧ v ≠ "" ∧ o' = { o with output := some v } := by
  unfold setOutput
  cases o.output with
  | some _ => simp
  | none =>
    by_cases hv : v = ""
    · simp [hv]
    · simp only [hv, Option.isSome_none, Bool.false_eq_true, if_false, String.isEmpty_iff, ne_eq,
        not_false_eq_true, true_and, Except.ok.injEq]
      exact eq_comm

theorem setInput_eq_ok_iff :
    o.setInput v = .ok o' ↔ v ≠ "" ∧ o' = { o with input := some v } := by
  unfold setInput
  by_cases hv : v = ""
  · simp [hv]
  · simp only [hv, String.isEmpty_iff, if_false, ne_eq, not_false_eq_true, true_and,
      Except.ok.injEq]
    exact eq_comm

theorem setVerbose_eq_ok_iff :
    o.setVerbose = .ok o' ↔ o.verbose = false ∧ o' = { o with verbose := true } := by
  unfold setVerbose
  cases o.verbose with
  | true => simp
  | false => simp [eq_comm]

end Options

namespace State

/-- Settling keeps whether an input was read. -/
theorem hasInput_of_settle {s : State} {o : Options} (h : s.settle = .ok o) :
    s.hasInput = o.input.isSome := by
  obtain ⟨options, pending⟩ := s
  cases pending with
  | nothing =>
    cases h
    simp [hasInput]
  | output value =>
    cases value with
    | none => cases h
    | some v =>
      obtain ⟨-, -, rfl⟩ := Options.setOutput_eq_ok_iff.mp h
      simp [hasInput]
  | input v =>
    obtain ⟨-, rfl⟩ := Options.setInput_eq_ok_iff.mp h
    simp [hasInput]

theorem operand_eq_ok_iff {s s' : State} {w : String} :
    s.operand w = .ok s' ↔ ∃ o, s.settle = .ok o ∧ o.input = none ∧
      s' = { options := o, pending := .input w } := by
  have hbind : s.operand w = .ok s' ↔ s.hasInput = false ∧ ∃ o, s.settle = .ok o ∧
      s' = { options := o, pending := .input w } := by
    unfold operand
    cases s.hasInput with
    | true => simp [bind, Except.bind, throw, throwThe, MonadExceptOf.throw]
    | false =>
      simp only [Bool.false_eq_true, if_false, true_and]
      rw [bind_eq_ok_iff]
      simp [pure, Except.pure, eq_comm]
  rw [hbind]
  constructor
  · rintro ⟨hnone, o, hs, rfl⟩
    rw [hasInput_of_settle hs, Option.isSome_eq_false_iff, Option.isNone_iff_eq_none] at hnone
    exact ⟨o, hs, hnone, rfl⟩
  · rintro ⟨o, hs, hnone, rfl⟩
    exact ⟨by rw [hasInput_of_settle hs, hnone]; rfl, o, hs, rfl⟩

end State

theorem Settles.operand (w : String) : Settles fun s => s.operand w := by
  intro s x
  simp only [State.operand_eq_ok_iff]
  constructor
  · rintro ⟨o, hs, h⟩
    exact ⟨o, hs, o, rfl, h⟩
  · rintro ⟨o, hs, _, ⟨⟩, h⟩
    exact ⟨o, hs, h⟩

theorem Settles.operands (ws : List String) : Settles fun s => operands s ws := by
  cases ws with
  | nil => exact settle
  | cons w ws => exact (operand w).bind _

/-- Unless a value is waited for, what is pending may be settled before the next word. -/
theorem words_settle {s : State} (hs : s.pending ≠ .output none) {ws : List String} {o : Options} :
    words s ws = .ok o ↔ ∃ o₀, s.settle = .ok o₀ ∧ words { options := o₀ } ws = .ok o := by
  cases ws with
  | nil => exact Settles.settle s o
  | cons w ws =>
    have hform := Word.hasForm_ofString w
    simp only [words]
    generalize Word.ofString w = form, w.toList = cs at hform
    cases hform with
    | separator => exact Settles.operands ws s o
    | long => exact (Settles.long _ _).bind _ s o
    | longValue => exact (Settles.long _ _).bind _ s o
    | short => exact (Settles.short _ _).bind _ s o
    | plain =>
      have hplain : s.plain w = s.operand w := by
        unfold State.plain
        split
        · rename_i h
          exact absurd h hs
        · rfl
      simp only [hplain]
      exact (Settles.operand w).bind _ s o

/-! ## Reading an argument -/

section Reading

variable {o o' : Options} {rest : List String}

/-- What is read of a value once the output option has it. -/
theorem setOutput_words_iff {v : String} (hv : v ≠ "") :
    (∃ o₁, o.setOutput v = .ok o₁ ∧ words { options := o₁ } rest = .ok o') ↔
      o.Lacks (.output v) ∧ words { options := o.add (.output v) } rest = .ok o' := by
  simp only [Options.setOutput_eq_ok_iff]
  constructor
  · rintro ⟨_, ⟨hnone, -, rfl⟩, h⟩
    exact ⟨hnone, h⟩
  · rintro ⟨hnone, h⟩
    exact ⟨_, ⟨hnone, hv, rfl⟩, h⟩

theorem words_waiting_iff {v : String} (hv : Free v) :
    words { options := o, pending := .output none } (v :: rest) = .ok o' ↔
      o.Lacks (.output v) ∧ words { options := o.add (.output v) } rest = .ok o' := by
  rw [← setOutput_words_iff hv.1]
  have hword : words { options := o, pending := .output none } (v :: rest) =
      words { options := o, pending := .output (some v) } rest := by
    rw [words, Word.ofString_of_free hv]
    rfl
  rw [hword, words_settle (by simp)]
  rfl

theorem words_output_iff {v : String} (hv : v ≠ "") :
    (State.flag { options := o } .output (some v) >>= fun s => words s rest) = .ok o' ↔
      o.Lacks (.output v) ∧ words { options := o.add (.output v) } rest = .ok o' := by
  have hflag : State.flag { options := o } .output (some v) =
      o.setOutput v >>= fun o₁ => .ok { options := o₁ } := rfl
  rw [← setOutput_words_iff hv, hflag, bind_assoc, bind_eq_ok_iff]
  rfl

theorem words_verbose_iff {k : State → Except Stop Options} :
    (State.flag { options := o } .verbose none >>= k) = .ok o' ↔
      o.Lacks .verbose ∧ k { options := o.add .verbose } = .ok o' := by
  have hflag : State.flag { options := o } .verbose none =
      o.setVerbose >>= fun o₁ => .ok { options := o₁ } := rfl
  rw [hflag, bind_assoc, bind_eq_ok_iff]
  simp only [Options.setVerbose_eq_ok_iff]
  constructor
  · rintro ⟨_, ⟨hnone, rfl⟩, h⟩
    exact ⟨hnone, h⟩
  · rintro ⟨hnone, h⟩
    exact ⟨_, ⟨hnone, rfl⟩, h⟩

/-- The letter of the output option and its value. -/
theorem words_letter_output_iff {v t : String} {ws : List String} (h : ValueText v t ws) :
    (State.short { options := o } ('o' :: t.toList) >>= fun s => words s (ws ++ rest)) = .ok o' ↔
      o.Lacks (.output v) ∧ words { options := o.add (.output v) } rest = .ok o' := by
  cases h with
  | joined hv he =>
    have hshort : State.short { options := o } ('o' :: v.toList) =
        State.flag { options := o } .output (some v) := by
      unfold State.short
      simp only [Flag.ofLetter?]
      split
      · rename_i hnil
        exact absurd (String.toList_eq_nil_iff.mp hnil) hv
      · rename_i hequals
        exact absurd (by rw [hequals]; rfl) he
      · rw [String.ofList_toList]
    rw [hshort]
    exact words_output_iff hv
  | equals hv =>
    have hshort : State.short { options := o } ('o' :: ("=" ++ v).toList) =
        State.flag { options := o } .output (some v) := by
      have htext : ("=" ++ v).toList = '=' :: v.toList := String.toList_append
      rw [htext, State.short]
      simp only [Flag.ofLetter?, String.ofList_toList]
    rw [hshort]
    exact words_output_iff hv
  | apart hv => exact words_waiting_iff hv

/-- The letter of the verbose option and the letters after it. -/
theorem words_letter_verbose_iff (cs : List Char) :
    (State.short { options := o } ('v' :: cs) >>= fun s => words s rest) = .ok o' ↔
      o.Lacks .verbose ∧
        (State.short { options := o.add .verbose } cs >>= fun s => words s rest) = .ok o' := by
  have hshort : State.short { options := o } ('v' :: cs) =
      State.flag { options := o } .verbose none >>= fun s => s.short cs := rfl
  rw [hshort, bind_assoc, words_verbose_iff]

theorem words_input_iff {w : String} (hw : Free w) :
    words { options := o } (w :: rest) = .ok o' ↔
      o.Lacks (.input w) ∧ words { options := o.add (.input w) } rest = .ok o' := by
  have hword : words { options := o } (w :: rest) =
      State.operand { options := o } w >>= fun s => words s rest := by
    rw [words, Word.ofString_of_free hw]
    rfl
  rw [hword, bind_eq_ok_iff]
  simp only [State.operand_eq_ok_iff]
  constructor
  · rintro ⟨_, ⟨_, ⟨⟩, hnone, rfl⟩, h⟩
    obtain ⟨o₁, hs, h⟩ := (words_settle (by simp)).mp h
    obtain ⟨-, rfl⟩ := Options.setInput_eq_ok_iff.mp hs
    exact ⟨hnone, h⟩
  · rintro ⟨hnone, h⟩
    refine ⟨_, ⟨o, rfl, hnone, rfl⟩, (words_settle (by simp)).mpr ⟨_, ?_, h⟩⟩
    exact Options.setInput_eq_ok_iff.mpr ⟨hw.1, rfl⟩

/-- An argument is read if there is room for it. -/
theorem words_argument_iff {a : Argument} {ws : List String} (h : ArgumentText a ws) :
    words { options := o } (ws ++ rest) = .ok o' ↔
      o.Lacks a ∧ words { options := o.add a } rest = .ok o' := by
  cases h with
  | verboseShort => exact words_letter_verbose_iff []
  | verboseLong => exact words_verbose_iff
  | @outputShort v t ws h =>
    have hform : Word.ofString ("-o" ++ t) = .short ('o' :: t.toList) :=
      Word.ofString_short (by simp) (by decide)
    rw [← words_letter_output_iff h, List.cons_append, words, hform]
  | @outputLong v hv =>
    rw [← words_output_iff hv, List.cons_append, words, Word.ofString_output]
    rfl
  | outputApart hv => exact words_waiting_iff hv
  | @verboseOutput v t ws h =>
    have hform : Word.ofString ("-vo" ++ t) = .short ('v' :: 'o' :: t.toList) :=
      Word.ofString_short (by simp) (by decide)
    rw [List.cons_append, words, hform]
    show (State.short { options := o } ('v' :: 'o' :: t.toList) >>= _) = _ ↔ _
    rw [words_letter_verbose_iff, words_letter_output_iff h, ← and_assoc]
    rfl
  | input hw => exact words_input_iff hw

end Reading

/-! ## What is read is an argument -/

section Arguments

variable {o o' : Options} {rest : List String}

/-- A value that is waited for is a free word. -/
theorem exists_free (h : words { options := o, pending := .output none } rest = .ok o') :
    ∃ v rest', Free v ∧ rest = v :: rest' := by
  cases rest with
  | nil => cases h
  | cons w ws =>
    refine ⟨w, ws, ?_, rfl⟩
    have hform := Word.hasForm_ofString w
    rw [words] at h
    generalize Word.ofString w = form, hcs : w.toList = cs at hform h
    have hbad : ∀ {α : Type} {read : State → Except Stop α} {x : α}, Settles read →
        read { options := o, pending := .output none } ≠ .ok x := by
      intro α read x hread hx
      obtain ⟨_, hs, -⟩ := (hread _ _).mp hx
      cases hs
    cases hform with
    | separator => exact absurd h (hbad (Settles.operands _))
    | long => exact absurd h (hbad ((Settles.long _ _).bind _))
    | longValue => exact absurd h (hbad ((Settles.long _ _).bind _))
    | short => exact absurd h (hbad ((Settles.short _ _).bind _))
    | plain hplain =>
      have hword : words { options := o, pending := .output (some w) } ws = .ok o' := h
      obtain ⟨_, hs, -⟩ := (words_settle (by simp)).mp hword
      obtain ⟨-, hne, -⟩ := Options.setOutput_eq_ok_iff.mp hs
      refine ⟨hne, fun hdash => ?_⟩
      rw [hcs] at hdash
      exact String.toList_inj.mp (hcs.trans (hplain hdash))

/-- A value that is given in the word of its option is not empty. -/
theorem ne_empty_of_words_output {v : String}
    (h : (State.flag { options := o } .output (some v) >>= fun s => words s rest) = .ok o') :
    v ≠ "" := by
  have hflag : State.flag { options := o } .output (some v) =
      o.setOutput v >>= fun o₁ => .ok { options := o₁ } := rfl
  rw [hflag, bind_assoc] at h
  obtain ⟨_, hset, -⟩ := bind_eq_ok_iff.mp h
  exact (Options.setOutput_eq_ok_iff.mp hset).2.1

/-- What follows the letter of the output option is a value. -/
theorem exists_valueText {cs : List Char}
    (h : (State.short { options := o } ('o' :: cs) >>= fun s => words s rest) = .ok o') :
    ∃ v t us rest', cs = t.toList ∧ rest = us ++ rest' ∧ ValueText v t us := by
  cases cs with
  | nil =>
    obtain ⟨v, rest', hv, rfl⟩ := exists_free h
    exact ⟨v, "", [v], rest', rfl, rfl, .apart hv⟩
  | cons c cs =>
    by_cases hc : c = '='
    · subst hc
      have hv := ne_empty_of_words_output (v := String.ofList cs) h
      refine ⟨_, _, [], rest, ?_, rfl, .equals hv⟩
      simp
    · have hshort : State.short { options := o } ('o' :: c :: cs) =
          State.flag { options := o } .output (some (String.ofList (c :: cs))) := by
        unfold State.short
        simp only [Flag.ofLetter?]
        split
        · simp_all
        · simp_all
        · rfl
      rw [hshort] at h
      have hv := ne_empty_of_words_output h
      refine ⟨_, _, [], rest, String.toList_ofList.symm, rfl, .joined hv ?_⟩
      rw [String.toList_ofList]
      simpa using hc

theorem exists_argument_long {name : String} {value : Option String}
    (h : (State.long { options := o } name value >>= fun s => words s rest) = .ok o') :
    ∃ a u us rest', ArgumentText a (u :: us) ∧ rest = us ++ rest' ∧
      u.toList = '-' :: '-' :: (name.toList ++ value.elim [] ('=' :: ·.toList)) := by
  unfold State.long at h
  cases hname : Flag.ofName? name with
  | none =>
    rw [hname] at h
    cases h
  | some f =>
    rw [hname] at h
    have hf : f = .output ∧ name = "output" ∨ f = .verbose ∧ name = "verbose" ∨
        f = .help ∨ f = .version := by
      unfold Flag.ofName? at hname
      split at hname <;> simp_all
    rcases hf with ⟨rfl, rfl⟩ | ⟨rfl, rfl⟩ | rfl | rfl
    · cases value with
      | none =>
        obtain ⟨v, rest', hv, rfl⟩ := exists_free h
        exact ⟨_, _, _, rest', .outputApart hv, rfl, rfl⟩
      | some v =>
        have hv := ne_empty_of_words_output h
        exact ⟨_, _, [], rest, .outputLong hv, rfl, by simp⟩
    · cases value with
      | none => exact ⟨_, _, [], rest, .verboseLong, rfl, rfl⟩
      | some v => cases h
    · cases value <;> cases h
    · cases value <;> cases h

/-- A letter that is read is that of the output option or of the verbose one. -/
theorem letter_cases {c : Char} {cs : List Char}
    (h : (State.short { options := o } (c :: cs) >>= fun s => words s rest) = .ok o') :
    c = 'o' ∨ c = 'v' := by
  unfold State.short at h
  cases hletter : Flag.ofLetter? c with
  | none =>
    rw [hletter] at h
    cases h
  | some f =>
    rw [hletter] at h
    have hf : c = 'o' ∨ c = 'v' ∨ f = .help ∨ f = .version := by
      unfold Flag.ofLetter? at hletter
      split at hletter <;> simp_all
    rcases hf with hc | hc | rfl | rfl
    · exact .inl hc
    · exact .inr hc
    · cases h
    · cases h

theorem exists_argument_short {c : Char} {cs : List Char}
    (h : (State.short { options := o } (c :: cs) >>= fun s => words s rest) = .ok o') :
    ∃ a u us rest', ArgumentText a (u :: us) ∧ rest = us ++ rest' ∧ u.toList = '-' :: c :: cs := by
  rcases letter_cases h with rfl | rfl
  · obtain ⟨v, t, us, rest', rfl, hrest, hv⟩ := exists_valueText h
    exact ⟨_, _, us, rest', .outputShort hv, hrest, by simp⟩
  · obtain ⟨-, h⟩ := (words_letter_verbose_iff _).mp h
    cases cs with
    | nil => exact ⟨_, _, [], rest, .verboseShort, rfl, rfl⟩
    | cons c cs =>
      rcases letter_cases h with rfl | rfl
      · obtain ⟨v, t, us, rest', rfl, hrest, hv⟩ := exists_valueText h
        exact ⟨_, _, us, rest', .verboseOutput hv, hrest, by simp⟩
      · -- The verbose option is given twice.
        obtain ⟨hlacks, -⟩ := (words_letter_verbose_iff _).mp h
        cases hlacks

end Arguments

/-- A line that is read begins with the separator or with an argument. -/
theorem exists_argument {o o' : Options} {w : String} {ws : List String}
    (h : words { options := o } (w :: ws) = .ok o') :
    w = "--" ∨ ∃ a us rest, ArgumentText a (w :: us) ∧ ws = us ++ rest := by
  have hform := Word.hasForm_ofString w
  have hplain := h
  rw [words] at h
  generalize Word.ofString w = form, hcs : w.toList = cs at hform h
  cases hform with
  | separator => exact .inl (String.toList_inj.mp hcs)
  | long =>
    obtain ⟨a, u, us, rest, ha, hrest, hu⟩ := exists_argument_long h
    obtain rfl : u = w := String.toList_inj.mp (hu.trans (by simp [hcs]))
    exact .inr ⟨a, us, rest, ha, hrest⟩
  | longValue =>
    obtain ⟨a, u, us, rest, ha, hrest, hu⟩ := exists_argument_long h
    obtain rfl : u = w := String.toList_inj.mp (hu.trans (by simp [hcs]))
    exact .inr ⟨a, us, rest, ha, hrest⟩
  | short =>
    obtain ⟨a, u, us, rest, ha, hrest, hu⟩ := exists_argument_short h
    obtain rfl : u = w := String.toList_inj.mp (hu.trans hcs.symm)
    exact .inr ⟨a, us, rest, ha, hrest⟩
  | plain hdash =>
    obtain ⟨s, hs, h⟩ := bind_eq_ok_iff.mp h
    obtain ⟨_, ⟨⟩, -, rfl⟩ := State.operand_eq_ok_iff.mp hs
    obtain ⟨_, hs, -⟩ := (words_settle (by simp)).mp h
    obtain ⟨hne, -⟩ := Options.setInput_eq_ok_iff.mp hs
    refine .inr ⟨.input w, [], ws, .input ⟨hne, fun hw => ?_⟩, rfl⟩
    rw [hcs] at hw
    exact String.toList_inj.mp (hcs.trans (hdash hw))

/-! ## Lines -/

theorem adds_nil_none_iff {o o' : Options} : Adds o [] none o' ↔ o' = o := by
  obtain ⟨input, output, verbose⟩ := o
  obtain ⟨input', output', verbose'⟩ := o'
  simp only [adds_nil_iff, Option.toList_none, List.append_nil, toList_eq_iff, Options.mk.injEq]
  tauto

theorem adds_nil_some_iff {o o' : Options} {w : String} :
    Adds o [] (some w) o' ↔ o.Lacks (.input w) ∧ o' = o.add (.input w) := by
  obtain ⟨input, output, verbose⟩ := o
  obtain ⟨input', output', verbose'⟩ := o'
  simp only [adds_nil_iff, Option.toList_some, toList_eq_append_cons_iff, Options.Lacks,
    Options.add, Options.mk.injEq, Option.toList_eq_singleton_iff]
  tauto

/-- Words after the separator. -/
theorem operands_eq_ok_iff {o o' : Options} {ws : List String} :
    operands { options := o } ws = .ok o' ↔
      ∃ last, EndText last ("--" :: ws) ∧ Adds o [] last o' := by
  constructor
  · intro h
    cases ws with
    | nil =>
      cases h
      exact ⟨none, .separator, adds_nil_none_iff.mpr rfl⟩
    | cons w ws =>
      obtain ⟨s, hs, h⟩ := bind_eq_ok_iff.mp h
      obtain ⟨_, ⟨⟩, hnone, rfl⟩ := State.operand_eq_ok_iff.mp hs
      obtain ⟨_, hs, h⟩ := (Settles.operands ws _ _).mp h
      obtain ⟨hne, rfl⟩ := Options.setInput_eq_ok_iff.mp hs
      cases ws with
      | nil =>
        cases h
        exact ⟨some w, .input hne, adds_nil_some_iff.mpr ⟨hnone, rfl⟩⟩
      | cons w' ws =>
        -- There is room for one input only.
        obtain ⟨s, hs, -⟩ := bind_eq_ok_iff.mp h
        obtain ⟨_, ⟨⟩, hnone', -⟩ := State.operand_eq_ok_iff.mp hs
        cases hnone'
  · rintro ⟨last, hend, hadds⟩
    cases hend with
    | separator =>
      rw [adds_nil_none_iff.mp hadds]
      rfl
    | @input w hw =>
      obtain ⟨hnone, rfl⟩ := adds_nil_some_iff.mp hadds
      have hread : State.operand { options := o } w =
          .ok { options := o, pending := .input w } :=
        State.operand_eq_ok_iff.mpr ⟨o, rfl, hnone, rfl⟩
      refine bind_eq_ok_iff.mpr ⟨_, hread, ?_⟩
      exact Options.setInput_eq_ok_iff.mpr ⟨hw, rfl⟩

/-- Words are read exactly if they are a line. -/
theorem words_eq_ok_iff {o o' : Options} {line : List String} :
    words { options := o } line = .ok o' ↔ LineText o line o' := by
  induction hn : line.length using Nat.strongRecOn generalizing o line with
  | ind n ih =>
    rw [lineText_iff]
    constructor
    · intro h
      cases line with
      | nil =>
        cases h
        exact .inl ⟨none, .nothing, adds_nil_none_iff.mpr rfl⟩
      | cons w ws =>
        rcases exists_argument h with rfl | ⟨a, us, rest, ha, rfl⟩
        · exact .inl (operands_eq_ok_iff.mp h)
        · obtain ⟨hlacks, h⟩ := (words_argument_iff ha).mp h
          refine .inr ⟨a, w :: us, rest, ha, hlacks, rfl, (ih _ ?_ rfl).mp h⟩
          rw [← hn, List.length_cons, List.length_append]
          omega
    · rintro (⟨last, hend, hadds⟩ | ⟨a, ws, rest, ha, hlacks, rfl, h⟩)
      · cases hend with
        | nothing =>
          rw [adds_nil_none_iff.mp hadds]
          rfl
        | separator => exact operands_eq_ok_iff.mpr ⟨none, .separator, hadds⟩
        | input hw => exact operands_eq_ok_iff.mpr ⟨_, .input hw, hadds⟩
      · refine (words_argument_iff ha).mpr ⟨hlacks, (ih _ ?_ rfl).mpr h⟩
        have hpos : 0 < ws.length := by
          cases ha <;> simp
        rw [← hn, List.length_append]
        omega

/-- The command lines that start a run are those of the language, and what is given to them is what
the run is asked to do. A lone dash is no file to read. -/
theorem parse_eq_ok_iff (line : List String) (o : Options) :
    (parse line = .ok o ↔ LineText {} line o) ∧
      (o.inputPath = none ↔ o.input = none ∨ o.input = some "-") ∧
      ∀ path, o.inputPath = some path ↔ o.input = some path ∧ path ≠ "-" := by
  refine ⟨words_eq_ok_iff, ?_, fun path => ?_⟩
  · unfold Options.inputPath
    rw [Option.filter_eq_none_iff]
    cases o.input <;> simp
  · unfold Options.inputPath
    rw [Option.filter_eq_some_iff]
    simp

/-- A value that looks like the separator, and an input that looks like an option. -/
example : parse ["-vo=--", "--", "-v"] =
    .ok { input := "-v", output := "--", verbose := true } := by
  rfl

end Findings.CommandLine
