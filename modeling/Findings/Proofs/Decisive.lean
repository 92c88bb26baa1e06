import Findings.Proofs.CommandLines

/-!
# The word that decides a command line

Words are read from left to right, and the first that is wrong, or asks for help or the version,
decides: what comes after it is not looked at. After words that are a good line, the reader stands
in a state that settles to the options of that line (`words_append`, `operands_append`), and that is
all that the next word depends on (`State.word_of_decides`).

Main statement: `parse_append_decided`.
-/

namespace Findings.CommandLine

/-! ## Words that decide -/

/-- The word `w` decides a line whose words so far give the options `o`: the line comes to
`stop`. -/
inductive Decides (o : Options) : String → Stop → Prop
  | help {w : String} (hw : w = "-h" ∨ w = "--help") : Decides o w .help
  | version {w : String} (hw : w = "-V" ∨ w = "--version") : Decides o w .version
  | verboseAgain {w : String} (hw : w = "-v" ∨ w = "--verbose") (ho : o.verbose = true) :
    Decides o w .argumentConflict
  | outputAgain {v : String} (hv : v ≠ "") (ho : o.output ≠ none) :
    Decides o ("--output=" ++ v) .argumentConflict
  | unknownName {name w : String} (hne : name ≠ "") (hequals : '=' ∉ name.toList)
    (hname : name ∉ ["output", "verbose", "help", "version"])
    (hw : w = "--" ++ name ∨ ∃ v, w = "--" ++ name ++ "=" ++ v) : Decides o w .unknownArgument
  | unknownLetter {c : Char} {w : String} {cs : List Char} (hw : w.toList = '-' :: c :: cs)
    (hc : c ∉ ['o', 'v', 'h', 'V', '-']) : Decides o w .unknownArgument
  | inputAgain {w : String} (hne : w ≠ "") (hdash : w.toList.head? ≠ some '-')
    (ho : o.input ≠ none) : Decides o w .unknownArgument

/-! ## Words one by one -/

/-- Reads a word that is not the separator. -/
def State.word (s : State) (w : String) : Except Stop State :=
  match Word.ofString w with
  | .separator => .ok s
  | .long name value => s.long name value
  | .short letters => s.short letters
  | .plain => s.plain w

theorem Word.ofString_eq_separator_iff {w : String} : ofString w = .separator ↔ w = "--" := by
  constructor
  · intro h
    have hform := hasForm_ofString w
    rw [h] at hform
    generalize hcs : w.toList = cs at hform
    cases hform with
    | separator => exact String.toList_inj.mp hcs
  · rintro rfl
    rfl

theorem words_cons {s : State} {w : String} (hw : w ≠ "--") (ws : List String) :
    words s (w :: ws) = s.word w >>= fun s' => words s' ws := by
  have hform : Word.ofString w ≠ .separator := fun h => hw (Word.ofString_eq_separator_iff.mp h)
  rw [words, State.word]
  cases h : Word.ofString w with
  | separator => exact absurd h hform
  | _ => rfl

/-- Words that are read leave a state that stands for them, whatever comes next. -/
theorem words_append {s : State} {a : List String} {o : Options} (h : words s a = .ok o)
    (hsep : "--" ∉ a) : ∃ s', s'.settle = .ok o ∧ ∀ ws, words s (a ++ ws) = words s' ws := by
  induction a generalizing s with
  | nil => exact ⟨s, h, fun _ => rfl⟩
  | cons w a ih =>
    have hw : w ≠ "--" := fun he => hsep (he ▸ List.mem_cons_self)
    rw [words_cons hw] at h
    obtain ⟨s₁, h₁, h⟩ := bind_eq_ok_iff.mp h
    obtain ⟨s', hs', happend⟩ := ih h fun hmem => hsep (List.mem_cons_of_mem _ hmem)
    refine ⟨s', hs', fun ws => ?_⟩
    rw [List.cons_append, words_cons hw, h₁]
    exact happend ws

theorem operands_append {s : State} {a : List String} {o : Options} (h : operands s a = .ok o) :
    ∃ s', s'.settle = .ok o ∧ ∀ ws, operands s (a ++ ws) = operands s' ws := by
  induction a generalizing s with
  | nil => exact ⟨s, h, fun _ => rfl⟩
  | cons w a ih =>
    obtain ⟨s₁, h₁, h⟩ := bind_eq_ok_iff.mp h
    obtain ⟨s', hs', happend⟩ := ih h
    refine ⟨s', hs', fun ws => ?_⟩
    rw [List.cons_append, operands, h₁]
    exact happend ws

/-- After the separator all words are operands, those that come next as well. -/
theorem words_append_separated {s : State} {a : List String} {o : Options}
    (h : words s a = .ok o) (hsep : "--" ∈ a) :
    ∃ s', s'.settle = .ok o ∧ ∀ ws, words s (a ++ ws) = operands s' ws := by
  induction a generalizing s with
  | nil => cases hsep
  | cons w a ih =>
    by_cases hw : w = "--"
    · subst hw
      exact operands_append h
    · rw [words_cons hw] at h
      obtain ⟨s₁, h₁, h⟩ := bind_eq_ok_iff.mp h
      have hmem : "--" ∈ a := (List.mem_cons.mp hsep).resolve_left (Ne.symm hw)
      obtain ⟨s', hs', happend⟩ := ih h hmem
      refine ⟨s', hs', fun ws => ?_⟩
      rw [List.cons_append, words_cons hw, h₁]
      exact happend ws

/-! ## The next word -/

/-- A long option is cut at its first equals sign. -/
theorem Word.ofString_long {w : String} {name rest : List Char} (hne : name ≠ [])
    (hequals : '=' ∉ name) (hrest : rest = [] ∨ ∃ value, rest = '=' :: value)
    (hw : w.toList = '-' :: '-' :: (name ++ rest)) :
    ∃ value, ofString w = .long (String.ofList name) value := by
  have hname : ∀ c ∈ name, (c != '=') = true := by
    intro c hc
    rw [bne_iff_ne]
    rintro rfl
    exact hequals hc
  have htake : (name ++ rest).takeWhile (· != '=') = name := by
    rw [List.takeWhile_append_of_pos hname]
    rcases hrest with rfl | ⟨value, rfl⟩ <;> simp
  have hdrop : (name ++ rest).dropWhile (· != '=') = rest := by
    rw [List.dropWhile_append_of_pos hname]
    rcases hrest with rfl | ⟨value, rfl⟩ <;> simp
  unfold ofString
  rw [hw]
  split
  · rename_i h
    simp only [List.cons.injEq, List.append_eq_nil_iff, true_and] at h
    exact absurd h.1 hne
  · rename_i letters _ h
    obtain rfl : name ++ rest = letters := by simpa using h
    simp only [htake, hdrop]
    rcases hrest with rfl | ⟨value, rfl⟩
    · exact ⟨none, rfl⟩
    · exact ⟨some _, rfl⟩
  · rename_i h
    simp at h
  · rename_i hlong _ h
    exact absurd (List.cons.inj h).2.symm (hlong (name ++ rest))
  · rename_i hlong _ _
    exact absurd rfl (hlong (name ++ rest))

/-- A name is read as it is, with a value or without. -/
theorem Word.exists_ofString_name {name w : String} (hne : name ≠ "") (hequals : '=' ∉ name.toList)
    (hw : w = "--" ++ name ∨ ∃ v, w = "--" ++ name ++ "=" ++ v) :
    ∃ value, ofString w = .long name value := by
  have hname : name.toList ≠ [] := fun hnil => hne (String.toList_eq_nil_iff.mp hnil)
  rw [← String.ofList_toList (s := name)]
  rcases hw with rfl | ⟨v, rfl⟩
  · exact ofString_long hname hequals (.inl rfl) (by simp)
  · exact ofString_long hname hequals (.inr ⟨v.toList, rfl⟩) (by simp)

theorem Flag.ofName?_eq_none {name : String}
    (h : name ∉ ["output", "verbose", "help", "version"]) : ofName? name = none := by
  unfold ofName?
  split <;> simp_all

theorem Flag.ofLetter?_eq_none {c : Char} (h : c ∉ ['o', 'v', 'h', 'V']) :
    ofLetter? c = none := by
  unfold ofLetter?
  split <;> simp_all

namespace State

variable {s : State} {o : Options}

/-- An option begins with what is pending being settled. -/
theorem flag_of_settle (h : s.settle = .ok o) (f : Flag) (attached : Option String) :
    s.flag f attached = State.flag { options := o } f attached := by
  unfold flag
  rw [h]
  rfl

theorem pending_ne_of_settle (h : s.settle = .ok o) : s.pending ≠ .output none := by
  intro hp
  unfold settle at h
  rw [hp] at h
  cases h

/-- There is room for one input. -/
theorem operand_of_input (h : s.settle = .ok o) (ho : o.input ≠ none) (w : String) :
    s.operand w = .error .unknownArgument := by
  have hinput : s.hasInput = true := by
    rw [hasInput_of_settle h]
    exact Option.isSome_iff_ne_none.mpr ho
  unfold operand
  rw [hinput]
  rfl

theorem short_unknown {c : Char} (hc : Flag.ofLetter? c = none) (cs : List Char) :
    s.short (c :: cs) = .error .unknownArgument := by
  unfold short
  rw [hc]

theorem long_unknown {name : String} (hname : Flag.ofName? name = none) (value : Option String) :
    s.long name value = .error .unknownArgument := by
  unfold long
  rw [hname]

section Refused

variable {f : Flag} {stop : Stop} {w : String}

/-- The letter of an option that is refused. -/
theorem word_of_letter {c : Char} (hflag : s.flag f none = .error stop)
    (hw : Word.ofString w = .short [c]) (hc : Flag.ofLetter? c = some f) :
    s.word w = .error stop := by
  rw [word, hw]
  show s.short [c] = _
  unfold short
  rw [hc]
  cases f with
  | output => exact hflag
  | _ => exact congrArg (· >>= fun s => s.short []) hflag

/-- The name of an option that is refused. -/
theorem word_of_name {name : String} (hflag : s.flag f none = .error stop)
    (hw : Word.ofString w = .long name none) (hname : Flag.ofName? name = some f) :
    s.word w = .error stop := by
  rw [word, hw]
  show s.long name none = _
  unfold long
  rw [hname]
  cases f <;> exact hflag

end Refused

/-- A word that decides is refused in every state that settles to the options so far. -/
theorem word_of_decides {w : String} {stop : Stop} (h : s.settle = .ok o)
    (hw : Decides o w stop) : s.word w = .error stop := by
  cases hw with
  | help hw =>
    have hflag : s.flag .help none = .error .help := by
      rw [flag_of_settle h]
      rfl
    rcases hw with rfl | rfl
    · exact word_of_letter hflag rfl rfl
    · exact word_of_name hflag rfl rfl
  | version hw =>
    have hflag : s.flag .version none = .error .version := by
      rw [flag_of_settle h]
      rfl
    rcases hw with rfl | rfl
    · exact word_of_letter hflag rfl rfl
    · exact word_of_name hflag rfl rfl
  | verboseAgain hw ho =>
    have hset : o.setVerbose = .error .argumentConflict := by
      unfold Options.setVerbose
      rw [if_pos ho]
    have hflag : s.flag .verbose none = .error .argumentConflict := by
      rw [flag_of_settle h]
      show o.setVerbose >>= _ = _
      rw [hset]
      rfl
    rcases hw with rfl | rfl
    · exact word_of_letter hflag rfl rfl
    · exact word_of_name hflag rfl rfl
  | @outputAgain v hv ho =>
    have hset : o.setOutput v = .error .argumentConflict := by
      unfold Options.setOutput
      rw [if_pos (Option.isSome_iff_ne_none.mpr ho)]
    rw [word, Word.ofString_output]
    show s.flag .output (some v) = _
    rw [flag_of_settle h]
    show o.setOutput v >>= _ = _
    rw [hset]
    rfl
  | @unknownName name _ hne hequals hname hw =>
    obtain ⟨value, hform⟩ := Word.exists_ofString_name hne hequals hw
    rw [word, hform]
    exact long_unknown (Flag.ofName?_eq_none hname) value
  | @unknownLetter c _ cs hw hc =>
    have hdash : c ≠ '-' := by
      rintro rfl
      exact hc (by simp)
    have hletter : c ∉ ['o', 'v', 'h', 'V'] := fun hmem =>
      hc (List.mem_append_left ['-'] hmem)
    rw [word, Word.ofString_short hw hdash]
    exact short_unknown (Flag.ofLetter?_eq_none hletter) cs
  | inputAgain hne hdash ho =>
    rw [word, Word.ofString_of_free ⟨hne, fun hd => absurd hd hdash⟩]
    show s.plain w = _
    unfold plain
    split
    · rename_i hp
      exact absurd hp (pending_ne_of_settle h)
    · exact operand_of_input h ho w

end State

theorem Decides.ne_separator {o : Options} {w : String} {stop : Stop} (h : Decides o w stop) :
    w ≠ "--" := by
  rintro rfl
  have hword := State.word_of_decides (s := { options := o }) rfl h
  cases hword

/-! ## Lines -/

/-- After words that are a good line, a word that decides settles what the line comes to, whatever
follows it. If the separator is among those words, no word decides but by being one too many: the
next one is the input, however it looks, and refused if there is an input already. -/
theorem parse_append_decided (a : List String) (o : Options) (h : parse a = .ok o) :
    ("--" ∉ a → ∀ x stop, Decides o x stop → ∀ b, parse (a ++ x :: b) = .error stop) ∧
    ("--" ∈ a → ∀ x, x ≠ "" →
      (o.input = none → parse (a ++ [x]) = .ok { o with input := some x }) ∧
      (o.input ≠ none → ∀ b, parse (a ++ x :: b) = .error .unknownArgument)) := by
  refine ⟨?_, ?_⟩
  · intro hsep x stop hx b
    obtain ⟨s, hs, happend⟩ := words_append h hsep
    show words {} (a ++ x :: b) = _
    rw [happend, words_cons hx.ne_separator, State.word_of_decides hs hx]
    rfl
  · intro hsep x hx
    obtain ⟨s, hs, happend⟩ := words_append_separated h hsep
    refine ⟨?_, ?_⟩
    · intro ho
      have hread : s.operand x = .ok { options := o, pending := .input x } :=
        State.operand_eq_ok_iff.mpr ⟨o, hs, ho, rfl⟩
      show words {} (a ++ [x]) = _
      rw [happend, operands, hread]
      exact Options.setInput_eq_ok_iff.mpr ⟨hx, rfl⟩
    · intro ho b
      show words {} (a ++ x :: b) = _
      rw [happend, operands, State.operand_of_input hs ho]
      rfl

/-- A request for help after the value of an option, and one that comes after the separator. -/
theorem parse_append_decided_help :
    parse ["-vo", "-"] = .ok { output := some "-", verbose := true } ∧
      parse ["-vo", "-", "--help", "-o"] = .error .help ∧
      parse ["--"] = .ok {} ∧ parse ["--", "--help"] = .ok { input := some "--help" } := by
  have hoptions : parse ["-vo", "-"] = .ok { output := some "-", verbose := true } := rfl
  have hseparator : parse ["--"] = .ok {} := rfl
  obtain ⟨hopen, -⟩ := parse_append_decided _ _ hoptions
  obtain ⟨-, hclosed⟩ := parse_append_decided _ _ hseparator
  refine ⟨hoptions, ?_, hseparator, ?_⟩
  · exact hopen (by decide) "--help" .help (.help (.inr rfl)) ["-o"]
  · exact (hclosed (by decide) "--help" (by decide)).1 rfl

end Findings.CommandLine
