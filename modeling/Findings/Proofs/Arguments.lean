import Findings.CommandLine.Options
import Mathlib.Data.List.Forall2
import Mathlib.Tactic.MkIffOfInductiveProp

/-!
# The language of command lines

What is a command line, said without a reader: how an argument is written, what may end a line, and
what the arguments of a line give together. Arguments come in any order, but each option and the
input at most once (`Adds`), and a line can be taken apart argument by argument (`lineText_iff`).

The form of a word is said by its letters (`Word.HasForm`), which is how a word that is read is
compared with the words of an argument.
-/

namespace Findings.CommandLine

/-! ## The language -/

/-- Whether a word of its own can stand for a value. A lone dash can, any other word with a dash in
front cannot. -/
def Free (w : String) : Prop :=
  w ≠ "" ∧ (w.toList.head? = some '-' → w = "-")

/-- How a value follows the letter of the output option: in the rest of its word, or after it. -/
inductive ValueText (v : String) : String → List String → Prop
  | joined (hv : v ≠ "") (he : v.toList.head? ≠ some '=') : ValueText v v []
  | equals (hv : v ≠ "") : ValueText v ("=" ++ v) []
  | apart (hv : Free v) : ValueText v "" [v]

/-- What a command line says in one place; the two options may share a word. -/
inductive Argument where
  | verbose
  | output (value : String)
  | verboseOutput (value : String)
  | input (value : String)

/-- The words of an argument. -/
inductive ArgumentText : Argument → List String → Prop
  | verboseShort : ArgumentText .verbose ["-v"]
  | verboseLong : ArgumentText .verbose ["--verbose"]
  | outputShort {v t : String} {ws : List String} (h : ValueText v t ws) :
    ArgumentText (.output v) (("-o" ++ t) :: ws)
  | outputLong {v : String} (hv : v ≠ "") : ArgumentText (.output v) ["--output=" ++ v]
  | outputApart {v : String} (hv : Free v) : ArgumentText (.output v) ["--output", v]
  | verboseOutput {v t : String} {ws : List String} (h : ValueText v t ws) :
    ArgumentText (.verboseOutput v) (("-vo" ++ t) :: ws)
  | input {w : String} (hw : Free w) : ArgumentText (.input w) [w]

/-- The words at the end of a line: a separator, and after it any word for the input. -/
inductive EndText : Option String → List String → Prop
  | nothing : EndText none []
  | separator : EndText none ["--"]
  | input {w : String} (hw : w ≠ "") : EndText (some w) ["--", w]

namespace Argument

def isVerbose : Argument → Bool
  | verbose => true
  | verboseOutput _ => true
  | _ => false

def output? : Argument → Option String
  | output v => some v
  | verboseOutput v => some v
  | _ => none

def input? : Argument → Option String
  | input w => some w
  | _ => none

end Argument

/-- What arguments and an ending add to the options `o`. Nothing is given twice, neither among them
nor by `o` already. -/
@[mk_iff]
structure Adds (o : Options) (args : List Argument) (last : Option String) (o' : Options) :
    Prop where
  verbose : o'.verbose.toNat = o.verbose.toNat + args.countP Argument.isVerbose
  output : o'.output.toList = o.output.toList ++ args.filterMap Argument.output?
  input : o'.input.toList = o.input.toList ++ (args.filterMap Argument.input? ++ last.toList)

/-- The words that lead from the options `o` to `o'`. -/
def LineText (o : Options) (line : List String) (o' : Options) : Prop :=
  ∃ args wss last tail, List.Forall₂ ArgumentText args wss ∧ EndText last tail ∧
    line = wss.flatten ++ tail ∧ Adds o args last o'

/-! ## Arguments one by one -/

/-- An option holds at most one value, so there was none before the one that is added. -/
theorem toList_eq_append_cons_iff {α : Type} {a b : Option α} {x : α} {xs : List α} :
    b.toList = a.toList ++ x :: xs ↔ a = none ∧ b.toList = x :: xs := by
  cases a with
  | none => simp
  | some y => cases b <;> simp

theorem toList_eq_iff {α : Type} {a b : Option α} : b.toList = a.toList ↔ b = a := by
  cases a <;> cases b <;> simp

/-- The options with what one argument says. -/
def Options.add (o : Options) : Argument → Options
  | .verbose => { o with verbose := true }
  | .output v => { o with output := some v }
  | .verboseOutput v => { o with output := some v, verbose := true }
  | .input w => { o with input := some w }

/-- Whether the options leave room for an argument. -/
def Options.Lacks (o : Options) : Argument → Prop
  | .verbose => o.verbose = false
  | .output _ => o.output = none
  | .verboseOutput _ => o.verbose = false ∧ o.output = none
  | .input _ => o.input = none

section Adds

variable {o o' : Options} {a : Argument} {args : List Argument} {last : Option String}

theorem adds_nil_iff :
    Adds o [] last o' ↔ o'.verbose = o.verbose ∧ o'.output = o.output ∧
      o'.input.toList = o.input.toList ++ last.toList := by
  have hverbose : o'.verbose.toNat = o.verbose.toNat ↔ o'.verbose = o.verbose := by
    cases o.verbose <;> cases o'.verbose <;> simp
  simp [adds_iff, hverbose, toList_eq_iff]

/-- Arguments add what the first of them does and then the others do. -/
theorem adds_cons_iff : Adds o (a :: args) last o' ↔ o.Lacks a ∧ Adds (o.add a) args last o' := by
  have hverbose : ∀ n : Nat, o'.verbose.toNat = o.verbose.toNat + (n + 1) ↔
      o.verbose = false ∧ o'.verbose.toNat = 1 + n := by
    intro n
    cases o.verbose <;> cases o'.verbose <;> simp
    omega
  simp only [adds_iff, List.countP_cons, List.filterMap_cons]
  cases a with
  | verbose =>
    simp [Options.Lacks, Options.add, Argument.isVerbose, Argument.output?, Argument.input?,
      hverbose, and_assoc]
  | output v =>
    simp [Options.Lacks, Options.add, Argument.isVerbose, Argument.output?, Argument.input?,
      toList_eq_append_cons_iff, and_assoc, and_left_comm]
  | verboseOutput v =>
    simp [Options.Lacks, Options.add, Argument.isVerbose, Argument.output?, Argument.input?,
      hverbose, toList_eq_append_cons_iff, and_assoc, and_left_comm]
  | input w =>
    simp [Options.Lacks, Options.add, Argument.isVerbose, Argument.output?, Argument.input?,
      toList_eq_append_cons_iff, and_left_comm]

end Adds

/-- A line is an ending, or an argument and a line after it. -/
theorem lineText_iff {o o' : Options} {line : List String} :
    LineText o line o' ↔ (∃ last, EndText last line ∧ Adds o [] last o') ∨
      ∃ a ws rest, ArgumentText a ws ∧ o.Lacks a ∧ line = ws ++ rest ∧
        LineText (o.add a) rest o' := by
  constructor
  · rintro ⟨args, wss, last, tail, hargs, htail, rfl, hadds⟩
    cases hargs with
    | nil => exact .inl ⟨last, htail, hadds⟩
    | cons ha hargs =>
      obtain ⟨hlacks, hadds⟩ := adds_cons_iff.mp hadds
      exact .inr ⟨_, _, _, ha, hlacks, by simp, _, _, last, tail, hargs, htail, rfl, hadds⟩
  · rintro (⟨last, htail, hadds⟩ | ⟨a, ws, rest, ha, hlacks, rfl, h⟩)
    · exact ⟨[], [], last, line, .nil, htail, rfl, hadds⟩
    · obtain ⟨args, wss, last, tail, hargs, htail, rfl, hadds⟩ := h
      exact ⟨a :: args, ws :: wss, last, tail, .cons ha hargs, htail, by simp,
        adds_cons_iff.mpr ⟨hlacks, hadds⟩⟩

/-! ## Words by their form -/

namespace Word

/-- What the letters of a word say of its form. -/
inductive HasForm : List Char → Word → Prop
  | separator : HasForm ['-', '-'] .separator
  | long {name : List Char} : HasForm ('-' :: '-' :: name) (.long (String.ofList name) none)
  | longValue {name value : List Char} : HasForm ('-' :: '-' :: (name ++ '=' :: value))
    (.long (String.ofList name) (some (String.ofList value)))
  | short {c : Char} {cs : List Char} : HasForm ('-' :: c :: cs) (.short (c :: cs))
  | plain {cs : List Char} (h : cs.head? = some '-' → cs = ['-']) : HasForm cs .plain

theorem hasForm_ofString (w : String) : HasForm w.toList (ofString w) := by
  unfold ofString
  split
  · rename_i h
    rw [h]
    exact .separator
  · rename_i cs _ h
    rw [h]
    have hcs := List.takeWhile_append_dropWhile (p := (· != '=')) (l := cs)
    simp only
    split
    · rename_i hd
      rw [hd, List.append_nil] at hcs
      rw [hcs]
      exact .long
    · rename_i c value hd
      -- The character after the name is the one that ends it.
      have hc : c = '=' := by
        have hhead := List.head?_dropWhile_not (· != '=') cs
        rw [hd] at hhead
        simpa using hhead
      rw [hd, hc] at hcs
      nth_rewrite 1 [← hcs]
      exact .longValue
  · rename_i h
    rw [h]
    exact .plain fun _ => rfl
  · rename_i letters _ _ hne h
    rw [h]
    cases letters with
    | nil => exact absurd rfl hne
    | cons c cs => exact .short
  · rename_i hne
    refine .plain fun h => ?_
    obtain ⟨t, ht⟩ := List.head?_eq_some_iff.mp h
    exact absurd ht (hne t)

theorem ofString_of_free {w : String} (h : Free w) : ofString w = .plain := by
  have hdash : w.toList.head? = some '-' → w.toList = ['-'] := fun hw => by rw [h.2 hw]; rfl
  have hform := hasForm_ofString w
  generalize ofString w = form, w.toList = cs at hform hdash
  cases hform with
  | plain => rfl
  | separator => simp at hdash
  | long => simp at hdash
  | longValue => simp at hdash
  | short => simp at hdash

theorem ofString_short {w : String} {c : Char} {cs : List Char} (h : w.toList = '-' :: c :: cs)
    (hc : c ≠ '-') : ofString w = .short (c :: cs) := by
  have hform := hasForm_ofString w
  rw [h] at hform
  generalize ofString w = form at hform
  cases hform with
  | short => rfl
  | separator => exact absurd rfl hc
  | long => exact absurd rfl hc
  | longValue => exact absurd rfl hc
  | plain hplain => exact absurd (hplain rfl) (by simp)

theorem ofString_output (v : String) : ofString ("--output=" ++ v) = .long "output" (some v) := by
  have h : ("--output=" ++ v).toList = "--output=".toList ++ v.toList := String.toList_append
  unfold ofString
  rw [h]
  simp

end Word

end Findings.CommandLine
