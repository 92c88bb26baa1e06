import Findings.Json.StringLiteral

/-!
# Sequences and objects

What stands between the elements of a sequence and between the entries of an object, and how both
end. A comma must be followed by another element or entry. The closing bracket is left where it is
by the loops over elements and entries and used up by `endSequence` and `endObject`.

## Why the loops end

After the first round a comma is used up before each element or entry (`leads_nextElement`,
`leads_nextKey`).
-/

namespace Findings.Json.Decoder

variable {ε α σ : Type}

/-! ## Sequences -/

/-- Whether there is another element. A comma before it is used up. -/
def nextElement (first : Bool) : Decoder ε Bool := do
  match ← blank with
  | none => failNext .endInSequence
  | some b =>
    if b = ']'.toUInt8 then return false
    else if first then return true
    else if b = ','.toUInt8 then
      eat
      match ← blank with
      | none => failNext .endInValue
      | some b' => if b' = ']'.toUInt8 then failNext .trailingComma else return true
    else failNext .noCommaOrBracket

/-- Reads the closing bracket of a sequence. A comma before it is one too many; what follows that
comma decides the wording, and a stream that breaks off there is not told. -/
def endSequence : Decoder ε Unit := do
  match ← blank with
  | none => failNext .endInSequence
  | some b =>
    if b = ']'.toUInt8 then eat
    else if b = ','.toUInt8 then
      eat
      failAfter blank fun o =>
        if o = some (some ']'.toUInt8) then .trailingComma else .trailingCharacters
    else failNext .trailingCharacters

/-! ## Objects -/

/-- Whether there is another entry. A comma before it is used up; its quote is not. -/
def nextKey (first : Bool) : Decoder ε Bool := do
  match ← blank with
  | none => failNext .endInObject
  | some b =>
    if b = '\x7d'.toUInt8 then return false
    else if first then
      if b = '"'.toUInt8 then return true else failNext .noKey
    else if b = ','.toUInt8 then
      eat
      match ← blank with
      | none => failNext .endInValue
      | some b' =>
        if b' = '"'.toUInt8 then return true
        else if b' = '\x7d'.toUInt8 then failNext .trailingComma
        else failNext .noKey
    else failNext .noCommaOrBrace

/-- Reads the closing brace of an object. -/
def endObject : Decoder ε Unit := do
  match ← blank with
  | none => failNext .endInObject
  | some b =>
    if b = '\x7d'.toUInt8 then eat
    else if b = ','.toUInt8 then failNext .trailingComma
    else failNext .trailingCharacters

/-- Reads the colon between a key and its value. -/
def colon : Decoder ε Unit := do
  match ← blank with
  | none => failNext .endInObject
  | some b => if b = ':'.toUInt8 then eat else failNext .noColon

/-! ## Loops -/

/-- What follows a byte that is used up leaves fewer bytes. -/
theorem lt_of_eat_bind {d : Decoder ε α} {c c' : Cursor} {a : α} {b : UInt8} {r : List UInt8}
    (hc : c.rest = b :: r) (h : (eat >>= fun _ => d).run c = .ok a c') :
    c'.unread.length < c.unread.length := by
  rw [run_bind_ok (run_eat_cons hc)] at h
  rw [Cursor.unread_of_rest_cons hc]
  exact Nat.lt_succ_of_le (reaches_of_ok h).length_le

theorem leads_nextElement : Leads (nextElement false : Decoder ε Bool) := by
  intro c c' h
  unfold nextElement at h
  rw [run_bind] at h
  split at h
  · rename_i o c₁ hb
    refine Nat.lt_of_lt_of_le ?_ (reaches_of_ok hb).length_le
    cases o with
    | none => simp [failNext] at h
    | some b =>
      obtain ⟨r, hr⟩ := rest_of_blank hb
      simp only [Bool.false_eq_true, if_false] at h
      split at h
      · simp at h
      · split at h
        · exact lt_of_eat_bind hr h
        · simp [failNext] at h
  · simp at h

theorem leads_nextKey : Leads (nextKey false : Decoder ε Bool) := by
  intro c c' h
  unfold nextKey at h
  rw [run_bind] at h
  split at h
  · rename_i o c₁ hb
    refine Nat.lt_of_lt_of_le ?_ (reaches_of_ok hb).length_le
    cases o with
    | none => simp [failNext] at h
    | some b =>
      obtain ⟨r, hr⟩ := rest_of_blank hb
      simp only [Bool.false_eq_true, if_false] at h
      split at h
      · simp at h
      · split at h
        · exact lt_of_eat_bind hr h
        · simp [failNext] at h
  · simp at h

/-- Reads the elements of a sequence, up to its closing bracket. -/
def elements (element : Decoder ε α) : Decoder ε (List α) := do
  if ← nextElement true then
    let read (done : List α) : Decoder ε (List α) := do
      return (← element) :: done
    return (← whileNext (nextElement false) leads_nextElement read (← read [])).reverse
  else return []

/-- Reads the entries of an object, up to its closing brace; `entry` begins at the quote of a
key. -/
def entries (entry : σ → Decoder ε σ) (s : σ) : Decoder ε σ := do
  if ← nextKey true then whileNext (nextKey false) leads_nextKey entry (← entry s)
  else return s

end Findings.Json.Decoder
