import Findings.Proofs.Reports
import Findings.Report.Encoding

/-!
# What is written is read back

A written report is a document that holds it, and so it is decoded to the same report, from a text
and from a stream (`decode_toJson`). Nothing is run for this: each writer writes the language that
the decoder of its value reads.
-/

namespace Findings

open Json
open Text.Utf8 (encode encodeChar encodeChar_of_lt)

/-! ## Texts -/

theorem encode_singleton (c : Char) : encode [c] = encodeChar c := by
  rw [Text.Utf8.encode_cons, Text.Utf8.encode_nil, List.append_nil]

/-- The digits of the writer are those of the grammar. -/
theorem hexDigit_digitChar {n : Nat} (h : n < 16) :
    HexDigit n n.digitChar.toUInt8 ∧ encodeChar n.digitChar = [n.digitChar.toUInt8] := by
  have all : ∀ n < 16, encodeChar n.digitChar = [n.digitChar.toUInt8] := by
    decide
  exact ⟨⟨h, .inl rfl⟩, all n h⟩

/-- A control without a letter of its own is written by its number. -/
theorem charText_numbered {c : Char} (h : c.toNat < 0x20) :
    CharText c (encode (Writer.numbered c)) := by
  have hzero : HexDigit 0 '0'.toUInt8 := ⟨by decide, .inl rfl⟩
  obtain ⟨hhigh, hhigh'⟩ := hexDigit_digitChar (n := c.toNat / 16) (by omega)
  obtain ⟨hlow, hlow'⟩ := hexDigit_digitChar (n := c.toNat % 16) (by omega)
  have hnumber := HexText.quad hzero hzero hhigh hlow
  have hvalue : 0 * 4096 + 0 * 256 + c.toNat / 16 * 16 + c.toNat % 16 = c.toNat := by
    omega
  rw [hvalue] at hnumber
  have hencode : encode (Writer.numbered c) = '\\'.toUInt8 :: 'u'.toUInt8 ::
      ['0'.toUInt8, '0'.toUInt8, (c.toNat / 16).digitChar.toUInt8,
        (c.toNat % 16).digitChar.toUInt8] := by
    rw [Writer.numbered]
    simp only [Text.Utf8.encode_cons, Text.Utf8.encode_nil, hhigh', hlow']
    rfl
  rw [hencode]
  exact .escape (.number hnumber)

/-- A character is written so that it stands for itself or as an escape of itself. -/
theorem charText_textChar (c : Char) : CharText c (encode (Writer.textChar c)) := by
  unfold Writer.textChar
  split
  · exact .escape (.short (l := '"') (by decide))
  · exact .escape (.short (l := '\\') (by decide))
  · exact .escape (.short (l := 'b') (by decide))
  · exact .escape (.short (l := 't') (by decide))
  · exact .escape (.short (l := 'n') (by decide))
  · exact .escape (.short (l := 'f') (by decide))
  · exact .escape (.short (l := 'r') (by decide))
  · rename_i hquote hslash _ _ _ _ _
    split
    · rename_i hlt
      exact charText_numbered hlt
    · rename_i hlt
      rw [encode_singleton]
      exact .itself (by omega) (fun h => hquote h) (fun h => hslash h)

theorem charsText_flatMap (cs : List Char) :
    CharsText cs (encode (cs.flatMap Writer.textChar)) := by
  induction cs with
  | nil => exact .nil
  | cons c cs ih =>
    rw [List.flatMap_cons, Text.Utf8.encode_append]
    exact .cons (charText_textChar c) ih

theorem encode_text (s : String) :
    encode (Writer.text s) = quote (encode (s.toList.flatMap Writer.textChar)) := by
  rw [Writer.text, List.cons_append, Text.Utf8.encode_cons, Text.Utf8.encode_append,
    encode_singleton]
  rfl

theorem isText_text (s : String) : IsText s (encode (Writer.text s)) :=
  ⟨_, charsText_flatMap s.toList, encode_text s⟩

/-! ## Numbers -/

theorem encodeChar_digitChar {n : Nat} (h : n < 10) : encodeChar n.digitChar = [digitByte n] := by
  have all : ∀ n < 10, encodeChar n.digitChar = [digitByte n] := by
    decide
  exact all n h

theorem digitsText_concat {ds : List Nat} {d : Nat} {x : List UInt8} (h : DigitsText ds x)
    (hd : d < 10) : DigitsText (ds ++ [d]) (x ++ [digitByte d]) := by
  obtain ⟨hds, rfl⟩ := h
  refine ⟨fun e he => ?_, by rw [List.map_append, List.map_singleton]⟩
  rcases List.mem_append.mp he with he | he
  · exact hds e he
  · rw [List.mem_singleton.mp he]
    exact hd

theorem decimal_concat (n : Nat) (ds : List Nat) (d : Nat) :
    decimal n (ds ++ [d]) = decimal n ds * 10 + d := by
  simp [decimal]

/-- The digits of a number are written with no zero before them. -/
theorem exists_digits (n : Nat) : ∃ ds, DigitsText ds (encode (Writer.natural n)) ∧
    n = decimal 0 ds ∧ ds ≠ [] ∧ (ds.head? = some 0 → ds = [0]) := by
  induction n using Nat.strongRecOn with
  | ind n ih =>
    rw [Writer.natural, Nat.toDigits_eq_if (by decide)]
    split
    · rename_i hlt
      refine ⟨[n], ⟨by simpa using hlt, ?_⟩, by simp, by simp, fun h => ?_⟩
      · rw [encode_singleton, encodeChar_digitChar hlt]
        rfl
      · rw [Option.some.inj h]
    · rename_i hlt
      obtain ⟨ds, hds, hn, hne, hzero⟩ := ih (n / 10) (by omega)
      have hlast : n % 10 < 10 := Nat.mod_lt _ (by decide)
      refine ⟨ds ++ [n % 10], ?_, ?_, by simp, fun h => ?_⟩
      · rw [Text.Utf8.encode_append, encode_singleton, encodeChar_digitChar hlast]
        exact digitsText_concat hds hlast
      · rw [decimal_concat, ← hn]
        omega
      · -- The digits before the last one are those of a number that is not zero.
        rw [List.head?_append_of_ne_nil _ hne] at h
        rw [hzero h] at hn
        have h0 : n / 10 = 0 := hn
        omega

theorem isNatural_natural (n : Nat) : IsNatural n (encode (Writer.natural n)) := by
  obtain ⟨ds, hds, hn, hne, hzero⟩ := exists_digits n
  exact ⟨ds, ⟨hds, hne, hzero⟩, hn⟩

/-! ## Containers -/

/-- Items between their brackets, with commas and no white space. -/
def enclose (first last : UInt8) : List (List UInt8) → List UInt8
  | [] => [first, last]
  | x :: xs => first :: (x ++ xs.flatMap (','.toUInt8 :: ·) ++ [last])

theorem moreItems_flatMap (xs : List (List UInt8)) :
    MoreItems xs (xs.flatMap (','.toUInt8 :: ·)) := by
  induction xs with
  | nil => exact .nil
  | cons x xs ih =>
    show MoreItems (x :: xs) ([] ++ ','.toUInt8 :: ([] ++ (x ++ _)))
    exact .cons .nil .nil ih

theorem enclosed_enclose (first last : UInt8) (xs : List (List UInt8)) :
    Enclosed first last xs (enclose first last xs) := by
  cases xs with
  | nil => exact ⟨[], [], [], .nil, .nil, .nil, rfl⟩
  | cons x xs => exact ⟨[], _, [], .nil, .cons (moreItems_flatMap xs), .nil, rfl⟩

theorem encode_separated (x : List Char) (xs : List (List Char)) :
    encode (Writer.separated (x :: xs)) =
      encode x ++ (xs.map encode).flatMap (','.toUInt8 :: ·) := by
  induction xs generalizing x with
  | nil => rw [Writer.separated, List.map_nil, List.flatMap_nil, List.append_nil]
  | cons y xs ih =>
    rw [Writer.separated, Text.Utf8.encode_append, Text.Utf8.encode_cons, ih]
    rfl

theorem encode_enclosed {first last : Char} (hfirst : first.toNat < 0x80)
    (hlast : last.toNat < 0x80) (xs : List (List Char)) :
    encode (first :: Writer.separated xs ++ [last]) =
      enclose first.toUInt8 last.toUInt8 (xs.map encode) := by
  rw [List.cons_append, Text.Utf8.encode_cons, Text.Utf8.encode_append, encode_singleton,
    encodeChar_of_lt hfirst, encodeChar_of_lt hlast]
  cases xs with
  | nil => rfl
  | cons x xs =>
    rw [encode_separated]
    rfl

theorem enclosed_separated {first last : Char} (hfirst : first.toNat < 0x80)
    (hlast : last.toNat < 0x80) (xs : List (List Char)) :
    Enclosed first.toUInt8 last.toUInt8 (xs.map encode)
      (encode (first :: Writer.separated xs ++ [last])) := by
  rw [encode_enclosed hfirst hlast]
  exact enclosed_enclose _ _ _

theorem enclosed_sequence (values : List (List Char)) :
    Enclosed '['.toUInt8 ']'.toUInt8 (values.map encode) (encode (Writer.sequence values)) :=
  enclosed_separated (by decide) (by decide) values

theorem sequenceOf_written {α : Type} {P : α → List UInt8 → Prop} {as : List α}
    {values : List (List Char)} (h : List.Forall₂ (fun a v => P a (encode v)) as values) :
    SequenceOf P as (encode (Writer.sequence values)) :=
  ⟨values.map encode, List.forall₂_map_right_iff.mpr h, enclosed_sequence values⟩

/-- Written values are the elements of the sequence of what they mean. -/
theorem sequenceOf_sequence {α : Type} {P : α → List UInt8 → Prop} {write : α → List Char}
    (h : ∀ a, P a (encode (write a))) (as : List α) :
    SequenceOf P as (encode (Writer.sequence (as.map write))) := by
  refine sequenceOf_written ?_
  induction as with
  | nil => exact .nil
  | cons a as ih => exact .cons (h a) ih

/-- An object of entries whose values are written already. -/
def encloseEntries (es : List (String × List UInt8)) : List UInt8 :=
  enclose '\x7b'.toUInt8 '\x7d'.toUInt8
    (es.map fun e => encode (Writer.text e.1) ++ ':'.toUInt8 :: e.2)

theorem objectOf_encloseEntries (es : List (String × List UInt8)) :
    ObjectOf NamedEntry es (encloseEntries es) := by
  refine ⟨_, List.forall₂_map_right_iff.mpr (List.forall₂_same.mpr fun e _ => ?_),
    enclosed_enclose _ _ _⟩
  refine ⟨_, charsText_flatMap e.1.toList, [], [], .nil, .nil, ?_⟩
  rw [encode_text]
  rfl

/-- Written entries are those of an object. -/
theorem objectOf_object (entries : List (String × List Char)) :
    ObjectOf NamedEntry (entries.map fun e => (e.1, encode e.2))
      (encode (Writer.object entries)) := by
  have hobject : encode (Writer.object entries) =
      encloseEntries (entries.map fun e => (e.1, encode e.2)) := by
    rw [Writer.object, encode_enclosed (by decide) (by decide), encloseEntries, List.map_map,
      List.map_map]
    refine congrArg _ (List.map_congr_left fun e _ => ?_)
    exact Text.Utf8.encode_append _ _
  rw [hobject]
  exact objectOf_encloseEntries _

/-! ## Reports -/

theorem encode_code (s : Severity) : encode (Writer.natural s.code) = [digitByte s.code] := by
  cases s <;> decide

theorem findingText_written (f : Finding) : FindingText f (encode f.written) := by
  refine .object ?_ (objectOf_object _)
  exact
    { rule := ⟨_, rfl, isText_text f.rule⟩
      severity := ⟨_, rfl, encode_code f.severity⟩
      text := ⟨_, rfl, isText_text f.text⟩
      line := ⟨_, rfl, isNatural_natural f.line.toNat⟩
      column := ⟨_, rfl, isNatural_natural f.column.toNat⟩
      fatal := .inl rfl
      others := by simp }

theorem fileText_written (r : FileReport) : FileText r (encode r.written) := by
  refine .object ?_ (objectOf_object _)
  exact
    { path := ⟨_, rfl, isText_text r.path⟩
      findings := .inr ⟨_, rfl, sequenceOf_sequence findingText_written r.findings⟩
      others := by simp }

namespace Report

theorem reportText_toJson (r : Report) : ReportText r (encode r.toJson.toList) := by
  refine ⟨[], _, [], .nil, sequenceOf_sequence fileText_written r, .nil, ?_⟩
  rw [toJson, String.toList_ofList, List.append_nil, List.nil_append]

/-- Every report is read back from what it is written as, from a text and from a stream. -/
theorem decode_toJson (r : Report) :
    ofText r.toJson = .ok r ∧ ofStream { bytes := encode r.toJson.toList } = .ok r :=
  ⟨(Decoder.decode_eq_ok_iff reads_decoder .text).mpr (reportText_toJson r),
    ofStream_eq_ok_iff.mpr (reportText_toJson r)⟩

end Report

end Findings
