import Findings.Json.Numeral
import Findings.Text.Utf8
import Mathlib.Data.List.Forall2

/-!
# The grammar of documents

What bytes are a document, said without a reader. A construct is a relation between what it means
and the bytes that write it; a value that nobody asks for means nothing (`IsValue`).

## Containers

A container is written from the texts of its items. `Items` puts commas between them and `Enclosed`
the brackets around them, both with white space. An item of a sequence is a value; an item of an
object is a key, a colon and a value (`EntryText`).
-/

namespace Findings.Json

/-! ## White space and words -/

/-- White space: spaces, tabs, line feeds and carriage returns. -/
def Blank (w : List UInt8) : Prop :=
  ∀ b ∈ w, b ∈ [' '.toUInt8, '\t'.toUInt8, '\n'.toUInt8, '\r'.toUInt8]

/-- The text of the null value. -/
def nullText : List UInt8 :=
  ['n'.toUInt8, 'u'.toUInt8, 'l'.toUInt8, 'l'.toUInt8]

/-- The text of a truth value. -/
def boolText : Bool → List UInt8
  | true => ['t'.toUInt8, 'r'.toUInt8, 'u'.toUInt8, 'e'.toUInt8]
  | false => ['f'.toUInt8, 'a'.toUInt8, 'l'.toUInt8, 's'.toUInt8, 'e'.toUInt8]

/-! ## Texts -/

/-- The letters of the short escapes, with the characters that they stand for. -/
def shortEscapes : List (Char × Char) :=
  [('"', '"'), ('\\', '\\'), ('/', '/'), ('b', '\x08'), ('f', '\x0c'), ('n', '\n'), ('r', '\r'),
    ('t', '\t')]

/-- A hexadecimal digit, in either case. -/
def HexDigit (n : Nat) (b : UInt8) : Prop :=
  n < 16 ∧ (b = n.digitChar.toUInt8 ∨ b = n.digitChar.toUpper.toUInt8)

/-- Four hexadecimal digits. -/
inductive HexText : Nat → List UInt8 → Prop
  | quad {n₁ n₂ n₃ n₄ : Nat} {b₁ b₂ b₃ b₄ : UInt8} (h₁ : HexDigit n₁ b₁) (h₂ : HexDigit n₂ b₂)
    (h₃ : HexDigit n₃ b₃) (h₄ : HexDigit n₄ b₄) :
    HexText (n₁ * 4096 + n₂ * 256 + n₃ * 16 + n₄) [b₁, b₂, b₃, b₄]

/-- An escape of a character, after the backslash: a letter, the number of the character, or the
numbers of the two units of UTF-16 that it takes. -/
inductive EscapeText : Char → List UInt8 → Prop
  | short {l c : Char} (h : (l, c) ∈ shortEscapes) : EscapeText c [l.toUInt8]
  | number {c : Char} {u : List UInt8} (h : HexText c.toNat u) : EscapeText c ('u'.toUInt8 :: u)
  | pair {c : Char} {n m : Nat} {u v : List UInt8} (hn : 0xD800 ≤ n ∧ n < 0xDC00)
    (hm : 0xDC00 ≤ m ∧ m < 0xE000) (hu : HexText n u) (hv : HexText m v)
    (hc : c.toNat = 0x10000 + (n - 0xD800) * 0x400 + (m - 0xDC00)) :
    EscapeText c ('u'.toUInt8 :: (u ++ '\\'.toUInt8 :: 'u'.toUInt8 :: v))

/-- A character in a text, by itself or by an escape. -/
inductive CharText : Char → List UInt8 → Prop
  | itself {c : Char} (hc : 0x20 ≤ c.toNat) (hq : c ≠ '"') (hb : c ≠ '\\') :
    CharText c (Text.Utf8.encodeChar c)
  | escape {c : Char} {u : List UInt8} (h : EscapeText c u) : CharText c ('\\'.toUInt8 :: u)

/-- The characters of a text, without its quotes. -/
inductive CharsText : List Char → List UInt8 → Prop
  | nil : CharsText [] []
  | cons {c : Char} {cs : List Char} {u l : List UInt8} (h : CharText c u) (t : CharsText cs l) :
    CharsText (c :: cs) (u ++ l)

/-- Bytes between quotes. -/
def quote (l : List UInt8) : List UInt8 :=
  '"'.toUInt8 :: (l ++ ['"'.toUInt8])

/-- A text. -/
def IsText (s : String) (x : List UInt8) : Prop :=
  ∃ l, CharsText s.toList l ∧ x = quote l

/-- An escape in a text that nobody asks for: a number need not be that of a character. -/
inductive LooseEscape : List UInt8 → Prop
  | short {l c : Char} (h : (l, c) ∈ shortEscapes) : LooseEscape [l.toUInt8]
  | number {n : Nat} {u : List UInt8} (h : HexText n u) : LooseEscape ('u'.toUInt8 :: u)

/-- The inside of a text that nobody asks for: its escapes are whole, but its bytes need not be
UTF-8. -/
inductive LooseText : List UInt8 → Prop
  | nil : LooseText []
  | byte {b : UInt8} {l : List UInt8} (hc : 0x20 ≤ b.toNat) (hq : b ≠ '"'.toUInt8)
    (hb : b ≠ '\\'.toUInt8) (t : LooseText l) : LooseText (b :: l)
  | escape {u l : List UInt8} (h : LooseEscape u) (t : LooseText l) :
    LooseText ('\\'.toUInt8 :: (u ++ l))

/-! ## Numbers -/

/-- The byte of a decimal digit. -/
def digitByte (d : Nat) : UInt8 :=
  UInt8.ofNat ('0'.toNat + d)

/-- Decimal digits. -/
def DigitsText (ds : List Nat) (x : List UInt8) : Prop :=
  (∀ d ∈ ds, d < 10) ∧ x = ds.map digitByte

/-- The number that decimal digits write, after the number `n`. -/
def decimal (n : Nat) (ds : List Nat) : Nat :=
  ds.foldl (fun n d => n * 10 + d) n

/-- The digits before the point: no zero comes first unless it is the only one. -/
structure WholeText (ds : List Nat) (x : List UInt8) : Prop where
  digits : DigitsText ds x
  ne_nil : ds ≠ []
  zero : ds.head? = some 0 → ds = [0]

/-- The point and the digits after it, if they are there. -/
inductive FractionText : List Nat → List UInt8 → Prop
  | none : FractionText [] []
  | some {ds : List Nat} {x : List UInt8} (h : DigitsText ds x) (hds : ds ≠ []) :
    FractionText ds ('.'.toUInt8 :: x)

/-- The sign of an exponent. -/
inductive SignText : Bool → List UInt8 → Prop
  | none : SignText false []
  | plus : SignText false ['+'.toUInt8]
  | minus : SignText true ['-'.toUInt8]

/-- The exponent, if it is there. -/
inductive ExponentText : Option Int → List UInt8 → Prop
  | none : ExponentText none []
  | some {e : UInt8} {negative : Bool} {ds : List Nat} {s x : List UInt8}
    (he : e = 'e'.toUInt8 ∨ e = 'E'.toUInt8) (hs : SignText negative s) (h : DigitsText ds x)
    (hds : ds ≠ []) :
    ExponentText (some (if negative then -(decimal 0 ds : Int) else decimal 0 ds)) (e :: (s ++ x))

/-- A numeral. -/
def NumeralText (n : Numeral) (x : List UInt8) : Prop :=
  ∃ w f e, WholeText n.whole w ∧ FractionText n.fraction f ∧ ExponentText n.exponent e ∧
    x = (if n.negative then ['-'.toUInt8] else []) ++ (w ++ (f ++ e))

/-- A natural number, in decimal digits. -/
def IsNatural (n : Nat) (x : List UInt8) : Prop :=
  ∃ ds, WholeText ds x ∧ n = decimal 0 ds

/-- A natural number that an unsigned word of 32 bits holds. -/
def IsUnsigned (n : UInt32) (x : List UInt8) : Prop :=
  IsNatural n.toNat x

/-- An integer; zero has no sign. -/
inductive IsInteger : Int → List UInt8 → Prop
  | natural {n : Nat} {x : List UInt8} (h : IsNatural n x) : IsInteger n x
  | negative {n : Nat} {x : List UInt8} (hn : n ≠ 0) (h : IsNatural n x) :
    IsInteger (-n) ('-'.toUInt8 :: x)

/-- An integer that a signed word of 64 bits holds. -/
def IsSigned (n : Int) (x : List UInt8) : Prop :=
  IsInteger n x ∧ Int64.minValue.toInt ≤ n ∧ n ≤ Int64.maxValue.toInt

/-! ## Containers -/

/-- The items of a container after its first one: a comma goes before each. -/
inductive MoreItems : List (List UInt8) → List UInt8 → Prop
  | nil : MoreItems [] []
  | cons {x u w w' : List UInt8} {xs : List (List UInt8)} (hw : Blank w) (hw' : Blank w')
    (h : MoreItems xs u) : MoreItems (x :: xs) (w ++ ','.toUInt8 :: (w' ++ (x ++ u)))

/-- The items of a container. -/
inductive Items : List (List UInt8) → List UInt8 → Prop
  | nil : Items [] []
  | cons {x u : List UInt8} {xs : List (List UInt8)} (h : MoreItems xs u) :
    Items (x :: xs) (x ++ u)

/-- The items of a container between its brackets. -/
def Enclosed (first last : UInt8) (xs : List (List UInt8)) (x : List UInt8) : Prop :=
  ∃ w u w', Blank w ∧ Items xs u ∧ Blank w' ∧ x = first :: (w ++ (u ++ (w' ++ [last])))

/-- A sequence of items, each of which is what `P` says. -/
def SequenceOf (P : α → List UInt8 → Prop) (as : List α) (x : List UInt8) : Prop :=
  ∃ xs, List.Forall₂ P as xs ∧ Enclosed '['.toUInt8 ']'.toUInt8 xs x

/-- An object of entries, each of which is what `P` says. -/
def ObjectOf (P : α → List UInt8 → Prop) (es : List α) (x : List UInt8) : Prop :=
  ∃ xs, List.Forall₂ P es xs ∧ Enclosed '\x7b'.toUInt8 '\x7d'.toUInt8 xs x

/-- An entry of a key, without its quotes, and a value. -/
def EntryText (e : List UInt8 × List UInt8) (x : List UInt8) : Prop :=
  ∃ w w', Blank w ∧ Blank w' ∧ x = quote e.1 ++ (w ++ ':'.toUInt8 :: (w' ++ e.2))

/-- An entry whose key is read. -/
def NamedEntry (e : String × List UInt8) (x : List UInt8) : Prop :=
  ∃ l, CharsText e.1.toList l ∧ EntryText (l, e.2) x

/-- Any value, nested to any depth. -/
inductive IsValue : List UInt8 → Prop
  | null : IsValue nullText
  | bool (b : Bool) : IsValue (boolText b)
  | number {n : Numeral} {x : List UInt8} (h : NumeralText n x) : IsValue x
  | text {l : List UInt8} (h : LooseText l) : IsValue (quote l)
  | sequence {xs : List (List UInt8)} {x : List UInt8} (hxs : ∀ y ∈ xs, IsValue y)
    (h : Enclosed '['.toUInt8 ']'.toUInt8 xs x) : IsValue x
  | object {es : List (List UInt8 × List UInt8)} {x : List UInt8}
    (hkeys : ∀ e ∈ es, LooseText e.1) (hes : ∀ e ∈ es, IsValue e.2)
    (h : ObjectOf EntryText es x) : IsValue x

end Findings.Json
