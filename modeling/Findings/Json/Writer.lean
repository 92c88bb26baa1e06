/-!
# Writing documents

Documents are written without white space. A text is written between double quotes; quotes,
backslashes and controls are escaped, and every other character stands for itself.
-/

namespace Findings.Json.Writer

/-- The escape of a control that has no letter of its own: two hexadecimal digits after `\u00`. -/
def numbered (c : Char) : List Char :=
  '\\' :: 'u' :: '0' :: '0' :: (c.toNat / 16).digitChar :: [(c.toNat % 16).digitChar]

/-- One character of a text. -/
def textChar (c : Char) : List Char :=
  match c with
  | '"' => ['\\', '"']
  | '\\' => ['\\', '\\']
  | '\x08' => ['\\', 'b']
  | '\t' => ['\\', 't']
  | '\n' => ['\\', 'n']
  | '\x0c' => ['\\', 'f']
  | '\r' => ['\\', 'r']
  | c => if c.toNat < 0x20 then numbered c else [c]

/-- A text. -/
def text (s : String) : List Char :=
  '"' :: s.toList.flatMap textChar ++ ['"']

/-- A number without sign. -/
def natural (n : Nat) : List Char :=
  Nat.toDigits 10 n

/-- Items with commas between them. -/
def separated : List (List Char) → List Char
  | [] => []
  | [x] => x
  | x :: y :: r => x ++ ',' :: separated (y :: r)

/-- A sequence of written values. -/
def sequence (values : List (List Char)) : List Char :=
  '[' :: separated values ++ [']']

/-- An object of written values. -/
def object (entries : List (String × List Char)) : List Char :=
  '\x7b' :: separated (entries.map fun (key, value) => text key ++ ':' :: value) ++ ['\x7d']

end Findings.Json.Writer
