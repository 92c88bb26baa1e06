import Findings.Text.Printable

/-!
# Quoted texts

A text between double quotes, for a reader of messages. Quotes, backslashes and the usual controls
are escaped by a backslash, a character that is not seen on its own is given by its number, and all
else stands for itself. Single quotes are not escaped.
-/

namespace Findings.Text

/-- One character of a quoted text. -/
def quotedChar (c : Char) : String :=
  match c with
  | '"' => "\\\""
  | '\\' => "\\\\"
  | '\n' => "\\n"
  | '\r' => "\\r"
  | '\t' => "\\t"
  | '\x00' => "\\0"
  | _ =>
    if isPrintable c then c.toString
    else "\\u\x7b" ++ String.ofList (Nat.toDigits 16 c.toNat) ++ "\x7d"

/-- A text between double quotes. -/
def quoted (s : String) : String :=
  "\"" ++ String.join (s.toList.map quotedChar) ++ "\""

end Findings.Text
