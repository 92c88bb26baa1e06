import Findings.Json.Token
import Findings.Text.Utf8

/-!
# Whole documents

A document is one value with white space around it, and comes as a text or as a stream. Both are
decoded alike; they differ in how the place of a fault is counted, and in that only a stream breaks
off.
-/

namespace Findings.Json

namespace Decoder

variable {ε α : Type}

/-- Reads a value that nothing but white space follows. -/
def whole (d : Decoder ε α) : Decoder ε α := do
  let a ← d
  match ← blank with
  | none => return a
  | some _ => failNext .trailingCharacters

/-- Decodes a stream, whose faults are told as a reader of `source` counts. -/
def decode (d : Decoder ε α) (source : Source) (s : Stream) : Except (Diagnostic ε) α :=
  match d.whole.run (.start s) with
  | .ok a _ => .ok a
  | .fail f _ => .error (Diagnostic.ofFault source s.delivered f)

/-- Decodes a stream. -/
def decodeStream (d : Decoder ε α) (s : Stream) : Except (Diagnostic ε) α :=
  d.decode .stream s

/-- Decodes a text. -/
def decodeText (d : Decoder ε α) (text : String) : Except (Diagnostic ε) α :=
  d.decode .text { bytes := Text.Utf8.encode text.toList }

end Decoder

end Findings.Json
