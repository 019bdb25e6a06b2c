import ChunkHeap.Text.Blank
import ChunkHeap.Text.Decimal

/-!
# Data models

How wide a pointer is. A data model is chosen by the width in bytes or by the
text in which hosts report it, the number of bits.
-/

set_option autoImplicit false

namespace ChunkHeap

inductive DataModel where
  | bits32
  | bits64
  deriving DecidableEq, Repr

namespace DataModel

def host : DataModel := .bits64

/-- Width of a pointer in bytes. -/
def pointerSize : DataModel → Nat
  | .bits32 => 4
  | .bits64 => 8

/-- The number of bits in the refusal stops at the greatest word. -/
def ofPointerWidth (bytes : Nat) : Except Refusal DataModel :=
  match bytes with
  | 4 => .ok .bits32
  | 8 => .ok .bits64
  | _ => .error (.unsupportedDataModel (min (bytes * 8) (wordLimit - 1)))

/-- The text may stand between blanks. Only the spellings `32` and `64` are
accepted. The refusal names the number that any other text denotes, and zero
for a text that is no numeral. -/
def parse (text : String) : Except Refusal DataModel :=
  match Blank.trim text.toList with
  | ['3', '2'] => .ok .bits32
  | ['6', '4'] => .ok .bits64
  | other => .error (.unsupportedDataModel ((Decimal.read? other).getD 0))

/-- The data model that a text names, without a text that of the host. -/
def select (text : Option String) : Except Refusal DataModel :=
  match text with
  | none => .ok host
  | some t => parse t

end DataModel

end ChunkHeap
