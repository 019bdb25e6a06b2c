import ChunkHeap.SizeClass
import ChunkHeap.Text.Blank
import ChunkHeap.Text.Decimal

/-!
# Configuration

The size of the regions that chunks are cut from, by default or from an
environment variable. A variable whose text is no numeral counts as unset,
whereas a numeral is taken as it stands and may be refused by `validate`.
-/

set_option autoImplicit false

namespace ChunkHeap

/-- Four mebibytes. -/
def defaultRegionSize : Nat := 4 * 1024 * 1024

/-- What an environment holds under a name. The bytes need not be text. -/
inductive Variable where
  | unset
  | text (t : String)
  | bytes (bs : List UInt8)
  deriving DecidableEq, Repr

/-- Bytes that are not UTF-8 count as no text. -/
def Variable.text? : Variable → Option String
  | .unset => none
  | .text t => some t
  | .bytes bs => String.fromUTF8? ⟨bs.toArray⟩

structure Config where
  regionSize : Nat := defaultRegionSize
  deriving DecidableEq, Repr

namespace Config

def ofVariable (v : Variable) : Config :=
  match v.text?.bind fun t => Decimal.read? (Blank.trim t.toList) with
  | some size => { regionSize := size }
  | none => {}

/-- A region has room for the biggest pooled chunk, and chunks cut from it one
after the other stay aligned to eight bytes. -/
def validate (c : Config) : Except Refusal Config :=
  if c.regionSize < SizeClass.big.maxSize ∨ c.regionSize % SizeClass.small.unit ≠ 0 then
    .error (.invalidRegionSize c.regionSize)
  else .ok c

end Config

end ChunkHeap
