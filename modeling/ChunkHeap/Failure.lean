import ChunkHeap.Text.Hex

/-!
# Why a call gives no value

A `Refusal` answers a request that cannot be met. The caller is expected to
handle it. A `Fault` means that a contract was broken: a chunk header that no
operation of the heap has written, a block given to the wrong heap, a number
that leaves the 64-bit range. The state stays as it was when the fault was
noticed.
-/

set_option autoImplicit false

namespace ChunkHeap

inductive Refusal where
  /-- The platform did not grant a reservation of this many bytes. -/
  | outOfMemory (size : Nat)
  | invalidAlignment (align : Nat)
  | sizeOverflow (size align : Nat)
  | unsupportedDataModel (bits : Nat)
  | invalidRegionSize (size : Nat)
  deriving DecidableEq, Repr

def Refusal.message : Refusal → String
  | .outOfMemory size => s!"platform memory provider refused a reservation of {size} bytes"
  | .invalidAlignment align => s!"alignment {align} is not a supported power of two"
  | .sizeOverflow size align =>
      s!"chunk for {size} bytes aligned to {align} overflows the address space"
  | .unsupportedDataModel bits => s!"unsupported data model: {bits} bit pointers"
  | .invalidRegionSize size =>
      s!"invalid region size {size}: must be at least 1 MiB and a multiple of 8"

inductive Fault where
  | addOverflow
  | subOverflow
  | zeroDivisor
  | indexOutOfBounds (len index : Nat)
  | corruptedHeader (padded unit : Nat)
  | chunkExceedsRegion (size regionSize : Nat)
  | foreignBlock (ptr : Nat)
  deriving DecidableEq, Repr

def Fault.message : Fault → String
  | .addOverflow => "attempt to add with overflow"
  | .subOverflow => "attempt to subtract with overflow"
  | .zeroDivisor => "attempt to calculate the remainder with a divisor of zero"
  | .indexOutOfBounds len index =>
      s!"index out of bounds: the len is {len} but the index is {index}"
  | .corruptedHeader padded unit =>
      s!"corrupted chunk header: padded size {padded} is not a positive multiple of {unit}"
  | .chunkExceedsRegion size regionSize =>
      s!"chunk of {size} bytes can never fit in a region of {regionSize} bytes"
  | .foreignBlock ptr => "block at " ++ Hex.address ptr ++ " belongs to another allocator"

inductive Failure where
  | refused (why : Refusal)
  | fault (what : Fault)
  deriving DecidableEq, Repr

def Failure.message : Failure → String
  | .refused why => why.message
  | .fault what => what.message

end ChunkHeap
