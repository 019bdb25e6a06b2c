/-!
# Size classes

Chunks up to one mebibyte are pooled in three classes. Each class pads sizes
to multiples of its unit and has a bucket for each of the first 256 multiples,
so the greatest size of a class is 256 units. Bigger chunks are not pooled.
-/

set_option autoImplicit false

namespace ChunkHeap

def bucketCount : Nat := 256

inductive SizeClass where
  | small
  | medium
  | big
  deriving DecidableEq, Repr

namespace SizeClass

def unit : SizeClass → Nat
  | .small => 8
  | .medium => 256
  | .big => 4096

def maxSize (c : SizeClass) : Nat := bucketCount * c.unit

end SizeClass

/-- Where a chunk of a given size comes from. -/
inductive Regime where
  | pooled (c : SizeClass)
  | oversized
  deriving DecidableEq, Repr

namespace Regime

def ofSize (total : Nat) : Regime :=
  if total ≤ SizeClass.small.maxSize then .pooled .small
  else if total ≤ SizeClass.medium.maxSize then .pooled .medium
  else if total ≤ SizeClass.big.maxSize then .pooled .big
  else .oversized

def unit? : Regime → Option Nat
  | .pooled c => some c.unit
  | .oversized => none

def maxSize? : Regime → Option Nat
  | .pooled c => some c.maxSize
  | .oversized => none

end Regime

end ChunkHeap
