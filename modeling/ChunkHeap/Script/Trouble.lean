import ChunkHeap.Failure

/-!
# Steps without an answer

A script names addresses, slots and heaps that may not exist. Such a step is
not carried out, and its answer is a complaint. A step that is carried out may
still fail for a reason of its own.
-/

set_option autoImplicit false

namespace ChunkHeap.Script

inductive Complaint where
  /-- The step cannot be read. -/
  | badInput
  /-- A range of bytes does not lie inside memory that is held. -/
  | badAddress
  /-- No earlier step of that number has allocated anything. -/
  | noSlot
  /-- The slot has no block, or its block was taken. -/
  | noBlock
  | noAllocator
  /-- No layout has this size and alignment. -/
  | badLayout
  deriving DecidableEq, Repr

inductive Trouble where
  | complaint (c : Complaint)
  | failure (f : Failure)
  deriving DecidableEq, Repr

def Trouble.fault (f : Fault) : Trouble := .failure (.fault f)

end ChunkHeap.Script
