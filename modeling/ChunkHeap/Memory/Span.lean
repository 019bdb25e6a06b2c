import ChunkHeap.Memory.Basic

/-!
# Spans of memory

Whole ranges at once: bytes, UTF-16 code units of two bytes each, zeros, and
copies from one range to another. Units are stored like words, the low byte
first, and need not form valid text.
-/

set_option autoImplicit false

namespace ChunkHeap.Memory

def getBytes (m : Memory) (a n : Nat) : List UInt8 := m.bytes a n

def putBytes (m : Memory) (a : Nat) (bs : List UInt8) : Memory := m.write a bs

/-- The `n` code units from `a` on. -/
def getUnits (m : Memory) (a n : Nat) : List UInt16 :=
  (List.range n).map fun i => UInt16.ofNat (m.load (a + 2 * i) 2)

def unitBytes (us : List UInt16) : List UInt8 :=
  us.flatMap fun (u : UInt16) => [u.toUInt8, (u >>> 8).toUInt8]

def putUnits (m : Memory) (a : Nat) (us : List UInt16) : Memory := m.write a (unitBytes us)

def zeroOut (m : Memory) (a n : Nat) : Memory := m.fill a n 0

end ChunkHeap.Memory
