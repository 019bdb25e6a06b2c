import ChunkHeap.Word

/-!
# Layouts

A size and an alignment that a block can have: the alignment is a power of two,
and both together fill at most half of the address space.
-/

set_option autoImplicit false

namespace ChunkHeap

/-- Half of the address space. -/
def layoutLimit : Nat := 0x8000000000000000

structure Layout where
  size : Nat
  align : Nat
  align_pow : align.isPowerOfTwo
  size_le : size + align ≤ layoutLimit

def Layout.ofSizeAlign? (size align : Nat) : Option Layout :=
  if h : align.isPowerOfTwo ∧ size + align ≤ layoutLimit then some ⟨size, align, h.1, h.2⟩
  else none

end ChunkHeap
