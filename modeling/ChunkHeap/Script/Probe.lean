import ChunkHeap.Platform.AddressSpace

/-!
# Probing the system

One reservation of whole pages: what it holds, where in a page it starts, and
how the system takes a release that does not start at a page.
-/

set_option autoImplicit false

namespace ChunkHeap.Script

structure Probe where
  pageOffset : Nat
  /-- Whether every byte of the pages granted is zero. -/
  zeroed : Bool
  deriving DecidableEq, Repr

def allZero (m : Memory) (a n : Nat) : Bool := n.all fun i _ => m (a + i) == 0

/-- Reserves `len` bytes and releases them, with `misaligned` once before at
the address behind the base. There is no probe if the system refuses. -/
def probe (len : Nat) (misaligned : Bool) : Option Probe × List Note :=
  let w : Machine (Pages AddressSpace) := { memory := .zero, platform := ⟨{}⟩ }
  match w.reserve len with
  | (none, w) => (none, w.journal)
  | (some base, w) =>
      let whole := (Pages.rounded? AddressSpace.pageSize len).getD len
      let result := ⟨base % AddressSpace.pageSize, allZero w.memory base whole⟩
      let w := if misaligned then w.release (base + 1) len else w
      (some result, (w.release base len).journal)

end ChunkHeap.Script
