import ChunkHeap.Failure

/-!
# Machine words

Sizes and addresses are natural numbers of at most 64 bits. What is modelled is
overflow-checked arithmetic: a sum or difference of words that is no word is a
fault and never wraps. `roundUp` is the rounding that pads chunk sizes and
aligns data.
-/

set_option autoImplicit false

namespace ChunkHeap

/-- The least number that needs more than 64 bits. -/
def wordLimit : Nat := 0x10000000000000000

namespace Word

def add (x y : Nat) : Except Fault Nat :=
  if x + y < wordLimit then .ok (x + y) else .error .addOverflow

def sub (x y : Nat) : Except Fault Nat :=
  if y ≤ x then .ok (x - y) else .error .subOverflow

/-- The bits of `x` that are not set in `mask`. -/
def clear (x mask : Nat) : Nat := x - (x &&& mask)

/-- For a power of two `unit` the least multiple of `unit` that is at least
`x`. Any other `unit` only clears the bits of `unit - 1` in the sum. -/
def roundUp (x unit : Nat) : Except Fault Nat := do
  let top ← add x unit
  let last ← sub top 1
  let mask ← sub unit 1
  return clear last mask

theorem add_eq_ok {x y : Nat} (h : x + y < wordLimit) : add x y = .ok (x + y) := by
  simp [add, h]

theorem sub_eq_ok {x y : Nat} (h : y ≤ x) : sub x y = .ok (x - y) := by
  simp [sub, h]

end Word

end ChunkHeap
