import ChunkHeap.Word

/-!
# Byte memory

A memory gives every address a byte. Everything that writes is an `overlay`,
which replaces one range and leaves the rest. What is modelled is a
little-endian host, on which words of any width are stored with the least
significant byte first.
-/

set_option autoImplicit false

namespace ChunkHeap

abbrev Memory := Nat → UInt8

namespace Memory

def zero : Memory := fun _ => 0

/-- Byte `i` of the range of `n` bytes from `a` becomes `f i`. -/
def overlay (m : Memory) (a n : Nat) (f : Nat → UInt8) : Memory :=
  fun x => if a ≤ x ∧ x < a + n then f (x - a) else m x

def fill (m : Memory) (a n : Nat) (b : UInt8) : Memory := m.overlay a n fun _ => b

/-- The source bytes are those of the memory before the copy, so the two
ranges may overlap. -/
def copy (m : Memory) (dest n src : Nat) : Memory :=
  m.overlay dest n fun i => m (src + i)

def bytes (m : Memory) (a n : Nat) : List UInt8 :=
  (List.range n).map fun i => m (a + i)

def write (m : Memory) (a : Nat) (bs : List UInt8) : Memory :=
  m.overlay a bs.length fun i => bs.getD i 0

/-- The word of `width` bytes at `a`. -/
def load (m : Memory) (a : Nat) : Nat → Nat
  | 0 => 0
  | width + 1 => (m a).toNat + 256 * load m (a + 1) width

/-- Bits of `n` above the width are dropped. -/
def store (m : Memory) (a : Nat) (width n : Nat) : Memory :=
  m.overlay a width fun i => UInt8.ofNat (n >>> (8 * i))

theorem overlay_inside (m : Memory) {a n x : Nat} (f : Nat → UInt8) (h : a ≤ x ∧ x < a + n) :
    m.overlay a n f x = f (x - a) := by
  rw [overlay, if_pos h]

theorem overlay_outside (m : Memory) {a n x : Nat} (f : Nat → UInt8)
    (h : x < a ∨ a + n ≤ x) : m.overlay a n f x = m x := by
  rw [overlay, if_neg (by omega)]

theorem load_congr {m m' : Memory} {a width : Nat}
    (h : ∀ x, a ≤ x → x < a + width → m x = m' x) : m.load a width = m'.load a width := by
  induction width generalizing a with
  | zero => rfl
  | succ width ih =>
    rw [load, load, h a (by omega) (by omega), ih fun x h₁ h₂ => h x (by omega) (by omega)]

theorem load_overlay_outside (m : Memory) {a n b width : Nat} (f : Nat → UInt8)
    (h : b + width ≤ a ∨ a + n ≤ b) : (m.overlay a n f).load b width = m.load b width :=
  load_congr fun x h₁ h₂ => overlay_outside m f (by omega)

end Memory

end ChunkHeap
