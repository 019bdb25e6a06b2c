import ChunkHeap.Platform.Pages

/-!
# An address space

A system that maps fresh pages of zeros and unmaps whatever pages a range
covers, mapped or not. Its pages are the usual ones of four kibibytes. It
refuses the length zero and lengths for which there is no room, and it unmaps
only ranges that start at a page and end inside the address space. Ranges are
placed near its end but not at it, so that a range that runs past a mapping
stays inside if it is short and not if it is long.
-/

set_option autoImplicit false

namespace ChunkHeap

structure AddressSpace where
  /-- Ranges mapped, by address and length. -/
  mapped : List (Nat × Nat) := []
  deriving DecidableEq, Repr

namespace AddressSpace

def pageSize : Nat := 4096

/-- The address behind the last page. -/
def limit : Nat := 0x800000000000

/-- The address below which ranges are placed as long as there is room. -/
def ceiling : Nat := 0x7f8000000000

/-- Whether a range can be mapped: it starts at a page other than the first,
ends inside the address space and meets no mapped range. -/
def vacant (s : AddressSpace) (addr len : Nat) : Bool :=
  pageSize ≤ addr && addr % pageSize == 0 && addr + len ≤ limit &&
    s.mapped.all fun (start, n) => addr + len ≤ start || start + n ≤ addr

/-- Addresses that a new range may end at. -/
def tops (s : AddressSpace) : List Nat := ceiling :: limit :: s.mapped.map fun (start, _) => start

def place? (s : AddressSpace) (len : Nat) : Option Nat :=
  (s.tops.map (· - len)).find? (s.vacant · len)

def map (s : AddressSpace) (len : Nat) : Option Grant × AddressSpace :=
  if len = 0 then (none, s)
  else
    match s.place? len with
    | none => (none, s)
    | some addr => (some ⟨addr, fun _ => 0⟩, ⟨(addr, len) :: s.mapped⟩)

/-- What is left of the range of `n` bytes at `start` without the bytes from
`addr` up to `stop`. -/
def outside (addr stop start n : Nat) : List (Nat × Nat) :=
  let low := min (start + n) addr
  let high := max start stop
  (if start < low then [(start, low - start)] else []) ++
    (if high < start + n then [(high, start + n - high)] else [])

def unmap (s : AddressSpace) (addr len : Nat) : Bool × AddressSpace :=
  if len = 0 ∨ addr % pageSize ≠ 0 ∨ limit < addr + len then (false, s)
  else (true, ⟨s.mapped.flatMap fun (start, n) => outside addr (addr + len) start n⟩)

instance : Mapper AddressSpace where
  pageSize := pageSize
  map := map
  unmap := unmap

end AddressSpace

end ChunkHeap
