import ChunkHeap.Platform.Arena
import ChunkHeap.Script.Trouble

/-!
# Raw memory of the arena

Scripts name addresses of the arena by their offsets from its base. A range is
read or written only while it lies inside one live reservation. A bench is an
arena with a single tenant, on which the parts of a heap are tried one by one.
-/

set_option autoImplicit false

namespace ChunkHeap

namespace Arena

def address (offset : Int) : Int := base + offset

/-- The word that stands for the address at an offset, which wraps around. -/
def wordAt (offset : Int) : Nat := (address offset % (wordLimit : Int)).toNat

/-- The offset of an address, negative below the arena. -/
def offset (addr : Nat) : Int := (addr : Int) - base

end Arena

namespace Script

/-- Reading or writing raw bytes. -/
inductive Raw where
  | peek (n : Nat)
  | poke (bs : List UInt8)
  deriving DecidableEq, Repr

def Raw.length : Raw → Nat
  | .peek n => n
  | .poke bs => bs.length

/-- The bytes read, none when writing, and the memory afterwards. -/
def Raw.perform (raw : Raw) (a : Arena) (addr : Int) (m : Memory) :
    Except Trouble (Option (List UInt8)) × Memory :=
  if a.holds addr raw.length then
    match raw with
    | .peek n => (.ok (some (m.bytes addr.toNat n)), m)
    | .poke bs => (.ok none, m.write addr.toNat bs)
  else (.error (.complaint .badAddress), m)

abbrev Bench := Machine (Arena × Tenant)

namespace Bench

def fresh (terms : Terms) : Bench where
  memory := .zero
  platform := ({}, { terms })

def arena (b : Bench) : Arena := b.platform.1

def perform (b : Bench) (raw : Raw) (offset : Int) :
    Except Trouble (Option (List UInt8)) × Bench :=
  let (answer, memory) := raw.perform b.arena (Arena.address offset) b.memory
  (answer, { b with memory })

end Bench

end Script

end ChunkHeap
