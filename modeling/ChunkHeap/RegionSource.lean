import ChunkHeap.Platform.Basic

/-!
# Cutting chunks off regions

A region source cuts fresh chunks off its current region one after the other.
When the next chunk does not fit any more, a new region is reserved and the
tail of the old one is abandoned. Regions are given back all at once.
-/

set_option autoImplicit false

namespace ChunkHeap

structure RegionSource where
  regionSize : Nat
  /-- Bases of the regions held, the current one first. -/
  bases : List Nat := []
  /-- Offset in the current region of the next chunk. -/
  cursor : Nat := 0
  deriving DecidableEq, Repr

namespace RegionSource

/-- The place of the next chunk in the current region, if it fits there. -/
def room (r : RegionSource) (size : Nat) : Except Fault (Option Nat) :=
  match r.bases with
  | [] => .ok none
  | current :: _ => do
      let stop ← Word.add r.cursor size
      return if stop ≤ r.regionSize then some (current + r.cursor) else none

variable {π : Type} [Platform π]

/-- A chunk at the start of a new region. -/
def extend (r : RegionSource) (size : Nat) (w : Machine π) :
    Except Failure Nat × RegionSource × Machine π :=
  match w.reserve r.regionSize with
  | (none, w) => (.error (.refused (.outOfMemory r.regionSize)), r, w)
  | (some base, w) =>
      match Word.sub r.regionSize r.cursor with
      | .error fault => (.error (.fault fault), r, w)
      | .ok abandoned =>
          (.ok base, { r with bases := base :: r.bases, cursor := size },
            w.report (.acquiredRegion base r.regionSize (r.bases.length + 1) abandoned))

/-- A fresh chunk. A size above the region size is a fault whatever room there
is. -/
def carve (r : RegionSource) (size : Nat) (w : Machine π) :
    Except Failure Nat × RegionSource × Machine π :=
  if r.regionSize < size then
    (.error (.fault (.chunkExceedsRegion size r.regionSize)), r, w)
  else
    match r.room size with
    | .error fault => (.error (.fault fault), r, w)
    | .ok (some chunk) => (.ok chunk, { r with cursor := r.cursor + size }, w)
    | .ok none => r.extend size w

def releaseBases (regionSize : Nat) (w : Machine π) : List Nat → Machine π
  | [] => w
  | base :: rest => releaseBases regionSize (w.release base regionSize) rest

/-- Gives the regions back in the order in which they were reserved. -/
def releaseAll (r : RegionSource) (w : Machine π) : RegionSource × Machine π :=
  let w := if r.bases.isEmpty then w
    else w.report (.releasingRegions r.bases.length r.regionSize)
  ({ r with bases := [], cursor := 0 }, releaseBases r.regionSize w r.bases.reverse)

end RegionSource

end ChunkHeap
