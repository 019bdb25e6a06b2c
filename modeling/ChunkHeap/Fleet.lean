import ChunkHeap.Heap.Basic

/-!
# Heaps side by side

Several heaps over one memory. Each has its own part of the platform, and all
share the rest of it. They are set up one after the other, and one source gives
each of them its id. An operation works on one member and sees the machine of
that member only. A heap that was refused has an empty place, and a dropped
member leaves its place empty.
-/

set_option autoImplicit false

namespace ChunkHeap

/-- Where heaps get their ids. -/
structure IdSource where
  next : Nat
  inWords : next < wordLimit
  deriving DecidableEq, Repr

namespace IdSource

/-- The source before any heap is set up. -/
def initial : IdSource := ⟨1, by decide⟩

/-- The next id. The ids are words, and behind the greatest they begin again. -/
def draw (ids : IdSource) : Nat × IdSource :=
  (ids.next, ⟨(ids.next + 1) % wordLimit, Nat.mod_lt _ (by decide)⟩)

end IdSource

/-- How a heap is set up: with the default region size, with a given one, or
from a variable. -/
inductive Opening where
  | plain
  | sized (regionSize : Nat)
  | ofVariable (v : Variable)
  deriving DecidableEq, Repr

namespace Opening

def heap (id : Nat) : Opening → Except Refusal Heap
  | .plain => .ok (Heap.empty id defaultRegionSize)
  | .sized regionSize => Heap.ofConfig id { regionSize }
  | .ofVariable v => Heap.ofConfig id (Config.ofVariable v)

/-- Sets the heap up under the next id. A heap that is refused takes none. -/
def setUp (opening : Opening) (ids : IdSource) : Except Refusal Heap × IdSource :=
  let (id, rest) := ids.draw
  match opening.heap id with
  | .error why => (.error why, ids)
  | .ok heap => (.ok heap, rest)

end Opening

structure Member (ρ : Type) where
  heap : Heap
  platform : ρ

structure Fleet (σ ρ : Type) where
  memory : Memory
  /-- The part of the platform that all members share. -/
  shared : σ
  members : List (Option (Member ρ))

namespace Fleet

variable {σ ρ : Type}

/-- Sets heaps up one after the other, each with its part of the platform. -/
def openAll (ids : IdSource) : List (Opening × ρ) → List (Except Refusal (Member ρ)) × IdSource
  | [] => ([], ids)
  | (opening, platform) :: rest =>
      let (heap, ids) := opening.setUp ids
      let (members, ids) := openAll ids rest
      (heap.map (⟨·, platform⟩) :: members, ids)

/-- The heaps that are set up over a memory, before anything is done with them. -/
def launch (memory : Memory) (shared : σ) (ids : IdSource) (openings : List (Opening × ρ)) :
    Fleet σ ρ where
  memory := memory
  shared := shared
  members := (openAll ids openings).1.map Except.toOption

def member? (f : Fleet σ ρ) (i : Nat) : Option (Member ρ) := f.members[i]?.join

/-- The machine that a member works on. -/
def machine (f : Fleet σ ρ) (m : Member ρ) : Machine (σ × ρ) where
  memory := f.memory
  platform := (f.shared, m.platform)

/-- The fleet after the member in place `i` has left its machine like this. -/
def settle (f : Fleet σ ρ) (i : Nat) (heap : Option Heap) (w : Machine (σ × ρ)) : Fleet σ ρ where
  memory := w.memory
  shared := w.platform.1
  members := f.members.set i (heap.map fun heap => ⟨heap, w.platform.2⟩)

/-- Carries out an operation of the member in place `i`. The notes are those
of this operation. -/
def run {α : Type} (f : Fleet σ ρ) (i : Nat)
    (op : Heap → Machine (σ × ρ) → α × Heap × Machine (σ × ρ)) :
    Option (α × List Note × Fleet σ ρ) := do
  let m ← f.member? i
  let (a, heap, w) := op m.heap (f.machine m)
  return (a, w.journal, f.settle i heap w)

/-- Ends the heap in place `i`. -/
def drop [Platform (σ × ρ)] (f : Fleet σ ρ) (i : Nat) : Option (List Note × Fleet σ ρ) := do
  let m ← f.member? i
  let w := m.heap.drop (f.machine m)
  return (w.journal, f.settle i none w)

end Fleet

end ChunkHeap
