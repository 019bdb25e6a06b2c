import Mathlib
import ChunkHeap.Proofs.Run

/-!
# The ideal heap

A heap that holds no memory. It keeps a stack of free chunks for each class and
padded size and remembers the place of every live pointer, so there is nothing
to be read back from headers or links.
-/

set_option autoImplicit false

namespace ChunkHeap

structure Ideal where
  id : ℕ
  regionSize : ℕ
  /-- Free chunks by padded size, the one put back last first. -/
  stack : SizeClass → ℕ → List ℕ
  bases : List ℕ
  cursor : ℕ
  oversized : ℕ
  live : List (ℕ × Place)

namespace Ideal

def empty (id regionSize : ℕ) : Ideal where
  id := id
  regionSize := regionSize
  stack := fun _ _ => []
  bases := []
  cursor := 0
  oversized := 0
  live := []

def withStack (g : Ideal) (c : SizeClass) (padded : ℕ) (chunks : List ℕ) : Ideal :=
  { g with stack := fun c' n => if c' = c ∧ n = padded then chunks else g.stack c' n }

def freeCount (g : Ideal) (c : SizeClass) : ℕ :=
  ∑ i : Fin bucketCount, (g.stack c (c.bucketSize i)).length

def stats (g : Ideal) : Stats where
  regions := g.bases.length
  regionSize := g.regionSize
  cursor := g.cursor
  freeSmall := g.freeCount .small
  freeMedium := g.freeCount .medium
  freeBig := g.freeCount .big
  oversizedLive := g.oversized

/-- The place of the next chunk in the current region, if it fits there. -/
def room (g : Ideal) (padded : ℕ) : Option ℕ :=
  match g.bases with
  | [] => none
  | base :: _ => if g.cursor + padded ≤ g.regionSize then some (base + g.cursor) else none

variable {π : Type} [Platform π]

def cut (g : Ideal) (padded : ℕ) (p : Provider π) : Except Refusal ℕ × Ideal × Provider π :=
  match g.room padded with
  | some chunk => (.ok chunk, { g with cursor := g.cursor + padded }, p)
  | none =>
      match p.reserve g.regionSize with
      | (none, p) => (.error (.outOfMemory g.regionSize), g, p)
      | (some base, p) => (.ok base, { g with bases := base :: g.bases, cursor := padded }, p)

def draw (g : Ideal) (c : SizeClass) (padded : ℕ) (p : Provider π) :
    Except Refusal ℕ × Ideal × Provider π :=
  match g.stack c padded with
  | chunk :: rest => (.ok chunk, g.withStack c padded rest, p)
  | [] => g.cut padded p

def takeOversized (g : Ideal) (total : ℕ) (p : Provider π) :
    Except Refusal ℕ × Ideal × Provider π :=
  let len := total + Chunk.oversizedPrefix
  if wordLimit ≤ len then (.error (.sizeOverflow total 1), g, p)
  else
    match p.reserve len with
    | (none, p) => (.error (.outOfMemory len), g, p)
    | (some base, p) =>
        (.ok (base + Chunk.oversizedPrefix), { g with oversized := g.oversized + 1 }, p)

def take (g : Ideal) (total : ℕ) (p : Provider π) : Except Refusal ℕ × Ideal × Provider π :=
  match Regime.ofSize total with
  | .pooled c => g.draw c (Word.ceil total c.unit) p
  | .oversized => g.takeOversized total p

def alloc (g : Ideal) (size align : ℕ) (p : Provider π) :
    Except Refusal ℕ × Ideal × Provider π :=
  let total := Chunk.headerSize + size + align
  if !Heap.alignmentAllowed align then (.error (.invalidAlignment align), g, p)
  else if wordLimit ≤ total then (.error (.sizeOverflow size align), g, p)
  else
    match g.take total p with
    | (.error why, g, p) => (.error why, g, p)
    | (.ok chunk, g, p) =>
        let ptr := Chunk.dataAt chunk align
        (.ok ptr, { g with live := (ptr, Place.of total chunk) :: g.live }, p)

def block (g : Ideal) (ptr size align : ℕ) : Block :=
  ⟨ptr, size, Regime.ofSize (Chunk.headerSize + size + align), g.id⟩

def forget (g : Ideal) (ptr : ℕ) : Ideal := { g with live := g.live.filter (·.1 ≠ ptr) }

def giveBack (g : Ideal) (place : Place) (p : Provider π) : Ideal × Provider π :=
  match place with
  | .pooled c chunk padded => (g.withStack c padded (chunk :: g.stack c padded), p)
  | .reserved base len => ({ g with oversized := g.oversized - 1 }, p.release base len)

def free (g : Ideal) (ptr : ℕ) (p : Provider π) : Ideal × Provider π :=
  match g.live.lookup ptr with
  | none => (g, p)
  | some place => (g.forget ptr).giveBack place p

def step (g : Ideal) (a : Action) (p : Provider π) : Answer × Ideal × Provider π :=
  match a with
  | .alloc size align =>
      let (result, g, p) := g.alloc size align p
      (.pointer (result.mapError .refused), g, p)
  | .allocate layout _ =>
      let (result, g, p) := g.alloc layout.size layout.align p
      (.block ((result.mapError .refused).map (g.block · layout.size layout.align)), g, p)
  | .free ptr => (.returned (.ok ()), g.free ptr p)
  | .deallocate block => (.returned (.ok ()), g.free block.ptr p)
  | .paddedSize block => (.padded (.ok (((g.live.lookup block.ptr).map Place.word).getD 0)), g, p)
  | .write .. => (.written, g, p)

/-- The ideal heap and its provider after a run. -/
def after : List Action → Ideal → Provider π → Ideal × Provider π
  | [], g, p => (g, p)
  | a :: acts, g, p => after acts (g.step a p).2.1 (g.step a p).2.2

def trace : List Action → Ideal → Provider π → List (Answer × Stats)
  | [], _, _ => []
  | a :: acts, g, p =>
      ((g.step a p).1, (g.step a p).2.1.stats) :: trace acts (g.step a p).2.1 (g.step a p).2.2

end Ideal

end ChunkHeap
