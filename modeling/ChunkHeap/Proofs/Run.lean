import Mathlib
import ChunkHeap.Heap.Basic
import ChunkHeap.Platform.Arena
import ChunkHeap.Proofs.Contract
import ChunkHeap.Proofs.Headers

/-!
# Runs of a heap

A world is a heap at work on a machine, with the loans that its users hold and
the chunks that were ever cut off its regions. Users ask for memory, give back
what they hold and write to the bytes that they asked for. A run is valid if
they do nothing else. Requests may be for any size and alignment.
-/

set_option autoImplicit false

namespace ChunkHeap

/-- An allocation that was not given back. -/
structure Loan where
  ptr : ℕ
  size : ℕ
  align : ℕ
  /-- The chunk that the heap took for it. -/
  chunk : ℕ
  block : Option Block
  deriving DecidableEq, Repr

namespace Loan

variable (l : Loan)

def total : ℕ := Chunk.headerSize + l.size + l.align

theorem total_pos : 0 < l.total := Chunk.total_pos l.size l.align

/-- The bytes that were asked for. -/
def data : Span := ⟨l.ptr, l.size⟩

def place : Place := Place.of l.total l.chunk

theorem place_cases :
    (∃ c i, Regime.ofSize (c.bucketSize i) = .pooled c ∧
      l.place = .pooled c l.chunk (c.bucketSize i)) ∨
    l.place = .reserved (l.chunk - Chunk.oversizedPrefix) (l.total + Chunk.oversizedPrefix) := by
  cases hc : Regime.ofSize l.total with
  | pooled c =>
    obtain ⟨i, hi, hplace⟩ := Place.of_pooled l.total_pos hc
    exact Or.inl ⟨c, i, hi, hplace l.chunk⟩
  | oversized =>
    right
    rw [place, Place.of, hc]

end Loan

inductive Action where
  | alloc (size align : ℕ)
  | allocate (layout : Layout) (zeroed : Bool)
  | free (ptr : ℕ)
  | deallocate (block : Block)
  | paddedSize (block : Block)
  | write (addr : ℕ) (bytes : List UInt8)

/-- The pointer that an action gives back. -/
def Action.returns? : Action → Option ℕ
  | .free ptr => some ptr
  | .deallocate block => some block.ptr
  | _ => none

inductive Answer where
  | pointer (result : Except Failure ℕ)
  | block (result : Except Failure Block)
  | returned (result : Except Fault Unit)
  | padded (result : Except Fault ℕ)
  | written

/-- The chunk that the regions have lost to a cut. -/
def RegionSource.grown (r r' : RegionSource) : List Span :=
  match r'.bases with
  | [] => []
  | base :: _ =>
      let low := if r'.bases.length = r.bases.length then r.cursor else 0
      if low < r'.cursor then [⟨base + low, r'.cursor - low⟩] else []

/-- A heap as it is set up, with the default region size or an accepted one. -/
inductive Heap.Fresh : Heap → Prop
  | plain (id : ℕ) : Fresh (empty id defaultRegionSize)
  | configured {id : ℕ} {config : Config} {h : Heap} (accepted : ofConfig id config = .ok h) :
      Fresh h

structure World (π : Type) where
  heap : Heap
  machine : Machine π
  loans : List Loan := []
  /-- Chunks ever cut off the regions, the newest first. -/
  cuts : List Span := []

namespace World

variable {π : Type}

def start (h : Heap) (w : Machine π) : World π := { heap := h, machine := w.quiet }

def settle (s : World π) (heap : Heap) (machine : Machine π) (loans : List Loan) : World π where
  heap := heap
  machine := machine
  loans := loans
  cuts := s.heap.regions.grown heap.regions ++ s.cuts

def without (s : World π) (ptr : ℕ) : List Loan := s.loans.filter (·.ptr ≠ ptr)

def Ready (s : World π) : Action → Prop
  | .alloc .. | .allocate .. => True
  | .free ptr => ∃ l ∈ s.loans, l.ptr = ptr
  | .deallocate block | .paddedSize block => ∃ l ∈ s.loans, l.block = some block
  | .write addr bytes => ∃ l ∈ s.loans, Span.Within ⟨addr, bytes.length⟩ l.data

instance (s : World π) : (a : Action) → Decidable (s.Ready a)
  | .alloc .. => inferInstanceAs (Decidable True)
  | .allocate .. => inferInstanceAs (Decidable True)
  | .free _ => inferInstanceAs (Decidable (∃ _ ∈ _, _))
  | .deallocate _ => inferInstanceAs (Decidable (∃ _ ∈ _, _))
  | .paddedSize _ => inferInstanceAs (Decidable (∃ _ ∈ _, _))
  | .write .. => inferInstanceAs (Decidable (∃ _ ∈ _, _))

variable [Platform π]

/-- The chunk that the heap takes for a request. -/
def chunkFor (s : World π) (size align : ℕ) : ℕ :=
  match Heap.totalSize size align with
  | .error _ => 0
  | .ok total =>
      match (s.heap.takeChunk total s.machine).1 with
      | .error _ => 0
      | .ok chunk => chunk

def lend (s : World π) (ptr size align : ℕ) (block : Option Block) : List Loan :=
  ⟨ptr, size, align, s.chunkFor size align, block⟩ :: s.loans

def step (s : World π) : Action → Answer × World π
  | .alloc size align =>
      match s.heap.alloc size align s.machine with
      | (.error failure, heap, machine) =>
          (.pointer (.error failure), s.settle heap machine s.loans)
      | (.ok ptr, heap, machine) =>
          (.pointer (.ok ptr), s.settle heap machine (s.lend ptr size align none))
  | .allocate layout zeroed =>
      match if zeroed then s.heap.allocateZeroed layout s.machine
        else s.heap.allocate layout s.machine with
      | (.error failure, heap, machine) =>
          (.block (.error failure), s.settle heap machine s.loans)
      | (.ok block, heap, machine) =>
          (.block (.ok block), s.settle heap machine
            (s.lend block.ptr layout.size layout.align (some block)))
  | .free ptr =>
      let (result, heap, machine) := s.heap.free ptr s.machine
      (.returned result, s.settle heap machine (s.without ptr))
  | .deallocate block =>
      let (result, heap, machine) := s.heap.deallocate block s.machine
      (.returned result, s.settle heap machine (s.without block.ptr))
  | .paddedSize block => (.padded (s.heap.paddedSize block s.machine.memory), s)
  | .write addr bytes =>
      (.written, { s with
        machine := { s.machine with memory := s.machine.memory.write addr bytes } })

def after : List Action → World π → World π
  | [], s => s
  | a :: acts, s => after acts (s.step a).2

/-- The answers of a run, each with the figures of the heap after it. -/
def trace : List Action → World π → List (Answer × Stats)
  | [], _ => []
  | a :: acts, s => ((s.step a).1, (s.step a).2.heap.stats) :: trace acts (s.step a).2

def Valid : List Action → World π → Prop
  | [], _ => True
  | a :: acts, s => s.Ready a ∧ Valid acts (s.step a).2

instance decidableValid : (acts : List Action) → (s : World π) → Decidable (Valid acts s)
  | [], _ => inferInstanceAs (Decidable True)
  | a :: acts, s =>
      have := decidableValid acts (s.step a).2
      inferInstanceAs (Decidable (_ ∧ _))

theorem after_append (acts more : List Action) (s : World π) :
    after (acts ++ more) s = after more (after acts s) := by
  induction acts generalizing s with
  | nil => rfl
  | cons a acts ih => exact ih _

theorem valid_append (acts more : List Action) (s : World π) :
    Valid (acts ++ more) s ↔ Valid acts s ∧ Valid more (after acts s) := by
  induction acts generalizing s with
  | nil => simp [Valid, after]
  | cons a acts ih => simp [Valid, after, ih, and_assoc]

/-- A heap whose regions come from an arena that nobody has reserved from. -/
def onArena : World (Arena × Tenant) :=
  start (Heap.empty 7 defaultRegionSize) { memory := .zero, platform := ({}, {}) }

/-- A run on an arena that is lent a chunk of each kind, writes to one and is
lent its chunk again for another alignment. -/
def errands : List Action :=
  [.alloc 16 8, .alloc 2000000 64, .alloc 20 4, .write 0x100000000008 [1, 2, 3],
    .free 0x100000000008, .alloc 3 16]

/-- The layout of a block of 100 bytes, for runs that ask by layout. -/
def sheet : Layout := ⟨100, 16, by decide, by decide⟩

end World

end ChunkHeap
