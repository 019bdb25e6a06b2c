import ChunkHeap.Fleet
import ChunkHeap.Script.Access
import ChunkHeap.Script.Bench
import ChunkHeap.Script.Host

/-!
# Scripts on heaps

Steps on several heaps over one host. A step that allocates leaves a slot
under its own number, by which later steps name the pointer. A slot may also
hold the block of the allocation. Giving the block back takes it out of the
slot, whatever comes of it, whereas the pointer stays and can be freed any
number of times and on any heap.
-/

set_option autoImplicit false

namespace ChunkHeap.Script

structure Slot where
  ptr : Nat
  size : Nat
  align : Nat
  /-- Place of the heap that allocated. -/
  heap : Nat
  block : Option Block := none

/-- Greatest total of a slot whose address is compared with other slots. -/
def comparedTotal : Nat := 0x100000

/-- Whether the chunk of the slot was pooled and not reserved on its own. -/
def Slot.compared (s : Slot) : Bool := s.size + s.align + Chunk.headerSize ≤ comparedTotal

inductive Target where
  | offset (o : Int)
  | slot (n : Nat) (delta : Int)
  deriving DecidableEq, Repr

inductive HeapOp where
  | alloc (size align : Nat)
  | allocate (size align : Nat) (zeroed : Bool)
  | free (slot : Nat)
  | deallocate (slot : Nat)
  | paddedSize (slot : Nat)
  /-- How the heap has used its tenancy. -/
  | usage
  | stats
  | drop
  deriving DecidableEq, Repr

inductive HeapStep where
  | raw (raw : Option Raw) (target : Target)
  /-- A step on the bytes asked for in a slot. -/
  | buffer (slot : Nat) (model : Option String) (step : Option BufferStep)
  | op (op : Option HeapOp)
  deriving DecidableEq, Repr

/-- Where an allocation was placed, by its offset in the arena or, on the
system, in its page. On the system the hop is told for alignments that a page
has, and `same` is the first slot of the heap at the same address. -/
structure Placed where
  addr : Int
  hop : Option Nat
  same : Option (Option Nat) := none
  deriving DecidableEq, Repr

inductive HeapAnswer where
  | done
  | bytes (bs : List UInt8)
  | reading (r : Reading)
  | pointer (p : Placed)
  | block (p : Placed) (b : Block)
  | padded (n : Nat)
  | usage (tenant : Tenant)
  | systemUsage
  deriving DecidableEq, Repr

structure HeapReport where
  answer : Except Trouble HeapAnswer
  /-- Of the heap that the step names, if it exists after the step. -/
  stats : Option Stats
  notes : List Note

structure Session where
  fleet : Fleet Host Tenant
  /-- By step number. -/
  slots : Array (Option Slot) := #[]

/-- What a step does: its answer, its notes, the slot it leaves and the
session after it. -/
structure Effect where
  answer : Except Trouble HeapAnswer
  session : Session
  notes : List Note := []
  slot : Option Slot := none

namespace Session

def slot? (s : Session) (n : Nat) : Option Slot := s.slots[n]?.join

def holds (s : Session) (addr : Int) (n : Nat) : Bool := s.fleet.shared.holds addr n

def complain (s : Session) (c : Complaint) : Effect := ⟨.error (.complaint c), s, [], none⟩

/-- Whether the hop word of a pointer and the header that it leads to lie in
memory that is held. -/
def reaches (s : Session) (ptr : Nat) : Bool :=
  s.holds ((ptr : Int) - 4) 4 &&
    s.holds ((ptr : Int) - 8 - Chunk.hopOf s.fleet.memory ptr) 8

/-- The first slot of the same heap at the same address. -/
def sameSlot? (s : Session) (slot : Slot) : Option Nat :=
  s.slots.findIdx? fun other =>
    other.any fun o => o.heap == slot.heap && o.compared && o.ptr == slot.ptr

def placed (s : Session) (slot : Slot) : Placed :=
  let hop := Chunk.hopOf s.fleet.memory slot.ptr
  match s.fleet.shared with
  | .arena _ => { addr := Arena.offset slot.ptr, hop := some hop }
  | .system _ =>
      { addr := (slot.ptr % AddressSpace.pageSize : Nat)
        hop := if slot.align ≤ AddressSpace.pageSize then some hop else none
        same := if slot.compared then some (s.sameSlot? slot) else none }

/-- Carries out an operation of a heap that only succeeds or fails. -/
def run {ε α : Type} (s : Session) (a : Nat) (failure : ε → Trouble)
    (op : Heap → Machine (Host × Tenant) → Except ε α × Heap × Machine (Host × Tenant))
    (effect : Session → List Note → α → Effect) : Effect :=
  match s.fleet.run a op with
  | none => s.complain .noAllocator
  | some (result, notes, fleet) =>
      let s := { s with fleet }
      match result with
      | .error e => { answer := .error (failure e), session := s, notes }
      | .ok value => effect s notes value

def done (s : Session) (notes : List Note) (_ : Unit) : Effect :=
  { answer := .ok .done, session := s, notes }

def alloc (s : Session) (a size align : Nat) : Effect :=
  s.run a .failure (·.alloc size align ·) fun s notes ptr =>
    let slot := { ptr, size, align, heap := a }
    { answer := .ok (.pointer (s.placed slot)), session := s, notes, slot := some slot }

def allocate (s : Session) (a size align : Nat) (zeroed : Bool) : Effect :=
  match Layout.ofSizeAlign? size align with
  | none => s.complain .badLayout
  | some layout =>
      s.run a .failure
        (fun h w => if zeroed then h.allocateZeroed layout w else h.allocate layout w)
        fun s notes block =>
          let slot := { ptr := block.ptr, size, align, heap := a, block := some block }
          { answer := .ok (.block (s.placed slot) block), session := s, notes, slot := some slot }

def free (s : Session) (a n : Nat) : Effect :=
  match s.slot? n with
  | none => s.complain .noSlot
  | some slot =>
      if s.reaches slot.ptr then s.run a .fault (·.free slot.ptr ·) done
      else s.complain .badAddress

/-- The block in a slot. -/
def block? (s : Session) (n : Nat) : Except Complaint Block :=
  match s.slot? n with
  | none => .error .noSlot
  | some slot =>
      match slot.block with
      | none => .error .noBlock
      | some block => .ok block

/-- The session after the block was taken out of a slot. -/
def takeBlock (s : Session) (n : Nat) : Session :=
  { s with slots := s.slots.modify n (Option.map fun slot => { slot with block := none }) }

def deallocate (s : Session) (a n : Nat) : Effect :=
  match s.block? n with
  | .error c => s.complain c
  | .ok block =>
      let s := s.takeBlock n
      if s.reaches block.ptr then s.run a .fault (·.deallocate block ·) done
      else s.complain .badAddress

def paddedSize (s : Session) (a n : Nat) : Effect :=
  match s.block? n with
  | .error c => s.complain c
  | .ok block =>
      if s.reaches block.ptr then
        s.run a .fault (fun h w => (h.paddedSize block w.memory, h, w)) fun s notes padded =>
          { answer := .ok (.padded padded), session := s, notes }
      else s.complain .badAddress

def usage (s : Session) (tenant : Tenant) : Effect :=
  match s.fleet.shared with
  | .arena _ => { answer := .ok (.usage tenant), session := s }
  | .system _ => { answer := .ok .systemUsage, session := s }

def drop (s : Session) (a : Nat) : Effect :=
  match s.fleet.drop a with
  | none => s.complain .noAllocator
  | some (notes, fleet) => { answer := .ok .done, session := { s with fleet }, notes }

/-- A step on the heap in place `a`. That there is such a heap is settled
before anything else about the step. -/
def perform (s : Session) (a : Nat) (op : Option HeapOp) : Effect :=
  match s.fleet.member? a, op with
  | none, _ => s.complain .noAllocator
  | some _, none => s.complain .badInput
  | some m, some op =>
      match op with
      | .alloc size align => s.alloc a size align
      | .allocate size align zeroed => s.allocate a size align zeroed
      | .free n => s.free a n
      | .deallocate n => s.deallocate a n
      | .paddedSize n => s.paddedSize a n
      | .usage => s.usage m.platform
      | .stats => { answer := .ok .done, session := s }
      | .drop => s.drop a

/-- The address of a target. -/
def locate (s : Session) : Target → Option Int
  | .offset o => some (Arena.address o)
  | .slot n delta => (s.slot? n).map fun slot => slot.ptr + delta

/-- Raw memory is that of the arena. Addresses of the system are not known to
scripts. -/
def raw (s : Session) (r : Option Raw) (target : Target) : Effect :=
  match s.locate target, s.fleet.shared, r with
  | none, _, _ => s.complain .noSlot
  | some _, .system _, _ => s.complain .badAddress
  | some _, .arena _, none => s.complain .badInput
  | some addr, .arena a, some r =>
      let (answer, memory) := r.perform a addr s.fleet.memory
      { answer := answer.map fun bs => bs.elim .done .bytes
        session := { s with fleet := { s.fleet with memory } } }

def buffer (s : Session) (n : Nat) (model : Option String) (step : Option BufferStep) : Effect :=
  match s.slot? n with
  | none => s.complain .noSlot
  | some slot =>
      if !s.holds slot.ptr slot.size then s.complain .badAddress
      else
        match DataModel.select model, step with
        | .error refusal, _ => { answer := .error (.failure (.refused refusal)), session := s }
        | .ok _, none => s.complain .badInput
        | .ok model, some step =>
            let (answer, memory) := step.perform model slot.ptr slot.size s.fleet.memory
            { answer := answer.map .reading
              session := { s with fleet := { s.fleet with memory } } }

/-- A step that names the heap in place `a`. -/
def step (s : Session) (a : Nat) (step : Option HeapStep) : HeapReport × Session :=
  let e := match step with
    | none => s.complain .badInput
    | some (.raw r target) => s.raw r target
    | some (.buffer n model step) => s.buffer n model step
    | some (.op op) => s.perform a op
  let s := { e.session with slots := e.session.slots.push e.slot }
  (⟨e.answer, (s.fleet.member? a).map (·.heap.stats), e.notes⟩, s)

end Session

structure HeapsReport where
  /-- Region size of each heap that was set up. -/
  opened : List (Except Refusal Nat)
  reports : List HeapReport
  /-- Notes of each heap's end after the steps. -/
  dropped : List (List Note)

def runSteps (s : Session) : List (Nat × Option HeapStep) → List HeapReport × Session
  | [] => ([], s)
  | (a, step) :: rest =>
      let (report, s) := s.step a step
      let (reports, s) := runSteps s rest
      (report :: reports, s)

/-- Ends the remaining heaps from place `i` on, `n` places in all. -/
def dropHeaps (fleet : Fleet Host Tenant) (i : Nat) : Nat → List (List Note)
  | 0 => []
  | n + 1 =>
      match fleet.drop i with
      | none => [] :: dropHeaps fleet (i + 1) n
      | some (notes, fleet) => notes :: dropHeaps fleet (i + 1) n

/-- Sets heaps up, carries out the steps and ends the heaps that are left. -/
def runHeaps (host : Host) (openings : List (Opening × Terms))
    (steps : List (Nat × Option HeapStep)) : HeapsReport :=
  let openings := openings.map fun (opening, terms) => (opening, ({ terms } : Tenant))
  let members := (Fleet.openAll .initial openings).1
  let (reports, s) := runSteps { fleet := .launch .zero host .initial openings } steps
  { opened := members.map (Except.map fun m => m.heap.regions.regionSize)
    reports
    dropped := dropHeaps s.fleet 0 members.length }

end ChunkHeap.Script
