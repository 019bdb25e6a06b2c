import Mathlib
import ChunkHeap.Proofs.Dealings

/-!
# Runs told without addresses

Actions, answers and calls can be told without an address, and so can the place
of a chunk. Orders are all that a heap is told to do by its users. Pointers that
are given back are told by when they were handed out. What users write is left
out.
-/

set_option autoImplicit false

namespace ChunkHeap

/-- What an action has a heap do. Pointers and blocks are told by the number of
pointers handed out since. -/
inductive Order where
  | alloc (size align : ℕ)
  | allocate (size align : ℕ) (zeroed : Bool)
  | free (since : ℕ)
  | deallocate (since : ℕ)
  | paddedSize (since : ℕ)
  deriving DecidableEq, Repr

/-- The order of an action after pointers were handed out, the newest first. A
write is none. -/
def Action.order? (made : List ℕ) : Action → Option Order
  | .alloc size align => some (.alloc size align)
  | .allocate layout zeroed => some (.allocate layout.size layout.align zeroed)
  | .free ptr => some (.free (made.idxOf ptr))
  | .deallocate block => some (.deallocate (made.idxOf block.ptr))
  | .paddedSize block => some (.paddedSize (made.idxOf block.ptr))
  | .write .. => none

def Action.isWrite : Action → Bool
  | .write .. => true
  | _ => false

theorem Action.not_write {a : Action} {made : List ℕ} {o : Order} (h : a.order? made = some o) :
    a.isWrite = false := by
  cases a with
  | write addr bytes => cases h
  | _ => rfl

/-- A note without addresses and without the platform's word on a release. -/
def Note.unplaced : Note → Note
  | .reserved len base => .reserved len (base.map fun _ => 0)
  | .released _ len _ => .released 0 len true
  | n => n

/-- An answer without addresses and names. -/
def Answer.unplaced : Answer → Answer
  | .pointer (.ok _) => .pointer (.ok 0)
  | .block (.ok b) => .block (.ok { b with ptr := 0, owner := 0 })
  | answer => answer

theorem Answer.ptr?_unplaced (answer : Answer) :
    answer.unplaced.ptr? = answer.ptr?.map fun _ => 0 := by
  cases answer with
  | pointer result => cases result <;> rfl
  | block result => cases result <;> rfl
  | returned result => rfl
  | padded result => rfl
  | written => rfl

namespace Note

theorem unplaced_taken (n : Note) : n.taken.unplaced = n.unplaced := by
  cases n <;> rfl

/-- Calls that differ in addresses ask for as many reservations. -/
theorem length_answers {notes notes' : List Note}
    (h : notes'.map unplaced = notes.map unplaced) :
    (notes.filterMap answer?).length = (notes'.filterMap answer?).length := by
  have hanswers : ∀ notes : List Note, (notes.map unplaced).filterMap answer? =
      (notes.filterMap answer?).map (Option.map fun _ => 0) := by
    intro notes
    rw [List.filterMap_map, List.map_filterMap]
    refine List.filterMap_congr fun n _ => ?_
    cases n <;> rfl
  have hlength := congrArg (fun notes => (notes.filterMap answer?).length) h
  simpa only [hanswers, List.length_map] using hlength.symm

end Note

/-- Calls without addresses: their kinds and lengths and which were refused. -/
def Provider.outline {π : Type} (p : Provider π) : List Note := p.calls.map Note.unplaced

theorem Provider.outline_eq {π : Type} (p : Provider π) :
    p.outline = p.requests.map Note.unplaced := by
  rw [outline, requests, List.map_map]
  exact List.map_congr_left fun n _ => n.unplaced_taken.symm

/-- Where a chunk is, told without an address. -/
inductive Site where
  | region (ordinal offset : ℕ)
  /-- The call that the reservation came from. -/
  | reservation (call : ℕ)

namespace World

variable {π ρ : Type}

/-- The chunk of a pointer as its header tells. -/
def chunkOf (s : World π) (ptr : ℕ) : ℕ := Chunk.ofData s.machine.memory ptr

/-- The loan has its chunk there, in a region or in the latest reservation. -/
def At (s : World π) (l : Loan) : Site → Prop
  | .region ordinal offset => Regime.ofSize l.total ≠ .oversized ∧
      offset < s.heap.regions.regionSize ∧ ∃ base,
        s.heap.regions.bases.reverse[ordinal]? = some base ∧ s.chunkOf l.ptr = base + offset
  | .reservation call => Regime.ofSize l.total = .oversized ∧
      call + 1 = s.machine.provider.answers.length ∧ ∃ base,
        s.machine.provider.answers[call]? = some (some base) ∧
        s.chunkOf l.ptr = base + Chunk.oversizedPrefix

/-- The pointer was lent last, and it lies behind a chunk at the site as far as its
alignment takes it. -/
def Hands (s : World π) (ptr : ℕ) (site : Site) : Prop :=
  ∃ l rest, s.loans = l :: rest ∧ l.ptr = ptr ∧ ptr = Chunk.dataAt (s.chunkOf ptr) l.align ∧
    s.At l site

/-- Loans of the same request with the same padded size in their headers. -/
structure Counterparts (s : World π) (t : World ρ) (l l' : Loan) : Prop where
  size : l'.size = l.size
  align : l'.align = l.align
  padded : Chunk.size t.machine.memory (t.chunkOf l'.ptr) =
    Chunk.size s.machine.memory (s.chunkOf l.ptr)

/-- Steps that go the same way but for addresses, each told by its answer and the
world after it. -/
structure Alike (x : Answer × World π) (y : Answer × World ρ) : Prop where
  answer : y.1.unplaced = x.1.unplaced
  stats : y.2.heap.stats = x.2.heap.stats
  calls : y.2.machine.provider.outline = x.2.machine.provider.outline
  loans : List.Forall₂ (Counterparts x.2 y.2) x.2.loans y.2.loans
  handed : ∀ ptr, x.1.ptr? = some ptr → ∃ ptr' site, y.1.ptr? = some ptr' ∧
    x.2.Hands ptr site ∧ y.2.Hands ptr' site

variable [Platform π]

/-- The orders of a run. -/
def orders (made : List ℕ) : List Action → World π → List Order
  | [], _ => []
  | a :: acts, s =>
      (a.order? made).toList ++ orders ((s.step a).1.ptr?.toList ++ made) acts (s.step a).2

/-- The steps of a run that are no writes. -/
def course : List Action → World π → List (Answer × World π)
  | [], _ => []
  | a :: acts, s =>
      if a.isWrite then course acts (s.step a).2 else s.step a :: course acts (s.step a).2

variable {s : World π} {made : List ℕ} {a : Action}

/-- A run comes to its first order by writes alone. -/
structure Resumes (made : List ℕ) (acts : List Action) (s : World π) (rest : List Action)
    (s' : World π) : Prop where
  after : after acts s = after rest s'
  course : course acts s = course rest s'
  orders : orders made acts s = orders made rest s'
  valid : Valid rest s'
  mirrors : ∀ g, s.Mirrors g → s'.Mirrors g
  loans : s'.loans = s.loans
  provider : s'.machine.provider = s.machine.provider

theorem exists_resumes {acts : List Action} {o : Order} {os : List Order} (hv : Valid acts s)
    (ho : orders made acts s = o :: os) : ∃ a rest s', a.order? made = some o ∧
      Resumes made acts s (a :: rest) s' := by
  induction acts generalizing s with
  | nil => cases ho
  | cons a acts ih =>
    cases ha : a.order? made with
    | some first =>
      rw [orders, ha] at ho
      obtain rfl : first = o := (List.cons.inj ho).1
      exact ⟨a, acts, s, ha, rfl, rfl, rfl, hv, fun _ hs => hs, rfl, rfl⟩
    | none =>
      obtain ⟨addr, bytes, rfl⟩ : ∃ addr bytes, a = .write addr bytes := by
        cases a with
        | write addr bytes => exact ⟨addr, bytes, rfl⟩
        | _ => cases ha
      obtain ⟨a, rest, s', ha', hr⟩ := ih hv.2 ho
      refine ⟨a, rest, s', ha', hr.after, hr.course, hr.orders, hr.valid, ?_, hr.loans, hr.provider⟩
      intro g hs
      exact hr.mirrors g (hs.write_follows hv.1).mirrors

theorem course_eq_nil {acts : List Action} (ho : orders made acts s = []) : course acts s = [] := by
  induction acts generalizing s made with
  | nil => rfl
  | cons a acts ih =>
    cases a with
    | write addr bytes => exact ih ho
    | _ => cases ho

theorem course_cons {acts : List Action} {o : Order} (ha : a.order? made = some o) :
    course (a :: acts) s = s.step a :: course acts (s.step a).2 := by
  rw [course, Action.not_write ha]
  rfl

theorem orders_tail {acts : List Action} {o : Order} {os : List Order}
    (ha : a.order? made = some o) (ho : orders made (a :: acts) s = o :: os) :
    orders ((s.step a).1.ptr?.toList ++ made) acts (s.step a).2 = os := by
  rw [orders, ha] at ho
  exact (List.cons.inj ho).2

end World

end ChunkHeap
