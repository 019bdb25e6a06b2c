import Mathlib
import ChunkHeap.Fleet
import ChunkHeap.Proofs.Run

/-!
# Runs of several heaps

A voyage is a fleet at work, with a book for each place that tells the loans of
the member there and what was asked of its platform. Members work in any order.
A schedule tells whose turn it is and what is done, and it is valid if each
member in its turns has a valid run. Members end when they are dropped.
-/

set_option autoImplicit false

namespace ChunkHeap

/-- What is known of a member besides its heap. -/
structure Book where
  loans : List Loan := []
  cuts : List Span := []
  journal : List Note := []

structure Voyage (σ ρ : Type) where
  fleet : Fleet σ ρ
  books : ℕ → Book := fun _ => {}

inductive Deed where
  | act (a : Action)
  | drop

namespace Book

variable {π : Type}

def held (b : Book) : List Span := heldFrom [] b.journal

/-- The calls made for the member. -/
def provider (b : Book) : Provider Unit := ⟨(), b.journal.filter Note.isCall⟩

/-- The world in which a heap works on a machine. -/
def world (b : Book) (h : Heap) (w : Machine π) : World π :=
  ⟨h, { w with journal := b.journal }, b.loans, b.cuts⟩

def ofWorld (s : World π) : Book := ⟨s.loans, s.cuts, s.machine.journal⟩

/-- The book of a member that has ended. -/
def closed (b : Book) (notes : List Note) : Book := ⟨[], b.cuts, b.journal ++ notes⟩

/-- An action as an operation on a member. -/
def perform [Platform π] (b : Book) (a : Action) (h : Heap) (w : Machine π) :
    ((Answer × Stats) × Book) × Heap × Machine π :=
  let x := (b.world h w).step a
  (((x.1, x.2.heap.stats), ofWorld x.2), x.2.heap, x.2.machine)

end Book

namespace Voyage

variable {σ ρ : Type}

def world? (v : Voyage σ ρ) (i : ℕ) : Option (World (σ × ρ)) :=
  (v.fleet.member? i).map fun m => (v.books i).world m.heap (v.fleet.machine m)

/-- The voyage after the member in place `i` has left its machine and its book
like this. -/
def leave (v : Voyage σ ρ) (i : ℕ) (heap : Option Heap) (w : Machine (σ × ρ)) (b : Book) :
    Voyage σ ρ :=
  ⟨v.fleet.settle i heap w, Function.update v.books i b⟩

def Ready (v : Voyage σ ρ) : ℕ × Deed → Prop
  | (i, .act a) => ∃ s ∈ v.world? i, s.Ready a
  | (i, .drop) => (v.world? i).isSome

instance (v : Voyage σ ρ) : (x : ℕ × Deed) → Decidable (v.Ready x)
  | (_, .act _) => inferInstanceAs (Decidable (∃ _ ∈ _, _))
  | (_, .drop) => inferInstanceAs (Decidable (_ = true))

/-- The platform grants what is fit to be granted, and what different members
hold is disjoint. -/
structure Lawful (v : Voyage σ ρ) : Prop where
  honoured : ∀ i < v.fleet.members.length, HonouredFrom [] (v.books i).journal
  apart : ∀ i < v.fleet.members.length, ∀ j < v.fleet.members.length, i ≠ j →
    ∀ r ∈ (v.books i).held, ∀ t ∈ (v.books j).held, r.Disjoint t

theorem lawful_iff {v : Voyage σ ρ} : v.Lawful ↔
    (∀ i < v.fleet.members.length, HonouredFrom [] (v.books i).journal) ∧
    ∀ i < v.fleet.members.length, ∀ j < v.fleet.members.length, i ≠ j →
      ∀ r ∈ (v.books i).held, ∀ t ∈ (v.books j).held, r.Disjoint t :=
  ⟨fun h => ⟨h.honoured, h.apart⟩, fun h => ⟨h.1, h.2⟩⟩

instance (v : Voyage σ ρ) : Decidable v.Lawful := decidable_of_iff' _ lawful_iff

variable [Platform (σ × ρ)]

def act (v : Voyage σ ρ) (i : ℕ) (a : Action) : Option ((Answer × Stats) × Voyage σ ρ) := do
  let ((said, book), _, fleet) ← v.fleet.run i ((v.books i).perform a)
  return (said, ⟨fleet, Function.update v.books i book⟩)

def drop (v : Voyage σ ρ) (i : ℕ) : Option (Voyage σ ρ) := do
  let (notes, fleet) ← v.fleet.drop i
  return ⟨fleet, Function.update v.books i ((v.books i).closed notes)⟩

/-- The voyage after a deed. Nothing happens in an empty place. -/
def next (v : Voyage σ ρ) : ℕ × Deed → Voyage σ ρ
  | (i, .act a) => ((v.act i a).map Prod.snd).getD v
  | (i, .drop) => (v.drop i).getD v

/-- The answer to a deed and the figures of the heap after it. -/
def said (v : Voyage σ ρ) : ℕ × Deed → Option (Answer × Stats)
  | (i, .act a) => (v.act i a).map Prod.fst
  | (_, .drop) => none

def after : List (ℕ × Deed) → Voyage σ ρ → Voyage σ ρ
  | [], v => v
  | x :: deeds, v => after deeds (v.next x)

/-- Who was answered what. -/
def trace : List (ℕ × Deed) → Voyage σ ρ → List (ℕ × Answer × Stats)
  | [], _ => []
  | x :: deeds, v => (v.said x).toList.map (Prod.mk x.1) ++ trace deeds (v.next x)

def Valid : List (ℕ × Deed) → Voyage σ ρ → Prop
  | [], _ => True
  | x :: deeds, v => v.Ready x ∧ Valid deeds (v.next x)

/-- The platform keeps its promises all the way. -/
def LawfulOn : List (ℕ × Deed) → Voyage σ ρ → Prop
  | [], v => v.Lawful
  | x :: deeds, v => v.Lawful ∧ LawfulOn deeds (v.next x)

instance decidableValid : (deeds : List (ℕ × Deed)) → (v : Voyage σ ρ) → Decidable (Valid deeds v)
  | [], _ => inferInstanceAs (Decidable True)
  | x :: deeds, v =>
      have := decidableValid deeds (v.next x)
      inferInstanceAs (Decidable (_ ∧ _))

instance decidableLawfulOn : (deeds : List (ℕ × Deed)) → (v : Voyage σ ρ) →
    Decidable (LawfulOn deeds v)
  | [], v => inferInstanceAs (Decidable v.Lawful)
  | x :: deeds, v =>
      have := decidableLawfulOn deeds (v.next x)
      inferInstanceAs (Decidable (_ ∧ _))

end Voyage

/-- The deeds of one member. -/
def own (i : ℕ) (deeds : List (ℕ × Deed)) : List Deed :=
  (deeds.filter (·.1 = i)).map Prod.snd

namespace World

variable {π : Type} [Platform π]

/-- The machine after the deeds of a heap that is alone. -/
def alone : List Deed → World π → Machine π
  | [], s => s.machine
  | .act a :: deeds, s => alone deeds (s.step a).2
  | .drop :: _, s => s.heap.drop s.machine

def aloneTrace : List Deed → World π → List (Answer × Stats)
  | [], _ => []
  | .act a :: deeds, s => ((s.step a).1, (s.step a).2.heap.stats) :: aloneTrace deeds (s.step a).2
  | .drop :: _, _ => []

def AloneValid : List Deed → World π → Prop
  | [], _ => True
  | .act a :: deeds, s => s.Ready a ∧ AloneValid deeds (s.step a).2
  | .drop :: deeds, _ => deeds = []

end World

end ChunkHeap
