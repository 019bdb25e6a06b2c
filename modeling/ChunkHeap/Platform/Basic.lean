import ChunkHeap.Event
import ChunkHeap.Memory.Basic

/-!
# Platforms

A platform grants ranges of memory and takes them back. It may refuse either.
A `Machine` is a platform with the memory that it grants ranges of and a
journal of all that was asked of it and all that was reported. A grant decides
what its own range holds and touches no other byte. A release touches none.
-/

set_option autoImplicit false

namespace ChunkHeap

structure Grant where
  base : Nat
  contents : Nat → UInt8

/-- How a platform takes a release. -/
structure Receipt (π : Type) where
  accepted : Bool
  events : List Event
  platform : π

class Platform (π : Type) where
  reserve (p : π) (len : Nat) : Option Grant × π
  release (p : π) (base len : Nat) : Receipt π

inductive Note where
  /-- A reservation asked for, with its base if it was granted. -/
  | reserved (len : Nat) (base : Option Nat)
  | released (base len : Nat) (accepted : Bool)
  | event (e : Event)
  deriving DecidableEq, Repr

structure Machine (π : Type) where
  memory : Memory
  platform : π
  /-- The oldest note first. -/
  journal : List Note := []

namespace Machine

variable {π : Type}

def log (w : Machine π) (notes : List Note) : Machine π :=
  { w with journal := w.journal ++ notes }

/-- The machine with an empty journal. -/
def quiet (w : Machine π) : Machine π := { w with journal := [] }

def report (w : Machine π) (e : Event) : Machine π := w.log [.event e]

variable [Platform π]

def reserve (w : Machine π) (len : Nat) : Option Nat × Machine π :=
  match Platform.reserve w.platform len with
  | (none, p) => (none, { w with platform := p }.log [.reserved len none])
  | (some g, p) =>
      (some g.base, { w with
        memory := w.memory.overlay g.base len g.contents
        platform := p }.log [.reserved len (some g.base)])

def release (w : Machine π) (base len : Nat) : Machine π :=
  let receipt := Platform.release w.platform base len
  { w with platform := receipt.platform }.log
    (.released base len receipt.accepted :: receipt.events.map .event)

end Machine

end ChunkHeap
