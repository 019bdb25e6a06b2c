import ChunkHeap.Platform.Basic

/-!
# The arena

A bounded range of addresses that several tenants reserve from. The terms of a
tenant may refuse some of its calls or lengths and may push the start of a
reservation off its natural place. A reservation is placed behind all earlier
ones, so no address is granted twice, and it holds zeros.
-/

set_option autoImplicit false

namespace ChunkHeap

structure Arena where
  /-- Offset from which the next reservation is placed. -/
  cursor : Nat := 0
  /-- Number of reservations granted. -/
  placed : Nat := 0
  /-- Reservations not given back, by address and length. -/
  live : List (Nat × Nat) := []
  deriving DecidableEq, Repr

/-- What a tenant is granted and where. -/
structure Terms where
  /-- The greatest length. -/
  limit : Option Nat := none
  /-- Calls that are refused, counted from zero. -/
  refused : List Nat := []
  /-- Distances by which reservations are pushed, in turn. -/
  skew : List Nat := []
  placeAlign : Nat := 4096
  deriving DecidableEq, Repr

/-- A tenant and its use of the arena so far. -/
structure Tenant where
  terms : Terms := {}
  /-- Reservations asked for, granted or not. -/
  calls : Nat := 0
  reserved : Nat := 0
  released : Nat := 0
  deriving DecidableEq, Repr

namespace Arena

def base : Nat := 0x100000000000

def size : Nat := 0x1000000000

def page : Nat := 4096

/-- The least multiple of a positive `unit` that is at least `x`. -/
def above (x unit : Nat) : Nat := (x + unit - 1) / unit * unit

/-- Offset of the next reservation. -/
def place (a : Arena) (terms : Terms) : Nat :=
  above a.cursor (max terms.placeAlign page) +
    terms.skew.getD (a.placed % terms.skew.length) 0

def admits (a : Arena) (tenant : Tenant) (len : Nat) : Bool :=
  a.place tenant.terms + len ≤ size && tenant.terms.limit.all (len ≤ ·) &&
    !tenant.terms.refused.contains tenant.calls

def reserve (a : Arena) (tenant : Tenant) (len : Nat) : Option Grant × Arena × Tenant :=
  if a.admits tenant len then
    let offset := a.place tenant.terms
    (some ⟨base + offset, fun _ => 0⟩,
      { cursor := above (offset + max len 1) page
        placed := a.placed + 1
        live := (base + offset, len) :: a.live },
      { tenant with calls := tenant.calls + 1, reserved := tenant.reserved + 1 })
  else (none, a, { tenant with calls := tenant.calls + 1 })

/-- Takes back exactly a live reservation and nothing else. -/
def release (a : Arena) (addr len : Nat) : Bool × Arena :=
  (a.live.contains (addr, len), { a with live := a.live.erase (addr, len) })

/-- Whether the range lies inside one live reservation. -/
def holds (a : Arena) (addr : Int) (n : Nat) : Bool :=
  a.live.any fun (base, len) => base ≤ addr && addr + n ≤ base + len

end Arena

instance : Platform (Arena × Tenant) where
  reserve := fun (a, tenant) len =>
    let (grant, a, tenant) := a.reserve tenant len
    (grant, a, tenant)
  release := fun (a, tenant) addr len =>
    let (accepted, a) := a.release addr len
    ⟨accepted, [], a, { tenant with released := tenant.released + 1 }⟩

end ChunkHeap
