import ChunkHeap.Platform.Basic

/-!
# Whole pages from the system

The system maps and unmaps whole pages, and it tells how big its pages are. The
platform on top of it rounds every length up to pages, when it reserves and
again when it releases, so that no length has to be kept. A length that leaves
the word range when it is rounded is refused without asking the system.
-/

set_option autoImplicit false

namespace ChunkHeap

/-- A system that maps page ranges and may refuse either call. It has pages of one
size, so that what starts at a page is aligned to eight bytes. -/
class Mapper (σ : Type) where
  pageSize : Nat
  pageSize_pow : pageSize.isPowerOfTwo := by decide
  eight_le_pageSize : 8 ≤ pageSize := by decide
  map (s : σ) (len : Nat) : Option Grant × σ
  unmap (s : σ) (addr len : Nat) : Bool × σ

structure Pages (σ : Type) where
  system : σ

namespace Pages

/-- The least number of bytes in whole pages that is at least `len`. -/
def rounded? (page len : Nat) : Option Nat :=
  let whole := (len + page - 1) / page * page
  if whole < wordLimit then some whole else none

variable {σ : Type} [Mapper σ]

def reserve (p : Pages σ) (len : Nat) : Option Grant × Pages σ :=
  match rounded? (Mapper.pageSize σ) len with
  | none => (none, p)
  | some whole =>
      let (grant, system) := Mapper.map p.system whole
      (grant, ⟨system⟩)

def release (p : Pages σ) (addr len : Nat) : Receipt (Pages σ) :=
  let whole := (rounded? (Mapper.pageSize σ) len).getD len
  let (accepted, system) := Mapper.unmap p.system addr whole
  ⟨accepted, if accepted then [] else [.refusedRelease addr whole], ⟨system⟩⟩

instance : Platform (Pages σ) where
  reserve := reserve
  release := release

end Pages

end ChunkHeap
