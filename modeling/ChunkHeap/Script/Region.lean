import ChunkHeap.RegionSource
import ChunkHeap.Script.Bench

/-!
# Scripts on a region source

Steps on one region source over the arena. The answer to each step that is
carried out tells the state after it. Regions still held at the end are not given back.
-/

set_option autoImplicit false

namespace ChunkHeap.Script

inductive RegionStep where
  | raw (raw : Raw) (offset : Int)
  | carve (size : Nat)
  | releaseAll
  deriving DecidableEq, Repr

inductive RegionAnswer where
  | done
  | bytes (bs : List UInt8)
  | chunk (offset : Int)
  deriving DecidableEq, Repr

structure RegionReport where
  answer : Except Trouble RegionAnswer
  notes : List Note
  /-- The source after the step, unless the step was on raw memory or was not
  carried out. -/
  state : Option RegionSource

def RegionStep.perform (r : RegionSource) (b : Bench) :
    RegionStep → RegionReport × RegionSource × Bench
  | .raw step offset =>
      let (answer, b) := b.perform step offset
      (⟨answer.map fun bs => bs.elim .done .bytes, [], none⟩, r, b)
  | .carve size =>
      let (result, r, b) := r.carve size b
      let answer := match result with
        | .error failure => .error (.failure failure)
        | .ok chunk => .ok (.chunk (Arena.offset chunk))
      (⟨answer, b.journal, some r⟩, r, b.quiet)
  | .releaseAll =>
      let (r, b) := r.releaseAll b
      (⟨.ok .done, b.journal, some r⟩, r, b.quiet)

def runRegion (terms : Terms) (regionSize : Nat) (steps : List (Option RegionStep)) :
    List RegionReport :=
  go { regionSize } (Bench.fresh terms) steps
where
  go (r : RegionSource) (b : Bench) : List (Option RegionStep) → List RegionReport
    | [] => []
    | none :: rest => ⟨.error (.complaint .badInput), [], none⟩ :: go r b rest
    | some step :: rest =>
        let (report, r, b) := step.perform r b
        report :: go r b rest

end ChunkHeap.Script
