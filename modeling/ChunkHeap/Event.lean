/-!
# Trace events

What the heap and its platform report while they work. An event has a level, a
message and fields in a fixed order. A field is a number or an address.
-/

set_option autoImplicit false

namespace ChunkHeap

inductive Level where
  | trace
  | debug
  deriving DecidableEq, Repr

def Level.name : Level → String
  | .trace => "TRACE"
  | .debug => "DEBUG"

inductive FieldValue where
  | number (n : Nat)
  | address (a : Nat)
  deriving DecidableEq, Repr

inductive Event where
  /-- `regions` counts the new one. `abandoned` is the tail of the region that
  it replaces. -/
  | acquiredRegion (base regionSize regions abandoned : Nat)
  | releasingRegions (regions regionSize : Nat)
  | bucketEmpty (padded unit : Nat)
  | reservedOversized (base reserved : Nat)
  | releasingOversized (base reserved : Nat)
  | droppingLiveOversized (oversized : Nat)
  | refusedRelease (base len : Nat)
  deriving DecidableEq, Repr

namespace Event

def level : Event → Level
  | .acquiredRegion .. | .bucketEmpty .. => .trace
  | _ => .debug

def message : Event → String
  | .acquiredRegion .. => "acquired a new raw region"
  | .releasingRegions .. => "releasing raw regions"
  | .bucketEmpty .. => "bucket empty, carving from region"
  | .reservedOversized .. => "reserved oversized chunk"
  | .releasingOversized .. => "releasing oversized chunk"
  | .droppingLiveOversized .. => "dropping allocator with live oversized chunks"
  | .refusedRelease .. => "platform refused to release memory"

def fields : Event → List (String × FieldValue)
  | .acquiredRegion base regionSize regions abandoned =>
      [("base", .address base), ("region_size", .number regionSize),
        ("regions", .number regions), ("abandoned", .number abandoned)]
  | .releasingRegions regions regionSize =>
      [("regions", .number regions), ("region_size", .number regionSize)]
  | .bucketEmpty padded unit => [("padded_size", .number padded), ("unit", .number unit)]
  | .reservedOversized base reserved | .releasingOversized base reserved =>
      [("base", .address base), ("reserved", .number reserved)]
  | .droppingLiveOversized oversized => [("oversized", .number oversized)]
  | .refusedRelease base len => [("addr", .address base), ("len", .number len)]

end Event

end ChunkHeap
