import ChunkHeap.Memory.Scalar
import ChunkHeap.Memory.Span
import ChunkHeap.Script.Trouble

/-!
# Reading and writing a buffer

An access names places inside a buffer by their offsets. It is carried out
only if every range that it touches lies inside the buffer. That is settled
even before the value to be written is looked at, which may be unreadable.
-/

set_option autoImplicit false

namespace ChunkHeap.Script

inductive Kind where
  | byte
  | short
  | int
  | long
  | float
  | double
  | pointer
  deriving DecidableEq, Repr

def Kind.width (model : DataModel) : Kind → Nat
  | .byte => 1
  | .short => 2
  | .int | .float => 4
  | .long | .double => 8
  | .pointer => model.pointerSize

/-- A value of one of the kinds, floats as their bit patterns. -/
inductive Value where
  | byte (v : Int8)
  | short (v : Int16)
  | int (v : Int32)
  | long (v : Int64)
  | float (pattern : UInt32)
  | double (pattern : UInt64)
  | pointer (v : UInt64)
  deriving DecidableEq, Repr

def Value.kind : Value → Kind
  | .byte _ => .byte
  | .short _ => .short
  | .int _ => .int
  | .long _ => .long
  | .float _ => .float
  | .double _ => .double
  | .pointer _ => .pointer

inductive Access where
  | get (kind : Kind) (pos : Nat)
  | put (v : Value) (pos : Nat)
  | getBytes (pos : Nat) (n : Nat)
  | putBytes (pos : Nat) (bs : List UInt8)
  /-- The number counts code units. -/
  | getUnits (pos : Nat) (n : Nat)
  | putUnits (pos : Nat) (us : List UInt16)
  | zeroOut (pos : Nat) (n : Nat)
  | copy (pos : Nat) (n : Nat) (src : Nat)
  deriving DecidableEq, Repr

/-- What an access gives back. Writing gives back nothing. -/
inductive Reading where
  | nothing
  | value (v : Value)
  | bytes (bs : List UInt8)
  | units (us : List UInt16)
  deriving DecidableEq, Repr

def readValue (model : DataModel) (m : Memory) (a : Nat) : Kind → Value
  | .byte => .byte (m.getByte a)
  | .short => .short (m.getShort a)
  | .int => .int (m.getInt a)
  | .long => .long (m.getLong a)
  | .float => .float (m.getFloat a)
  | .double => .double (m.getDouble a)
  | .pointer => .pointer (m.getPointer model a)

def writeValue (model : DataModel) (m : Memory) (a : Nat) : Value → Memory
  | .byte v => m.putByte a v
  | .short v => m.putShort a v
  | .int v => m.putInt a v
  | .long v => m.putLong a v
  | .float pattern => m.putFloat a pattern
  | .double pattern => m.putDouble a pattern
  | .pointer v => m.putPointer model a v

namespace Access

/-- The ranges that an access touches, by first offset and length. -/
def ranges (model : DataModel) : Access → List (Nat × Nat)
  | .get kind pos => [(pos, kind.width model)]
  | .put v pos => [(pos, v.kind.width model)]
  | .getBytes pos n => [(pos, n)]
  | .putBytes pos bs => [(pos, bs.length)]
  | .getUnits pos n => [(pos, 2 * n)]
  | .putUnits pos us => [(pos, 2 * us.length)]
  | .zeroOut pos n => [(pos, n)]
  | .copy pos n src => [(pos, n), (src, n)]

def fits (model : DataModel) (size : Nat) (access : Access) : Bool :=
  (access.ranges model).all fun (pos, n) => pos + n ≤ size

/-- The access at offsets from `base`, taken for granted to fit. -/
def run (model : DataModel) (base : Nat) (m : Memory) : Access → Reading × Memory
  | .get kind pos => (.value (readValue model m (base + pos) kind), m)
  | .put v pos => (.nothing, writeValue model m (base + pos) v)
  | .getBytes pos n => (.bytes (m.getBytes (base + pos) n), m)
  | .putBytes pos bs => (.nothing, m.putBytes (base + pos) bs)
  | .getUnits pos n => (.units (m.getUnits (base + pos) n), m)
  | .putUnits pos us => (.nothing, m.putUnits (base + pos) us)
  | .zeroOut pos n => (.nothing, m.zeroOut (base + pos) n)
  | .copy pos n src => (.nothing, m.copy (base + pos) n (base + src))

/-- An access to the buffer of `size` bytes at `base`. -/
def perform (model : DataModel) (base size : Nat) (m : Memory) (access : Access) :
    Except Trouble Reading × Memory :=
  if access.fits model size then
    let (reading, m) := access.run model base m
    (.ok reading, m)
  else (.error (.complaint .badAddress), m)

end Access

inductive BufferStep where
  | access (a : Access)
  /-- Writing a value of the kind that cannot be read. -/
  | unread (kind : Kind) (pos : Nat)
  deriving DecidableEq, Repr

/-- A step on the buffer of `size` bytes at `base`. -/
def BufferStep.perform (model : DataModel) (base size : Nat) (m : Memory) :
    BufferStep → Except Trouble Reading × Memory
  | .access a => a.perform model base size m
  | .unread kind pos =>
      let c := if (Access.get kind pos).fits model size then Complaint.badInput else .badAddress
      (.error (.complaint c), m)

/-- What one step on a buffer answers, with the bytes of the buffer after it. -/
structure BufferReport where
  answer : Except Trouble Reading
  contents : List UInt8

/-- A buffer of equal bytes at address zero and the steps on it in turn. A
step that cannot be read leaves the buffer as it is. -/
def runBuffer (model : DataModel) (size : Nat) (byte : UInt8) (steps : List (Option BufferStep)) :
    List BufferReport :=
  go (Memory.zero.fill 0 size byte) steps
where
  go (m : Memory) : List (Option BufferStep) → List BufferReport
    | [] => []
    | none :: rest => ⟨.error (.complaint .badInput), m.bytes 0 size⟩ :: go m rest
    | some step :: rest =>
        let (answer, m) := step.perform model 0 size m
        ⟨answer, m.bytes 0 size⟩ :: go m rest

end ChunkHeap.Script
