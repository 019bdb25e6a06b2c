import ChunkHeap.DataModel
import ChunkHeap.Memory.Basic

/-!
# Typed values in memory

Signed integers of one, two, four and eight bytes, floats as the bit patterns
that represent them, and pointers as wide as a data model says. No address has
to be aligned. A narrow pointer is read without a sign and written without its
upper half.
-/

set_option autoImplicit false

namespace ChunkHeap.Memory

def getByte (m : Memory) (a : Nat) : Int8 := Int8.ofNat (m.load a 1)

def putByte (m : Memory) (a : Nat) (v : Int8) : Memory := m.store a 1 v.toBitVec.toNat

def getShort (m : Memory) (a : Nat) : Int16 := Int16.ofNat (m.load a 2)

def putShort (m : Memory) (a : Nat) (v : Int16) : Memory := m.store a 2 v.toBitVec.toNat

def getInt (m : Memory) (a : Nat) : Int32 := Int32.ofNat (m.load a 4)

def putInt (m : Memory) (a : Nat) (v : Int32) : Memory := m.store a 4 v.toBitVec.toNat

def getLong (m : Memory) (a : Nat) : Int64 := Int64.ofNat (m.load a 8)

def putLong (m : Memory) (a : Nat) (v : Int64) : Memory := m.store a 8 v.toBitVec.toNat

/-- The bit pattern of the float of four bytes at `a`. -/
def getFloat (m : Memory) (a : Nat) : UInt32 := UInt32.ofNat (m.load a 4)

def putFloat (m : Memory) (a : Nat) (pattern : UInt32) : Memory := m.store a 4 pattern.toNat

/-- The bit pattern of the float of eight bytes at `a`. -/
def getDouble (m : Memory) (a : Nat) : UInt64 := UInt64.ofNat (m.load a 8)

def putDouble (m : Memory) (a : Nat) (pattern : UInt64) : Memory := m.store a 8 pattern.toNat

def getPointer (model : DataModel) (m : Memory) (a : Nat) : UInt64 :=
  match model with
  | .bits32 => (m.getInt a).toUInt32.toUInt64
  | .bits64 => (m.getLong a).toUInt64

def putPointer (model : DataModel) (m : Memory) (a : Nat) (v : UInt64) : Memory :=
  match model with
  | .bits32 => m.putInt a v.toUInt32.toInt32
  | .bits64 => m.putLong a v.toInt64

end ChunkHeap.Memory
