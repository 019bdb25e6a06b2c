import ChunkHeap.Memory.Basic

/-!
# Chunk headers

A chunk is named by the address of its first byte. Its first four bytes hold
its padded size, or a marker above every pooled size if it has a reservation
of its own. While it is free, its first eight bytes hold the address of the
next free chunk instead. Data starts at least eight bytes after the chunk, and
the four bytes before the data hold the hop, the distance between those eight
bytes and the data. An oversized chunk has the length of its reservation in
the eight bytes before it.

The hop word of unhopped data is the second half of the header, so a free
link overwrites it.
-/

set_option autoImplicit false

namespace ChunkHeap.Chunk

def headerSize : Nat := 8

def oversizedPrefix : Nat := 8

/-- The greatest signed number of 32 bits. -/
def oversizedMarker : Nat := 0x7FFFFFFF

def size (m : Memory) (chunk : Nat) : Nat := m.load chunk 4

/-- Only the low 32 bits of the size are kept. -/
def setSize (m : Memory) (chunk size : Nat) : Memory := m.store chunk 4 size

/-- The next free chunk, where a link of zero ends the list. -/
def next? (m : Memory) (chunk : Nat) : Option Nat :=
  match m.load chunk 8 with
  | 0 => none
  | link => some link

def setNext (m : Memory) (chunk : Nat) (next : Option Nat) : Memory :=
  m.store chunk 8 (next.getD 0)

/-- How far aligned data lies behind the header. -/
def hop (chunk align : Nat) : Except Fault Nat := do
  let after ← Word.add chunk headerSize
  let aligned ← Word.roundUp after align
  Word.sub aligned after

/-- The aligned data of a chunk, and the memory with its hop recorded. -/
def placeData (m : Memory) (chunk align : Nat) : Except Fault (Nat × Memory) := do
  let hop ← hop chunk align
  let data := chunk + headerSize + hop
  return (data, m.store (data - 4) 4 hop)

def hopOf (m : Memory) (data : Nat) : Nat := m.load (data - 4) 4

/-- The chunk whose data this is. -/
def ofData (m : Memory) (data : Nat) : Nat := data - (headerSize + hopOf m data)

/-- The chunk of a whole reservation, and the memory with the length of the
reservation and the marker recorded. -/
def oversized (m : Memory) (base reserved : Nat) : Nat × Memory :=
  let chunk := base + oversizedPrefix
  (chunk, setSize (m.store base 8 reserved) chunk oversizedMarker)

/-- The base and length of the reservation of an oversized chunk. -/
def reservation (m : Memory) (chunk : Nat) : Nat × Nat :=
  (chunk - oversizedPrefix, m.load (chunk - oversizedPrefix) 8)

end ChunkHeap.Chunk
