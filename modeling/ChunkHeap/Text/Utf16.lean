/-!
# UTF-16 code units

A character of the basic plane is one unit. Any other is a pair of surrogates,
the upper ten bits of its offset from `0x10000` first.
-/

set_option autoImplicit false

namespace ChunkHeap.Utf16

def unitsOfChar (c : Char) : List UInt16 :=
  if c.toNat < 0x10000 then [UInt16.ofNat c.toNat]
  else
    let offset := c.toNat - 0x10000
    [UInt16.ofNat (0xD800 + offset / 0x400), UInt16.ofNat (0xDC00 + offset % 0x400)]

def units (text : String) : List UInt16 := text.toList.flatMap unitsOfChar

end ChunkHeap.Utf16
