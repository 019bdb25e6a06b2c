/-!
# Hexadecimal text

The shortest lowercase hexadecimal numeral of a number. Addresses are written
with it wherever they appear in a message.
-/

set_option autoImplicit false

namespace ChunkHeap.Hex

def text (n : Nat) : String := String.ofList (Nat.toDigits 16 n)

/-- An address carries the usual mark of base sixteen. -/
def address (a : Nat) : String := "0x" ++ text a

end ChunkHeap.Hex
