import ChunkHeap.Word

/-!
# Decimal numerals

A numeral is one or more of the digits `0` to `9`, with at most one plus sign
in front. It is read only if its value is a machine word. Leading zeros count
for nothing, and no other sign, blank or separator is admitted.
-/

set_option autoImplicit false

namespace ChunkHeap.Decimal

def isDigit (c : Char) : Bool := '0' ≤ c && c ≤ '9'

def digit (c : Char) : Nat := c.toNat - '0'.toNat

/-- The number that the digits denote, most significant first. -/
def value (ds : List Char) : Nat := ds.foldl (fun n c => 10 * n + digit c) 0

def unsigned? (ds : List Char) : Option Nat :=
  if ds ≠ [] ∧ ds.all isDigit ∧ value ds < wordLimit then some (value ds) else none

def read? : List Char → Option Nat
  | '+' :: ds => unsigned? ds
  | ds => unsigned? ds

end ChunkHeap.Decimal
