namespace Modularity.Base62

def alphabet : List Char :=
  "0123456789ABCDEFGHIJKLMNOPQRSTUVWXYZabcdefghijklmnopqrstuvwxyz".toList

def digit (n : Nat) : Char := alphabet.getD n '0'

def width : Nat := 11

/-- The last digits of a number, as many as asked for, put before digits that are known already. -/
def digits : Nat → Nat → List Char → List Char
  | 0, _, known => known
  | count + 1, n, known => digits count (n / 62) (digit (n % 62) :: known)

/-- A number in eleven digits. These ascend as characters do, so numerals compare like numbers. -/
def encode (n : UInt64) : String := String.ofList (digits width n.toNat [])

end Modularity.Base62
