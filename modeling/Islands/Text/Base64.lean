/-!
# Base64

* `sextet`: the letter for a number below 64.
* `base64`: bytes in groups of three as four letters each, the last group padded with `=`.
-/

namespace Islands

/-- The alphabet of Base64. -/
def base64Alphabet : List Char :=
  "ABCDEFGHIJKLMNOPQRSTUVWXYZabcdefghijklmnopqrstuvwxyz0123456789+/".toList

/-- The letter for the number `n`, taken modulo 64. -/
def sextet (n : Nat) : Char := base64Alphabet.getD (n % 64) 'A'

/-- The Base64 form of a sequence of bytes. -/
def base64 : List UInt8 → List Char
  | a :: b :: c :: rest =>
    let n := a.toNat * 0x10000 + b.toNat * 0x100 + c.toNat
    sextet (n / 0x40000) :: sextet (n / 0x1000) :: sextet (n / 0x40) :: sextet n :: base64 rest
  | [a, b] =>
    let n := a.toNat * 0x10000 + b.toNat * 0x100
    [sextet (n / 0x40000), sextet (n / 0x1000), sextet (n / 0x40), '=']
  | [a] =>
    let n := a.toNat * 0x10000
    [sextet (n / 0x40000), sextet (n / 0x1000), '=', '=']
  | [] => []

end Islands
