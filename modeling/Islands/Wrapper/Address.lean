import Islands.Text.Utf8

/-!
# Stable ids

A boundary is addressed by a hash of the file's id and the place of the element's opening tag, so
that two builds of the same file agree. All arithmetic is on words of 64 bits.

* `Address.hashBytes`: the hash of a sequence of bytes.
* `address`: the eight letters for an element.
-/

namespace Islands

namespace Address

/-! ## Words -/

/-- The number whose bytes, the lowest first, are given. -/
def littleEndian (bytes : List UInt8) : UInt64 :=
  bytes.foldr (fun b n => b.toUInt64 + 256 * n) 0

/-- The two halves of a product of 128 bits, added without carry. -/
def fold (x y : UInt64) : UInt64 :=
  let product := x.toNat * y.toNat
  UInt64.ofNat (product % 0x10000000000000000) ^^^ UInt64.ofNat (product / 0x10000000000000000)

/-- Takes a word into a hash. -/
def absorb (hash word : UInt64) : UInt64 := (hash + word) * 0xf1357aea2e62a9c5

/-! ## Bytes -/

/-- The words that the hash of bytes starts from. -/
def seeds : UInt64 × UInt64 := (0x243f6a8885a308d3, 0x13198a2e03707344)

/-- Takes all groups of sixteen bytes into a pair of words. -/
def absorbGroups (s : UInt64 × UInt64) (bytes : List UInt8) : UInt64 × UInt64 :=
  if 16 ≤ bytes.length then
    let x := littleEndian (bytes.take 8)
    let y := littleEndian ((bytes.drop 8).take 8)
    absorbGroups (s.2, fold (s.1 ^^^ x) (0xa4093822299f31d0 ^^^ y)) (bytes.drop 16)
  else s
termination_by bytes.length
decreasing_by simp only [List.length_drop]; omega

/-- The two words that short bytes stand for; they overlap where there are less than sixteen. -/
def shortWords (bytes : List UInt8) : UInt64 × UInt64 :=
  let n := bytes.length
  if 8 ≤ n then (littleEndian (bytes.take 8), littleEndian (bytes.drop (n - 8)))
  else if 4 ≤ n then (littleEndian (bytes.take 4), littleEndian (bytes.drop (n - 4)))
  else if 0 < n then
    (littleEndian (bytes.take 1),
      littleEndian [bytes.getD (n / 2) 0, bytes.getD (n - 1) 0])
  else (0, 0)

/-- The hash of a sequence of bytes. Long ones are taken in by groups of sixteen, and their last
sixteen bytes once more. -/
def hashBytes (bytes : List UInt8) : UInt64 :=
  let n := bytes.length
  let (s, w) :=
    if n ≤ 16 then (seeds, shortWords bytes)
    else (absorbGroups seeds (bytes.take (n - 1)), shortWords (bytes.drop (n - 16)))
  fold (s.1 ^^^ w.1) (s.2 ^^^ w.2) ^^^ UInt64.ofNat n

/-- A word rotated to the left by 26 bits. -/
def rotate (h : UInt64) : UInt64 := (h <<< 26) ||| (h >>> 38)

/-- The hash of an element: of its file's id, and of the place of its opening tag. -/
def hash (id : String) (openTag : Span) : UInt64 :=
  let h := absorb (absorb 0 (hashBytes (utf8Bytes id.toList))) 0xff
  rotate (absorb (absorb h (UInt64.ofNat openTag.start)) (UInt64.ofNat openTag.stop))

/-! ## Letters -/

/-- The letters for numbers below 32. -/
def alphabet : List Char := "abcdefghijklmnopqrstuvwxyz234567".toList

/-- The lowest `count` groups of five bits, as letters. -/
def letters (n : Nat) : Nat → List Char
  | 0 => []
  | count + 1 => alphabet.getD (n % 32) 'a' :: letters (n / 32) count

end Address

/-- The id of the element of a file whose opening tag has the given place. -/
def address (id : String) (openTag : Span) : String :=
  String.ofList (Address.letters (Address.hash id openTag).toNat 8)

end Islands
