/-!
# Checksums

The 64-bit cyclic redundancy check of ECMA-182: the remainder of a message, read as a polynomial
over two elements with the highest coefficient first, behind division by a fixed polynomial of
degree 64.
-/

namespace Covenant.Checksum

/-- The divisor without its highest coefficient. -/
def divisor : UInt64 := 0x42F0E1EBA9EA3693

/-- Moves a remainder on by one coefficient. -/
def shift (r : UInt64) : UInt64 :=
  if r &&& 0x8000000000000000 = 0 then r <<< 1 else (r <<< 1) ^^^ divisor

/-- Moves a remainder on by some coefficients. -/
def shifts : Nat → UInt64 → UInt64
  | 0, r => r
  | n + 1, r => shifts n (shift r)

/-- The remainder after one more byte. -/
def addByte (r : UInt64) (b : UInt8) : UInt64 := shifts 8 (r ^^^ (b.toUInt64 <<< 56))

/-- The checksum of a message. -/
def ofBytes (message : List UInt8) : UInt64 := message.foldl addByte 0

/-- The four bytes of a word, lowest first. -/
def bytesOfWord (n : UInt32) : List UInt8 :=
  [n.toUInt8, (n >>> 8).toUInt8, (n >>> 16).toUInt8, (n >>> 24).toUInt8]

end Covenant.Checksum
