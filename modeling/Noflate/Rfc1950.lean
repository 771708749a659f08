import Noflate.General.Bits

/-!
# RFC 1950: the header and the checksum of a zlib stream

The format of zlib, written from the format and not from the program: the Adler-32 of a byte string and what a header is.
-/

namespace Noflate.Rfc1950

open BitString

/-- (8.2) The two sums of Adler-32, reduced at every byte. -/
def sums : Nat × Nat → List UInt8 → Nat × Nat
  | s, [] => s
  | (a, b), byte :: bytes => sums ((a + byte.toNat) % 65521, (b + (a + byte.toNat) % 65521) % 65521) bytes

/-- (8.2) The Adler-32 of a byte string. -/
def adler32 (bytes : List UInt8) : Nat :=
  let (a, b) := sums (1, 0) bytes
  b * 65536 + a

/-- (2.2) A header: method 8, a window code of at most 7, no preset dictionary, and a multiple of 31. -/
def Header (cmf flg : UInt8) : Prop :=
  cmf.toNat % 16 = 8 ∧ cmf.toNat / 16 ≤ 7 ∧ flg.toNat.testBit 5 = false ∧ (256 * cmf.toNat + flg.toNat) % 31 = 0

instance (cmf flg : UInt8) : Decidable (Header cmf flg) := inferInstanceAs (Decidable (_ ∧ _))

/-- (2.2) The trailer: the Adler-32 of the data, the high byte first. -/
def trailer (data : List UInt8) : List UInt8 := beBytes 4 (adler32 data)

end Noflate.Rfc1950
