import Noflate.General.Crc

/-!
# RFC 1952: the header and the checksum of a gzip member

The format of gzip, written from the format and not from the program: the CRC-32 of a byte string, one bit at a time, and what a
header is.
-/

namespace Noflate.Rfc1952

open BitString

/-- (8) The CRC-32 of a byte string: the remainder over the reflected polynomial, pre- and post-conditioned with ones. -/
def crc32 (bytes : List UInt8) : Nat := Crc.update 0xEDB88320 0xFFFFFFFF bytes ^^^ 0xFFFFFFFF

/-- A flag of the flag byte. -/
def flag (flags : UInt8) (bit : Nat) : Bool := flags.toNat.testBit bit

/-- (2.3.1) The extra field, if it is there: two bytes of length, the low one first, and as many bytes. -/
def ExtraField (present : Bool) (bytes : List UInt8) : Prop :=
  if present then ∃ lo hi extra, bytes = lo :: hi :: extra ∧ extra.length = lo.toNat + 256 * hi.toNat else bytes = []

/-- (2.3.1) A name or a comment, if it is there: bytes up to the first zero byte. -/
def ZeroTerminated (present : Bool) (bytes : List UInt8) : Prop :=
  if present then ∃ text, bytes = text ++ [0] ∧ (0 : UInt8) ∉ text else bytes = []

/-- (2.3.1) The check of the header, if it is there: two bytes, whatever they are. -/
def HeaderCrc (present : Bool) (bytes : List UInt8) : Prop := if present then bytes.length = 2 else bytes = []

/-- (2.3) A header: the magic bytes, the method deflate, a flag byte, six more bytes, and the fields that the flags announce. -/
def Header (bytes : List UInt8) : Prop :=
  ∃ flags more extra name comment hcrc, bytes = [0x1F, 0x8B, 8, flags] ++ more ++ extra ++ name ++ comment ++ hcrc ∧
    more.length = 6 ∧ ExtraField (flag flags 2) extra ∧ ZeroTerminated (flag flags 3) name ∧
    ZeroTerminated (flag flags 4) comment ∧ HeaderCrc (flag flags 1) hcrc

/-- (2.3.1) The trailer of a member: the CRC-32 of its data, and their length modulo `2 ^ 32`, the low byte first. -/
def trailer (data : List UInt8) : List UInt8 := leBytes 4 (crc32 data) ++ leBytes 4 (data.length % 2 ^ 32)

end Noflate.Rfc1952
