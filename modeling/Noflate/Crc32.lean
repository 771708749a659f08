import Noflate.General.Bits

/-!
# CRC-32

The checksum of `crc32.rs`: sixteen tables of 256 entries, sixteen bytes at a time and then byte by byte. The 32-bit words are
numbers; no operation on them leaves 32 bits.
-/

namespace Noflate

open BitString

namespace Crc32

/-- Reflected CRC-32 polynomial. -/
def polynomial : Nat := 0xEDB88320

/-- The number of tables, and of bytes taken at a time. -/
def slice : Nat := 16

/-- The loop over the bits of an entry of the first table. -/
def entryLoop : Nat → Nat → Nat
  | 0, c => c
  | j + 1, c => entryLoop j (if c &&& 1 ≠ 0 then (c >>> 1) ^^^ polynomial else c >>> 1)

/-- The first table: what each byte leaves. -/
def table0 : List Nat := (List.range 256).map (entryLoop 8)

/-- The tables, each made from the one before: what a byte and so many zero bytes behind it leave. -/
def makeTable : Nat → List Nat
  | 0 => table0
  | k + 1 => (makeTable k).map fun prev => (prev >>> 8) ^^^ table0.getD (prev &&& 0xFF) 0

/-- All the tables. -/
def table : List (List Nat) := (List.range slice).map makeTable

/-- An entry of a table. The indices are always in range: the first is written out, the second is a byte. -/
def entry (k i : Nat) : Nat := (table.getD k []).getD i 0

/-- Take in sixteen bytes: four words, the first with the remainder so far. -/
def sliceStep (crc : Nat) (chunk : List UInt8) : Nat :=
  let w0 := leNat (chunk.take 4) ^^^ crc
  let w1 := leNat ((chunk.drop 4).take 4)
  let w2 := leNat ((chunk.drop 8).take 4)
  let w3 := leNat ((chunk.drop 12).take 4)
  entry 15 (w0 &&& 0xFF) ^^^ entry 14 ((w0 >>> 8) &&& 0xFF) ^^^ entry 13 ((w0 >>> 16) &&& 0xFF) ^^^ entry 12 (w0 >>> 24) ^^^
    entry 11 (w1 &&& 0xFF) ^^^ entry 10 ((w1 >>> 8) &&& 0xFF) ^^^ entry 9 ((w1 >>> 16) &&& 0xFF) ^^^ entry 8 (w1 >>> 24) ^^^
    entry 7 (w2 &&& 0xFF) ^^^ entry 6 ((w2 >>> 8) &&& 0xFF) ^^^ entry 5 ((w2 >>> 16) &&& 0xFF) ^^^ entry 4 (w2 >>> 24) ^^^
    entry 3 (w3 &&& 0xFF) ^^^ entry 2 ((w3 >>> 8) &&& 0xFF) ^^^ entry 1 ((w3 >>> 16) &&& 0xFF) ^^^ entry 0 (w3 >>> 24)

/-- Take in a byte. -/
def byteStep (crc : Nat) (b : UInt8) : Nat := (crc >>> 8) ^^^ entry 0 ((crc ^^^ b.toNat) &&& 0xFF)

/-- The loop of `update`. Every round takes sixteen bytes, so the number of bytes bounds the rounds. -/
def updateLoop : Nat → Nat → List UInt8 → Nat
  | 0, crc, data => data.foldl byteStep crc
  | fuel + 1, crc, data =>
    if slice ≤ data.length then updateLoop fuel (sliceStep crc (data.take slice)) (data.drop slice)
    else data.foldl byteStep crc

end Crc32

/-- Streaming CRC-32 checksum. The state is kept inverted. -/
structure Crc32 where
  state : Nat
  deriving DecidableEq, Repr

namespace Crc32

/-- The initial state. -/
def new : Crc32 := { state := 0xFFFFFFFF }

/-- Feed more bytes. -/
def update (c : Crc32) (data : List UInt8) : Crc32 := { state := updateLoop data.length c.state data }

/-- The current CRC-32 value. -/
def value (c : Crc32) : Nat := 0xFFFFFFFF - c.state

end Crc32

end Noflate
