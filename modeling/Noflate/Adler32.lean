import Mathlib.Algebra.Group.Nat.Defs
import Mathlib.Data.List.Basic

/-!
# Adler-32

The checksum of `adler32.rs`: two sums in wrapping 32-bit arithmetic, reduced once for each piece of at most 5552 bytes.
-/

namespace Noflate

namespace Adler32

/-- The modulus of the two sums. -/
def base : Nat := 65521

/-- The number of bytes that are summed before the sums are reduced. -/
def nmax : Nat := 5552

end Adler32

/-- Streaming Adler-32 checksum: the two sums. -/
structure Adler32 where
  a : Nat
  b : Nat
  deriving DecidableEq, Repr

namespace Adler32

/-- The initial state. -/
def new : Adler32 := { a := 1, b := 0 }

/-- Add a byte, in 32-bit arithmetic that wraps around. -/
def addByte (s : Adler32) (byte : UInt8) : Adler32 :=
  let a := (s.a + byte.toNat) % 2 ^ 32
  { a, b := (s.b + a) % 2 ^ 32 }

/-- Reduce the sums. -/
def reduce (s : Adler32) : Adler32 := { a := s.a % base, b := s.b % base }

/-- The loop of `update`: add a piece byte after byte (sixteen of them in each round of the code), and reduce. Every round takes
a byte at least, so the number of bytes bounds the rounds. -/
def updateLoop : Nat → Adler32 → List UInt8 → Adler32
  | 0, s, _ => s
  | fuel + 1, s, data =>
    if data.isEmpty then s else updateLoop fuel (((data.take nmax).foldl addByte s).reduce) (data.drop nmax)

/-- Feed more bytes. -/
def update (s : Adler32) (data : List UInt8) : Adler32 := updateLoop data.length s data

/-- The current Adler-32 value: `(b << 16) | a`, in 32 bits. -/
def value (s : Adler32) : Nat := ((s.b <<< 16) % 2 ^ 32) ||| s.a

end Adler32

end Noflate
