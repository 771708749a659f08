import Noflate.Lz77

/-!
# The plain greedy search

What the match finder is for, without its tables: at every position the latest earlier positions with the same hash are compared byte
by byte, and the first of the longest matches is taken. Candidates come from the input itself, by running through all earlier
positions.
-/

namespace Noflate

namespace Greedy

/-- The hash of the three bytes at a position. -/
def hashAt (input : List UInt8) (pos : Nat) : Nat :=
  (((input.getD pos 0).toNat <<< 10) ^^^ ((input.getD (pos + 1) 0).toNat <<< 5) ^^^ (input.getD (pos + 2) 0).toNat) &&& hashMask

/-- The earlier positions with the same hash that are at most 32768 bytes back, the latest first, and no more than 32 of them. -/
def candidates (input : List UInt8) (cursor : Nat) : List Nat :=
  ((List.range cursor).reverse.filter fun p => hashAt input p = hashAt input cursor ∧ cursor ≤ p + 32768).take 32

/-- How many bytes at the front of two byte strings are the same, up to a maximum. -/
def commonPrefix : Nat → List UInt8 → List UInt8 → Nat
  | max + 1, x :: xs, y :: ys => if x = y then commonPrefix max xs ys + 1 else 0
  | _, _, _ => 0

/-- The length of the match at a candidate. -/
def matchLength (input : List UInt8) (cursor candidate : Nat) : Nat :=
  commonPrefix (min 258 (input.length - cursor)) (input.drop candidate) (input.drop cursor)

/-- The longer of the best match so far, as its length and distance, and the match at a candidate: of two of one length the first. -/
def longer (input : List UInt8) (cursor : Nat) (best : Nat × Nat) (candidate : Nat) : Nat × Nat :=
  if best.1 < matchLength input cursor candidate then (matchLength input cursor candidate, cursor - candidate) else best

/-- The first of the longest matches at a position, as its length and distance. -/
def longest (input : List UInt8) (cursor : Nat) : Nat × Nat := (candidates input cursor).foldl (longer input cursor) (0, 0)

/-- The tokens from a position on. Every round takes a byte at least. -/
def tokensFrom (input : List UInt8) : Nat → Nat → List Lz77Code
  | 0, _ => []
  | rounds + 1, cursor =>
    if cursor < input.length then
      if input.length - cursor < 3 then .literal (input.getD cursor 0) :: tokensFrom input rounds (cursor + 1)
      else if 3 ≤ (longest input cursor).1 then
        .pointer (longest input cursor).1 (longest input cursor).2 :: tokensFrom input rounds (cursor + (longest input cursor).1)
      else .literal (input.getD cursor 0) :: tokensFrom input rounds (cursor + 1)
    else []

/-- The tokens of an input. -/
def tokens (input : List UInt8) : List Lz77Code := tokensFrom input input.length 0

end Greedy

end Noflate
