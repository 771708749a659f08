import Noflate.Rfc1951

/-!
# Strict code sets

Decoders differ in what they require of the code sets of a dynamic block. `CodeSets.Strict` is what the strict ones enforce: every
code is complete, apart from a code of a single symbol, which is one bit long.
-/

namespace Noflate

/-- The Kraft sum of code lengths, in units of `2 ^ -M`. -/
def kraftSum (M : Nat) (lengths : List Nat) : Nat := ((lengths.filter (fun w => 0 < w)).map (fun w => 2 ^ (M - w))).sum

/-- A code of one symbol, one bit long. -/
def SingleCode (lengths : List Nat) (s : Nat) : Prop := lengths.getD s 0 = 1 ∧ ∀ t, t ≠ s → lengths.getD t 0 = 0

/-- Code sets that a strict decoder takes. -/
structure Rfc1951.CodeSets.Strict (sets : Rfc1951.CodeSets) : Prop where
  literal_count : 257 ≤ sets.literal.length ∧ sets.literal.length ≤ 286
  distance_count : 1 ≤ sets.distance.length ∧ sets.distance.length ≤ 30
  codeLength_le : ∀ w ∈ sets.codeLength, w ≤ 7
  codeLength_complete : kraftSum 7 sets.codeLength = 2 ^ 7
  literal_le : ∀ w ∈ sets.literal, w ≤ 15
  endOfBlock : 0 < sets.literal.getD 256 0
  literal_complete : SingleCode sets.literal 256 ∨ kraftSum 15 sets.literal = 2 ^ 15
  distance_le : ∀ w ∈ sets.distance, w ≤ 15
  distance_complete : (∃ s, SingleCode sets.distance s) ∨ kraftSum 15 sets.distance = 2 ^ 15

end Noflate
