import Noflate.Rfc1951

/-!
# The back-references of a stream

The interpreter of the format once more, this time for the tokens of a stream and not for what they stand for: where in the output
each back-reference copies to, how far it reaches back, and in which block it is.
-/

namespace Noflate.Rfc1951

/-- The tokens of a compressed block, up to its end. -/
def readTokenList (literal distance : List Nat) : Nat → List Bool → Option (List Token × List Bool)
  | 0, _ => none
  | fuel + 1, bits => do
    let (token, bits) ← readToken literal distance bits
    if token = .endOfBlock then some ([], bits)
    else
      let (tokens, bits) ← readTokenList literal distance fuel bits
      some (token :: tokens, bits)

/-- The tokens of a block: whether it is the last, its tokens, and the bits behind it. The bytes of a stored block are literals. -/
def readBlockTokens (bits : List Bool) : Option (Bool × List Token × List Bool) := do
  let (final, bits) ← readField 1 bits
  let (type, bits) ← readField 2 bits
  let isFinal := final != 0
  match type with
  | 0 =>
    let (bytes, rest) ← readStored bits []
    some (isFinal, bytes.map .literal, rest)
  | 1 =>
    let (tokens, rest) ← readTokenList fixedLiteral fixedDistance bits.length bits
    some (isFinal, tokens, rest)
  | 2 =>
    let (sets, bits) ← readCodeSets bits
    let (tokens, rest) ← readTokenList sets.literal sets.distance bits.length bits
    some (isFinal, tokens, rest)
  | _ => none

/-- How many bytes a token stands for. -/
def Token.size : Token → Nat
  | .literal _ => 1
  | .copy length _ => length
  | .endOfBlock => 0

/-- A back-reference: the bit its block starts at, the position in the output it copies to, and how far it reaches back. -/
structure Reference where
  block : Nat
  position : Nat
  distance : Nat
  deriving DecidableEq, Repr

/-- The back-references among the tokens of a block. -/
def tokenReferences (block : Nat) : Nat → List Token → List Reference
  | _, [] => []
  | position, .copy length distance :: tokens =>
    { block, position, distance } :: tokenReferences block (position + length) tokens
  | position, token :: tokens => tokenReferences block (position + token.size) tokens

/-- The back-references of the blocks that can be read, one block after the other: `block` is the bit the next block starts at,
`position` the length of the output so far. -/
def blockReferences : Nat → Nat → Nat → List Bool → List Reference
  | 0, _, _, _ => []
  | fuel + 1, block, position, bits =>
    match readBlockTokens bits with
    | none => []
    | some (isFinal, tokens, rest) =>
      let size := (tokens.map Token.size).sum
      tokenReferences block position tokens ++
        if isFinal then [] else blockReferences fuel (block + (bits.length - rest.length)) (position + size) rest

/-- The back-references of a stream. -/
def references (bits : List Bool) : List Reference := blockReferences bits.length 0 0 bits

end Noflate.Rfc1951
