import Noflate.General.Bits
import Noflate.General.Canonical

/-!
# RFC 1951, one bit at a time

A plain interpreter of the DEFLATE format, written from the format and not from the program: it reads a stream as a list of
bits, block by block, and keeps the whole output. Codes are assigned from code lengths by the counting of section 3.2.2
(`Canonical.code`) and read one bit at a time; a back-reference copies one byte at a time out of the complete output.

The interpreter gives a meaning to every stream it can read. What a stream must satisfy besides, to be valid, is `Valid`; the
code sets a stream transmits are part of what `inflate` returns so that `Valid` can speak of them.
-/

namespace Noflate.Rfc1951

open BitString

/-- A field of `n` bits, the least significant bit first. -/
def readField (n : Nat) (bits : List Bool) : Option (Nat × List Bool) :=
  if n ≤ bits.length then some (toNat (bits.take n), bits.drop n) else none

/-! ## Codes -/

/-- The symbol whose code has a width and a value, in the code of a family of code lengths. -/
def symbolWithCode (lengths : List Nat) (width code : Nat) : Option Nat :=
  (List.range lengths.length).find? (fun s => decide (lengths[s]? = some width) && decide (Canonical.code lengths s = code))

/-- Read on, one bit at a time and most significant bit first, until what was read is the code of a symbol. -/
def readSymbolFrom (lengths : List Nat) : Nat → Nat → List Bool → Option (Nat × List Bool)
  | _, _, [] => none
  | width, code, b :: bits =>
    match symbolWithCode lengths (width + 1) (2 * code + b.toNat) with
    | some s => some (s, bits)
    | none => readSymbolFrom lengths (width + 1) (2 * code + b.toNat) bits

/-- Read one symbol of a code. -/
def readSymbol (lengths : List Nat) (bits : List Bool) : Option (Nat × List Bool) := readSymbolFrom lengths 0 0 bits

/-! ## Tokens -/

/-- Bases and extra bits from the numbers of extra bits: each code starts where the one before it ends. -/
def bases (first : Nat) : List Nat → List (Nat × Nat)
  | [] => []
  | extra :: rest => (first, extra) :: bases (first + 2 ^ extra) rest

/-- (3.2.5) The length codes 257 to 285: the base length and the number of extra bits. Code 285 is the length 258. -/
def lengthCodes : List (Nat × Nat) :=
  bases 3 [0, 0, 0, 0, 0, 0, 0, 0, 1, 1, 1, 1, 2, 2, 2, 2, 3, 3, 3, 3, 4, 4, 4, 4, 5, 5, 5, 5] ++ [(258, 0)]

/-- (3.2.5) The distance codes 0 to 29: the base distance and the number of extra bits. -/
def distanceCodes : List (Nat × Nat) :=
  bases 1 [0, 0, 0, 0, 1, 1, 2, 2, 3, 3, 4, 4, 5, 5, 6, 6, 7, 7, 8, 8, 9, 9, 10, 10, 11, 11, 12, 12, 13, 13]

/-- An element of a compressed block: a literal byte, a back-reference, or the end of the block. -/
inductive Token where
  | literal (byte : UInt8)
  | copy (length distance : Nat)
  | endOfBlock
  deriving DecidableEq, Repr

/-- Read one element of a compressed block. -/
def readToken (literal distance : List Nat) (bits : List Bool) : Option (Token × List Bool) := do
  let (sym, bits) ← readSymbol literal bits
  if sym < 256 then some (.literal (UInt8.ofNat sym), bits)
  else if sym = 256 then some (.endOfBlock, bits)
  else
    let (base, extraBits) ← lengthCodes[sym - 257]?
    let (extra, bits) ← readField extraBits bits
    let (distSym, bits) ← readSymbol distance bits
    let (distBase, distExtraBits) ← distanceCodes[distSym]?
    let (distExtra, bits) ← readField distExtraBits bits
    some (.copy (base + extra) (distBase + distExtra), bits)

/-- Copy `length` bytes from `distance` bytes back, one byte at a time. -/
def copyBytes (distance : Nat) : Nat → List UInt8 → Option (List UInt8)
  | 0, output => some output
  | length + 1, output =>
    if 0 < distance ∧ distance ≤ output.length then
      copyBytes distance length (output ++ [output.getD (output.length - distance) 0])
    else none

/-- Read the elements of a compressed block up to its end. Every element takes a bit at least, so the number of bits bounds
the number of elements. -/
def readTokens (literal distance : List Nat) : Nat → List Bool → List UInt8 → Option (List UInt8 × List Bool)
  | 0, _, _ => none
  | fuel + 1, bits, output => do
    let (token, bits) ← readToken literal distance bits
    match token with
    | .literal byte => readTokens literal distance fuel bits (output ++ [byte])
    | .copy length dist =>
      let output ← copyBytes dist length output
      readTokens literal distance fuel bits output
    | .endOfBlock => some (output, bits)

/-! ## Blocks -/

/-- Read whole bytes. -/
def readBytes : Nat → List Bool → List UInt8 → Option (List UInt8 × List Bool)
  | 0, bits, output => some (output, bits)
  | n + 1, bits, output => do
    let (byte, bits) ← readField 8 bits
    readBytes n bits (output ++ [UInt8.ofNat byte])

/-- (3.2.4) A stored block: skip to a byte boundary, read the length and its complement, and copy the bytes. -/
def readStored (bits : List Bool) (output : List UInt8) : Option (List UInt8 × List Bool) := do
  let (len, bits) ← readField 16 (bits.drop (bits.length % 8))
  let (nlen, bits) ← readField 16 bits
  if len + nlen = 2 ^ 16 - 1 then readBytes len bits output else none

/-- (3.2.6) The code lengths of the fixed literal/length code. -/
def fixedLiteral : List Nat := List.replicate 144 8 ++ List.replicate 112 9 ++ List.replicate 24 7 ++ List.replicate 8 8

/-- (3.2.6) The code lengths of the fixed distance code. -/
def fixedDistance : List Nat := List.replicate 30 5

/-- (3.2.7) The order in which the lengths of the code-length code are transmitted. -/
def codeLengthOrder : List Nat := [16, 17, 18, 0, 8, 7, 9, 6, 10, 5, 11, 4, 12, 3, 13, 2, 14, 1, 15]

/-- Read the lengths of the code-length code, three bits each, into their slots. -/
def readCodeLengthCode : List Nat → List Bool → List Nat → Option (List Nat × List Bool)
  | [], bits, lengths => some (lengths, bits)
  | slot :: slots, bits, lengths => do
    let (length, bits) ← readField 3 bits
    readCodeLengthCode slots bits (lengths.set slot length)

/-- Read code lengths, compressed by the code-length code, until there are `total`. Every element adds a length at least. -/
def readCodeLengths (codeLengthCode : List Nat) (total : Nat) : Nat → List Bool → List Nat → Option (List Nat × List Bool)
  | fuel, bits, lengths =>
    if lengths.length = total then some (lengths, bits)
    else if total < lengths.length then none
    else
      match fuel with
      | 0 => none
      | fuel + 1 => do
        let (sym, bits) ← readSymbol codeLengthCode bits
        if sym < 16 then readCodeLengths codeLengthCode total fuel bits (lengths ++ [sym])
        else if sym = 16 then
          let (extra, bits) ← readField 2 bits
          let last ← lengths.getLast?
          readCodeLengths codeLengthCode total fuel bits (lengths ++ List.replicate (extra + 3) last)
        else if sym = 17 then
          let (extra, bits) ← readField 3 bits
          readCodeLengths codeLengthCode total fuel bits (lengths ++ List.replicate (extra + 3) 0)
        else if sym = 18 then
          let (extra, bits) ← readField 7 bits
          readCodeLengths codeLengthCode total fuel bits (lengths ++ List.replicate (extra + 11) 0)
        else none

/-- The code sets a dynamic block transmits: the lengths of the code-length code, and those of the two alphabets. -/
structure CodeSets where
  codeLength : List Nat
  literal : List Nat
  distance : List Nat
  deriving DecidableEq, Repr

/-- (3.2.7) Read the code sets of a dynamic block. -/
def readCodeSets (bits : List Bool) : Option (CodeSets × List Bool) := do
  let (hlit, bits) ← readField 5 bits
  let (hdist, bits) ← readField 5 bits
  let (hclen, bits) ← readField 4 bits
  let (codeLength, bits) ← readCodeLengthCode (codeLengthOrder.take (hclen + 4)) bits (List.replicate 19 0)
  let total := hlit + 257 + (hdist + 1)
  let (lengths, bits) ← readCodeLengths codeLength total total bits []
  some ({ codeLength, literal := lengths.take (hlit + 257), distance := lengths.drop (hlit + 257) }, bits)

/-- A block: whether it is the last, the output after it, the code sets it transmits, and the bits behind it. -/
structure Block where
  isFinal : Bool
  output : List UInt8
  codeSets : Option CodeSets
  rest : List Bool
  deriving DecidableEq, Repr

/-- (3.2.3) Read one block behind some output. -/
def readBlock (bits : List Bool) (output : List UInt8) : Option Block := do
  let (final, bits) ← readField 1 bits
  let (type, bits) ← readField 2 bits
  let isFinal := final != 0
  match type with
  | 0 =>
    let (output, rest) ← readStored bits output
    some { isFinal, output, codeSets := none, rest }
  | 1 =>
    let (output, rest) ← readTokens fixedLiteral fixedDistance bits.length bits output
    some { isFinal, output, codeSets := none, rest }
  | 2 =>
    let (sets, bits) ← readCodeSets bits
    let (output, rest) ← readTokens sets.literal sets.distance bits.length bits output
    some { isFinal, output, codeSets := some sets, rest }
  | _ => none

/-! ## Streams -/

/-- What a stream stands for: the output, the code sets its dynamic blocks transmit, and the bits behind its last block. -/
structure Meaning where
  output : List UInt8
  codeSets : List CodeSets
  rest : List Bool
  deriving DecidableEq, Repr

/-- Read blocks up to the final one. Every block takes a bit at least. -/
def readBlocks : Nat → List Bool → List UInt8 → List CodeSets → Option Meaning
  | 0, _, _, _ => none
  | fuel + 1, bits, output, codeSets => do
    let block ← readBlock bits output
    let codeSets := codeSets ++ block.codeSets.toList
    if block.isFinal then some { output := block.output, codeSets, rest := block.rest }
    else readBlocks fuel block.rest block.output codeSets

/-- The meaning of a stream. -/
def inflate (bits : List Bool) : Option Meaning := readBlocks bits.length bits [] []

/-! ## Validity -/

/-- A code set that is not over-subscribed. -/
def NotOversubscribed (lengths : List Nat) : Prop :=
  ((lengths.filter (fun w => 0 < w)).map (fun w => 2 ^ (15 - w))).sum ≤ 2 ^ 15

instance (lengths : List Nat) : Decidable (NotOversubscribed lengths) := inferInstanceAs (Decidable (_ ≤ _))

/-- The code sets of a valid dynamic block: at most 286 literal/length and 30 distance codes, none of the sets over-subscribed,
a code for the end of the block, and some distance code or the single zero-length one. -/
structure CodeSets.Valid (sets : CodeSets) : Prop where
  literal_count : sets.literal.length ≤ 286
  distance_count : sets.distance.length ≤ 30
  codeLength_code : NotOversubscribed sets.codeLength
  literal_code : NotOversubscribed sets.literal
  distance_code : NotOversubscribed sets.distance
  endOfBlock : ∃ w, sets.literal[256]? = some w ∧ 0 < w
  distances : (∃ w ∈ sets.distance, 0 < w) ∨ sets.distance = [0]

/-- A complete, valid stream with its meaning: the interpreter reads it up to its final block, and its code sets are valid. -/
structure Valid (bits : List Bool) (meaning : Meaning) : Prop where
  inflates : inflate bits = some meaning
  codeSets : ∀ sets ∈ meaning.codeSets, sets.Valid

end Noflate.Rfc1951
