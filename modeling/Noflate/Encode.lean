import Noflate.Huffman
import Noflate.Lz77

/-!
# The streaming encoder

The caller feeds bytes, consumes output, and calls `finish` to emit the final block. The encoder cuts its input into chunks and
emits each as a stored, a fixed or a dynamic block; the bits of a last, unfinished byte are kept from one block to the next.

A sum of frequencies, a count of bytes and a length of a buffer are numbers without a bound: they count what is held in memory.
A call that ends in an error gives no encoder here. The two errors of the source are met before anything is changed, so a caller
goes on with the encoder it had.
-/

namespace Noflate

open BitString

/-! ## Options -/

/-- Which block encoding strategy to use. -/
inductive BlockKind where
  | stored
  | fixed
  | dynamic
  deriving DecidableEq, Repr

/-- Default maximum input bytes per block. -/
def defaultMaxBlockInput : Nat := 64 * 1024

/-- Configurable parameters for the encoder. The maximum number of input bytes per block, if there is one, is positive. -/
structure EncodeOptions where
  blockKind : BlockKind
  maxBlockInputBytes : Option Nat
  positive : ∀ limit ∈ maxBlockInputBytes, 0 < limit

namespace EncodeOptions

/-- Default options: dynamic Huffman blocks. -/
def new : EncodeOptions :=
  { blockKind := .dynamic, maxBlockInputBytes := some defaultMaxBlockInput, positive := by decide }

/-- Use fixed-Huffman blocks. -/
def fixedHuffman (options : EncodeOptions) : EncodeOptions := { options with blockKind := .fixed }

/-- Emit the stream as stored blocks. -/
def stored (options : EncodeOptions) : EncodeOptions := { options with blockKind := .stored }

/-- Buffer all input before compressing. -/
def bufferAllInput (options : EncodeOptions) : EncodeOptions :=
  { options with maxBlockInputBytes := none, positive := fun _ h => nomatch h }

/-- Set the maximum number of input bytes per block; zero is a failed assertion. -/
def withMaxBlockInputBytes (options : EncodeOptions) (bytes : Nat) : Exec EncodeOptions :=
  if h : 0 < bytes then
    .ok { options with
      maxBlockInputBytes := some bytes
      positive := fun limit hl => by rwa [← Option.some.inj (Option.mem_def.mp hl)] }
  else .panic

end EncodeOptions

/-! ## The code lengths of a dynamic block, run by run -/

/-- A run of equal code lengths. -/
structure RunLength where
  value : Nat
  count : Nat
  deriving DecidableEq, Repr

/-- One element of the transmitted code lengths: a symbol of the code-length code, and its extra bits: how many, and their value. -/
structure BitwidthCode where
  code : Nat
  extraBits : Nat
  extra : Nat
  deriving DecidableEq, Repr

/-- Add a width to the runs: to the last one if it has the value. -/
def pushWidth (runs : List RunLength) (width : Nat) : List RunLength :=
  match runs.getLast? with
  | some run =>
    if run.value = width then runs.dropLast ++ [{ run with count := run.count + 1 }]
    else runs ++ [{ value := width, count := 1 }]
  | none => [{ value := width, count := 1 }]

/-- The runs of a list of widths. -/
def runLengths (widths : List Nat) : List RunLength := widths.foldl pushWidth []

/-- The loop over a long run of zeros: the codes, and what is left of the run. A round takes eleven zeros at least. -/
def longZeroLoop : Nat → Nat → List BitwidthCode → List BitwidthCode × Nat
  | 0, count, codes => (codes, count)
  | fuel + 1, count, codes =>
    if 11 ≤ count then
      let amount := min 138 count
      longZeroLoop fuel (count - amount) (codes ++ [{ code := 18, extraBits := 7, extra := amount - 11 }])
    else (codes, count)

/-- The codes of a run of zeros. -/
def zeroCodes (count : Nat) : List BitwidthCode :=
  let (codes, count) := longZeroLoop count count []
  if 3 ≤ count then codes ++ [{ code := 17, extraBits := 3, extra := count - 3 }]
  else codes ++ List.replicate count { code := 0, extraBits := 0, extra := 0 }

/-- The loop over the repetitions of a width: the codes, and what is left of the run. A round takes three widths at least. -/
def repeatLoop : Nat → Nat → List BitwidthCode → List BitwidthCode × Nat
  | 0, count, codes => (codes, count)
  | fuel + 1, count, codes =>
    if 3 ≤ count then
      let amount := min 6 count
      repeatLoop fuel (count - amount) (codes ++ [{ code := 16, extraBits := 2, extra := amount - 3 }])
    else (codes, count)

/-- The codes of a run. -/
def RunLength.codes (run : RunLength) : List BitwidthCode :=
  if run.value = 0 then zeroCodes run.count
  else
    let (codes, count) := repeatLoop (run.count - 1) (run.count - 1) [{ code := run.value, extraBits := 0, extra := 0 }]
    codes ++ List.replicate count { code := run.value, extraBits := 0, extra := 0 }

/-- The transmitted code lengths of the two codes of a block. -/
def buildBitwidthCodes (literal : HuffmanEncoder) (literalCodeCount : Nat) (distance : HuffmanEncoder)
    (distanceCodeCount : Nat) : List BitwidthCode :=
  (runLengths ((List.range literalCodeCount).map literal.codeWidth ++ (List.range distanceCodeCount).map distance.codeWidth)).flatMap
    RunLength.codes

/-! ## Tokens -/

/-- Write the extra bits of a symbol. -/
def writeExtra (extra : Option (Nat × Nat)) (w : BitWriter) : Exec BitWriter :=
  match extra with
  | some (bits, extra) => w.writeBits bits extra
  | none => .ok w

/-- Write a token. -/
def writeSymbol (literalEncoder distanceEncoder : HuffmanEncoder) (w : BitWriter) : Lz77Code → Exec BitWriter
  | .literal byte => literalEncoder.encode w byte.toNat
  | .pointer length distance => do
    let lenSym ← lengthToSymbol (length % 2 ^ 16)
    let w ← literalEncoder.encode w lenSym.code
    let w ← writeExtra lenSym.extra w
    let distSym ← distanceToSymbol (distance % 2 ^ 16)
    let w ← distanceEncoder.encode w distSym.code
    writeExtra distSym.extra w

/-- Write the tokens of a block and its end. -/
def writeSymbols (w : BitWriter) (symbols : List Lz77Code) (literalEncoder distanceEncoder : HuffmanEncoder) :
    Exec BitWriter := do
  let w ← symbols.foldlM (writeSymbol literalEncoder distanceEncoder) w
  literalEncoder.encode w endOfBlock

/-! ## Code sets -/

/-- How often the symbols of the two codes occur, and whether a distance does. -/
structure Frequencies where
  literal : List Nat
  distance : List Nat
  hasDistance : Bool
  deriving DecidableEq, Repr

/-- Count a token. -/
def countToken (frequencies : Frequencies) : Lz77Code → Exec Frequencies
  | .literal byte => do
    let literal ← countSymbol frequencies.literal byte.toNat
    .ok { frequencies with literal }
  | .pointer length distance => do
    let lenSym ← lengthToSymbol (length % 2 ^ 16)
    let literal ← countSymbol frequencies.literal lenSym.code
    let distSym ← distanceToSymbol (distance % 2 ^ 16)
    let distance ← countSymbol frequencies.distance distSym.code
    .ok { literal, distance, hasDistance := true }

/-- The frequencies of the symbols of a block. The end of the block occurs once; where there is no distance, one is made up. -/
def countTokens (symbols : List Lz77Code) : Exec Frequencies := do
  let frequencies ← symbols.foldlM countToken
    { literal := List.replicate 286 0, distance := List.replicate 30 0, hasDistance := false }
  .ok { frequencies with
    literal := frequencies.literal.set endOfBlock 1
    distance := if frequencies.hasDistance then frequencies.distance else frequencies.distance.set 0 1 }

/-- How many lengths of a code are transmitted, at least so many. -/
def codeCount (least : Nat) (enc : HuffmanEncoder) : Nat := max least (enc.usedMaxSymbol.getD 0 + 1)

/-- How many lengths of the code-length code are transmitted: up to the last one that is not zero, in the order of their
transmission, and four at least. -/
def bitwidthCodeCount (enc : HuffmanEncoder) : Nat :=
  max 4 (((bitwidthCodeOrder.zipIdx.reverse.find? (fun e => 0 < enc.codeWidth e.1)).map (fun e => e.2 + 1)).getD 0)

/-- Write an element of the transmitted code lengths. -/
def writeBitwidthCode (bitwidthEncoder : HuffmanEncoder) (w : BitWriter) (c : BitwidthCode) : Exec BitWriter := do
  let w ← bitwidthEncoder.encode w c.code
  if 0 < c.extraBits then w.writeBits c.extraBits c.extra else .ok w

/-! ## The encoder -/

/-- The streaming encoder. -/
structure Encoder where
  options : EncodeOptions
  input : List UInt8
  output : List UInt8
  matcher : MatchFinder
  symbols : List Lz77Code
  drained : Nat
  finishing : Bool
  bitBuffer : Nat
  bitCount : Nat

namespace Encoder

/-- The size from which on consumed output is dropped. -/
def compactThreshold : Nat := 1024 * 1024

/-- A fresh encoder with custom options. -/
def withOptions (options : EncodeOptions) : Encoder :=
  { options, input := [], output := [], matcher := MatchFinder.new, symbols := [], drained := 0, finishing := false,
    bitBuffer := 0, bitCount := 0 }

/-- A fresh encoder with default options. -/
def new : Encoder := withOptions EncodeOptions.new

/-- A bit writer that goes on behind the output and the bits kept. -/
def writer (enc : Encoder) : BitWriter := BitWriter.newSeeded enc.output enc.bitBuffer enc.bitCount

/-- Take the output and the bits of a writer. -/
def written (enc : Encoder) (w : BitWriter) : Encoder :=
  { enc with output := w.output, bitBuffer := w.bitBuffer, bitCount := w.bitCount }

/-- Write the header of a block. -/
def blockHeader (isFinal : Bool) (type : Nat) (w : BitWriter) : Exec BitWriter := do
  let w ← w.writeBit isFinal
  w.writeBits 2 type

/-- The header of a stored block, aligned to the next byte; no bits are kept behind it. -/
def storedHeader (enc : Encoder) (isFinal : Bool) : Exec Encoder := do
  let w ← blockHeader isFinal 0 enc.writer
  let w := w.alignToByte
  .ok { enc with output := w.output, bitBuffer := 0, bitCount := 0 }

/-- The loop of `emitStoredChunk`: one stored block for each part of the chunk. -/
def storedLoop (chunk : List UInt8) (isFinal : Bool) : Nat → Nat → Encoder → Exec Encoder
  | 0, _, _ => .diverge
  | fuel + 1, offset, enc =>
    if offset < chunk.length then do
      let subLen := min maxStoredBlock (chunk.length - offset)
      let isLast := offset + subLen == chunk.length
      let enc ← enc.storedHeader (isFinal && isLast)
      let len := subLen
      let nlen := 2 ^ 16 - 1 - len
      let enc := { enc with
        output := enc.output ++ leBytes 2 len ++ leBytes 2 nlen ++ (chunk.drop offset).take subLen }
      storedLoop chunk isFinal fuel (offset + subLen) enc
    else .ok enc

/-- Emit a chunk as stored blocks; an empty chunk as one empty block. -/
def emitStoredChunk (enc : Encoder) (chunk : List UInt8) (isFinal : Bool) : Exec Encoder :=
  if chunk.length = 0 then do
    let enc ← enc.storedHeader isFinal
    .ok { enc with output := enc.output ++ [0, 0, 0xFF, 0xFF] }
  else storedLoop chunk isFinal (chunk.length + 1) 0 enc

/-- Put the bits of a block behind the output: the final block is filled up to a whole byte. -/
def endBlock (enc : Encoder) (isFinal : Bool) (w : BitWriter) : Encoder :=
  if isFinal then { enc with output := w.finish.output, bitBuffer := 0, bitCount := 0 } else enc.written w

/-- Emit a chunk as a block with the fixed codes. -/
def emitFixedBlockChunk (enc : Encoder) (chunk : List UInt8) (isFinal : Bool) : Exec Encoder := do
  let (matcher, symbols) ← enc.matcher.fillSymbols chunk
  let enc := { enc with matcher, symbols }
  let literalEncoder ← HuffmanEncoder.fromCodeLengths fixedLiteralCodeLengths
  let distanceEncoder ← HuffmanEncoder.fromCodeLengths fixedDistanceCodeLengths
  let w ← blockHeader isFinal 1 enc.writer
  let w ← writeSymbols w symbols literalEncoder distanceEncoder
  .ok (enc.endBlock isFinal w)

/-- Write the code sets of a dynamic block. -/
def writeCodeSets (w : BitWriter) (literalEncoder distanceEncoder : HuffmanEncoder) : Exec BitWriter := do
  let literalCodeCount := codeCount 257 literalEncoder
  let distanceCodeCount := codeCount 1 distanceEncoder
  let bitwidthCodes := buildBitwidthCodes literalEncoder literalCodeCount distanceEncoder distanceCodeCount
  let bitwidthFrequencies ← (bitwidthCodes.map (·.code)).foldlM countSymbol (List.replicate 19 0)
  let bitwidthLengths ← lengthLimitedCodeLengths bitwidthFrequencies 7
  let bitwidthEncoder ← HuffmanEncoder.fromCodeLengths bitwidthLengths
  let bitwidthCodeCount := bitwidthCodeCount bitwidthEncoder
  let w ← w.writeBits 5 (literalCodeCount - 257)
  let w ← w.writeBits 5 (distanceCodeCount - 1)
  let w ← w.writeBits 4 (bitwidthCodeCount - 4)
  let w ← (bitwidthCodeOrder.take bitwidthCodeCount).foldlM (fun w index => w.writeBits 3 (bitwidthEncoder.codeWidth index)) w
  bitwidthCodes.foldlM (writeBitwidthCode bitwidthEncoder) w

/-- Emit a chunk as a block with codes of its own. -/
def emitDynamicBlockChunk (enc : Encoder) (chunk : List UInt8) (isFinal : Bool) : Exec Encoder := do
  let (matcher, symbols) ← enc.matcher.fillSymbols chunk
  let enc := { enc with matcher, symbols }
  let frequencies ← countTokens symbols
  let literalLengths ← lengthLimitedCodeLengths frequencies.literal maxBits
  let distanceLengths ← lengthLimitedCodeLengths frequencies.distance maxBits
  let literalEncoder ← HuffmanEncoder.fromCodeLengths literalLengths
  let distanceEncoder ← HuffmanEncoder.fromCodeLengths distanceLengths
  let w ← blockHeader isFinal 2 enc.writer
  let w ← writeCodeSets w literalEncoder distanceEncoder
  let w ← writeSymbols w symbols literalEncoder distanceEncoder
  .ok (enc.endBlock isFinal w)

/-- Emit a chunk with the strategy of the options. -/
def emitBlockChunk (enc : Encoder) (chunk : List UInt8) (isFinal : Bool) : Exec Encoder :=
  match enc.options.blockKind with
  | .stored => enc.emitStoredChunk chunk isFinal
  | .fixed => enc.emitFixedBlockChunk chunk isFinal
  | .dynamic => enc.emitDynamicBlockChunk chunk isFinal

/-- The loop of `feed`: emit blocks while as much is buffered as a block takes. A round takes a byte at least. -/
def feedLoop (limit : Nat) : Nat → Encoder → Exec Encoder
  | 0, _ => .diverge
  | fuel + 1, enc =>
    if limit ≤ enc.input.length then do
      let chunk := enc.input.take limit
      let enc := { enc with input := enc.input.drop limit }
      let enc ← enc.emitBlockChunk chunk false
      feedLoop limit fuel enc
    else .ok enc

/-- Append uncompressed bytes. -/
def feed (enc : Encoder) (data : List UInt8) : Exec Encoder :=
  if enc.finishing then .err (.invalidData "bytes fed after encoder finish")
  else
    let enc := { enc with input := enc.input ++ data }
    match enc.options.maxBlockInputBytes with
    | some limit => feedLoop limit (enc.input.length + 1) enc
    | none => .ok enc

/-- Emit the final block. Subsequent calls are a no-op. -/
def finish (enc : Encoder) : Exec Encoder :=
  if enc.finishing then .ok enc
  else
    let chunk := enc.input
    let enc := { enc with finishing := true, input := [] }
    enc.emitBlockChunk chunk true

/-- Flush pending input as a non-final block and append an empty stored block. -/
def syncFlush (enc : Encoder) : Exec Encoder :=
  if enc.finishing then .err (.invalidData "sync_flush called after encoder finish")
  else if enc.input.isEmpty then enc.emitStoredChunk [] false
  else do
    let chunk := enc.input
    let enc := { enc with input := [] }
    let enc ← enc.emitBlockChunk chunk false
    enc.emitStoredChunk [] false

/-- Drop the sliding window. -/
def resetHistory (enc : Encoder) : Encoder := { enc with matcher := MatchFinder.new }

/-- The output that is not consumed. -/
def unread (enc : Encoder) : List UInt8 := enc.output.drop enc.drained

/-- Mark bytes of the output as consumed: more than there are is a failed assertion. -/
def advance (enc : Encoder) (n : Nat) : Exec Encoder :=
  if enc.output.length < enc.drained ∨ enc.output.length - enc.drained < n then .panic
  else
    let drained := enc.drained + n
    if compactThreshold ≤ drained then .ok { enc with output := enc.output.drop drained, drained := 0 }
    else .ok { enc with drained }

/-- Whether `finish` has been called and all output is consumed. -/
def isFinished (enc : Encoder) : Bool := enc.finishing && enc.drained == enc.output.length

end Encoder

end Noflate
