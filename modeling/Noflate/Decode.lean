import Noflate.Buf
import Noflate.Huffman

/-!
# The streaming DEFLATE decoder

The caller feeds compressed bytes and takes decompressed bytes back out. A call of `feed` runs the state machine as far as it
goes: until a step needs more bits, until the unread output reaches the cap, until the final block is decoded, or until an
error. A step first replaces the state by the placeholder `DecodeState.transient`; every branch that is to be resumed puts a
state back, and a branch that returns an error does not.

The functions are those of the program, with the mutable variables of `drive` (the bit reader, the state and the output) passed
as a record. Loops carry a bound on their rounds; a loop that reaches it is `Exec.diverge`.
-/

namespace Noflate

/-- Compact the output buffer once it exceeds this size. -/
def compactThreshold : Nat := 1024 * 1024

/-- The number of unread bytes at which the decoder yields control back to the caller. -/
def maxInternalBuffer : Nat := 64 * 1024

/-- The state of the decoder between steps. -/
inductive DecodeState where
  | blockHeader
  | storedAlignAndLen (isFinal : Bool)
  | storedBody (remaining : Nat) (isFinal : Bool)
  | dynamicHeader (isFinal : Bool)
  | dynamicBitwidthTable (isFinal : Bool) (hlit hdist hclen orderIdx : Nat) (codeLengths : List Nat)
  | dynamicCodeLengths (isFinal : Bool) (hlit hdist : Nat) (bitwidthDecoder : HuffmanDecoder) (allCodeLengths : List Nat)
      (targetLen : Nat)
  | symbolLoop (isFinal : Bool) (literal distance : HuffmanDecoder)
  | finished
  | transient
  deriving DecidableEq, Repr

/-- What a step says to the loop of `drive`. -/
inductive StepOutcome where
  | progress
  | needMoreBytes
  | yield
  | finished
  deriving DecidableEq, Repr

/-- The variables a step changes: the bit reader, the state and the output. -/
structure StepEnv where
  reader : BitReader
  state : DecodeState
  output : List UInt8
  deriving DecidableEq, Repr

/-- What a step gives: how it ended, and the variables it left. -/
abbrev Stepping : Type := Exec StepOutcome × StepEnv

/-- The error that `isEofError` tells from the others: the input ended. -/
def isEofError (e : Error) : Bool :=
  match e with
  | .invalidData msg => msg == eofMessage
  | .unsupported _ => false

namespace StepEnv

/-- A call inside a step that does not touch the reader, under `?`. -/
def calling {α : Type} (env : StepEnv) (x : Exec α) (k : α → Stepping) : Stepping :=
  match x with
  | .ok a => k a
  | .err e => (.err e, env)
  | .panic => (.panic, env)
  | .diverge => (.diverge, env)

/-- A read inside a step, under `?`. -/
def reading {α : Type} (env : StepEnv) (x : Reading α) (k : α → StepEnv → Stepping) : Stepping :=
  match x with
  | (.ok a, r) => k a { env with reader := r }
  | (.err e, r) => (.err e, { env with reader := r })
  | (.panic, r) => (.panic, { env with reader := r })
  | (.diverge, r) => (.diverge, { env with reader := r })

/-- A read inside a step that goes back to the snapshot and puts the state `back` in place when the input ends, and is under
`?` for other errors. -/
def attempt {α : Type} (env : StepEnv) (snap : BitReaderState) (back : DecodeState) (x : Reading α)
    (k : α → StepEnv → Stepping) : Stepping :=
  match x with
  | (.ok a, r) => k a { env with reader := r }
  | (.err e, r) =>
    if isEofError e then (.ok .needMoreBytes, { env with reader := r.restore snap, state := back })
    else (.err e, { env with reader := r })
  | (.panic, r) => (.panic, { env with reader := r })
  | (.diverge, r) => (.diverge, { env with reader := r })

/-- The bits that are available to a step. Fewer bytes than have been pulled in would be an underflow. -/
def available (env : StepEnv) (k : Nat → Stepping) : Stepping :=
  if env.reader.input.length < env.reader.byteIndex then (.panic, env) else k env.reader.availableBits

end StepEnv

/-! ## The steps -/

/-- Read a block header. -/
def stepBlockHeader (env : StepEnv) : Stepping :=
  let snap := env.reader.snapshot
  env.available fun availableBits =>
  if availableBits < 3 then
    (.ok .needMoreBytes, { env with state := .blockHeader, reader := env.reader.restore snap })
  else
    env.reading env.reader.readBit fun isFinal env =>
    env.reading (env.reader.readBits 2) fun blockType env =>
    match blockType with
    | 0 => (.ok .progress, { env with state := .storedAlignAndLen isFinal })
    | 1 =>
      env.calling (HuffmanDecoder.fromCodeLengths fixedLiteralCodeLengths none (some endOfBlock)) fun literal =>
      env.calling (HuffmanDecoder.fromCodeLengths fixedDistanceCodeLengths (some 7) none) fun distance =>
      (.ok .progress, { env with state := .symbolLoop isFinal literal distance })
    | 2 => (.ok .progress, { env with state := .dynamicHeader isFinal })
    | _ => (.err (.invalidData "reserved DEFLATE block type"), env)

/-- Skip to the byte boundary and read the length of a stored block. -/
def stepStoredAlignAndLen (env : StepEnv) (isFinal : Bool) : Stepping :=
  let snap := env.reader.snapshot
  let residual := env.reader.bitCount % 8
  let requiredBits := residual + 32
  env.available fun availableBits =>
  if availableBits < requiredBits then
    (.ok .needMoreBytes, { env with state := .storedAlignAndLen isFinal, reader := env.reader.restore snap })
  else
    match env.reader.alignToByte.readBytes 4 with
    | (.err _, r) => (.ok .needMoreBytes, { env with state := .storedAlignAndLen isFinal, reader := r.restore snap })
    | (.ok [b0, b1, b2, b3], r) =>
      let env := { env with reader := r }
      let len := b0.toNat + 256 * b1.toNat
      let nlen := b2.toNat + 256 * b3.toNat
      if 0xFFFF - len ≠ nlen then
        (.err (.invalidData ("LEN=" ++ toString len ++ " is not the one's complement of NLEN=" ++ toString nlen)), env)
      else (.ok .progress, { env with state := .storedBody len isFinal })
    | (.diverge, r) => (.diverge, { env with reader := r })
    | (_, r) => (.panic, { env with reader := r })

/-- Copy what there is of the body of a stored block. -/
def stepStoredBody (env : StepEnv) (remaining : Nat) (isFinal : Bool) : Stepping :=
  if remaining = 0 then
    if isFinal then (.ok .finished, { env with state := .finished })
    else (.ok .progress, { env with state := .blockHeader })
  else
    env.available fun availableBits =>
    let available := availableBits / 8
    if available = 0 then (.ok .needMoreBytes, { env with state := .storedBody remaining isFinal })
    else
      let take := min available remaining
      env.reading (env.reader.readBytes take) fun bytes env =>
      (.ok .progress, { env with output := env.output ++ bytes, state := .storedBody (remaining - take) isFinal })

/-- Read the three counts of a dynamic block. -/
def stepDynamicHeader (env : StepEnv) (isFinal : Bool) : Stepping :=
  let snap := env.reader.snapshot
  env.available fun availableBits =>
  if availableBits < 14 then
    (.ok .needMoreBytes, { env with state := .dynamicHeader isFinal, reader := env.reader.restore snap })
  else
    env.reading (env.reader.readBits 5) fun hlit env =>
    env.calling (Exec.checkedAdd 16 hlit 257) fun hlit =>
    env.reading (env.reader.readBits 5) fun hdist env =>
    env.calling (Exec.checkedAdd 16 hdist 1) fun hdist =>
    env.reading (env.reader.readBits 4) fun hclen env =>
    env.calling (Exec.checkedAdd 8 hclen 4) fun hclen =>
    if distanceTable.length < hdist then
      (.err (.invalidData ("HDIST is too large: " ++ toString hdist)), env)
    else
      (.ok .progress, { env with state := .dynamicBitwidthTable isFinal hlit hdist hclen 0 (List.replicate 19 0) })

/-- The loop of `stepDynamicBitwidthTable`, over the code lengths still to be read. -/
def bitwidthTableLoop (isFinal : Bool) (hlit hdist hclen : Nat) : Nat → Nat → List Nat → StepEnv → Stepping
  | fuel, orderIdx, codeLengths, env =>
    if orderIdx < hclen then
      match fuel with
      | 0 => (.diverge, env)
      | fuel + 1 =>
        let snap := env.reader.snapshot
        env.available fun availableBits =>
        if availableBits < 3 then
          (.ok .needMoreBytes,
            { env with
              state := .dynamicBitwidthTable isFinal hlit hdist hclen orderIdx codeLengths
              reader := env.reader.restore snap })
        else
          env.reading (env.reader.readBits 3) fun width env =>
          env.calling (Exec.index bitwidthCodeOrder orderIdx) fun slot =>
          env.calling (Exec.assign codeLengths slot width) fun codeLengths =>
          bitwidthTableLoop isFinal hlit hdist hclen fuel (orderIdx + 1) codeLengths env
    else
      env.calling (HuffmanDecoder.fromCodeLengths codeLengths (some 1) none) fun bitwidthDecoder =>
      (.ok .progress, { env with state := .dynamicCodeLengths isFinal hlit hdist bitwidthDecoder [] (hlit + hdist) })

/-- Read the lengths of the code-length code and build its table. -/
def stepDynamicBitwidthTable (env : StepEnv) (isFinal : Bool) (hlit hdist hclen orderIdx : Nat) (codeLengths : List Nat) :
    Stepping :=
  bitwidthTableLoop isFinal hlit hdist hclen (hclen - orderIdx) orderIdx codeLengths env

/-- The loop of `stepDynamicCodeLengths`. Every round adds a code length at least, so the number still missing bounds the
rounds. -/
def codeLengthsLoop (isFinal : Bool) (hlit hdist : Nat) (bitwidthDecoder : HuffmanDecoder) (targetLen : Nat) :
    Nat → List Nat → StepEnv → Stepping
  | fuel, allCodeLengths, env =>
    if allCodeLengths.length < targetLen then
      match fuel with
      | 0 => (.diverge, env)
      | fuel + 1 =>
        let snap := env.reader.snapshot
        let back := DecodeState.dynamicCodeLengths isFinal hlit hdist bitwidthDecoder allCodeLengths targetLen
        let continueWith (lengths : List Nat) (env : StepEnv) : Stepping :=
          if targetLen < lengths.length then
            (.err (.invalidData "dynamic huffman code lengths exceed the announced table size"), env)
          else codeLengthsLoop isFinal hlit hdist bitwidthDecoder targetLen fuel lengths env
        env.attempt snap back (bitwidthDecoder.decode env.reader) fun code env =>
        if code ≤ 15 then continueWith (allCodeLengths ++ [code]) env
        else if code = 16 then
          env.attempt snap back (env.reader.readBits 2) fun v env =>
          env.calling (Exec.checkedAdd 16 v 3) fun times =>
          match allCodeLengths.getLast? with
          | none => (.err (.invalidData "repeat code 16 without a previous code"), env)
          | some last => continueWith (allCodeLengths ++ List.replicate times last) env
        else if code = 17 then
          env.attempt snap back (env.reader.readBits 3) fun v env =>
          env.calling (Exec.checkedAdd 16 v 3) fun times =>
          continueWith (allCodeLengths ++ List.replicate times 0) env
        else if code = 18 then
          env.attempt snap back (env.reader.readBits 7) fun v env =>
          env.calling (Exec.checkedAdd 16 v 11) fun times =>
          continueWith (allCodeLengths ++ List.replicate times 0) env
        else (.err (.invalidData ("invalid code length symbol: " ++ toString code)), env)
    else if allCodeLengths.length < hlit + hdist then (.panic, env)
    else
      env.calling (HuffmanDecoder.fromCodeLengths (allCodeLengths.take hlit) none (some endOfBlock)) fun literal =>
      env.calling (HuffmanDecoder.fromCodeLengths ((allCodeLengths.drop hlit).take hdist) (some literal.safelyPeekBits) none)
        fun distance =>
      (.ok .progress, { env with state := .symbolLoop isFinal literal distance })

/-- Read the code lengths of the two alphabets and build their tables. -/
def stepDynamicCodeLengths (env : StepEnv) (isFinal : Bool) (hlit hdist : Nat) (bitwidthDecoder : HuffmanDecoder)
    (allCodeLengths : List Nat) (targetLen : Nat) : Stepping :=
  codeLengthsLoop isFinal hlit hdist bitwidthDecoder targetLen (targetLen - allCodeLengths.length) allCodeLengths env

/-- The loop of `copyFromDistance` for a copy that overlaps its own output: each round copies up to the whole grown tail. -/
def copyLoop (distance length : Nat) : Nat → Nat → List UInt8 → Exec (List UInt8)
  | fuel, emitted, output =>
    if emitted < length then
      match fuel with
      | 0 => .diverge
      | fuel + 1 =>
        let tailLen := distance + emitted
        let take := min tailLen (length - emitted)
        if output.length < tailLen ∨ output.length < output.length - tailLen + take then .panic
        else
          copyLoop distance length fuel (emitted + take)
            (output ++ (output.drop (output.length - tailLen)).take take)
    else .ok output

/-- Append `length` bytes, copied from `distance` bytes back. -/
def copyFromDistance (output : List UInt8) (distance length : Nat) : Exec (List UInt8) :=
  if distance = 0 ∨ output.length < distance then
    .err (.invalidData ("too long backward reference: output_len=" ++ toString output.length ++ ", distance=" ++
      toString distance))
  else
    let start := output.length - distance
    if length ≤ distance then
      if output.length < start + length then .panic else .ok (output ++ (output.drop start).take length)
    else copyLoop distance length length 0 output

/-- The extra bits of a symbol: none are read when there are none. -/
def StepEnv.attemptExtra (env : StepEnv) (snap : BitReaderState) (back : DecodeState) (extraBits : Nat)
    (k : Nat → StepEnv → Stepping) : Stepping :=
  if extraBits = 0 then k 0 env else env.attempt snap back (env.reader.readBits extraBits) k

/-- The loop of `stepSymbolLoop`. Every round that goes on adds a byte of output at least, so the room up to the cap bounds the
rounds. -/
def symbolsLoop (isFinal : Bool) (literal distance : HuffmanDecoder) (drained : Nat) : Nat → StepEnv → Stepping
  | fuel, env =>
    if env.output.length < drained then (.panic, env)
    else if maxInternalBuffer ≤ env.output.length - drained then
      (.ok .yield, { env with state := .symbolLoop isFinal literal distance })
    else
      match fuel with
      | 0 => (.diverge, env)
      | fuel + 1 =>
        let snap := env.reader.snapshot
        let back := DecodeState.symbolLoop isFinal literal distance
        env.available fun availableBits =>
        if availableBits < literal.safelyPeekBits then
          (.ok .needMoreBytes, { env with state := back, reader := env.reader.restore snap })
        else
          env.attempt snap back (literal.decode env.reader) fun symbol env =>
          if symbol ≤ 255 then
            symbolsLoop isFinal literal distance drained fuel
              { env with output := env.output ++ [UInt8.ofNat symbol] }
          else if symbol = endOfBlock then
            if isFinal then (.ok .finished, { env with state := .finished })
            else (.ok .progress, { env with state := .blockHeader })
          else if symbol ≤ 285 then
            env.calling (Exec.index lengthTable (symbol - 257)) fun (baseLength, lengthExtraBits) =>
            env.attemptExtra snap back lengthExtraBits fun lengthExtra env =>
            if 2 ^ 16 ≤ baseLength + lengthExtra then (.panic, env)
            else
            env.attempt snap back (distance.decode env.reader) fun distanceSymbol env =>
            match distanceTable[distanceSymbol]? with
            | none => (.err (.invalidData ("invalid distance symbol: " ++ toString distanceSymbol)), env)
            | some (baseDistance, distExtraBits) =>
              env.attemptExtra snap back distExtraBits fun distExtra env =>
              if 2 ^ 16 ≤ baseDistance + distExtra then (.panic, env)
              else
              env.calling (copyFromDistance env.output (baseDistance + distExtra) (baseLength + lengthExtra)) fun output =>
              symbolsLoop isFinal literal distance drained fuel { env with output }
          else if symbol ≤ 287 then
            (.err (.invalidData ("literal/length symbol " ++ toString symbol ++ " must not appear in compressed data")), env)
          else (.panic, env)

/-- Decode symbols until the end of the block, the cap, or the end of the input. -/
def stepSymbolLoop (env : StepEnv) (drained : Nat) (isFinal : Bool) (literal distance : HuffmanDecoder) : Stepping :=
  symbolsLoop isFinal literal distance drained (maxInternalBuffer - (env.output.length - drained)) env

/-- One step of the state machine. -/
def step (env : StepEnv) (drained : Nat) : Stepping :=
  let current := env.state
  let env := { env with state := .transient }
  match current with
  | .blockHeader => stepBlockHeader env
  | .storedAlignAndLen isFinal => stepStoredAlignAndLen env isFinal
  | .storedBody remaining isFinal => stepStoredBody env remaining isFinal
  | .dynamicHeader isFinal => stepDynamicHeader env isFinal
  | .dynamicBitwidthTable isFinal hlit hdist hclen orderIdx codeLengths =>
    stepDynamicBitwidthTable env isFinal hlit hdist hclen orderIdx codeLengths
  | .dynamicCodeLengths isFinal hlit hdist bitwidthDecoder allCodeLengths targetLen =>
    stepDynamicCodeLengths env isFinal hlit hdist bitwidthDecoder allCodeLengths targetLen
  | .symbolLoop isFinal literal distance => stepSymbolLoop env drained isFinal literal distance
  | .finished => (.ok .finished, { env with state := .finished })
  | .transient => (.panic, env)

/-- The loop of `drive`: step while there is progress. The result says whether the final block ended. -/
def driveLoop (drained : Nat) : Nat → StepEnv → Exec Bool × StepEnv
  | 0, env => (.diverge, env)
  | fuel + 1, env =>
    match step env drained with
    | (.ok .progress, env) => driveLoop drained fuel env
    | (.ok .needMoreBytes, env) => (.ok false, env)
    | (.ok .yield, env) => (.ok false, env)
    | (.ok .finished, env) => (.ok true, env)
    | (.err e, env) => (.err e, env)
    | (.panic, env) => (.panic, env)
    | (.diverge, env) => (.diverge, env)

/-! ## The decoder -/

/-- The streaming DEFLATE decoder. -/
structure Decoder where
  input : Buf
  output : List UInt8
  drained : Nat
  state : DecodeState
  pendingBitBuffer : Nat
  pendingBitCount : Nat
  finished : Bool

namespace Decoder

/-- A decoder at the start of a stream. -/
def new : Decoder :=
  { input := Buf.new, output := [], drained := 0, state := .blockHeader, pendingBitBuffer := 0, pendingBitCount := 0,
    finished := false }

/-- The variables of `drive` at its start. -/
def env (d : Decoder) : StepEnv :=
  { reader := BitReader.newSeeded d.input.get d.pendingBitBuffer d.pendingBitCount, state := d.state, output := d.output }

/-- Rounds enough for the loop of `drive`: a step that makes progress consumes a bit or goes on to a later kind of state. -/
def driveFuel (d : Decoder) : Nat := 8 * d.env.reader.availableBits + 8

/-- Run the state machine on the buffered input. An error leaves the buffered input as it was and keeps the output produced
before it. -/
def drive (d : Decoder) : Exec Unit × Decoder :=
  match driveLoop d.drained d.driveFuel d.env with
  | (.ok finished, env) =>
    match d.input.advance env.reader.byteIndex with
    | .ok input =>
      (.ok (),
        { d with
          input, output := env.output, state := env.state
          pendingBitBuffer := env.reader.bitBuffer, pendingBitCount := env.reader.bitCount
          finished := d.finished || finished })
    | _ => (.panic, { d with output := env.output, state := env.state })
  | (.err e, env) => (.err e, { d with output := env.output, state := env.state })
  | (.panic, env) => (.panic, { d with output := env.output, state := env.state })
  | (.diverge, env) => (.diverge, { d with output := env.output, state := env.state })

/-- Append compressed bytes and run the state machine. -/
def feed (d : Decoder) (data : List UInt8) : Exec Unit × Decoder :=
  if d.finished ∧ data ≠ [] then (.err (.invalidData "bytes fed after deflate stream end"), d)
  else drive { d with input := d.input.feed data }

/-- The decompressed bytes not yet consumed. -/
def unread (d : Decoder) : List UInt8 := d.output.drop d.drained

/-- Drop consumed bytes from the front of the output, keeping the window that back-references need. -/
def maybeCompact (d : Decoder) : Decoder :=
  if d.output.length < compactThreshold then d
  else
    let windowStart := d.output.length - windowSize
    let keepFrom := min d.drained windowStart
    if keepFrom = 0 then d else { d with output := d.output.drop keepFrom, drained := d.drained - keepFrom }

/-- Mark `n` bytes of output as consumed; more than there are is a failed assertion. -/
def advance (d : Decoder) (n : Nat) : Exec Decoder :=
  if d.output.length < d.drained ∨ d.output.length - d.drained < n then .panic
  else .ok (maybeCompact { d with drained := d.drained + n })

/-- The bytes fed that the decoder did not consume. -/
def remainingInput (d : Decoder) : List UInt8 := d.input.get

end Decoder

end Noflate
