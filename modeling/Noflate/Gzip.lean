import Noflate.Buf
import Noflate.Crc32
import Noflate.Drain
import Noflate.Container

/-!
# GZIP (RFC 1952) decoder and encoder

The streaming decoder of `gzip.rs`. `feed` is a loop over the slice; the position in the slice is kept as the part of it that is
still to be read. The fixed arrays of the decoder are lists of their length. Behind it, the streaming encoder.
-/

namespace Noflate.Gzip

open BitString

/-- The second flag: a header CRC is present. -/
def fhcrc : UInt8 := (1 : UInt8) <<< 1

/-- The third flag: an extra field is present. -/
def fextra : UInt8 := (1 : UInt8) <<< 2

/-- The fourth flag: a name is present. -/
def fname : UInt8 := (1 : UInt8) <<< 3

/-- The fifth flag: a comment is present. -/
def fcomment : UInt8 := (1 : UInt8) <<< 4

/-- Where the decoder stands in a member. -/
inductive State where
  | fixedHeader
  | extra
  | extraLen
  | name
  | comment
  | hcrc
  | body
  | trailer
  | done
  deriving DecidableEq, Repr

/-- The streaming gzip decoder. -/
structure Decoder where
  state : State
  flags : UInt8
  headerBytes : List UInt8
  headerFilled : Nat
  extraRemaining : Nat
  extraLenBytesFilled : Nat
  extraLen : List UInt8
  deflate : Noflate.Decoder
  crc : Crc32
  size : Nat
  trailer : List UInt8
  trailerFilled : Nat
  finished : Bool
  output : Buf

namespace Decoder

/-- A decoder at the start of a stream. -/
def new : Decoder :=
  { state := .fixedHeader, flags := 0, headerBytes := List.replicate 10 0, headerFilled := 0, extraRemaining := 0
    extraLenBytesFilled := 0, extraLen := List.replicate 2 0, deflate := Noflate.Decoder.new, crc := Crc32.new, size := 0
    trailer := List.replicate 8 0, trailerFilled := 0, finished := false, output := Buf.new }

/-- Check the magic bytes and the method, and keep the flags. -/
def parseFixedHeader (d : Decoder) : Exec Decoder :=
  if d.headerBytes.getD 0 0 ≠ 0x1F ∨ d.headerBytes.getD 1 0 ≠ 0x8B then .err (.invalidData "gzip magic bytes not found")
  else if d.headerBytes.getD 2 0 ≠ 8 then
    .err (.unsupported ("gzip compression method " ++ toString (d.headerBytes.getD 2 0) ++
      " not supported (only deflate=8)"))
  else .ok { d with flags := d.headerBytes.getD 3 0 }

def advancePastComment (d : Decoder) : Decoder :=
  if d.flags &&& fhcrc ≠ 0 then { d with state := .hcrc, extraLenBytesFilled := 0 } else { d with state := .body }

def advancePastName (d : Decoder) : Decoder :=
  if d.flags &&& fcomment ≠ 0 then { d with state := .comment } else d.advancePastComment

def advancePastExtra (d : Decoder) : Decoder :=
  if d.flags &&& fname ≠ 0 then { d with state := .name } else d.advancePastName

def advanceToNextHeaderState (d : Decoder) : Decoder :=
  if d.flags &&& fextra ≠ 0 then { d with state := .extra, extraLenBytesFilled := 0 } else d.advancePastExtra

/-- Take a byte of the trailer; at the eighth, check the CRC-32 and the size. -/
def feedTrailerByte (d : Decoder) (byte : UInt8) : Exec Unit × Decoder :=
  if 8 ≤ d.trailerFilled then (.panic, d)
  else
    let d := { d with trailer := d.trailer.set d.trailerFilled byte, trailerFilled := d.trailerFilled + 1 }
    if d.trailerFilled = 8 then
      let expectedCrc := leNat (d.trailer.take 4)
      let expectedSize := leNat (d.trailer.drop 4)
      if expectedCrc ≠ d.crc.value then (.err (.invalidData "crc-32 checksum mismatch in gzip trailer"), d)
      else if expectedSize ≠ d.size then (.err (.invalidData "isize mismatch in gzip trailer"), d)
      else (.ok (), { d with state := .done, finished := true })
    else (.ok (), d)

/-- The loop of `feed` in the trailer: take bytes while there are any and fewer than eight are filled. -/
def trailerLoop : List UInt8 → Decoder → Exec (List UInt8) × Decoder
  | [], d => (.ok [], d)
  | b :: rest, d =>
    if d.trailerFilled < 8 then
      match d.feedTrailerByte b with
      | (.ok (), d) => trailerLoop rest d
      | (.err e, d) => (.err e, d)
      | (.panic, d) => (.panic, d)
      | (.diverge, d) => (.diverge, d)
    else (.ok (b :: rest), d)

/-- The loop of `consumeDeflateTail`. -/
def tailLoop : List UInt8 → Decoder → Exec Unit × Decoder
  | [], d => (.ok (), d)
  | b :: rest, d =>
    match d.feedTrailerByte b with
    | (.ok (), d) => tailLoop rest d
    | (.err e, d) => (.err e, d)
    | (.panic, d) => (.panic, d)
    | (.diverge, d) => (.diverge, d)

/-- What the deflate decoder left over is the beginning of the trailer. -/
def consumeDeflateTail (d : Decoder) : Exec Unit × Decoder :=
  let tail := d.deflate.remainingInput
  match tailLoop (tail.take 8) d with
  | (.ok (), d) => if 8 < tail.length then (.err (.invalidData "bytes fed after gzip stream end"), d) else (.ok (), d)
  | (.err e, d) => (.err e, d)
  | (.panic, d) => (.panic, d)
  | (.diverge, d) => (.diverge, d)

/-- What `feed` does with a piece of output of the deflate decoder. -/
def collect (d : Decoder) (newBytes : List UInt8) : Decoder :=
  { d with
    crc := d.crc.update newBytes, size := (d.size + newBytes.length % 2 ^ 32) % 2 ^ 32
    output := d.output.feed newBytes }

/-- The body: feed the rest of the slice to the deflate decoder and drain it. -/
def feedBody (d : Decoder) (rest : List UInt8) : Exec (List UInt8) × Decoder :=
  match feedAndDrain collect d d.deflate rest with
  | (.ok true, d, deflate) =>
    match consumeDeflateTail { d with deflate, state := .trailer } with
    | (.ok (), d) => (.ok [], d)
    | (.err e, d) => (.err e, d)
    | (.panic, d) => (.panic, d)
    | (.diverge, d) => (.diverge, d)
  | (.ok false, d, deflate) => (.ok [], { d with deflate })
  | (.err e, d, deflate) => (.err e, { d with deflate })
  | (.panic, d, deflate) => (.panic, { d with deflate })
  | (.diverge, d, deflate) => (.diverge, { d with deflate })

/-- The loop over a zero-terminated field: whether the zero was met, and what is behind it. -/
def skipText : List UInt8 → Bool × List UInt8
  | [] => (false, [])
  | b :: rest => if b = 0 then (true, rest) else skipText rest

/-- One round of the loop of `feed`, with the part of the slice that is still to be read. -/
def feedStep (d : Decoder) (rest : List UInt8) : Exec (List UInt8) × Decoder :=
  match d.state with
  | .fixedHeader =>
    if 10 < d.headerFilled then (.panic, d)
    else
      let take := min (10 - d.headerFilled) rest.length
      let d := { d with
        headerBytes := copyFromSlice d.headerBytes d.headerFilled (rest.take take), headerFilled := d.headerFilled + take }
      let rest := rest.drop take
      if d.headerFilled = 10 then
        match d.parseFixedHeader with
        | .ok d => (.ok rest, d.advanceToNextHeaderState)
        | .err e => (.err e, d)
        | .panic => (.panic, d)
        | .diverge => (.diverge, d)
      else (.ok rest, d)
  | .extra =>
    if d.extraLenBytesFilled < 2 then
      let take := min (2 - d.extraLenBytesFilled) rest.length
      let d := { d with
        extraLen := copyFromSlice d.extraLen d.extraLenBytesFilled (rest.take take)
        extraLenBytesFilled := d.extraLenBytesFilled + take }
      let rest := rest.drop take
      if d.extraLenBytesFilled = 2 then (.ok rest, { d with extraRemaining := leNat d.extraLen, state := .extraLen })
      else (.ok rest, d)
    else (.ok rest, { d with state := .extraLen })
  | .extraLen =>
    let take := min d.extraRemaining rest.length
    let d := { d with extraRemaining := d.extraRemaining - take }
    let rest := rest.drop take
    if d.extraRemaining = 0 then (.ok rest, d.advancePastExtra) else (.ok rest, d)
  | .name =>
    let (met, rest) := skipText rest
    (.ok rest, if met then d.advancePastName else d)
  | .comment =>
    let (met, rest) := skipText rest
    (.ok rest, if met then d.advancePastComment else d)
  | .hcrc =>
    if 2 < d.extraLenBytesFilled then (.panic, d)
    else
      let skip := min (2 - d.extraLenBytesFilled) rest.length
      let d := { d with extraLenBytesFilled := d.extraLenBytesFilled + skip }
      let rest := rest.drop skip
      if d.extraLenBytesFilled = 2 then (.ok rest, { d with state := .body, extraLenBytesFilled := 0 }) else (.ok rest, d)
  | .body => d.feedBody rest
  | .trailer => trailerLoop rest d
  | .done => (.err (.invalidData "bytes fed after gzip stream end"), d)

/-- The loop of `feed`, for a number of rounds: out of rounds with bytes to read, it has not come back. -/
def feedLoop : Nat → Decoder → List UInt8 → Exec Unit × Decoder
  | _, d, [] => (.ok (), d)
  | 0, d, _ :: _ => (.diverge, d)
  | fuel + 1, d, b :: rest =>
    match d.feedStep (b :: rest) with
    | (.ok rest, d) => feedLoop fuel d rest
    | (.err e, d) => (.err e, d)
    | (.panic, d) => (.panic, d)
    | (.diverge, d) => (.diverge, d)

/-- Append compressed bytes. A round reads a byte or goes on to a later state, of which there are nine. -/
def feed (d : Decoder) (data : List UInt8) : Exec Unit × Decoder := feedLoop (data.length + 9) d data

/-- Mark `n` bytes of output as consumed. -/
def advance (d : Decoder) (n : Nat) : Exec Decoder := do
  let output ← d.output.advance n
  .ok { d with output }

/-- Calls of `feed`, up to the first that does not succeed. -/
def feedChunks : Decoder → List (List UInt8) → Exec Decoder
  | d, [] => .ok d
  | d, data :: chunks =>
    match d.feed data with
    | (.ok (), d) => d.feedChunks chunks
    | (.err e, _) => .err e
    | (.panic, _) => .panic
    | (.diverge, _) => .diverge

end Decoder

/-- What the encoder keeps of the bytes fed: their CRC-32, and their number in 32 bits. -/
structure Checks where
  crc : Crc32
  size : Nat
  deriving DecidableEq, Repr

/-- Take in more bytes. -/
def Checks.update (c : Checks) (data : List UInt8) : Checks :=
  { crc := c.crc.update data, size := (c.size + data.length % 2 ^ 32) % 2 ^ 32 }

/-- What gzip puts around a deflate stream: a minimal header (magic, method, no flags, no time, no extra flags, unknown system), and
the CRC-32 and the size, the low byte first. -/
def container : Container Checks where
  header := [0x1F, 0x8B, 8, 0, 0, 0, 0, 0, 0, 255]
  new := { crc := Crc32.new, size := 0 }
  update := Checks.update
  trailer c := leBytes 4 c.crc.value ++ leBytes 4 c.size
  fedAfterFinish := "bytes fed after gzip encoder finish"

/-- The streaming gzip encoder. -/
abbrev Encoder := ContainerEncoder Checks

namespace Encoder

/-- A fresh encoder with custom options. -/
def withOptions (options : EncodeOptions) : Encoder := ContainerEncoder.withOptions container options

/-- Append uncompressed bytes. -/
def feed (e : Encoder) (data : List UInt8) : Exec Encoder := ContainerEncoder.feed container e data

/-- Emit the final block and the gzip trailer. -/
def finish (e : Encoder) : Exec Encoder := ContainerEncoder.finish container e

end Encoder

end Noflate.Gzip
