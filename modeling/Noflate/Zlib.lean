import Noflate.Buf
import Noflate.Adler32
import Noflate.Drain
import Noflate.Container

/-!
# ZLIB (RFC 1950) decoder and encoder

The streaming decoder and the streaming encoder of `zlib.rs`.
-/

namespace Noflate.Zlib

open BitString

/-- Where the decoder stands in a stream. -/
inductive State where
  | header
  | body
  | trailer
  | done
  deriving DecidableEq, Repr

/-- The streaming zlib decoder. -/
structure Decoder where
  state : State
  header : List UInt8
  headerFilled : Nat
  deflate : Noflate.Decoder
  adler : Adler32
  trailer : List UInt8
  trailerFilled : Nat
  finished : Bool
  output : Buf

/-- Check the two bytes of the header. -/
def validateZlibHeader (header : List UInt8) : Exec Unit :=
  let cmf := header.getD 0 0
  let flg := header.getD 1 0
  if cmf &&& 0x0F ≠ 8 then
    .err (.unsupported ("zlib compression method " ++ toString (cmf &&& 0x0F) ++ " not supported (only deflate=8)"))
  else if cmf >>> 4 > 7 then
    .err (.unsupported ("zlib window size code " ++ toString (cmf >>> 4) ++ " not supported (max 7)"))
  else if flg &&& 0x20 ≠ 0 then .err (.unsupported "zlib preset dictionary not supported")
  else if ((cmf.toNat <<< 8) ||| flg.toNat) % 31 ≠ 0 then .err (.invalidData "zlib header FCHECK validation failed")
  else .ok ()

namespace Decoder

/-- A decoder at the start of a stream. -/
def new : Decoder :=
  { state := .header, header := List.replicate 2 0, headerFilled := 0, deflate := Noflate.Decoder.new, adler := Adler32.new
    trailer := List.replicate 4 0, trailerFilled := 0, finished := false, output := Buf.new }

/-- Take a byte of the trailer that came with the body; at the fourth, check the Adler-32. -/
def feedByteInTrailer (d : Decoder) (byte : UInt8) : Exec Unit × Decoder :=
  match d.state with
  | .trailer =>
    if 4 ≤ d.trailerFilled then (.panic, d)
    else
      let d := { d with trailer := d.trailer.set d.trailerFilled byte, trailerFilled := d.trailerFilled + 1 }
      if d.trailerFilled = 4 then
        let expected := beNat d.trailer
        if expected ≠ d.adler.value then (.err (.invalidData "adler-32 checksum mismatch in zlib trailer"), d)
        else (.ok (), { d with state := .done, finished := true })
      else (.ok (), d)
  | .done => (.err (.invalidData "bytes fed after zlib stream end"), d)
  | _ => (.panic, d)

/-- The loop of `consumeDeflateTail`. -/
def tailLoop : List UInt8 → Decoder → Exec Unit × Decoder
  | [], d => (.ok (), d)
  | b :: rest, d =>
    match d.feedByteInTrailer b with
    | (.ok (), d) => tailLoop rest d
    | (.err e, d) => (.err e, d)
    | (.panic, d) => (.panic, d)
    | (.diverge, d) => (.diverge, d)

/-- What the deflate decoder left over is the beginning of the trailer. -/
def consumeDeflateTail (d : Decoder) : Exec Unit × Decoder :=
  let tail := d.deflate.remainingInput
  match tailLoop (tail.take 4) d with
  | (.ok (), d) => if 4 < tail.length then (.err (.invalidData "bytes fed after zlib stream end"), d) else (.ok (), d)
  | (.err e, d) => (.err e, d)
  | (.panic, d) => (.panic, d)
  | (.diverge, d) => (.diverge, d)

/-- What `feed` does with a piece of output of the deflate decoder. -/
def collect (d : Decoder) (newBytes : List UInt8) : Decoder :=
  { d with adler := d.adler.update newBytes, output := d.output.feed newBytes }

/-- The body: feed the rest of the slice to the deflate decoder and drain it. -/
def feedBody (d : Decoder) (rest : List UInt8) : Exec (List UInt8) × Decoder :=
  match feedAndDrain collect d d.deflate rest with
  | (.ok true, d, deflate) =>
    match consumeDeflateTail { d with deflate, state := .trailer } with
    | (.ok (), d) => (.ok [], d)
    | (.err e, d) => (.err e, d)
    | (.panic, d) => (.panic, d)
    | (.diverge, d) => (.diverge, d)
  | (.ok false, d, deflate) => (.ok [], { d with deflate })
  | (.err e, d, deflate) => (.err e, { d with deflate })
  | (.panic, d, deflate) => (.panic, { d with deflate })
  | (.diverge, d, deflate) => (.diverge, { d with deflate })

/-- One round of the loop of `feed`, with the part of the slice that is still to be read. -/
def feedStep (d : Decoder) (rest : List UInt8) : Exec (List UInt8) × Decoder :=
  match d.state with
  | .header =>
    if 2 < d.headerFilled then (.panic, d)
    else
      let take := min (2 - d.headerFilled) rest.length
      let d := { d with
        header := copyFromSlice d.header d.headerFilled (rest.take take), headerFilled := d.headerFilled + take }
      let rest := rest.drop take
      if d.headerFilled = 2 then
        match validateZlibHeader d.header with
        | .ok () => (.ok rest, { d with state := .body })
        | .err e => (.err e, d)
        | .panic => (.panic, d)
        | .diverge => (.diverge, d)
      else (.ok rest, d)
  | .body => d.feedBody rest
  | .trailer =>
    if 4 < d.trailerFilled then (.panic, d)
    else
      let take := min (4 - d.trailerFilled) rest.length
      let d := { d with
        trailer := copyFromSlice d.trailer d.trailerFilled (rest.take take), trailerFilled := d.trailerFilled + take }
      let rest := rest.drop take
      if d.trailerFilled = 4 then
        let expected := beNat d.trailer
        if expected ≠ d.adler.value then (.err (.invalidData "adler-32 checksum mismatch in zlib trailer"), d)
        else (.ok rest, { d with state := .done, finished := true })
      else (.ok rest, d)
  | .done => (.err (.invalidData "bytes fed after zlib stream end"), d)

/-- The loop of `feed`, for a number of rounds: out of rounds with bytes to read, it has not come back. -/
def feedLoop : Nat → Decoder → List UInt8 → Exec Unit × Decoder
  | _, d, [] => (.ok (), d)
  | 0, d, _ :: _ => (.diverge, d)
  | fuel + 1, d, b :: rest =>
    match d.feedStep (b :: rest) with
    | (.ok rest, d) => feedLoop fuel d rest
    | (.err e, d) => (.err e, d)
    | (.panic, d) => (.panic, d)
    | (.diverge, d) => (.diverge, d)

/-- Append compressed bytes. A round reads a byte or goes on to a later state, of which there are four. -/
def feed (d : Decoder) (data : List UInt8) : Exec Unit × Decoder := feedLoop (data.length + 4) d data

/-- Mark `n` bytes of output as consumed. -/
def advance (d : Decoder) (n : Nat) : Exec Decoder := do
  let output ← d.output.advance n
  .ok { d with output }

/-- Calls of `feed`, up to the first that does not succeed. -/
def feedChunks : Decoder → List (List UInt8) → Exec Decoder
  | d, [] => .ok d
  | d, data :: chunks =>
    match d.feed data with
    | (.ok (), d) => d.feedChunks chunks
    | (.err e, _) => .err e
    | (.panic, _) => .panic
    | (.diverge, _) => .diverge

end Decoder

/-- Zlib CMF byte: deflate with a window of 32 KiB. -/
def cmf : UInt8 := 0x78

/-- Zlib FLG byte: the default level and no dictionary. -/
def flg : UInt8 := 0x9C

/-- What zlib puts around a deflate stream: the two bytes of the header, and the Adler-32, the high byte first. -/
def container : Container Adler32 where
  header := [cmf, flg]
  new := Adler32.new
  update := Adler32.update
  trailer a := beBytes 4 a.value
  fedAfterFinish := "bytes fed after zlib encoder finish"

/-- The streaming zlib encoder. -/
abbrev Encoder := ContainerEncoder Adler32

namespace Encoder

/-- A fresh encoder with custom options. -/
def withOptions (options : EncodeOptions) : Encoder := ContainerEncoder.withOptions container options

/-- Append uncompressed bytes. -/
def feed (e : Encoder) (data : List UInt8) : Exec Encoder := ContainerEncoder.feed container e data

/-- Emit the final block and the Adler-32 trailer. -/
def finish (e : Encoder) : Exec Encoder := ContainerEncoder.finish container e

end Encoder

end Noflate.Zlib
