import Noflate.Deflate
import Noflate.Gzip
import Noflate.Zlib

/-!
# One-shot functions

`compress` of `deflate.rs`, `gzip.rs` and `zlib.rs`, `decompress` of `gzip.rs` and `zlib.rs` (that of `deflate.rs` is
`Deflate.decompress`), and the checksums of a slice, `crc32` and `adler32`. All of them make one pass over the streaming types.
-/

namespace Noflate

/-- Compress a slice into a new DEFLATE stream. -/
def Deflate.compress (data : List UInt8) : Exec (List UInt8) := do
  let encoder ← (Encoder.withOptions EncodeOptions.new.bufferAllInput).feed data
  let encoder ← encoder.finish
  let out := encoder.unread
  let _ ← encoder.advance out.length
  .ok out

/-- Compress a slice into a new stream of a container. -/
def Container.compress {κ : Type} (K : Container κ) (data : List UInt8) : Exec (List UInt8) := do
  let e ← ContainerEncoder.feed K (ContainerEncoder.withOptions K EncodeOptions.new.bufferAllInput) data
  let e ← ContainerEncoder.finish K e
  let out := e.unread
  let _ ← e.advance out.length
  .ok out

/-- Decompress a stream with a decoder of a container: feed all of it, and take the output if the decoder is finished. -/
def decompressWith {δ : Type} (feed : δ → List UInt8 → Exec Unit × δ) (finished : δ → Bool) (output : δ → List UInt8)
    (advance : δ → Nat → Exec δ) (message : String) (start : δ) (data : List UInt8) : Exec (List UInt8) := do
  let d ← Exec.leaving (feed start data)
  if finished d then do
    let out := output d
    let _ ← advance d out.length
    .ok out
  else .err (.invalidData message)

namespace Gzip

/-- Compress a slice into a new gzip stream. -/
def compress (data : List UInt8) : Exec (List UInt8) := container.compress data

/-- The message for a stream that is not complete. -/
def truncatedMessage : String := "gzip stream ended before the trailer"

/-- Decompress a gzip stream. -/
def decompress (data : List UInt8) : Exec (List UInt8) :=
  decompressWith Decoder.feed Decoder.finished (·.output.get) Decoder.advance truncatedMessage Decoder.new data

/-- The CRC-32 of a slice. -/
def crc32 (data : List UInt8) : Nat := (Crc32.new.update data).value

end Gzip

namespace Zlib

/-- Compress a slice into a new zlib stream. -/
def compress (data : List UInt8) : Exec (List UInt8) := container.compress data

/-- The message for a stream that is not complete. -/
def truncatedMessage : String := "zlib stream ended before the trailer"

/-- Decompress a zlib stream. -/
def decompress (data : List UInt8) : Exec (List UInt8) :=
  decompressWith Decoder.feed Decoder.finished (·.output.get) Decoder.advance truncatedMessage Decoder.new data

/-- The Adler-32 of a slice. -/
def adler32 (data : List UInt8) : Nat := (Adler32.new.update data).value

end Zlib

end Noflate
