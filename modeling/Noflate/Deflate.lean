import Noflate.Decode

/-!
# One-shot DEFLATE

`decompress` (`deflate.rs`): feed all the bytes, drain the output and resume with empty feeds until the stream is complete.
-/

namespace Noflate.Deflate

/-- The loop of `decompress`. -/
def decompressLoop : Nat → Decoder → List UInt8 → Exec (List UInt8)
  | 0, _, _ => .diverge
  | fuel + 1, decoder, out =>
    let produced := decoder.unread
    let out := out ++ produced
    do
      let decoder ← decoder.advance produced.length
      if decoder.finished then .ok out
      else
        let beforeRemaining := decoder.remainingInput.length
        match decoder.feed [] with
        | (.ok (), decoder) =>
          if decoder.unread.isEmpty && decoder.remainingInput.length == beforeRemaining && !decoder.finished then
            .err (.invalidData "deflate stream ended before the final block")
          else decompressLoop fuel decoder out
        | (.err e, _) => .err e
        | (.panic, _) => .panic
        | (.diverge, _) => .diverge

/-- Decompress a DEFLATE stream. -/
def decompress (data : List UInt8) : Exec (List UInt8) :=
  match Decoder.new.feed data with
  | (.ok (), decoder) => decompressLoop (decoder.driveFuel + 2) decoder []
  | (.err e, _) => .err e
  | (.panic, _) => .panic
  | (.diverge, _) => .diverge

end Noflate.Deflate
