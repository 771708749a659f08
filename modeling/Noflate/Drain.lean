import Noflate.Decode

/-!
# Draining the deflate sub-stream

What `gzip::Decoder::feed` and `zlib::Decoder::feed` both do in their body state: feed the rest of the slice to the deflate decoder,
collect what it put out, and resume it with empty feeds until the final block is decoded or it makes no further progress.
-/

namespace Noflate

/-- `copy_from_slice` into a range of an array. -/
def copyFromSlice (dest : List UInt8) (start : Nat) (src : List UInt8) : List UInt8 :=
  dest.take start ++ src ++ dest.drop (start + src.length)

/-- The loop, with what the container does with a piece of output. The result says whether the final block is decoded. -/
def drainLoop {σ : Type} (collect : σ → List UInt8 → σ) : Nat → σ → Decoder → Exec Bool × σ × Decoder
  | 0, s, deflate => (.diverge, s, deflate)
  | fuel + 1, s, deflate =>
    let newBytes := deflate.unread
    let s := collect s newBytes
    match deflate.advance newBytes.length with
    | .ok deflate =>
      if deflate.finished then (.ok true, s, deflate)
      else
        let beforeRemaining := deflate.remainingInput.length
        match deflate.feed [] with
        | (.ok (), deflate) =>
          if deflate.unread.isEmpty && deflate.remainingInput.length == beforeRemaining && !deflate.finished then
            (.ok false, s, deflate)
          else drainLoop collect fuel s deflate
        | (.err e, deflate) => (.err e, s, deflate)
        | (.panic, deflate) => (.panic, s, deflate)
        | (.diverge, deflate) => (.diverge, s, deflate)
    | _ => (.panic, s, deflate)

/-- Feed the rest of the slice, and drain. -/
def feedAndDrain {σ : Type} (collect : σ → List UInt8 → σ) (s : σ) (deflate : Decoder) (rest : List UInt8) :
    Exec Bool × σ × Decoder :=
  match deflate.feed rest with
  | (.ok (), deflate) => drainLoop collect (deflate.driveFuel + 2) s deflate
  | (.err e, deflate) => (.err e, s, deflate)
  | (.panic, deflate) => (.panic, s, deflate)
  | (.diverge, deflate) => (.diverge, s, deflate)

end Noflate
