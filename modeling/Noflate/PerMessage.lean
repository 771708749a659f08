import Noflate.Drain
import Noflate.Encode

/-!
# Messages over one DEFLATE stream

How the documentation of `sync_flush` and of `reset_history` frames messages for WebSocket `permessage-deflate`. A sender feeds a message,
flushes, takes the output, and sends it without the four bytes that the flush leaves at its end; where no context is taken over it drops
the history. A receiver feeds what it gets, and the four bytes, and takes the output. The documented receiver looks at the output once;
the one for messages of any length resumes the decoder with empty feeds, as the one-shot function does.
-/

namespace Noflate.PerMessage

/-- The bytes that a flush leaves at the end of the output, and that are not sent. -/
def trailer : List UInt8 := [0, 0, 0xFF, 0xFF]

/-- A message, in the pieces in which it is fed, and whether the sender drops the history behind it. -/
structure Message where
  pieces : List (List UInt8)
  reset : Bool
  deriving DecidableEq, Repr

/-- The bytes of a message. -/
def Message.bytes (m : Message) : List UInt8 := m.pieces.flatten

/-- Send a message: the frame, and the encoder behind it. -/
def send (enc : Encoder) (m : Message) : Exec (List UInt8 × Encoder) := do
  let enc ← m.pieces.foldlM Encoder.feed enc
  let enc ← enc.syncFlush
  let frame := enc.unread
  let enc ← enc.advance frame.length
  -- `assert!(frame.ends_with(..))`
  if trailer.isSuffixOf frame then
    .ok (frame.take (frame.length - trailer.length), if m.reset then enc.resetHistory else enc)
  else .panic

/-- Send messages, one after the other. -/
def sendAll : Encoder → List Message → Exec (List (List UInt8))
  | _, [] => .ok []
  | enc, m :: messages => do
    let (frame, enc) ← send enc m
    let frames ← sendAll enc messages
    .ok (frame :: frames)

/-- A feed of a decoder, under `?`. -/
def feedDecoder (dec : Decoder) (data : List UInt8) : Exec Decoder := Exec.leaving (dec.feed data)

/-- Receive a frame as the documentation does: the output is looked at once. -/
def receiveOnce (dec : Decoder) (frame : List UInt8) : Exec (List UInt8 × Decoder) := do
  let dec ← feedDecoder dec frame
  let dec ← feedDecoder dec trailer
  let out := dec.unread
  let dec ← dec.advance out.length
  .ok (out, dec)

/-- A frame as it arrives: in some pieces, and whether the receiver starts afresh before it. -/
structure Delivery where
  pieces : List (List UInt8)
  fresh : Bool
  deriving DecidableEq, Repr

/-- The frame that arrives. -/
def Delivery.frame (d : Delivery) : List UInt8 := d.pieces.flatten

/-- Receive a frame in pieces: feed them and the trailer, and drain the decoder until it makes no further progress. -/
def receive (dec : Decoder) (d : Delivery) : Exec (List UInt8 × Decoder) := do
  let dec ← d.pieces.foldlM feedDecoder (if d.fresh then Decoder.new else dec)
  let dec ← feedDecoder dec trailer
  match drainLoop (· ++ ·) (dec.driveFuel + 2) [] dec with
  | (.ok _, out, dec) => .ok (out, dec)
  | (.err e, _, _) => .err e
  | (.panic, _, _) => .panic
  | (.diverge, _, _) => .diverge

/-- Receive what arrives, one frame after the other, in whichever way a frame is received. -/
def receiveAll {δ : Type} (receive : Decoder → δ → Exec (List UInt8 × Decoder)) : Decoder → List δ → Exec (List (List UInt8))
  | _, [] => .ok []
  | dec, d :: deliveries => do
    let (out, dec) ← receive dec d
    let outs ← receiveAll receive dec deliveries
    .ok (out :: outs)

end Noflate.PerMessage
