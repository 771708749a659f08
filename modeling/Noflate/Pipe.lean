import Noflate.Encoding
import Noflate.Session

/-!
# An encoder, a decoder, and the bytes between them

`Pipe` is a streaming encoder and a streaming decoder at the two ends of something that keeps bytes in order: a buffer, a file, a
connection. The calls of the two callers and the transport of bytes come in any order. What a caller of the encoder consumes goes on its
way; what has arrived is fed to the decoder, in whatever pieces.
-/

namespace Noflate

/-- The two ends, and the bytes that are on their way. -/
structure Pipe where
  sender : EncoderSession
  channel : List UInt8
  receiver : Session

namespace Pipe

/-- Something that happens: a call on the encoder, bytes that arrive and are fed to the decoder, or a caller of the decoder who consumes
output. -/
inductive Event where
  | send (c : Command)
  | deliver (n : Nat)
  | consume (n : Nat)
  deriving DecidableEq, Repr

/-- Nothing has happened. -/
def start (options : EncodeOptions) : Pipe := { sender := EncoderSession.start options, channel := [], receiver := Session.start }

/-- What happens next. A piece of no bytes resumes the decoder. -/
def step (p : Pipe) : Event → Exec Pipe
  | .send c => do
    let sender ← p.sender.call c
    .ok { p with sender, channel := p.channel ++ sender.taken.drop p.sender.taken.length }
  | .deliver n => do
    let receiver ← p.receiver.call (.feed (p.channel.take n))
    .ok { p with receiver, channel := p.channel.drop n }
  | .consume n => do
    let receiver ← p.receiver.call (.advance n)
    .ok { p with receiver }

/-- What happens, one thing after the other. -/
def run : List Event → Pipe → Exec Pipe
  | [], p => .ok p
  | ev :: events, p => do
    let p ← p.step ev
    run events p

/-- No caller consumes more than there is. -/
def Permits (p : Pipe) : Event → Prop
  | .send c => p.sender.ConsumesInRange c
  | .deliver _ => True
  | .consume n => n ≤ p.receiver.decoder.unread.length

/-- The same along the way. -/
def InRange : Pipe → List Event → Prop
  | _, [] => True
  | p, ev :: events =>
    p.Permits ev ∧
      match p.step ev with
      | .ok p' => InRange p' events
      | _ => True

/-- The calls on the encoder. -/
def commands (events : List Event) : List Command :=
  events.filterMap fun
    | .send c => some c
    | _ => none

/-- All that was fed is out of the encoder, and has arrived. -/
structure Idle (p : Pipe) : Prop where
  input_eq : p.sender.encoder.input = []
  bitCount_eq : p.sender.encoder.bitCount = 0
  unread_eq : p.sender.encoder.unread = []
  channel_eq : p.channel = []

/-- Events in range: the first one is, and the others are where it leads. -/
theorem inRange_cons {p : Pipe} {ev : Event} {events : List Event} :
    p.InRange (ev :: events) ↔ p.Permits ev ∧ ∀ p', p.step ev = .ok p' → p'.InRange events := by
  rw [InRange]
  cases p.step ev with
  | ok p' => simp
  | err e => simp
  | panic => simp
  | diverge => simp

end Pipe

end Noflate
