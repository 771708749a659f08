import Noflate.Encode
import Noflate.Session

/-!
# What a container puts around a deflate stream

`gzip::Encoder` and `zlib::Encoder` do the same but for the header, the checksum and the trailer. `Container` is what they differ in,
and `ContainerEncoder` is the encoder over it. `ContainerSession` is such an encoder in use, with what its caller has consumed so far.
-/

namespace Noflate

/-- A container: its header, the checksum of no bytes and how it takes in more, the trailer that belongs to a checksum, and the
message by which it refuses bytes behind `finish`. -/
structure Container (κ : Type) where
  header : List UInt8
  new : κ
  update : κ → List UInt8 → κ
  trailer : κ → List UInt8
  fedAfterFinish : String

/-- The streaming encoder of a container. -/
structure ContainerEncoder (κ : Type) where
  deflate : Encoder
  check : κ
  output : List UInt8
  drained : Nat
  headerEmitted : Bool
  finishing : Bool

namespace ContainerEncoder

variable {κ : Type}

/-- The size from which on consumed output is dropped. -/
def compactThreshold : Nat := 1024 * 1024

/-- A fresh encoder with custom options. -/
def withOptions (K : Container κ) (options : EncodeOptions) : ContainerEncoder κ :=
  { deflate := Encoder.withOptions options, check := K.new, output := [], drained := 0, headerEmitted := false, finishing := false }

/-- Emit the header, once. -/
def ensureHeader (K : Container κ) (e : ContainerEncoder κ) : ContainerEncoder κ :=
  if e.headerEmitted then e else { e with output := e.output ++ K.header, headerEmitted := true }

/-- Take over what the deflate encoder has put out. -/
def takeOver (e : ContainerEncoder κ) (deflate : Encoder) : Exec (ContainerEncoder κ) := do
  let produced := deflate.unread.length
  let output := e.output ++ deflate.unread
  let deflate ← deflate.advance produced
  .ok { e with deflate, output }

/-- Append uncompressed bytes. -/
def feed (K : Container κ) (e : ContainerEncoder κ) (data : List UInt8) : Exec (ContainerEncoder κ) :=
  if e.finishing then .err (.invalidData K.fedAfterFinish)
  else do
    let e := e.ensureHeader K
    let e := { e with check := K.update e.check data }
    let deflate ← e.deflate.feed data
    if 0 < deflate.unread.length then e.takeOver deflate else .ok { e with deflate }

/-- Emit the final block and the trailer. Subsequent calls are a no-op. -/
def finish (K : Container κ) (e : ContainerEncoder κ) : Exec (ContainerEncoder κ) :=
  if e.finishing then .ok e
  else do
    let e := e.ensureHeader K
    let deflate ← e.deflate.finish
    let e ← e.takeOver deflate
    .ok { e with output := e.output ++ K.trailer e.check, finishing := true }

/-- The output that is not consumed. -/
def unread (e : ContainerEncoder κ) : List UInt8 := e.output.drop e.drained

/-- Mark bytes of the output as consumed: more than there are is a failed assertion. -/
def advance (e : ContainerEncoder κ) (n : Nat) : Exec (ContainerEncoder κ) :=
  if e.output.length < e.drained ∨ e.output.length - e.drained < n then .panic
  else
    let drained := e.drained + n
    if compactThreshold ≤ drained then .ok { e with output := e.output.drop drained, drained := 0 }
    else .ok { e with drained }

/-- Whether `finish` has been called and all output is consumed. -/
def isFinished (e : ContainerEncoder κ) : Bool := e.finishing && e.drained == e.output.length

end ContainerEncoder

/-- An encoder of a container in use: the bytes its caller has consumed. -/
structure ContainerSession (κ : Type) where
  encoder : ContainerEncoder κ
  taken : List UInt8

namespace ContainerSession

variable {κ : Type} (feed : ContainerEncoder κ → List UInt8 → Exec (ContainerEncoder κ))

/-- A caller with an encoder of which it has consumed nothing. -/
def start (encoder : ContainerEncoder κ) : ContainerSession κ := { encoder, taken := [] }

/-- All the bytes the encoder has made available. -/
def output (s : ContainerSession κ) : List UInt8 := s.taken ++ s.encoder.unread

/-- Make a call; an error is not caught. -/
def call (s : ContainerSession κ) : Call → Exec (ContainerSession κ)
  | .feed data => do
    let encoder ← feed s.encoder data
    .ok { s with encoder }
  | .advance n => do
    let encoder ← s.encoder.advance n
    .ok { encoder, taken := s.taken ++ s.encoder.unread.take n }

/-- Make calls, one after the other. -/
def run : List Call → ContainerSession κ → Exec (ContainerSession κ)
  | [], s => .ok s
  | c :: calls, s => do
    let s ← s.call feed c
    run calls s

/-- Finish the stream. -/
def close (finish : ContainerEncoder κ → Exec (ContainerEncoder κ)) (s : ContainerSession κ) : Exec (ContainerSession κ) := do
  let encoder ← finish s.encoder
  .ok { s with encoder }

/-- Calls of which every `advance` is in range, where it is made. -/
def InRange : ContainerSession κ → List Call → Prop
  | _, [] => True
  | s, c :: calls =>
    (∀ n, c = .advance n → n ≤ s.encoder.unread.length) ∧
      match s.call feed c with
      | .ok s' => InRange s' calls
      | _ => True

theorem run_cons (c : Call) (calls : List Call) (s : ContainerSession κ) : run feed (c :: calls) s = s.call feed c >>= run feed calls :=
  rfl

theorem inRange_cons {feed : ContainerEncoder κ → List UInt8 → Exec (ContainerEncoder κ)} {s : ContainerSession κ} {c : Call}
    {calls : List Call} :
    s.InRange feed (c :: calls) ↔
      (∀ n, c = .advance n → n ≤ s.encoder.unread.length) ∧ ∀ s', s.call feed c = .ok s' → s'.InRange feed calls := by
  rw [InRange]
  cases s.call feed c with
  | ok s' => simp
  | err e => simp
  | panic => simp
  | diverge => simp

end ContainerSession

/-- A decoder of a container finishes at the end of a byte string, in whatever pieces it gets it: with an output, not before the last
byte, and bytes behind it are an error. -/
def FinishesAtEnd {δ : Type} (feedChunks : List (List UInt8) → Exec δ) (finished : δ → Bool) (output : δ → List UInt8)
    (bytes data : List UInt8) : Prop :=
  (∀ chunks, chunks.flatten = bytes → ∃ d, feedChunks chunks = .ok d ∧ finished d = true ∧ output d = data) ∧
    (∀ chunks more, more ≠ [] → chunks.flatten ++ more = bytes → ∃ d, feedChunks chunks = .ok d ∧ finished d = false) ∧
    ∀ chunks more, more ≠ [] → chunks.flatten = bytes ++ more → ∃ e, feedChunks chunks = .err e

end Noflate
