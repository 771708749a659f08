import Noflate.Encode
import Noflate.Machine

/-!
# The encoder and the decoder behind `Write` and `Read`

`DeflateWriter` and `DeflateReader` of `examples/io_bridge.rs`. The sink and the source they wrap are devices of the caller: a device is
given by how it will answer its next calls, so that a statement about every device is one about every list of answers. `Writing` and
`Reading` are the adapters in the hands of a caller who takes down every error and goes on.
-/

namespace Noflate.Bridge

/-- An error of an adapter: one of the library, a stream that ends too early, or one of the device, which is passed on. -/
inductive Failure where
  | other (e : Error)
  | unexpectedEof (message : String)
  | device (code : Nat)
  deriving DecidableEq, Repr

/-- How a call of an adapter comes back. -/
abbrev Answer (α : Type) := Except Failure α

/-! ## Writing -/

/-- What a sink took in one `write_all`: the bytes, and whether the call came back without an error. -/
structure Delivery where
  bytes : List UInt8
  whole : Bool
  deriving DecidableEq, Repr

/-- The bytes of the deliveries that came back without an error. -/
def accepted (deliveries : List Delivery) : List UInt8 := (deliveries.filter Delivery.whole).flatMap Delivery.bytes

/-- A delivery is torn off if its call failed behind some bytes. -/
def Delivery.Torn (d : Delivery) : Prop := d.whole = false ∧ d.bytes ≠ []

instance (d : Delivery) : Decidable d.Torn := inferInstanceAs (Decidable (_ ∧ _))

/-- A sink: what it took, and the calls that will fail, behind how many bytes and with which error. A sink that has no more answers takes
everything. -/
structure Sink where
  received : List Delivery
  answers : List (Option (Nat × Nat))

/-- What a sink holds. It keeps what it took before it failed. -/
def Sink.written (w : Sink) : List UInt8 := w.received.flatMap Delivery.bytes

/-- `write_all`: the sink takes all bytes, or fails behind some of them. -/
def Sink.writeAll (w : Sink) (bytes : List UInt8) : Answer Unit × Sink :=
  match w.answers with
  | [] => (.ok (), { w with received := w.received ++ [{ bytes, whole := true }] })
  | none :: answers => (.ok (), { received := w.received ++ [{ bytes, whole := true }], answers })
  | some (n, code) :: answers =>
    (.error (.device code), { received := w.received ++ [{ bytes := bytes.take n, whole := false }], answers })

/-- `flush` of the sink. -/
def Sink.flush (w : Sink) : Answer Unit × Sink :=
  match w.answers with
  | [] => (.ok (), w)
  | none :: answers => (.ok (), { w with answers })
  | some (_, code) :: answers => (.error (.device code), { w with answers })

/-- Compresses what is written to it into a sink. -/
structure DeflateWriter where
  inner : Sink
  encoder : Encoder

namespace DeflateWriter

/-- A fresh writer. -/
def new (inner : Sink) : DeflateWriter := { inner, encoder := Encoder.withOptions EncodeOptions.new }

/-- Hand the output of the encoder to the sink. If the sink fails the encoder keeps all of it, and the next call hands it over again. -/
def drain (w : DeflateWriter) : Exec (Answer Unit × DeflateWriter) :=
  let produced := w.encoder.unread
  if produced.isEmpty then .ok (.ok (), w)
  else
    match w.inner.writeAll produced with
    | (.error e, inner) => .ok (.error e, { w with inner })
    | (.ok (), inner) => do
      let n := produced.length
      let encoder ← w.encoder.advance n
      .ok (.ok (), { inner, encoder })

/-- An error of the encoder becomes an error of the adapter, and the writer is as it was; else go on with the encoder. -/
def withEncoder (w : DeflateWriter) (result : Exec Encoder) (go : DeflateWriter → Exec (Answer Unit × DeflateWriter)) :
    Exec (Answer Unit × DeflateWriter) :=
  match result with
  | .ok encoder => go { w with encoder }
  | .err e => .ok (.error (.other e), w)
  | .panic => .panic
  | .diverge => .diverge

/-- `write`: all bytes are taken, or there is an error. -/
def write (w : DeflateWriter) (buf : List UInt8) : Exec (Answer Unit × DeflateWriter) := w.withEncoder (w.encoder.feed buf) drain

/-- `flush` flushes the sink, and nothing else. -/
def flush (w : DeflateWriter) : Exec (Answer Unit × DeflateWriter) :=
  let (answer, inner) := w.inner.flush
  .ok (answer, { w with inner })

/-- Emit the final block. The caller gets the sink back; a writer that could not be finished is lost. -/
def finish (w : DeflateWriter) : Exec (Answer Unit × DeflateWriter) := w.withEncoder w.encoder.finish drain

end DeflateWriter

/-- A call on a writer, before it is finished. -/
inductive WriteCall where
  | write (buf : List UInt8)
  | flush
  deriving DecidableEq, Repr

/-- The bytes of a call. -/
def WriteCall.bytes : WriteCall → List UInt8
  | .write buf => buf
  | .flush => []

/-- A writer in use, and the errors it has reported. -/
structure Writing where
  writer : DeflateWriter
  errors : List Failure

namespace Writing

/-- Nothing written. -/
def start (inner : Sink) : Writing := { writer := DeflateWriter.new inner, errors := [] }

/-- A call comes back: an error is noted. -/
def becomes (w : Writing) (result : Exec (Answer Unit × DeflateWriter)) : Exec Writing := do
  let (answer, writer) ← result
  match answer with
  | .ok () => .ok { w with writer }
  | .error e => .ok { writer, errors := w.errors ++ [e] }

/-- Make a call. -/
def call (w : Writing) : WriteCall → Exec Writing
  | .write buf => w.becomes (w.writer.write buf)
  | .flush => w.becomes w.writer.flush

/-- Make calls, one after the other, whatever they report. -/
def run : List WriteCall → Writing → Exec Writing
  | [], w => .ok w
  | c :: calls, w => do
    let w ← w.call c
    run calls w

end Writing

/-! ## Reading -/

/-- How many bytes the reader asks its source for. -/
def bufLength : Nat := 4096

/-- A source: how it will answer the next calls of `read`, with bytes or with an error. No bytes, or no more answers, is its end. -/
structure Source where
  answers : List (Except Nat (List UInt8))

/-- `read` of the source. -/
def Source.read (s : Source) : Except Nat (List UInt8) × Source :=
  match s.answers with
  | [] => (.ok [], s)
  | answer :: answers => (answer, { answers })

/-- Decompresses a stream from a source. -/
structure DeflateReader where
  inner : Source
  decoder : Decoder
  eof : Bool

/-- The message for a stream that is not complete. -/
def truncatedMessage : String := "deflate stream ended before the final block"

namespace DeflateReader

/-- A fresh reader. -/
def new (inner : Source) : DeflateReader := { inner, decoder := Decoder.new, eof := false }

/-- The loop of `read`: hand out output, or report the end, or get more input. Every round that goes on takes an answer of the source or
sees its end. -/
def readLoop : Nat → DeflateReader → Nat → Exec (Answer (List UInt8) × DeflateReader)
  | 0, _, _ => .diverge
  | fuel + 1, r, len =>
    let available := r.decoder.unread
    if !available.isEmpty then do
      let n := min available.length len
      let decoder ← r.decoder.advance n
      .ok (.ok (available.take n), { r with decoder })
    else if r.decoder.finished then .ok (.ok [], r)
    else if r.eof then .ok (.error (.unexpectedEof truncatedMessage), r)
    else
      match r.inner.read with
      | (.error code, inner) => .ok (.error (.device code), { r with inner })
      | (.ok piece, inner) =>
        if piece.isEmpty then readLoop fuel { r with inner, eof := true } len
        else if bufLength < piece.length then .panic
        else
          match r.decoder.feed piece with
          | (.ok (), decoder) => readLoop fuel { r with inner, decoder } len
          | (.err e, decoder) => .ok (.error (.other e), { r with inner, decoder })
          | (.panic, _) => .panic
          | (.diverge, _) => .diverge

/-- `read` into a buffer of some length. -/
def read (r : DeflateReader) (len : Nat) : Exec (Answer (List UInt8) × DeflateReader) := readLoop (r.inner.answers.length + 2) r len

/-- The next call of `read` feeds the decoder: there is no output to hand over, and the source has a piece. -/
def Feeds (r : DeflateReader) : Prop :=
  r.decoder.unread = [] ∧ r.decoder.finished = false ∧ r.eof = false ∧
    ∃ piece answers, piece ≠ [] ∧ r.inner.answers = .ok piece :: answers

end DeflateReader

/-- What a call of `read` tells the caller besides bytes: there is nothing left for a buffer, or there was an error of the adapter. -/
inductive Report where
  | done
  | failed (e : Failure)
  deriving DecidableEq, Repr

/-- An error of the device is no word on the stream. -/
def Report.ofDevice : Report → Bool
  | .failed (.device _) => true
  | _ => false

/-- A reader in use: what was read, and what was reported. -/
structure Reading where
  reader : DeflateReader
  taken : List UInt8
  reports : List Report

namespace Reading

/-- Nothing read. -/
def start (inner : Source) : Reading := { reader := DeflateReader.new inner, taken := [], reports := [] }

/-- Read into a buffer of some length. -/
def read (u : Reading) (len : Nat) : Exec Reading := do
  let (answer, reader) ← u.reader.read len
  match answer with
  | .ok bytes =>
    if bytes.isEmpty && len != 0 then .ok { u with reader, reports := u.reports ++ [.done] }
    else .ok { u with reader, taken := u.taken ++ bytes }
  | .error e => .ok { u with reader, reports := u.reports ++ [.failed e] }

/-- Read into buffers, one after the other, whatever is reported. -/
def run : List Nat → Reading → Exec Reading
  | [], u => .ok u
  | len :: lens, u => do
    let u ← u.read len
    run lens u

/-- The decoder has reported an error. -/
def Broken (u : Reading) : Prop := ∃ e, .failed (.other e) ∈ u.reports

end Reading

/-- The bytes that a source will deliver, up to its first end. -/
def delivered : List (Except Nat (List UInt8)) → List UInt8
  | [] => []
  | .error _ :: answers => delivered answers
  | .ok piece :: answers => if piece.isEmpty then [] else piece ++ delivered answers

/-- Sources that deliver no more bytes at once than the reader asks for. -/
def Source.Honest (s : Source) : Prop := ∀ piece, .ok piece ∈ s.answers → piece.length ≤ bufLength

end Noflate.Bridge
