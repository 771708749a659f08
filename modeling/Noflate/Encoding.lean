import Noflate.Encode

/-!
# An encoder in use

A caller of the streaming encoder feeds bytes, flushes, resets the history, finishes, and consumes output in between.
`EncoderSession` is an encoder together with what its caller has consumed so far; `EncoderSession.run` makes a sequence of calls.
-/

namespace Noflate

open BitString

/-- A call on an encoder. -/
inductive Command where
  | feed (data : List UInt8)
  | syncFlush
  | resetHistory
  | finish
  | advance (n : Nat)
  deriving DecidableEq, Repr

/-- The bytes that calls feed. -/
def payload (commands : List Command) : List UInt8 :=
  commands.flatMap fun
    | .feed data => data
    | _ => []

/-- The bytes that calls feed before the end: nothing is accepted behind it. -/
def accepted (commands : List Command) : List UInt8 := payload (commands.takeWhile (· ≠ .finish))

/-- How often calls flush before the end. -/
def flushes (commands : List Command) : Nat := (commands.takeWhile (· ≠ .finish)).count .syncFlush

/-- A call that makes an encoder emit all it has been fed. -/
inductive FlushPoint where
  | syncFlush
  | finish
  deriving DecidableEq, Repr

/-- The call. -/
def FlushPoint.command : FlushPoint → Command
  | .syncFlush => .syncFlush
  | .finish => .finish

/-- What calls ask for, however they divide it: the bytes fed up to each flush point, and those fed behind the last one. -/
structure Segments where
  flushed : List (List UInt8 × FlushPoint)
  rest : List UInt8
  deriving DecidableEq, Repr

/-- One more call. -/
def Segments.add (g : Segments) : Command → Segments
  | .feed data => { g with rest := g.rest ++ data }
  | .syncFlush => { flushed := g.flushed ++ [(g.rest, .syncFlush)], rest := [] }
  | .finish => { flushed := g.flushed ++ [(g.rest, .finish)], rest := [] }
  | .resetHistory => g
  | .advance _ => g

/-- The segments of calls. -/
def segments (commands : List Command) : Segments := commands.foldl Segments.add { flushed := [], rest := [] }

/-- An encoder in use: the bytes its caller has consumed, and whether a call has reported an error. -/
structure EncoderSession where
  encoder : Encoder
  taken : List UInt8
  failed : Bool

namespace EncoderSession

/-- A fresh encoder. -/
def start (options : EncodeOptions) : EncoderSession := { encoder := Encoder.withOptions options, taken := [], failed := false }

/-- All the bytes the encoder has made available. -/
def output (s : EncoderSession) : List UInt8 := s.taken ++ s.encoder.unread

/-- All the bits the encoder has emitted: those of the bytes it has made available, and the ones it keeps for the next byte. -/
def bits (s : EncoderSession) : List Bool := ofBytes s.output ++ ofNat s.encoder.bitCount s.encoder.bitBuffer

/-- The result of a call. An error is noted, and the encoder is as it was before the call. -/
def becomes (s : EncoderSession) (result : Exec Encoder) : Exec EncoderSession :=
  match result with
  | .ok encoder => .ok { s with encoder }
  | .err _ => .ok { s with failed := true }
  | .panic => .panic
  | .diverge => .diverge

/-- Make a call. -/
def call (s : EncoderSession) : Command → Exec EncoderSession
  | .feed data => s.becomes (s.encoder.feed data)
  | .syncFlush => s.becomes s.encoder.syncFlush
  | .resetHistory => .ok { s with encoder := s.encoder.resetHistory }
  | .finish => s.becomes s.encoder.finish
  | .advance n => do
    let encoder ← s.encoder.advance n
    .ok { s with encoder, taken := s.taken ++ s.encoder.unread.take n }

/-- Make calls, one after the other. -/
def run : List Command → EncoderSession → Exec EncoderSession
  | [], s => .ok s
  | c :: commands, s => do
    let s ← s.call c
    run commands s

/-- A call that, if it consumes output, consumes no more than there is. -/
def ConsumesInRange (s : EncoderSession) : Command → Prop
  | .advance n => n ≤ s.encoder.unread.length
  | _ => True

/-- Calls each of which has a property of the session it is made in. -/
def Along (P : EncoderSession → Command → Prop) : EncoderSession → List Command → Prop
  | _, [] => True
  | s, c :: commands =>
    P s c ∧
      match s.call c with
      | .ok s' => Along P s' commands
      | _ => True

/-- Calls of which every `advance` is in range, where it is made. -/
def InRange : EncoderSession → List Command → Prop := Along ConsumesInRange

/-- A call that, if it resets the history, finds nothing pending. Where blocks are stored, or too short for a back-reference, it may
find anything. -/
def ResetsAtBoundary (s : EncoderSession) : Command → Prop
  | .resetHistory =>
    s.encoder.input = [] ∨ s.encoder.options.blockKind = .stored ∨ ∃ limit ∈ s.encoder.options.maxBlockInputBytes, limit ≤ minMatch
  | _ => True

theorem along_cons {P : EncoderSession → Command → Prop} {s : EncoderSession} {c : Command} {commands : List Command} :
    Along P s (c :: commands) ↔ P s c ∧ ∀ s', s.call c = .ok s' → Along P s' commands := by
  rw [Along]
  cases s.call c with
  | ok s' => simp
  | err e => simp
  | panic => simp
  | diverge => simp

theorem run_cons (c : Command) (commands : List Command) (s : EncoderSession) :
    run (c :: commands) s = s.call c >>= run commands := rfl

theorem run_append (commands commands' : List Command) (s : EncoderSession) :
    run (commands ++ commands') s = run commands s >>= run commands' := by
  induction commands generalizing s with
  | nil => rfl
  | cons c commands ih =>
    rw [List.cons_append, run_cons, run_cons]
    cases s.call c with
    | ok s' =>
      simp only [Exec.ok_bind]
      exact ih s'
    | err e => rfl
    | panic => rfl
    | diverge => rfl

/-- Calls that have a property along the way, and calls behind them that do. -/
theorem along_append {P : EncoderSession → Command → Prop} {s : EncoderSession} {commands commands' : List Command} :
    Along P s (commands ++ commands') ↔ Along P s commands ∧ ∀ s', run commands s = .ok s' → Along P s' commands' := by
  induction commands generalizing s with
  | nil => exact ⟨fun h => ⟨trivial, fun s' hs => Exec.ok.inj hs ▸ h⟩, fun h => h.2 s rfl⟩
  | cons c commands ih =>
    rw [List.cons_append, along_cons, along_cons]
    constructor
    · rintro ⟨h1, h2⟩
      refine ⟨⟨h1, fun s' hs => (ih.mp (h2 s' hs)).1⟩, ?_⟩
      intro s'' hs
      obtain ⟨s', hs', hr⟩ := Exec.bind_eq_ok.mp hs
      exact (ih.mp (h2 s' hs')).2 s'' hr
    · rintro ⟨⟨h1, h2⟩, h3⟩
      refine ⟨h1, fun s' hs => ih.mpr ⟨h2 s' hs, fun s'' hr => h3 s'' ?_⟩⟩
      rw [run_cons, hs, Exec.ok_bind, hr]

/-- Calls that do not consume output are in range. -/
theorem inRange_of_no_advance {commands : List Command} (h : ∀ n, .advance n ∉ commands) (s : EncoderSession) :
    s.InRange commands := by
  induction commands generalizing s with
  | nil => trivial
  | cons c commands ih =>
    refine along_cons.mpr ⟨?_, fun s' _ => ih (fun n hn => h n (List.mem_cons_of_mem _ hn)) s'⟩
    cases c with
    | advance n => exact absurd List.mem_cons_self (h n)
    | feed data => trivial
    | syncFlush => trivial
    | resetHistory => trivial
    | finish => trivial

/-- Calls that came back consumed no more output than there was. -/
theorem inRange_of_run {commands : List Command} {s s' : EncoderSession} (h : run commands s = .ok s') : s.InRange commands := by
  induction commands generalizing s with
  | nil => trivial
  | cons c commands ih =>
    obtain ⟨s₁, h1, h2⟩ := Exec.bind_eq_ok.mp h
    refine along_cons.mpr ⟨?_, fun s₂ hs => ?_⟩
    · cases c with
      | advance n =>
        obtain ⟨enc, henc, -⟩ := Exec.bind_eq_ok.mp h1
        unfold Encoder.advance at henc
        split at henc
        · cases henc
        · show n ≤ (s.encoder.output.drop s.encoder.drained).length
          rw [List.length_drop]
          omega
      | feed data => trivial
      | syncFlush => trivial
      | resetHistory => trivial
      | finish => trivial
    · obtain rfl := Exec.ok.inj (h1.symm.trans hs)
      exact ih h2

/-- A call that reports no error. -/
theorem of_becomes {s s' : EncoderSession} {result : Exec Encoder} (h : s.becomes result = .ok s')
    (hfailed : s'.failed = false) : ∃ enc', result = .ok enc' ∧ s' = { s with encoder := enc' } := by
  cases result with
  | ok enc' => exact ⟨enc', rfl, (Exec.ok.inj h).symm⟩
  | err e =>
    obtain rfl := Exec.ok.inj h
    cases hfailed
  | panic => cases h
  | diverge => cases h

end EncoderSession

@[simp] theorem payload_nil : payload [] = [] := rfl

@[simp] theorem payload_feed (data : List UInt8) (commands : List Command) :
    payload (.feed data :: commands) = data ++ payload commands := rfl

@[simp] theorem payload_append (commands commands' : List Command) :
    payload (commands ++ commands') = payload commands ++ payload commands' := List.flatMap_append

end Noflate
