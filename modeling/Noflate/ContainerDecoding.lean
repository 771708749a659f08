import Noflate.OneShot

/-!
# A container being decoded

A caller of `gzip::Decoder` or `zlib::Decoder` feeds bytes and consumes output in between. The two decoders have the same calls
(`ContainerDecoder`); `DecodingSession` is one in use, with what its caller has consumed so far. An error of `feed` is not caught.
-/

namespace Noflate

/-- The decoder of a container: a fresh one, and its calls. -/
structure ContainerDecoder (δ : Type) where
  new : δ
  feed : δ → List UInt8 → Exec Unit × δ
  output : δ → List UInt8
  advance : δ → Nat → Exec δ
  isFinished : δ → Bool
  decompress : List UInt8 → Exec (List UInt8)

/-- The decoder of gzip. -/
def Gzip.decoder : ContainerDecoder Gzip.Decoder :=
  { new := Gzip.Decoder.new, feed := Gzip.Decoder.feed, output := (·.output.get), advance := Gzip.Decoder.advance
    isFinished := Gzip.Decoder.finished, decompress := Gzip.decompress }

/-- The decoder of zlib. -/
def Zlib.decoder : ContainerDecoder Zlib.Decoder :=
  { new := Zlib.Decoder.new, feed := Zlib.Decoder.feed, output := (·.output.get), advance := Zlib.Decoder.advance
    isFinished := Zlib.Decoder.finished, decompress := Zlib.decompress }

/-- A decoder of a container in use: the bytes its caller has consumed. -/
structure DecodingSession (δ : Type) where
  decoder : δ
  taken : List UInt8

namespace DecodingSession

variable {δ : Type} (D : ContainerDecoder δ)

/-- A caller with a fresh decoder. -/
def start : DecodingSession δ := { decoder := D.new, taken := [] }

/-- All the bytes the decoder has made available. -/
def output (s : DecodingSession δ) : List UInt8 := s.taken ++ D.output s.decoder

/-- Make a call. -/
def call (s : DecodingSession δ) : Call → Exec (DecodingSession δ)
  | .feed data => do
    let decoder ← Exec.leaving (D.feed s.decoder data)
    .ok { s with decoder }
  | .advance n => do
    let decoder ← D.advance s.decoder n
    .ok { decoder, taken := s.taken ++ (D.output s.decoder).take n }

/-- Make calls, one after the other, up to the first that does not succeed. -/
def run : List Call → DecodingSession δ → Exec (DecodingSession δ)
  | [], s => .ok s
  | c :: calls, s => do
    let s ← s.call D c
    run calls s

/-- Calls of which every `advance` is in range, where it is made. -/
def InRange : DecodingSession δ → List Call → Prop
  | _, [] => True
  | s, c :: calls =>
    (∀ n, c = .advance n → n ≤ (D.output s.decoder).length) ∧
      match s.call D c with
      | .ok s' => InRange s' calls
      | _ => True

variable {D}

theorem run_cons (c : Call) (calls : List Call) (s : DecodingSession δ) : run D (c :: calls) s = s.call D c >>= run D calls := rfl

/-- Calls in range: the first one is, and the others are where it leads. -/
theorem inRange_cons {s : DecodingSession δ} {c : Call} {calls : List Call} :
    s.InRange D (c :: calls) ↔
      (∀ n, c = .advance n → n ≤ (D.output s.decoder).length) ∧ ∀ s', s.call D c = .ok s' → s'.InRange D calls := by
  rw [InRange]
  cases s.call D c with
  | ok s' => simp
  | err e => simp
  | panic => simp
  | diverge => simp

end DecodingSession

end Noflate
