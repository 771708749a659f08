import Noflate.Error
import Noflate.Detection
import Noflate.Lemmas.ContainerRuns
import Noflate.Lemmas.GzipSteps
import Noflate.Lemmas.Layout
import Noflate.Lemmas.ZlibSteps
import Noflate.Theorems.Schedules

/-!
# Detection agrees with the encoders and the decoders

What an encoder has put out is detected as its format as soon as there are two bytes, though raw deflate has no header: an encoder pads
stored blocks with zeros and never begins a block of the reserved type (`detect_encoded`). What a decoder of a container has taken
without an error is detected as its format, and what is detected as gzip is an error to the raw decoder (`detect_decoded`).
-/

namespace Noflate

open BitString Framing Resumable StreamFormat

/-! ## How a raw stream begins -/

/-- The first bits of an encoder's stream: a type that is not the reserved one, and zeros behind the header of a stored block. -/
def Begins (bits : List Bool) : Prop :=
  ∃ isFinal type tail, type ≤ 2 ∧ bits = isFinal :: (ofNat 2 type ++ tail) ∧
    (type = 0 → ∃ tail', tail = List.replicate 5 false ++ tail')

/-- More bits do not change how a stream begins. -/
theorem Begins.append {bits : List Bool} (h : Begins bits) (more : List Bool) : Begins (bits ++ more) := by
  obtain ⟨isFinal, type, tail, htype, rfl, hzeros⟩ := h
  refine ⟨isFinal, type, tail ++ more, htype, by simp only [List.cons_append, List.append_assoc], ?_⟩
  intro h0
  obtain ⟨tail', rfl⟩ := hzeros h0
  exact ⟨tail' ++ more, List.append_assoc _ _ _⟩

/-- The blocks of a chunk begin a stream. -/
theorem chunkBlocks_begins (kind : BlockKind) (chunk : List UInt8) (isFinal : Bool) :
    Begins (blockBits (chunkBlocks kind chunk isFinal 0)) := by
  cases kind with
  | stored =>
    cases hparts : storedParts chunk with
    | nil => exact absurd hparts (storedParts_ne_nil chunk)
    | cons part parts =>
      rw [chunkBlocks, hparts, storedBlocks, blockBits_cons]
      refine Begins.append ⟨_, 0, _, Nat.zero_le _, rfl, fun _ => ⟨ofBytes (storedBytes part), ?_⟩⟩ _
      rfl
  | fixed =>
    simp only [chunkBlocks, blockBits_singleton]
    exact ⟨isFinal, 1, _, by decide, by rw [EmittedBlock.bits, codedBlock, List.append_assoc], fun h => absurd h (by decide)⟩
  | dynamic =>
    simp only [chunkBlocks, blockBits_singleton]
    exact ⟨isFinal, 2, _, by decide, by rw [EmittedBlock.bits, codedBlock, List.append_assoc], fun h => absurd h (by decide)⟩

/-- What an encoder emits begins so, if it has emitted anything. -/
theorem Emission.begins (options : EncodeOptions) (commands : List Command)
    (h : (Emission.run commands (Emission.start options)).bits ≠ []) : Begins (Emission.run commands (Emission.start options)).bits := by
  have hlaid := (Emission.start_laid options).run commands
  rw [Emission.bits] at h ⊢
  cases hblocks : (Emission.run commands (Emission.start options)).blocks with
  | nil =>
    rw [hblocks] at h
    refine absurd ?_ h
    cases (Emission.run commands (Emission.start options)).finishing <;> rfl
  | cons b bs =>
    rw [← hblocks]
    refine Begins.append ?_ _
    rw [hlaid.blocks_eq] at hblocks ⊢
    generalize (Layout.run (Emission.start options).options commands Layout.start).pieces = pieces at hblocks ⊢
    cases pieces with
    | nil => cases hblocks
    | cons p pieces =>
      rw [pieceBlocks, blockBits_append]
      exact (chunkBlocks_begins p.kind p.chunk p.isFinal).append _

/-- Bytes that begin so are not detected as a container. -/
theorem Begins.detect {cmf flg : UInt8} {rest : List UInt8} {kept : List Bool} (h : Begins (ofBytes (cmf :: flg :: rest) ++ kept)) :
    StreamFormat.detect (cmf :: flg :: rest) = some .deflate := by
  obtain ⟨isFinal, type, tail, htype, heq, hzeros⟩ := h
  have hbyte := toNat_ofNat_byte cmf
  rw [ofBytes_cons, List.append_assoc, ← List.cons_append] at heq
  have hthree : cmf.toNat % 8 = isFinal.toNat + 2 * type := by
    have htake := congrArg (fun bits : List Bool => BitString.toNat (bits.take 3)) heq
    rw [List.take_append_of_le_length (by rw [length_ofNat]; decide), toNat_take (by rw [length_ofNat]; decide), hbyte,
      List.take_left' (by rw [List.length_cons, length_ofNat]), toNat_cons, toNat_ofNat_of_lt (by omega)] at htake
    exact htake
  have hstored : type = 0 → cmf.toNat = isFinal.toNat := by
    intro h0
    obtain ⟨tail', rfl⟩ := hzeros h0
    subst h0
    have htake := congrArg (fun bits : List Bool => BitString.toNat (bits.take 8)) heq
    rw [List.take_left' (length_ofNat _ _), hbyte] at htake
    have hbits : (isFinal :: ofNat 2 0 ++ (List.replicate 5 false ++ tail')).take 8 = isFinal :: List.replicate 7 false := rfl
    rw [htake, hbits]
    cases isFinal <;> rfl
  have hfinal := isFinal.toNat_lt
  have hgzip : StreamFormat.detect (cmf :: flg :: rest) ≠ some .gzip := by
    intro hd
    have h31 : cmf.toNat = 31 := by rw [(detect_gzip.mp hd).1]; rfl
    omega
  have hzlib : StreamFormat.detect (cmf :: flg :: rest) ≠ some .zlib := by
    intro hd
    have h8 := (detect_zlib.mp hd).1
    omega
  rw [StreamFormat.detect] at hgzip hzlib ⊢
  split
  · rw [if_pos ‹_›] at hgzip
    exact absurd rfl hgzip
  · rw [if_neg ‹_›] at hzlib
    split
    · rw [if_pos ‹_›] at hzlib
      exact absurd rfl hzlib
    · rfl

/-! ## Encoders -/

/-- Bytes that hold a header, in full or not, begin with it. -/
theorem begins_header {output missing body : List UInt8} {cmf flg : UInt8} {fields : List UInt8}
    (h : output ++ missing = cmf :: flg :: fields ++ body) (h2 : 2 ≤ output.length) : ∃ rest, output = cmf :: flg :: rest := by
  rcases output with _ | ⟨first, _ | ⟨second, rest⟩⟩
  · exact absurd h2 (by decide)
  · exact absurd h2 (by simp)
  · rw [List.cons_append, List.cons_append, List.cons_append, List.cons_append, List.cons.injEq, List.cons.injEq] at h
    exact ⟨rest, by rw [h.1, h.2.1]⟩

/-- What a container's encoder has put out is detected by its header, open or closed. -/
theorem container_detected {κ : Type} {K : Container κ} {format : StreamFormat} {cmf flg : UInt8} {fields : List UInt8}
    (hheader : K.header = cmf :: flg :: fields) (hdetect : ∀ rest, StreamFormat.detect (cmf :: flg :: rest) = some format)
    (options : EncodeOptions) {calls : List Call}
    (hrange : (ContainerSession.start (ContainerEncoder.withOptions K options)).InRange (ContainerEncoder.feed K) calls) :
    ∃ s s',
      ContainerSession.run (ContainerEncoder.feed K) calls (ContainerSession.start (ContainerEncoder.withOptions K options)) = .ok s ∧
      (2 ≤ s.output.length → StreamFormat.detect s.output = some format) ∧
      s.close (ContainerEncoder.finish K) = .ok s' ∧ StreamFormat.detect s'.output = some format := by
  -- the checksum does not matter
  have hstart : (ContainerSession.start (ContainerEncoder.withOptions K options)).Open K (fun _ _ => True) [] :=
    ContainerSession.start_open trivial options
  obtain ⟨s, hs, hopen⟩ := hstart.run (fun _ _ _ _ => trivial) hrange
  obtain ⟨s', body', c, hclose, -, hout', -⟩ := hopen.close
  refine ⟨s, s', hs, ?_, hclose, ?_⟩
  · intro h2
    obtain ⟨body, e, -, -, -, -, hout⟩ := hopen.emitted
    rw [hheader] at hout
    obtain ⟨rest, hrest⟩ := begins_header hout h2
    rw [hrest]
    exact hdetect rest
  · rw [hout', hheader]
    exact hdetect _

/-- Whatever an encoder has put out is detected as its format, in every state that calls lead to, as soon as there are two bytes. -/
theorem detect_encoded (options : EncodeOptions) :
    (∀ commands, (EncoderSession.start options).InRange commands →
      ∃ s, EncoderSession.run commands (EncoderSession.start options) = .ok s ∧
        (2 ≤ s.output.length → StreamFormat.detect s.output = some .deflate)) ∧
    (∀ calls, (ContainerSession.start (Gzip.Encoder.withOptions options)).InRange Gzip.Encoder.feed calls →
      ∃ s s', ContainerSession.run Gzip.Encoder.feed calls (ContainerSession.start (Gzip.Encoder.withOptions options)) = .ok s ∧
        (2 ≤ s.output.length → StreamFormat.detect s.output = some .gzip) ∧
        s.close Gzip.Encoder.finish = .ok s' ∧ StreamFormat.detect s'.output = some .gzip) ∧
    ∀ calls, (ContainerSession.start (Zlib.Encoder.withOptions options)).InRange Zlib.Encoder.feed calls →
      ∃ s s', ContainerSession.run Zlib.Encoder.feed calls (ContainerSession.start (Zlib.Encoder.withOptions options)) = .ok s ∧
        (2 ≤ s.output.length → StreamFormat.detect s.output = some .zlib) ∧
        s.close Zlib.Encoder.finish = .ok s' ∧ StreamFormat.detect s'.output = some .zlib := by
  refine ⟨?_, ?_, ?_⟩
  · intro commands hrange
    obtain ⟨s, hs, hr⟩ := run_refines (Refines.start options) hrange
    refine ⟨s, hs, ?_⟩
    intro h2
    rcases hout : s.output with _ | ⟨cmf, _ | ⟨flg, rest⟩⟩
    · rw [hout] at h2
      exact absurd h2 (by decide)
    · rw [hout] at h2
      exact absurd h2 (by simp)
    · have hbits := hr.bits_eq
      rw [EncoderSession.bits, hout] at hbits
      refine Begins.detect (hbits ▸ Emission.begins options commands ?_)
      rw [← hbits, ofBytes_cons]
      exact List.cons_ne_nil _ _
  · intro calls hrange
    exact container_detected rfl (fun rest => detect_gzip.mpr ⟨rfl, rfl⟩) options hrange
  · intro calls hrange
    exact container_detected rfl (fun rest => detect_zlib.mpr ⟨rfl, by decide, by decide⟩) options hrange

/-! ## Decoders -/

/-- A reader of gzip that has read the fixed bytes has met the magic bytes. -/
theorem gzip_detected {bytes : List UInt8} {p : Phase UInt8 Gzip.HeaderState (List UInt8)}
    (h : Gzip.format.run (.header Gzip.format.start) bytes = some p) (hlen : 10 ≤ bytes.length) :
    StreamFormat.detect bytes = some .gzip := by
  have htake : (bytes.take 10).length = 10 := List.length_take_of_le hlen
  rw [← List.take_append_drop 10 bytes, Format.run_append] at h
  obtain ⟨q, hq, -⟩ := Option.bind_eq_some_iff.mp h
  have hfixed := Gzip.collects_fixed.run_eq (show ([] : List UInt8).length < 10 by decide)
    (show ([] ++ bytes.take 10).length = 10 from htake)
  have hstart : Gzip.format.start = .fixed [] := rfl
  rw [hstart, hfixed, List.nil_append, Gzip.HeaderState.checkFixed] at hq
  by_cases hmagic : (bytes.take 10).take 3 = [0x1F, 0x8B, 8]
  · rw [List.take_take] at hmagic
    rcases bytes with _ | ⟨cmf, _ | ⟨flg, rest⟩⟩
    · exact absurd hlen (by decide)
    · exact absurd hlen (by simp)
    · have hcons : cmf :: flg :: rest.take 1 = [0x1F, 0x8B, 8] := hmagic
      rw [List.cons.injEq, List.cons.injEq] at hcons
      exact detect_gzip.mpr ⟨hcons.1, hcons.2.1⟩
  · rw [if_neg hmagic] at hq
    cases hq

/-- A reader of zlib that has read two bytes has met a header. -/
theorem zlib_detected {bytes : List UInt8} {p : Phase UInt8 (List UInt8) (List UInt8)}
    (h : Zlib.format.run (.header Zlib.format.start) bytes = some p) (hlen : 2 ≤ bytes.length) :
    StreamFormat.detect bytes = some .zlib := by
  rcases bytes with _ | ⟨cmf, _ | ⟨flg, rest⟩⟩
  · exact absurd hlen (by decide)
  · exact absurd hlen (by simp)
  · have hsplit : cmf :: flg :: rest = [cmf, flg] ++ rest := rfl
    rw [hsplit, Format.run_append] at h
    obtain ⟨q, hq, -⟩ := Option.bind_eq_some_iff.mp h
    have hheader := Zlib.collects_header.run_eq (show ([] : List UInt8).length < 2 by decide)
      (show ([] ++ [cmf, flg]).length = 2 from rfl)
    have hstart : Zlib.format.start = id [] := rfl
    rw [hstart, hheader, List.nil_append, Zlib.checkHeader] at hq
    by_cases hvalid : Rfc1950.Header cmf flg
    · obtain ⟨hmethod, hwindow, -, hcheck⟩ := hvalid
      exact detect_zlib.mpr ⟨hmethod, hwindow, by rwa [Nat.mul_comm] at hcheck⟩
    · have hbad : ¬Rfc1950.Header ([cmf, flg].getD 0 0) ([cmf, flg].getD 1 0) := hvalid
      rw [if_neg hbad] at hq
      cases hq

/-- The machine fails at once on the magic bytes: they begin with a block of the reserved type. -/
theorem stops_magic (rest : List UInt8) : itemMachine.Stops (startItem (0x1F :: 0x8B :: rest)) .failed := by
  have hbits : ofBytes (0x1F :: 0x8B :: rest) = true :: true :: true :: (ofNat 5 3 ++ ofBytes (0x8B :: rest)) := rfl
  have hlen : ¬(true :: true :: true :: (ofNat 5 3 ++ ofBytes (0x8B :: rest))).length < 3 := by simp
  refine stops_failed ?_
  rw [hbits]
  unfold itemStep
  simp only [if_neg hlen]
  rfl

/-- What the decoders take is detected as their format: ten bytes that are no error to a gzip decoder, in whatever pieces, are detected as
gzip; two bytes that are no error to a zlib decoder as zlib; and what is detected as gzip is an error to the raw decoder, which puts
nothing out, in any schedule for it, be it all of the bytes or only those up to the error. -/
theorem detect_decoded :
    (∀ chunks d, Gzip.Decoder.new.feedChunks chunks = .ok d → 10 ≤ chunks.flatten.length →
      StreamFormat.detect chunks.flatten = some .gzip) ∧
    (∀ chunks d, Zlib.Decoder.new.feedChunks chunks = .ok d → 2 ≤ chunks.flatten.length →
      StreamFormat.detect chunks.flatten = some .zlib) ∧
    ∀ bytes calls, Schedule bytes calls → StreamFormat.detect bytes = some .gzip → Session.outcome calls = .ok (.failed, []) := by
  refine ⟨?_, ?_, ?_⟩
  · intro chunks d hd hlen
    rcases Gzip.reads chunks with ⟨d', p, -, hrun, -⟩ | ⟨⟨e, he⟩, -⟩
    · exact gzip_detected hrun hlen
    · cases he.symm.trans hd
  · intro chunks d hd hlen
    rcases Zlib.reads chunks with ⟨d', p, -, hrun, -⟩ | ⟨⟨e, he⟩, -⟩
    · exact zlib_detected hrun hlen
    · cases he.symm.trans hd
  · intro bytes calls hschedule hdetect
    obtain ⟨verdict, output, c, hout, hr, hstop, rfl⟩ := hschedule.stops
    rcases bytes with _ | ⟨cmf, _ | ⟨flg, rest⟩⟩
    · cases hdetect
    · cases hdetect
    · obtain ⟨rfl, rfl⟩ := detect_gzip.mp hdetect
      obtain ⟨rfl, rfl⟩ := Machine.stop_unique hr hstop (Machine.Runs.refl _) (stops_magic rest)
      exact hout

end Noflate
