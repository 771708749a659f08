import Noflate.Error
import Noflate.OneShot
import Noflate.Lemmas.Decompress
import Noflate.Lemmas.Wrapping
import Noflate.Theorems.Containers

/-!
# The one-shot functions

What is compressed in one call is decompressed in one call, in all three formats, and the containers hold the very stream that the raw
function gives (`one_shot_round_trip`). Decompressing a gzip or a zlib stream in one call gives what the streaming decoder does in
whatever pieces it gets the stream: the same output, the error of an incomplete stream, or an error (`Gzip.agrees`, `Zlib.agrees`).
-/

namespace Noflate

open BitString Framing Resumable

/-! ## Compressing -/

/-- Compressing in one call: the raw stream is closed and stands for the bytes, and a container puts its header before it and the trailer
of the bytes behind it. -/
theorem compress_spec (data : List UInt8) :
    ∃ bytes, Deflate.compress data = .ok bytes ∧ Closes bytes data ∧
      ∀ {κ : Type} (K : Container κ), K.compress data = .ok (K.header ++ bytes ++ K.trailer (K.update K.new data)) := by
  have hstart := Emission.start_fine EncodeOptions.new.bufferAllInput
  obtain ⟨enc₁, h1, h2⟩ := (Refines.start EncodeOptions.new.bufferAllInput).feed_ok hstart data
  have he₁ := hstart.call (c := .feed data) (by simp)
  obtain ⟨enc₂, h3, h4, h5⟩ := h2.finish_ok he₁
  obtain ⟨enc₃, h6, -⟩ := h4.consumed
  have hcloses := h4.closes (he₁.sound.call .finish).1 h5
  have hpayload : (((Emission.start EncodeOptions.new.bufferAllInput).call (.feed data)).call .finish).payload = data := by
    rw [(he₁.sound.call .finish).2, Emission.accepts, List.append_nil, (hstart.sound.call (.feed data)).2]
    rfl
  have hout : EncoderSession.output { EncoderSession.start EncodeOptions.new.bufferAllInput with encoder := enc₂ } = enc₂.unread :=
    List.nil_append _
  rw [hpayload, hout] at hcloses
  simp only at h1 h3 h6
  refine ⟨enc₂.unread, ?_, hcloses, ?_⟩
  · have hraw : (Encoder.withOptions EncodeOptions.new.bufferAllInput).feed data = .ok enc₁ := h1
    rw [Deflate.compress, hraw, Exec.ok_bind, h3, Exec.ok_bind]
    simp only
    rw [h6, Exec.ok_bind]
  · intro κ K
    obtain ⟨c, hfed, hwraps, -, hcheck⟩ := (ContainerSession.Wraps.start K EncodeOptions.new.bufferAllInput).feed data
    obtain ⟨s', deflate, body, hclose, hbody, hunread, hresult, -, hle⟩ := hwraps.close
    have hrun : ContainerSession.run (ContainerEncoder.feed K) [.feed data]
        (ContainerSession.start (ContainerEncoder.withOptions K EncodeOptions.new.bufferAllInput)) =
          .ok { ContainerSession.start (ContainerEncoder.withOptions K EncodeOptions.new.bufferAllInput) with encoder := c } := by
      rw [ContainerSession.run_cons, ContainerSession.call, hfed, Exec.ok_bind]
      rfl
    -- the raw encoder and the one in the container have put out the same
    have hsame : EncoderSession.output { encoder := deflate, taken := body, failed := false } = [] ++ enc₂.unread :=
      (hbody.output_eq h4 (List.nil_append _).symm).trans (congrArg _ hout)
    have hbytes : body = enc₂.unread := by
      rwa [EncoderSession.output, hunread, List.append_nil, List.nil_append] at hsame
    rw [compress_of_close hrun hclose hle, hresult, hbytes, hcheck]
    rfl

/-! ## Decompressing -/

/-- What a one-shot function makes of a byte string is what a streaming decoder makes of it, in whatever pieces it gets it. -/
def Agrees {δ : Type} (feedChunks : List (List UInt8) → Exec δ) (finished : δ → Bool) (output : δ → List UInt8) (message : String)
    (decompress : List UInt8 → Exec (List UInt8)) : Prop :=
  ∀ chunks : List (List UInt8),
    (∃ d, feedChunks chunks = .ok d ∧ finished d = true ∧ decompress chunks.flatten = .ok (output d)) ∨
      (∃ d, feedChunks chunks = .ok d ∧ finished d = false ∧ decompress chunks.flatten = .err (.invalidData message)) ∨
      ∃ e e', feedChunks chunks = .err e ∧ decompress chunks.flatten = .err e'

/-- A decoder that reads a format: one call for all of it does what calls for its pieces do. -/
theorem ReadsFormat.agrees {η δ : Type} {F : Format UInt8 η (List UInt8)} {feedChunks : List (List UInt8) → Exec δ}
    {finished : δ → Bool} {output : δ → List UInt8} (h : ReadsFormat F feedChunks finished output)
    {feed : δ → List UInt8 → Exec Unit × δ} {start : δ} {advance : δ → Nat → Exec δ} (message : String)
    (hone : ∀ data, feedChunks [data] = Exec.leaving (feed start data))
    (hadvance : ∀ d, ∃ d', advance d (output d).length = .ok d') :
    Agrees feedChunks finished output message (decompressWith feed finished output advance message start) := by
  intro chunks
  have hflat : [chunks.flatten].flatten = chunks.flatten := List.flatten_singleton
  unfold decompressWith
  rw [← hone]
  rcases h [chunks.flatten] with ⟨d, p, hd, hp, hdone⟩ | ⟨⟨e, he⟩, hnone⟩
  · -- the decoder stands where the reader does, in one piece and in several
    rw [hd, Exec.ok_bind]
    rw [hflat] at hp
    rcases h chunks with ⟨d', p', hd', hp', hdone'⟩ | ⟨-, hnone⟩
    · obtain rfl := Option.some.inj (hp.symm.trans hp')
      by_cases hfin : finished d = true
      · obtain ⟨hfin', hout⟩ := (hdone' _).mpr ((hdone _).mp ⟨hfin, rfl⟩)
        obtain ⟨d₂, hadv⟩ := hadvance d
        refine .inl ⟨d', hd', hfin', ?_⟩
        rw [if_pos hfin]
        simp only
        rw [hadv, Exec.ok_bind, hout]
      · refine .inr (.inl ⟨d', hd', Bool.eq_false_iff.mpr fun ht => hfin ?_, if_neg hfin⟩)
        exact ((hdone _).mpr ((hdone' _).mp ⟨ht, rfl⟩)).1
    · rw [hp] at hnone
      cases hnone
  · rw [hflat] at hnone
    obtain ⟨e', he'⟩ := (h.fails_iff chunks).mpr hnone
    exact .inr (.inr ⟨e', e, he', by rw [he, Exec.err_bind]⟩)

/-- All output of a buffer can be consumed. -/
theorem Buf.advance_all (b : Buf) : ∃ b', b.advance b.get.length = .ok b' := by
  obtain ⟨b', h, -⟩ := Buf.advance_ok (b := b) le_rfl
  exact ⟨b', h⟩

/-- `gzip::decompress` agrees with the decoder. -/
theorem Gzip.agrees : Agrees Gzip.Decoder.new.feedChunks Gzip.Decoder.finished (·.output.get) Gzip.truncatedMessage Gzip.decompress := by
  refine Gzip.reads.agrees Gzip.truncatedMessage (fun data => ?_) fun d => ?_
  · rw [Gzip.Decoder.feedChunks]
    generalize Gzip.Decoder.new.feed data = r
    obtain ⟨result, d⟩ := r
    cases result <;> rfl
  · obtain ⟨b, hb⟩ := d.output.advance_all
    exact ⟨{ d with output := b }, by rw [Gzip.Decoder.advance, hb, Exec.ok_bind]⟩

/-- `zlib::decompress` agrees with the decoder. -/
theorem Zlib.agrees : Agrees Zlib.Decoder.new.feedChunks Zlib.Decoder.finished (·.output.get) Zlib.truncatedMessage Zlib.decompress := by
  refine Zlib.reads.agrees Zlib.truncatedMessage (fun data => ?_) fun d => ?_
  · rw [Zlib.Decoder.feedChunks]
    generalize Zlib.Decoder.new.feed data = r
    obtain ⟨result, d⟩ := r
    cases result <;> rfl
  · obtain ⟨b, hb⟩ := d.output.advance_all
    exact ⟨{ d with output := b }, by rw [Zlib.Decoder.advance, hb, Exec.ok_bind]⟩

/-! ## There and back -/

/-- A raw stream that is closed is decompressed to its payload. -/
theorem Closes.decompress {bytes data : List UInt8} (h : Closes bytes data) : Deflate.decompress bytes = .ok data := by
  obtain ⟨held, -, hr⟩ := h.runs
  obtain ⟨verdict, c, hr', hstop', hcases⟩ := decompress_spec bytes
  obtain ⟨rfl, rfl⟩ := Machine.stop_unique hr' hstop' hr stops_halted
  rcases hcases with ⟨-, -, hok⟩ | ⟨hw, -⟩ | ⟨hf, -⟩
  · exact hok
  · cases hw
  · cases hf

/-- A one-shot function that agrees with a decoder gives the output of a stream that the decoder reads to the end. -/
theorem ReadsFormat.decompress_done {η δ : Type} {F : Format UInt8 η (List UInt8)} {feedChunks : List (List UInt8) → Exec δ}
    {finished : δ → Bool} {output : δ → List UInt8} (h : ReadsFormat F feedChunks finished output) {message : String}
    {decompress : List UInt8 → Exec (List UInt8)} (hagrees : Agrees feedChunks finished output message decompress)
    {bytes data : List UInt8} (hrun : F.run (.header F.start) bytes = some (.done data)) : decompress bytes = .ok data := by
  have hflat : [bytes].flatten = bytes := List.flatten_singleton
  obtain ⟨d, hd, hfin, hout⟩ := (h.accepts_iff [bytes] data).mpr (by rwa [hflat])
  have hcases := hagrees [bytes]
  rw [hflat, hd] at hcases
  rcases hcases with ⟨d', hd', -, hok⟩ | ⟨d', hd', hnot, -⟩ | ⟨e, e', he, -⟩
  · obtain rfl := Exec.ok.inj hd'
    rw [hok, hout]
  · obtain rfl := Exec.ok.inj hd'
    rw [hfin] at hnot
    cases hnot
  · cases he

/-- What such a function returns is the output of a stream that the decoder reads to the end. -/
theorem ReadsFormat.done_of_decompress {η δ : Type} {F : Format UInt8 η (List UInt8)} {feedChunks : List (List UInt8) → Exec δ}
    {finished : δ → Bool} {output : δ → List UInt8} (h : ReadsFormat F feedChunks finished output) {message : String}
    {decompress : List UInt8 → Exec (List UInt8)} (hagrees : Agrees feedChunks finished output message decompress)
    {bytes data : List UInt8} (hok : decompress bytes = .ok data) : F.run (.header F.start) bytes = some (.done data) := by
  have hflat : [bytes].flatten = bytes := List.flatten_singleton
  have hcases := hagrees [bytes]
  rw [hflat, hok] at hcases
  rcases hcases with ⟨d, hd, hfin, hout⟩ | ⟨d, -, -, herr⟩ | ⟨e, e', -, herr⟩
  · have hrun := (h.accepts_iff [bytes] data).mp ⟨d, hd, hfin, (Exec.ok.inj hout).symm⟩
    rwa [hflat] at hrun
  · cases herr
  · cases herr

/-- What the reader of a format fails on is an error, in pieces and in one call. -/
theorem ReadsFormat.rejected {η δ : Type} {F : Format UInt8 η (List UInt8)} {feedChunks : List (List UInt8) → Exec δ}
    {finished : δ → Bool} {output : δ → List UInt8} (h : ReadsFormat F feedChunks finished output) {message : String}
    {decompress : List UInt8 → Exec (List UInt8)} (hagrees : Agrees feedChunks finished output message decompress)
    {chunks : List (List UInt8)} (hnone : F.run (.header F.start) chunks.flatten = none) :
    (∃ e, feedChunks chunks = .err e) ∧ ∃ e, decompress chunks.flatten = .err e := by
  obtain ⟨e, he⟩ := (h.fails_iff chunks).mpr hnone
  refine ⟨⟨e, he⟩, ?_⟩
  rcases hagrees chunks with ⟨d, hd, -⟩ | ⟨d, hd, -⟩ | ⟨-, e', -, he'⟩
  · cases he.symm.trans hd
  · cases he.symm.trans hd
  · exact ⟨e', he'⟩

/-- A closed stream between the header and the trailer of a gzip member is decompressed. -/
theorem Closes.gzip {bytes data : List UInt8} (h : Closes bytes data) :
    Gzip.decompress (Gzip.container.header ++ bytes ++ Rfc1952.trailer data) = .ok data := by
  obtain ⟨held, hheld, hr⟩ := h.runs
  refine Gzip.reads.decompress_done Gzip.agrees ((Gzip.format.run_done_iff _ _).mpr ?_)
  exact ⟨_, bytes, Gzip.isHeader_iff.mpr Gzip.container_header, (isBody_iff rfl).mpr (finishesOn_of_halted hheld hr), rfl⟩

/-- A closed stream between the header and the trailer of a zlib stream is decompressed. -/
theorem Closes.zlib {bytes data : List UInt8} (h : Closes bytes data) :
    Zlib.decompress (Zlib.container.header ++ bytes ++ Rfc1950.trailer data) = .ok data := by
  obtain ⟨held, hheld, hr⟩ := h.runs
  refine Zlib.reads.decompress_done Zlib.agrees ((Zlib.format.run_done_iff _ _).mpr ?_)
  exact ⟨_, bytes, Zlib.isHeader_iff.mpr ⟨_, _, rfl, Zlib.container_header⟩, (isBody_iff rfl).mpr (finishesOn_of_halted hheld hr),
    rfl⟩

/-- What is compressed in one call is decompressed in one call, in each format; and the containers hold the raw stream of the same bytes,
between their header and their trailer. -/
theorem one_shot_round_trip (data : List UInt8) :
    ∃ bytes, Deflate.compress data = .ok bytes ∧ Deflate.decompress bytes = .ok data ∧
      Gzip.compress data = .ok (Gzip.container.header ++ bytes ++ Rfc1952.trailer data) ∧
      Gzip.decompress (Gzip.container.header ++ bytes ++ Rfc1952.trailer data) = .ok data ∧
      Zlib.compress data = .ok (Zlib.container.header ++ bytes ++ Rfc1950.trailer data) ∧
      Zlib.decompress (Zlib.container.header ++ bytes ++ Rfc1950.trailer data) = .ok data := by
  obtain ⟨bytes, h1, h2, h3⟩ := compress_spec data
  have hcrc : Gzip.container.trailer (Gzip.container.update Gzip.container.new data) = Rfc1952.trailer data :=
    (Gzip.Checks.of_update [] _ data Gzip.Checks.new_of).trailer_eq
  have hadler : Zlib.container.trailer (Zlib.container.update Zlib.container.new data) = Rfc1950.trailer data := by
    show beBytes 4 (Adler32.new.update data).value = _
    rw [(Adler32.new_of.update data).value_eq]
    rfl
  have hgzip := h3 Gzip.container
  have hzlib := h3 Zlib.container
  rw [hcrc] at hgzip
  rw [hadler] at hzlib
  exact ⟨bytes, h1, h2.decompress, hgzip, h2.gzip, hzlib, h2.zlib⟩

/-! ## Checksums -/

/-- The checksum of a slice is that of the format. -/
theorem Gzip.crc32_eq (data : List UInt8) : Gzip.crc32 data = Rfc1952.crc32 data := by
  have h := Crc32.new_of.update data
  rw [List.nil_append] at h
  exact h.value_eq

/-- The checksum of a slice is that of the format. -/
theorem Zlib.adler32_eq (data : List UInt8) : Zlib.adler32 data = Rfc1950.adler32 data := by
  have h := Adler32.new_of.update data
  rw [List.nil_append] at h
  exact h.value_eq

end Noflate
