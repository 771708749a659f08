import Noflate.Lemmas.GzipSteps
import Noflate.Lemmas.ZlibSteps
import Noflate.Lemmas.ContainerRuns

/-!
# What the containers accept, and what they put out

A byte string, fed to a gzip or a zlib decoder in whatever pieces, is accepted exactly when it is a header, a byte string on which
the raw deflate decoder finishes with nothing left over, and the trailer that belongs to the output (`gzip_accepts_iff`,
`zlib_accepts_iff`). What a gzip or a zlib encoder puts out is such a byte string, whatever calls its caller makes, and the decoder
gives back the bytes fed (`container_round_trip`).
-/

namespace Noflate

open BitString Framing

/-! ## Decoding -/

/-- The pieces of a byte string are accepted by a gzip decoder, with an output, exactly when the byte string is a header, a body
and the trailer of the output. -/
theorem gzip_accepts_iff (chunks : List (List UInt8)) (output : List UInt8) :
    (∃ d, Gzip.Decoder.new.feedChunks chunks = .ok d ∧ d.finished = true ∧ d.output.get = output) ↔
      ∃ header body, chunks.flatten = header ++ body ++ Rfc1952.trailer output ∧ Rfc1952.Header header ∧
        Session.FinishesOn body output := by
  refine (Gzip.reads.accepts_iff chunks output).trans ((Gzip.format.run_done_iff chunks.flatten output).trans ?_)
  constructor
  · rintro ⟨header, body, hheader, hbody, heq⟩
    exact ⟨header, body, heq, Gzip.isHeader_iff.mp hheader, (isBody_iff rfl).mp hbody⟩
  · rintro ⟨header, body, heq, hheader, hbody⟩
    exact ⟨header, body, Gzip.isHeader_iff.mpr hheader, (isBody_iff rfl).mpr hbody, heq⟩

/-- A zlib decoder in whatever pieces: the same as for gzip; whether an error is met does not depend on the pieces; and bytes behind
an accepted stream are an error. -/
theorem zlib_accepts_iff (chunks : List (List UInt8)) :
    (∀ output, (∃ d, Zlib.Decoder.new.feedChunks chunks = .ok d ∧ d.finished = true ∧ d.output.get = output) ↔
      ∃ cmf flg body, chunks.flatten = [cmf, flg] ++ body ++ Rfc1950.trailer output ∧ Rfc1950.Header cmf flg ∧
        Session.FinishesOn body output) ∧
    (∀ chunks', chunks'.flatten = chunks.flatten →
      ((∃ e, Zlib.Decoder.new.feedChunks chunks' = .err e) ↔ ∃ e, Zlib.Decoder.new.feedChunks chunks = .err e)) ∧
    ∀ d more chunks', Zlib.Decoder.new.feedChunks chunks = .ok d → d.finished = true → more ≠ [] →
      chunks'.flatten = chunks.flatten ++ more → ∃ e, Zlib.Decoder.new.feedChunks chunks' = .err e := by
  refine ⟨?_, ?_, ?_⟩
  · intro output
    refine (Zlib.reads.accepts_iff chunks output).trans ((Zlib.format.run_done_iff chunks.flatten output).trans ?_)
    constructor
    · rintro ⟨header, body, hheader, hbody, heq⟩
      obtain ⟨cmf, flg, rfl, hvalid⟩ := Zlib.isHeader_iff.mp hheader
      exact ⟨cmf, flg, body, heq, hvalid, (isBody_iff rfl).mp hbody⟩
    · rintro ⟨cmf, flg, body, heq, hvalid, hbody⟩
      exact ⟨_, body, Zlib.isHeader_iff.mpr ⟨cmf, flg, rfl, hvalid⟩, (isBody_iff rfl).mpr hbody, heq⟩
  · intro chunks' hflat
    rw [Zlib.reads.fails_iff, Zlib.reads.fails_iff, hflat]
  · intro d more chunks' hfeed hfinished hmore hflat
    have hrun := (Zlib.reads.accepts_iff chunks d.output.get).mp ⟨d, hfeed, hfinished, rfl⟩
    exact (Zlib.reads.finishesAtEnd hrun).2.2 chunks' more hmore hflat

/-! ## Encoding, and decoding what was encoded -/

namespace Gzip

/-- The checks are those of a byte string. -/
def Checks.Of (data : List UInt8) (c : Checks) : Prop := Crc32.Of data c.crc ∧ c.size = data.length % 2 ^ 32

theorem Checks.new_of : Checks.Of [] container.new := ⟨Crc32.new_of, rfl⟩

theorem Checks.of_update (data : List UInt8) (c : Checks) (more : List UInt8) (h : Checks.Of data c) :
    Checks.Of (data ++ more) (container.update c more) := by
  refine ⟨h.1.update more, ?_⟩
  show (c.size + more.length % 2 ^ 32) % 2 ^ 32 = (data ++ more).length % 2 ^ 32
  rw [h.2, ← Nat.add_mod, List.length_append]

theorem Checks.Of.trailer_eq {data : List UInt8} {c : Checks} (h : Checks.Of data c) :
    container.trailer c = Rfc1952.trailer data := by
  show leBytes 4 c.crc.value ++ leBytes 4 c.size = Rfc1952.trailer data
  rw [h.1.value_eq, h.2]
  rfl

/-- The header that the encoder emits is one that the decoder accepts. -/
theorem container_header : Rfc1952.Header container.header :=
  ⟨0, [0, 0, 0, 0, 0, 255], [], [], [], [], rfl, rfl, rfl, rfl, rfl, rfl⟩

end Gzip

/-- The header that the encoder emits is one that the decoder accepts. -/
theorem Zlib.container_header : Rfc1950.Header Zlib.cmf Zlib.flg := by decide

/-- What an encoder of gzip or zlib puts out, for feeds with output consumed in between and then `finish`: all calls succeed, and the
decoder, in whatever pieces it gets the bytes, finishes at the last of them with all the bytes fed. -/
theorem container_round_trip (options : EncodeOptions) (calls : List Call) :
    ((ContainerSession.start (Gzip.Encoder.withOptions options)).InRange Gzip.Encoder.feed calls →
      ∃ s, (ContainerSession.run Gzip.Encoder.feed calls (ContainerSession.start (Gzip.Encoder.withOptions options)) >>=
          ContainerSession.close Gzip.Encoder.finish) = .ok s ∧
        FinishesAtEnd Gzip.Decoder.new.feedChunks Gzip.Decoder.finished (·.output.get) s.output (fedBytes calls)) ∧
    ((ContainerSession.start (Zlib.Encoder.withOptions options)).InRange Zlib.Encoder.feed calls →
      ∃ s, (ContainerSession.run Zlib.Encoder.feed calls (ContainerSession.start (Zlib.Encoder.withOptions options)) >>=
          ContainerSession.close Zlib.Encoder.finish) = .ok s ∧
        FinishesAtEnd Zlib.Decoder.new.feedChunks Zlib.Decoder.finished (·.output.get) s.output (fedBytes calls)) := by
  constructor
  · intro hrange
    obtain ⟨s, body, c, hrun, hc, hout, hbody⟩ := ContainerSession.run_close Gzip.Checks.new_of Gzip.Checks.of_update options hrange
    refine ⟨s, hrun, Gzip.reads.finishesAtEnd ((Gzip.format.run_done_iff _ _).mpr ?_)⟩
    exact ⟨_, body, Gzip.isHeader_iff.mpr Gzip.container_header, (isBody_iff rfl).mpr hbody, by
      rw [hout, hc.trailer_eq]
      rfl⟩
  · intro hrange
    have hnew : Adler32.Of [] Zlib.container.new := Adler32.new_of
    have hupdate : ∀ data a more, Adler32.Of data a → Adler32.Of (data ++ more) (Zlib.container.update a more) :=
      fun _ _ more h => h.update more
    obtain ⟨s, body, a, hrun, ha, hout, hbody⟩ := ContainerSession.run_close hnew hupdate options hrange
    refine ⟨s, hrun, Zlib.reads.finishesAtEnd ((Zlib.format.run_done_iff _ _).mpr ?_)⟩
    refine ⟨_, body, Zlib.isHeader_iff.mpr ⟨_, _, rfl, Zlib.container_header⟩, (isBody_iff rfl).mpr hbody, hout.trans ?_⟩
    show [Zlib.cmf, Zlib.flg] ++ body ++ beBytes 4 a.value = _
    rw [ha.value_eq]
    rfl

/-- A feed, and output consumed behind it. -/
theorem ContainerSession.inRange_feed_advance {κ : Type} {feed : ContainerEncoder κ → List UInt8 → Exec (ContainerEncoder κ)}
    {s : ContainerSession κ} {data : List UInt8} {n : Nat}
    (h : (s.call feed (.feed data)).returns (fun s' => n ≤ s'.encoder.unread.length) = true) :
    s.InRange feed [.feed data, .advance n] := by
  refine inRange_cons.mpr ⟨nofun, fun s' hs => inRange_cons.mpr ⟨?_, fun _ _ => trivial⟩⟩
  rintro m ⟨⟩
  rw [hs] at h
  exact of_decide_eq_true h

/-- Bytes that repeat, as a dynamic block with a back-reference, and two bytes of the header consumed before it is finished. -/
theorem container_round_trip_repeated :
    (∃ s, (ContainerSession.run Gzip.Encoder.feed [.feed [65, 66, 65, 66, 65, 66, 65], .advance 2]
          (ContainerSession.start (Gzip.Encoder.withOptions EncodeOptions.new)) >>= ContainerSession.close Gzip.Encoder.finish) = .ok s ∧
        FinishesAtEnd Gzip.Decoder.new.feedChunks Gzip.Decoder.finished (·.output.get) s.output [65, 66, 65, 66, 65, 66, 65]) ∧
    ∃ s, (ContainerSession.run Zlib.Encoder.feed [.feed [65, 66, 65, 66, 65, 66, 65], .advance 2]
          (ContainerSession.start (Zlib.Encoder.withOptions EncodeOptions.new)) >>= ContainerSession.close Zlib.Encoder.finish) = .ok s ∧
        FinishesAtEnd Zlib.Decoder.new.feedChunks Zlib.Decoder.finished (·.output.get) s.output [65, 66, 65, 66, 65, 66, 65] :=
  have h := container_round_trip EncodeOptions.new [.feed [65, 66, 65, 66, 65, 66, 65], .advance 2]
  ⟨h.1 (ContainerSession.inRange_feed_advance (by decide +kernel)), h.2 (ContainerSession.inRange_feed_advance (by decide +kernel))⟩

end Noflate
