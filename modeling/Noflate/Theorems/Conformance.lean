import Noflate.Error
import Noflate.Lemmas.Layout
import Noflate.Theorems.OneShot
import Noflate.Theorems.Schedules

/-!
# What encoders put out is DEFLATE

What a finished encoder has put out is a complete stream by the format itself, not only for the decoder of this crate: the plain
interpreter reads it to its end, behind which zero bits fill the last byte, and every code set in it is one that a strict decoder takes
(`encoder_conforms`). The format knows of no encoder behind a stream: what encoders with any options have put out up to a flush can be
put before what another one has put out up to its end, raw or in a container (`flushed_joined`).
-/

namespace Noflate

open BitString Resumable

/-- By the format, a closed stream means its payload. Its code sets are strict, and zero bits fill its last byte. -/
theorem Closes.inflate {bytes payload : List UInt8} (h : Closes bytes payload) :
    ∃ codeSets rest, Rfc1951.inflate (ofBytes bytes) = some { output := payload, codeSets, rest } ∧
      rest.length < 8 ∧ (∀ bit ∈ rest, bit = false) ∧ ∀ sets ∈ codeSets, sets.Strict := by
  obtain ⟨bs, b, h1, h2, h3, h4, rfl⟩ := h
  have halign : Aligned (blockBits (bs ++ [b])).length (pad (blockBits (bs ++ [b]))) := by
    rw [Aligned, ← List.length_append, h4, length_ofBytes]
    exact Nat.mul_mod_right 8 _
  have hinflate := inflate_closed h1 h2 h3 halign
  rw [h4] at hinflate
  exact ⟨blockSets (bs ++ [b]), pad (blockBits (bs ++ [b])), hinflate, length_pad_lt _, fun bit hbit => List.eq_of_mem_replicate hbit,
    h1.strict⟩

/-- What is finished has put out a closed stream for the bytes that were accepted. -/
theorem EncoderSession.finished_closes {options : EncodeOptions} {commands : List Command} (hfinish : .finish ∈ commands)
    (hrange : (EncoderSession.start options).InRange commands) :
    ∃ s, EncoderSession.run commands (EncoderSession.start options) = .ok s ∧ Closes s.output (accepted commands) := by
  obtain ⟨s, hrun, hs⟩ := run_refines (Refines.start options) hrange
  have hclosed := hs.closes ((Emission.start_sound options).run commands) ((Emission.run_finishing commands _).mpr (.inr hfinish))
  rw [Emission.run_payload] at hclosed
  exact ⟨s, hrun, hclosed⟩

/-- What has been flushed carries the bytes fed. -/
theorem EncoderSession.flushed_carries {options : EncodeOptions} {commands : List Command} (hcommands : .finish ∉ commands)
    (hrange : (EncoderSession.start options).InRange (commands ++ [.syncFlush])) :
    ∃ s, EncoderSession.run (commands ++ [.syncFlush]) (EncoderSession.start options) = .ok s ∧
      Carries s.output (payload commands) := by
  obtain ⟨s, hrun, hs⟩ := run_refines (Refines.start options) hrange
  rw [Emission.run_append, Emission.run_singleton] at hs
  have he := (Emission.start_fine options).run hcommands
  have hpayload := ((Emission.start_sound options).run_open rfl hcommands).2.2
  have he' := he.call (c := .syncFlush) (by simp)
  have hcarries := (hs.carries he'.sound he'.finishing (Emission.call_syncFlush he.finishing).2
    (Emission.syncFlush_aligned he.finishing)).1
  rw [(he.sound.call .syncFlush).2, Emission.accepts, List.append_nil, hpayload] at hcarries
  exact ⟨s, hrun, hcarries⟩

/-- Whatever calls are made, an encoder that is finished has put out a stream that the format itself gives the meaning of the bytes
accepted: it ends in the last byte, filled up with zero bits, and every dynamic block announces strict code sets. -/
theorem encoder_conforms {options : EncodeOptions} {commands : List Command} (hfinish : .finish ∈ commands)
    (hrange : (EncoderSession.start options).InRange commands) :
    ∃ s codeSets rest, EncoderSession.run commands (EncoderSession.start options) = .ok s ∧
      Rfc1951.inflate (ofBytes s.output) = some { output := accepted commands, codeSets, rest } ∧
      rest.length < 8 ∧ (∀ bit ∈ rest, bit = false) ∧ ∀ sets ∈ codeSets, sets.Strict := by
  obtain ⟨s, hrun, hclosed⟩ := EncoderSession.finished_closes hfinish hrange
  obtain ⟨codeSets, rest, hinflate⟩ := hclosed.inflate
  exact ⟨s, codeSets, rest, hrun, hinflate⟩

/-- A flush, more bytes, and calls behind the end. -/
theorem encoder_conforms_refused :
    ∃ s codeSets rest, EncoderSession.run [.feed [65], .syncFlush, .feed [66], .finish, .feed [67]]
        (EncoderSession.start EncodeOptions.new) = .ok s ∧
      Rfc1951.inflate (ofBytes s.output) = some { output := [65, 66], codeSets, rest } ∧
      rest.length < 8 ∧ (∀ bit ∈ rest, bit = false) ∧ ∀ sets ∈ codeSets, sets.Strict :=
  encoder_conforms (by simp) (EncoderSession.inRange_of_no_advance (by simp) _)

/-! ## Streams put together -/

/-- What an encoder puts out for calls, up to a flush behind them. -/
def FlushedAs (job : EncodeOptions × List Command) (bytes : List UInt8) : Prop :=
  ∃ s, EncoderSession.run (job.2 ++ [.syncFlush]) (EncoderSession.start job.1) = .ok s ∧ s.output = bytes

/-- Flushed pieces, one behind the other, carry what all of them were fed. -/
theorem flushed_carries {jobs : List (EncodeOptions × List Command)}
    (hjobs : ∀ job ∈ jobs, .finish ∉ job.2 ∧ (EncoderSession.start job.1).InRange (job.2 ++ [.syncFlush])) :
    ∃ pieces, List.Forall₂ FlushedAs jobs pieces ∧ Carries pieces.flatten (jobs.flatMap fun job => payload job.2) := by
  induction jobs with
  | nil => exact ⟨[], .nil, .nil⟩
  | cons job jobs ih =>
    obtain ⟨hcommands, hrange⟩ := hjobs job List.mem_cons_self
    obtain ⟨s, hrun, hcarries⟩ := EncoderSession.flushed_carries hcommands hrange
    obtain ⟨pieces, hpieces, hrest⟩ := ih fun job' hjob' => hjobs job' (List.mem_cons_of_mem _ hjob')
    exact ⟨s.output :: pieces, .cons ⟨s, hrun, rfl⟩ hpieces, hcarries.append hrest⟩

/-- What encoders of any options have put out up to a flush, one behind the other, and then what an encoder has put out up to its end:
together one stream of all the bytes fed, for a decoder that gets it in any pieces, and in a container that is written around it. -/
theorem flushed_joined {jobs : List (EncodeOptions × List Command)}
    (hjobs : ∀ job ∈ jobs, .finish ∉ job.2 ∧ (EncoderSession.start job.1).InRange (job.2 ++ [.syncFlush]))
    {options : EncodeOptions} {commands : List Command} (hfinish : .finish ∈ commands)
    (hrange : (EncoderSession.start options).InRange commands) :
    ∃ pieces s bytes data, List.Forall₂ FlushedAs jobs pieces ∧
      EncoderSession.run commands (EncoderSession.start options) = .ok s ∧ bytes = pieces.flatten ++ s.output ∧
      data = (jobs.flatMap fun job => payload job.2) ++ accepted commands ∧
      (∀ calls, Schedule bytes calls → Session.outcome calls = .ok (.halted, data)) ∧ Deflate.decompress bytes = .ok data ∧
      Gzip.decompress (Gzip.container.header ++ bytes ++ Rfc1952.trailer data) = .ok data ∧
      Zlib.decompress (Zlib.container.header ++ bytes ++ Rfc1950.trailer data) = .ok data := by
  obtain ⟨pieces, hpieces, hcarries⟩ := flushed_carries hjobs
  obtain ⟨s, hrun, hcloses⟩ := EncoderSession.finished_closes hfinish hrange
  have hclosed := hcarries.close hcloses
  refine ⟨pieces, s, _, _, hpieces, hrun, rfl, rfl, fun calls hcalls => ?_, hclosed.decompress, hclosed.gzip, hclosed.zlib⟩
  obtain ⟨held, -, hr⟩ := hclosed.runs
  obtain ⟨verdict, output, c, houtcome, hr', hstop', rfl⟩ := hcalls.stops
  obtain ⟨rfl, rfl⟩ := Machine.stop_unique hr' hstop' hr stops_halted
  exact houtcome

/-- Two flushed pieces, with different options, before a finished one. -/
theorem flushed_joined_three :
    ∃ pieces s bytes data,
      List.Forall₂ FlushedAs [(EncodeOptions.new.stored, [.feed [65]]), (EncodeOptions.new, [.feed [66], .resetHistory])] pieces ∧
      EncoderSession.run [.feed [67], .finish] (EncoderSession.start EncodeOptions.new.bufferAllInput) = .ok s ∧
      bytes = pieces.flatten ++ s.output ∧ data = [65, 66] ++ [67] ∧
      (∀ calls, Schedule bytes calls → Session.outcome calls = .ok (.halted, data)) ∧ Deflate.decompress bytes = .ok data ∧
      Gzip.decompress (Gzip.container.header ++ bytes ++ Rfc1952.trailer data) = .ok data ∧
      Zlib.decompress (Zlib.container.header ++ bytes ++ Rfc1950.trailer data) = .ok data := by
  refine flushed_joined (fun job hjob => ?_) (by simp) (EncoderSession.inRange_of_no_advance (by simp) _)
  rcases List.mem_cons.mp hjob with rfl | hjob
  · exact ⟨by simp, EncoderSession.inRange_of_no_advance (by simp) _⟩
  · obtain rfl := List.mem_singleton.mp hjob
    exact ⟨by simp, EncoderSession.inRange_of_no_advance (by simp) _⟩

end Noflate
