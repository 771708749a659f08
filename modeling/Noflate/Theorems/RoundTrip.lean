import Noflate.Lemmas.Draining
import Noflate.Lemmas.EncoderRuns

/-!
# What is encoded is decoded

A run of an encoder that is finished emits a stream on which a decoder finishes, with all bytes fed and nothing left over
(`round_trip`). A run that ends in a flush emits whole bytes, behind which a decoder has put out all bytes fed, in whatever pieces it
gets them (`sync_flush_decodable`).
-/

namespace Noflate

open BitString Resumable

/-- A run of feeds, flushes and resets, with output consumed in between, and then finished: all calls succeed, and a decoder finishes
on the output, with all the bytes fed and nothing left over. -/
theorem round_trip (options : EncodeOptions) {commands : List Command} (hcommands : .finish ∉ commands)
    (hrange : (EncoderSession.start options).InRange (commands ++ [.finish])) :
    ∃ s, EncoderSession.run (commands ++ [.finish]) (EncoderSession.start options) = .ok s ∧ s.failed = false ∧
      Session.FinishesOn s.output (payload commands) := by
  obtain ⟨s, hrun, hs⟩ := run_refines (Refines.start options) hrange
  have hstart := Emission.start_sound options
  obtain ⟨hopen, hfailed, hpayload⟩ := hstart.run_open rfl hcommands
  rw [Emission.run_append, Emission.run_singleton] at hs
  obtain ⟨hsound, hsame⟩ := (hstart.run commands).call .finish
  obtain ⟨-, hfin, hfail⟩ := Emission.call_frame hopen .finish
  refine ⟨s, hrun, hs.failed_eq.trans (hfail.trans hfailed), ?_⟩
  have hr := hs.runs_finished hsound (hfin.mpr rfl)
  rw [hsame, Emission.accepts, List.append_nil, hpayload] at hr
  exact finishesOn_of_halted (length_pad_lt _) hr

/-- Bytes that repeat, on both sides of a flush and of a reset, as dynamic blocks with back-references. -/
theorem round_trip_repeated :
    ∃ s, EncoderSession.run ([.feed [65, 66, 65, 66, 65, 66, 65], .syncFlush, .feed [66, 65, 66], .resetHistory,
        .feed [67, 67, 67, 67, 67]] ++ [.finish]) (EncoderSession.start EncodeOptions.new) = .ok s ∧ s.failed = false ∧
      Session.FinishesOn s.output (payload [.feed [65, 66, 65, 66, 65, 66, 65], .syncFlush, .feed [66, 65, 66], .resetHistory,
        .feed [67, 67, 67, 67, 67]]) :=
  round_trip EncodeOptions.new (by decide) (EncoderSession.inRange_of_no_advance (by simp) _)

/-- A flush in a run that is not finished: the output is whole bytes and ends in the marker, a decoder that gets it in whatever
pieces has put out all bytes fed and waits for more, and the output stays what it is when the run goes on. -/
theorem sync_flush_decodable (options : EncodeOptions) {commands : List Command} (hcommands : .finish ∉ commands)
    (hrange : (EncoderSession.start options).InRange (commands ++ [.syncFlush])) :
    ∃ s, EncoderSession.run (commands ++ [.syncFlush]) (EncoderSession.start options) = .ok s ∧ s.failed = false ∧
      s.encoder.bitCount = 0 ∧ [0, 0, 0xFF, 0xFF] <:+ s.output ∧
      (∀ calls, Session.start.InRange calls → fedBytes calls = s.output →
        ∃ d, (Session.run calls Session.start >>= Session.settle) = .ok (.waiting, d) ∧ d.failed = false ∧
          d.decoder.finished = false ∧ d.output = payload commands) ∧
      ∀ more, s.InRange more → ∃ s', EncoderSession.run more s = .ok s' ∧ s.output <+: s'.output := by
  obtain ⟨s, hrun, hs⟩ := run_refines (Refines.start options) hrange
  have hstart := Emission.start_sound options
  obtain ⟨hopen, hfailed, hpayload⟩ := hstart.run_open rfl hcommands
  rw [Emission.run_append, Emission.run_singleton] at hs
  have hsound := hstart.run commands
  generalize Emission.run commands (Emission.start options) = e at hs hopen hfailed hpayload hsound
  obtain ⟨-, hfin, hfail⟩ := Emission.call_frame hopen .syncFlush
  obtain ⟨hsound', hsame⟩ := hsound.call .syncFlush
  have hf : (e.call .syncFlush).finishing = false := by
    refine Bool.eq_false_iff.mpr fun ht => ?_
    cases hfin.mp ht
  obtain ⟨hblocks, hpending⟩ := Emission.call_syncFlush hopen
  have haligned := Emission.syncFlush_aligned hopen
  rw [Emission.accepts, List.append_nil, hpayload] at hsame
  generalize e.call .syncFlush = e' at hs hf hsound' hsame hblocks hpending haligned hfail
  have hbits := Emission.bits_open hf
  have hmod : e'.bits.length % 8 = 0 := by
    rw [hbits]
    exact haligned
  obtain ⟨hout, h0⟩ := hs.output_bits hmod
  refine ⟨s, hrun, hs.failed_eq.trans (hfail.trans hfailed), h0, ?_, ?_, ?_⟩
  · have hsuffix : ofBytes [0, 0, 0xFF, 0xFF] <:+ ofBytes s.output := by
      rw [hout, hbits, hblocks, blockBits_append, blockBits_singleton]
      exact (List.suffix_append _ _).trans ((List.suffix_cons _ _).trans (List.suffix_append _ _))
    obtain ⟨front, hfront⟩ := suffix_of_ofBytes hsuffix
    exact ⟨front, hfront.symm⟩
  · intro calls hcalls hfed
    have hruns : itemMachine.Runs (startItem s.output) ((.blockHeader, payload commands), []) := by
      have hr := runs_open hsound'.blocks_sound (hsound'.opened hf) (show Aligned (blockBits e'.blocks).length [] by
        rw [← hbits]
        exact hmod)
      rw [List.append_nil, ← hbits, ← hout] at hr
      rw [Emission.payload, hpending, List.append_nil] at hsame
      rwa [hsame] at hr
    have hstop : itemMachine.Stops ((.blockHeader, payload commands), []) .waiting := stops_waiting rfl
    have hprefix : [] ++ fedBytes calls <+: s.output := (List.nil_append _).trans hfed ▸ List.prefix_refl _
    obtain ⟨d₁, dropped, h1, h2, h3⟩ := Session.run_waiting hruns hstop calls Session.start_live rfl hcalls hprefix
    rw [List.nil_append, hfed] at h3
    obtain ⟨verdict, d, h4, h5⟩ := Session.settle_spec (.inl ⟨h2, dropped, h3⟩)
    obtain ⟨c, hr, hstop', houtput, -⟩ := h5.stopped
    obtain ⟨rfl, rfl⟩ := Machine.stop_unique hr hstop' hruns hstop
    refine ⟨d, by rw [h1, Exec.ok_bind, h4], ?_, ?_, houtput.symm⟩
    · refine Bool.eq_false_iff.mpr fun ht => ?_
      cases h5.failed_iff.mp ht
    · refine Bool.eq_false_iff.mpr fun ht => ?_
      cases h5.finished_iff.mp ht
  · intro more hmore
    obtain ⟨s', hrun', hs'⟩ := run_refines hs hmore
    exact ⟨s', hrun', hs.output_grows hs' (Emission.run_bits_extends hf more)⟩

/-- Bytes that repeat, a flush and more of them, as fixed blocks with back-references. -/
theorem sync_flush_decodable_repeated :
    ∃ s, EncoderSession.run ([.feed [65, 66, 65, 66, 65], .syncFlush, .feed [66, 65, 66, 65]] ++ [.syncFlush])
        (EncoderSession.start EncodeOptions.new.fixedHuffman) = .ok s ∧ s.failed = false ∧
      s.encoder.bitCount = 0 ∧ [0, 0, 0xFF, 0xFF] <:+ s.output ∧
      (∀ calls, Session.start.InRange calls → fedBytes calls = s.output →
        ∃ d, (Session.run calls Session.start >>= Session.settle) = .ok (.waiting, d) ∧ d.failed = false ∧
          d.decoder.finished = false ∧ d.output = payload [.feed [65, 66, 65, 66, 65], .syncFlush, .feed [66, 65, 66, 65]]) ∧
      ∀ more, s.InRange more → ∃ s', EncoderSession.run more s = .ok s' ∧ s.output <+: s'.output :=
  sync_flush_decodable EncodeOptions.new.fixedHuffman (by decide) (EncoderSession.inRange_of_no_advance (by simp) _)

end Noflate
