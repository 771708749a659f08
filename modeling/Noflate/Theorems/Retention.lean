import Noflate.Error
import Noflate.Session
import Noflate.Lemmas.EncoderRuns

/-!
# What is kept in memory, and what comes behind the end

The buffers keep consumed bytes for a while: at any time less than 1 MiB of them, in the decoder, whatever has happened to it
(`decoder_retention`), and in the encoder, which holds back less input than a block takes (`encoder_retention`). An encoder that has been
finished puts out nothing more, whatever calls follow, and says that it is finished when all it has put out is consumed
(`finish_is_final`).
-/

namespace Noflate

open BitString

/-! ## The decoder -/

/-- A buffer that has been fed is as long as what it reads, or within the threshold. -/
theorem Buf.length_feed_le (b : Buf) (data : List UInt8) :
    (b.feed data).bytes.length ≤ max Buf.compactThreshold (b.get.length + data.length) := by
  have hget := b.length_get
  have hle := b.offset_le
  unfold Buf.feed Buf.maybeCompact
  simp only
  split
  · simp only [List.length_drop, List.length_append]
    omega
  · rename_i h
    simp only [List.length_append] at h ⊢
    omega

/-- Consuming does not make a buffer grow. -/
theorem Buf.length_advance_le {b b' : Buf} {n : Nat} (h : b.advance n = .ok b') : b'.bytes.length ≤ b.bytes.length := by
  unfold Buf.advance at h
  split at h
  · split at h
    · obtain rfl := Exec.ok.inj h
      exact Nat.zero_le _
    · obtain rfl := Exec.ok.inj h
      exact le_rfl
  · cases h

namespace Decoder

/-- A decoder that keeps little of what is consumed: of its output less than the threshold, and of its input no more than the
threshold or a bound. -/
structure Retains (bound : Nat) (d : Decoder) : Prop where
  drained_lt : d.drained < Noflate.compactThreshold
  input_le : d.input.bytes.length ≤ max Buf.compactThreshold bound

/-- Running the machine consumes no output, and its input does not grow. -/
theorem drive_kept (d : Decoder) : d.drive.2.drained = d.drained ∧ d.drive.2.input.bytes.length ≤ d.input.bytes.length := by
  unfold drive
  split
  · split
    · rename_i input hinput
      exact ⟨rfl, Buf.length_advance_le hinput⟩
    · exact ⟨rfl, le_rfl⟩
  · exact ⟨rfl, le_rfl⟩
  · exact ⟨rfl, le_rfl⟩
  · exact ⟨rfl, le_rfl⟩

/-- A feed, also one that is refused or ends in an error. -/
theorem Retains.feed {bound : Nat} {d : Decoder} (h : d.Retains bound) {data : List UInt8}
    (hbound : d.remainingInput.length + data.length ≤ bound) : (d.feed data).2.Retains bound := by
  unfold Decoder.feed
  split
  · exact h
  · obtain ⟨h1, h2⟩ := drive_kept { d with input := d.input.feed data }
    refine ⟨h1.trans_lt h.drained_lt, h2.trans ((d.input.length_feed_le data).trans ?_)⟩
    exact max_le_max le_rfl hbound

/-- Consuming: what is consumed is dropped when the output is long, all of it or all but the window. -/
theorem Retains.advance {bound : Nat} {d d' : Decoder} (h : d.Retains bound) {n : Nat} (hadvance : d.advance n = .ok d') :
    d'.Retains bound := by
  unfold Decoder.advance at hadvance
  split at hadvance
  · cases hadvance
  · rename_i hle
    obtain rfl := Exec.ok.inj hadvance
    unfold maybeCompact
    simp only
    split
    · rename_i hshort
      refine ⟨?_, h.input_le⟩
      show d.drained + n < _
      omega
    · rename_i hlong
      have hwindow : windowSize < Noflate.compactThreshold := by decide
      split
      · refine ⟨?_, h.input_le⟩
        show d.drained + n < _
        omega
      · refine ⟨?_, h.input_le⟩
        show d.drained + n - min (d.drained + n) (d.output.length - windowSize) < _
        omega

end Decoder

namespace Session

/-- A call that, if it feeds bytes, leaves no more than a bound to be read. -/
def FeedsAtMost (bound : Nat) (s : Session) : Call → Prop
  | .feed data => s.decoder.remainingInput.length + data.length ≤ bound
  | .advance _ => True

instance (bound : Nat) (s : Session) (c : Call) : Decidable (s.FeedsAtMost bound c) :=
  match c with
  | .feed data => inferInstanceAs (Decidable (s.decoder.remainingInput.length + data.length ≤ bound))
  | .advance _ => inferInstanceAs (Decidable True)

/-- A call keeps what is retained low. -/
theorem retains_call {bound : Nat} {s s' : Session} (h : s.decoder.Retains bound) {c : Call} (hc : s.FeedsAtMost bound c)
    (hcall : s.call c = .ok s') : s'.decoder.Retains bound := by
  cases c with
  | feed data =>
    have hfeed := h.feed hc
    rw [Session.call] at hcall
    split at hcall
    · rename_i d hd
      obtain rfl := Exec.ok.inj hcall
      rwa [hd] at hfeed
    · rename_i e d hd
      obtain rfl := Exec.ok.inj hcall
      rwa [hd] at hfeed
    · cases hcall
    · cases hcall
  | advance n =>
    obtain ⟨d, hd, hs⟩ := Exec.bind_eq_ok.mp hcall
    obtain rfl := Exec.ok.inj hs
    exact h.advance hd

/-- Calls keep what is retained low. -/
theorem retains_run {bound : Nat} {calls : List Call} {s s' : Session} (h : s.decoder.Retains bound)
    (hcalls : Along (FeedsAtMost bound) s calls) (hrun : run calls s = .ok s') : s'.decoder.Retains bound := by
  induction calls generalizing s with
  | nil =>
    obtain rfl := Exec.ok.inj hrun
    exact h
  | cons c calls ih =>
    obtain ⟨s₁, h1, h2⟩ := Exec.bind_eq_ok.mp hrun
    obtain ⟨hc, hrest⟩ := along_cons.mp hcalls
    exact ih (retains_call h hc h1) (hrest s₁ h1) h2

end Session

/-- Whatever calls are made on a decoder, before an error or behind it, its output buffer has less than 1 MiB besides the output that
is not consumed, and its input buffer is within 1 MiB or the most input that was at hand in a feed. -/
theorem decoder_retention {bound : Nat} {calls : List Call} {s : Session}
    (hcalls : Session.Along (Session.FeedsAtMost bound) Session.start calls) (h : Session.run calls Session.start = .ok s) :
    s.decoder.output.length < compactThreshold + s.decoder.unread.length ∧
      s.decoder.input.bytes.length ≤ max Buf.compactThreshold bound := by
  have hstart : Session.start.decoder.Retains bound := ⟨by decide, Nat.zero_le _⟩
  obtain ⟨h1, h2⟩ := Session.retains_run hstart hcalls h
  refine ⟨?_, h2⟩
  rw [Decoder.unread, List.length_drop]
  omega

/-- Two bytes stored, one of them consumed, and an empty feed. -/
theorem decoder_retention_stored :
    ∃ s, Session.run [.feed [1, 2, 0, 253, 255, 7, 8], .advance 1, .feed []] Session.start = .ok s ∧
      s.decoder.output.length < compactThreshold + s.decoder.unread.length ∧
      s.decoder.input.bytes.length ≤ max Buf.compactThreshold 7 := by
  have hcalls : Session.Along (Session.FeedsAtMost 7) Session.start [.feed [1, 2, 0, 253, 255, 7, 8], .advance 1, .feed []] :=
    @of_decide_eq_true _ (Session.decidableAlong (fun _ _ => inferInstance) _ _) (by decide +kernel)
  obtain ⟨s, hs⟩ := Exec.returns_iff.mp
    (show (Session.run [.feed [1, 2, 0, 253, 255, 7, 8], .advance 1, .feed []] Session.start).returns (fun _ => true) = true by
      decide +kernel)
  exact ⟨s, hs.1, decoder_retention hcalls hs.1⟩

/-! ## The encoder -/

namespace Encoder

/-- Emitting the blocks that are full consumes no output. -/
theorem feedLoop_drained {limit fuel : Nat} {enc enc' : Encoder} (h : enc.Wf) (hloop : feedLoop limit fuel enc = .ok enc') :
    enc'.drained = enc.drained := by
  induction fuel generalizing enc with
  | zero => cases hloop
  | succ fuel ih =>
    rw [feedLoop] at hloop
    split at hloop
    · have hwf : Wf { enc with input := enc.input.drop limit } := ⟨h.writer_wf, h.matcher_wf⟩
      obtain ⟨enc₁, h1, h2⟩ := emitBlockChunk_spec hwf (enc.input.take limit) false
      simp only [h1, Exec.ok_bind] at hloop
      exact (ih h2.wf hloop).trans h2.drained_eq
    · obtain rfl := Exec.ok.inj hloop
      rfl

/-- Feeding consumes no output. -/
theorem feed_drained {enc enc' : Encoder} (h : enc.Wf) {data : List UInt8} (hfeed : enc.feed data = .ok enc') :
    enc'.drained = enc.drained := by
  unfold feed at hfeed
  split at hfeed
  · cases hfeed
  · simp only at hfeed
    split at hfeed
    · have hwf : Wf { enc with input := enc.input ++ data } := ⟨h.writer_wf, h.matcher_wf⟩
      have hloop := feedLoop_drained hwf hfeed
      exact hloop
    · obtain rfl := Exec.ok.inj hfeed
      rfl

/-- Flushing consumes no output. -/
theorem syncFlush_drained {enc enc' : Encoder} (h : enc.Wf) (hflush : enc.syncFlush = .ok enc') : enc'.drained = enc.drained := by
  unfold syncFlush at hflush
  split at hflush
  · cases hflush
  · split at hflush
    · obtain ⟨enc₁, h1, h2⟩ := emitStoredChunk_spec h [] false
      obtain rfl := Exec.ok.inj (h1.symm.trans hflush)
      exact h2.drained_eq
    · have hwf : Wf { enc with input := [] } := ⟨h.writer_wf, h.matcher_wf⟩
      obtain ⟨enc₁, h1, h2⟩ := emitBlockChunk_spec hwf enc.input false
      obtain ⟨enc₂, h3, h4⟩ := emitStoredChunk_spec h2.wf [] false
      simp only [h1, Exec.ok_bind] at hflush
      obtain rfl := Exec.ok.inj (h3.symm.trans hflush)
      exact h4.drained_eq.trans h2.drained_eq

/-- Finishing consumes no output. -/
theorem finish_drained {enc enc' : Encoder} (h : enc.Wf) (hfinish : enc.finish = .ok enc') : enc'.drained = enc.drained := by
  unfold finish at hfinish
  split at hfinish
  · obtain rfl := Exec.ok.inj hfinish
    rfl
  · have hwf : Wf { enc with finishing := true, input := [] } := ⟨h.writer_wf, h.matcher_wf⟩
    obtain ⟨enc₁, h1, h2⟩ := emitBlockChunk_spec hwf enc.input true
    obtain rfl := Exec.ok.inj (h1.symm.trans hfinish)
    exact h2.drained_eq

/-- Consuming leaves less than the threshold behind. -/
theorem drained_advance {enc enc' : Encoder} {n : Nat} (h : enc.advance n = .ok enc') : enc'.drained < compactThreshold := by
  unfold advance at h
  split at h
  · cases h
  · simp only at h
    split at h
    · obtain rfl := Exec.ok.inj h
      exact show 0 < compactThreshold by decide
    · rename_i hlt
      obtain rfl := Exec.ok.inj h
      exact Nat.lt_of_not_le hlt

end Encoder

namespace Emission

/-- What is left when the full blocks are emitted is shorter than a block. -/
theorem cut_pending_lt {limit : Nat} (hlimit : 0 < limit) (e : Emission) : (cut limit e).pending.length < limit := by
  induction e using cut.induct limit with
  | case1 e hc ih =>
    rw [cut_full hc]
    exact ih
  | case2 e hc =>
    rw [cut_rest hc]
    omega

/-- A call leaves less pending than a block takes. -/
theorem call_pending_lt {e : Emission} {limit : Nat} (hmax : e.options.maxBlockInputBytes = some limit)
    (h : e.pending.length < limit) (c : Command) : (e.call c).pending.length < limit := by
  have hlimit : 0 < limit := Nat.zero_lt_of_lt h
  cases c with
  | feed data =>
    rw [call]
    split
    · exact h
    · simp only [cutAll, hmax]
      exact cut_pending_lt hlimit _
  | syncFlush =>
    rw [call]
    split
    · exact h
    · unfold flush
      split
      · exact h
      · exact hlimit
  | finish =>
    rw [call]
    split
    · exact h
    · exact hlimit
  | resetHistory => exact h
  | advance n => exact h

/-- Calls leave less pending than a block takes. -/
theorem run_pending_lt {commands : List Command} {e : Emission} {limit : Nat} (hmax : e.options.maxBlockInputBytes = some limit)
    (h : e.pending.length < limit) : (Emission.run commands e).pending.length < limit := by
  induction commands generalizing e with
  | nil => exact h
  | cons c commands ih => exact ih (by rw [call_options, hmax]) (call_pending_lt hmax h c)

end Emission

namespace EncoderSession

/-- A call that came back, with or without an error. -/
theorem of_becomes_ok {s s' : EncoderSession} {result : Exec Encoder} (h : s.becomes result = .ok s') :
    s'.encoder = s.encoder ∨ result = .ok s'.encoder := by
  cases result with
  | ok enc' =>
    obtain rfl := Exec.ok.inj h
    exact .inr rfl
  | err e =>
    obtain rfl := Exec.ok.inj h
    exact .inl rfl
  | panic => cases h
  | diverge => cases h

/-- A call leaves less than the threshold consumed and kept. -/
theorem call_drained {s s' : EncoderSession} (hwf : s.encoder.Wf) (h : s.encoder.drained < Encoder.compactThreshold) {c : Command}
    (hcall : s.call c = .ok s') : s'.encoder.drained < Encoder.compactThreshold := by
  cases c with
  | feed data =>
    rcases of_becomes_ok hcall with hsame | hfeed
    · rwa [hsame]
    · rwa [Encoder.feed_drained hwf hfeed]
  | syncFlush =>
    rcases of_becomes_ok hcall with hsame | hflush
    · rwa [hsame]
    · rwa [Encoder.syncFlush_drained hwf hflush]
  | resetHistory =>
    obtain rfl := Exec.ok.inj hcall
    exact h
  | finish =>
    rcases of_becomes_ok hcall with hsame | hfinish
    · rwa [hsame]
    · rwa [Encoder.finish_drained hwf hfinish]
  | advance n =>
    obtain ⟨enc, henc, hs⟩ := Exec.bind_eq_ok.mp hcall
    obtain rfl := Exec.ok.inj hs
    exact Encoder.drained_advance henc

/-- Calls that came back, on an encoder that stands for an emission. -/
theorem run_drained {commands : List Command} {s s' : EncoderSession} {e : Emission} (hr : Refines s e)
    (h : s.encoder.drained < Encoder.compactThreshold) (hrun : run commands s = .ok s') :
    s'.encoder.drained < Encoder.compactThreshold := by
  induction commands generalizing s e with
  | nil =>
    obtain rfl := Exec.ok.inj hrun
    exact h
  | cons c commands ih =>
    obtain ⟨s₁, h1, h2⟩ := Exec.bind_eq_ok.mp hrun
    obtain ⟨s₂, h3, hr'⟩ := hr.call (along_cons.mp (inRange_of_run hrun)).1
    obtain rfl := Exec.ok.inj (h1.symm.trans h3)
    exact ih hr' (call_drained hr.wf h h1) h2

/-- Calls that came back on a fresh encoder leave one that stands for the emission of the calls. -/
theorem run_start {options : EncodeOptions} {commands : List Command} {s : EncoderSession}
    (h : run commands (start options) = .ok s) : Refines s (Emission.run commands (Emission.start options)) := by
  obtain ⟨s', h1, h2⟩ := run_refines (Refines.start options) (inRange_of_run h)
  obtain rfl := Exec.ok.inj (h.symm.trans h1)
  exact h2

end EncoderSession

/-- Whatever calls are made on an encoder, its output buffer has less than 1 MiB besides the output that is not consumed, it keeps back
less than a byte of output, and less input than a block takes. -/
theorem encoder_retention {options : EncodeOptions} {commands : List Command} {s : EncoderSession}
    (h : EncoderSession.run commands (EncoderSession.start options) = .ok s) :
    s.encoder.output.length < Encoder.compactThreshold + s.encoder.unread.length ∧ s.encoder.bitCount < 8 ∧
      ∀ limit ∈ options.maxBlockInputBytes, s.encoder.input.length < limit := by
  have hr := EncoderSession.run_start h
  have hdrained := EncoderSession.run_drained (Refines.start options) (show 0 < Encoder.compactThreshold by decide) h
  refine ⟨?_, hr.wf.writer_wf.count_lt, fun limit hlimit => ?_⟩
  · rw [Encoder.unread, List.length_drop]
    omega
  · rw [hr.input_eq]
    exact Emission.run_pending_lt hlimit (options.positive limit hlimit)

/-- Three bytes stored and flushed, four bytes of output consumed, and one more byte fed. -/
theorem encoder_retention_stored :
    ∃ s,
      EncoderSession.run [.feed [1, 2, 3], .syncFlush, .advance 4, .feed [4]] (EncoderSession.start EncodeOptions.new.stored) = .ok s ∧
      s.encoder.output.length < Encoder.compactThreshold + s.encoder.unread.length ∧ s.encoder.bitCount < 8 ∧
        ∀ limit ∈ EncodeOptions.new.stored.maxBlockInputBytes, s.encoder.input.length < limit := by
  obtain ⟨s, hs, -⟩ := Exec.returns_iff.mp
    (show (EncoderSession.run [.feed [1, 2, 3], .syncFlush, .advance 4, .feed [4]]
      (EncoderSession.start EncodeOptions.new.stored)).returns (fun _ => true) = true by decide +kernel)
  exact ⟨s, hs, encoder_retention hs⟩

/-! ## Behind the end -/

/-- A call that a finished encoder refuses. -/
def Command.adds : Command → Bool
  | .feed _ => true
  | .syncFlush => true
  | _ => false

/-- Behind the last block a call reports an error exactly when it would add to the stream. -/
theorem Emission.call_failed {e : Emission} (hf : e.finishing = true) (c : Command) :
    (e.call c).failed = true ↔ e.failed = true ∨ c.adds = true := by
  cases c with
  | feed data => simp [Emission.call, hf, Command.adds]
  | syncFlush => simp [Emission.call, hf, Command.adds]
  | finish => simp [Emission.call, hf, Command.adds]
  | resetHistory => simp [Emission.call, Command.adds]
  | advance n => simp [Emission.call, Command.adds]

/-- Behind the last block calls report an error exactly when one of them would add to the stream. -/
theorem Emission.run_failed {e : Emission} (hf : e.finishing = true) (commands : List Command) :
    (Emission.run commands e).failed = true ↔ e.failed = true ∨ ∃ c ∈ commands, c.adds = true := by
  induction commands generalizing e with
  | nil => simp [Emission.run]
  | cons c commands ih =>
    refine (ih ((Emission.call_finishing e c).mpr (.inl hf))).trans ?_
    rw [Emission.call_failed hf, or_assoc, List.exists_mem_cons_iff]

/-- The bits of a finished emission stay. -/
theorem Emission.run_bits_finished {e : Emission} (hf : e.finishing = true) (commands : List Command) :
    (Emission.run commands e).bits = e.bits := by
  rw [Emission.bits, Emission.bits, Emission.run_blocks_finished hf, hf, (Emission.run_finishing commands e).mpr (.inl hf)]

/-- An encoder is finished exactly when it has been told to and all its output is consumed. From then on, whatever calls are made, its
output stays, and an error is reported exactly by the calls that would add to it. -/
theorem finish_is_final {options : EncodeOptions} {commands : List Command} {s : EncoderSession}
    (h : EncoderSession.run commands (EncoderSession.start options) = .ok s) :
    (s.encoder.isFinished = true ↔ .finish ∈ commands ∧ s.encoder.unread = []) ∧
      (.finish ∈ commands → ∀ more s', EncoderSession.run more s = .ok s' →
        s'.output = s.output ∧ (s'.failed = true ↔ s.failed = true ∨ ∃ c ∈ more, c.adds = true)) := by
  have hr := EncoderSession.run_start h
  have hfinishing : (Emission.run commands (Emission.start options)).finishing = true ↔ .finish ∈ commands := by
    rw [Emission.run_finishing]
    exact ⟨fun h0 => h0.resolve_left Bool.false_ne_true, .inr⟩
  constructor
  · have hle := hr.drained_le
    rw [Encoder.isFinished, Bool.and_eq_true, hr.finishing_eq, hfinishing, beq_iff_eq, Encoder.unread, List.drop_eq_nil_iff]
    exact and_congr_right fun _ => ⟨fun h0 => h0.ge, fun h0 => le_antisymm hle h0⟩
  · intro hfin more s' hmore
    have hf := hfinishing.mpr hfin
    obtain ⟨s₁, h1, hr'⟩ := run_refines hr (EncoderSession.inRange_of_run hmore)
    obtain rfl := Exec.ok.inj (hmore.symm.trans h1)
    constructor
    · have hbits : (Emission.run more (Emission.run commands (Emission.start options))).bits =
          ofBytes [] ++ (Emission.run commands (Emission.start options)).bits := Emission.run_bits_finished hf more
      exact hr'.output_eq hr hbits
    · rw [hr'.failed_eq, hr.failed_eq]
      exact Emission.run_failed hf more

/-- Three bytes stored, finished and consumed; a second `finish` is a no-op, and a feed is refused. -/
theorem finish_is_final_stored :
    ∃ s, EncoderSession.run [.feed [1, 2, 3], .finish, .advance 8] (EncoderSession.start EncodeOptions.new.stored) = .ok s ∧
      s.encoder.isFinished = true ∧
        ∀ s', EncoderSession.run [.finish, .feed [4]] s = .ok s' → s'.output = s.output ∧ s'.failed = true := by
  obtain ⟨s, hs, hunread⟩ := Exec.returns_iff.mp
    (show (EncoderSession.run [.feed [1, 2, 3], .finish, .advance 8] (EncoderSession.start EncodeOptions.new.stored)).returns
      (fun s => s.encoder.unread.isEmpty) = true by decide +kernel)
  obtain ⟨h1, h2⟩ := finish_is_final hs
  refine ⟨s, hs, h1.mpr ⟨by decide, List.isEmpty_iff.mp hunread⟩, fun s' hs' => ?_⟩
  obtain ⟨h3, h4⟩ := h2 (by decide) _ s' hs'
  exact ⟨h3, h4.mpr (.inr ⟨.feed [4], by decide, rfl⟩)⟩

end Noflate
