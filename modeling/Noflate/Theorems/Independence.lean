import Noflate.Lemmas.Continuing

/-!
# What the emitted bytes depend on

What an encoder emits depends on the bytes fed up to each flush point, however a caller divides them over its calls
(`feed_division_independence`). Behind a flush it emits what a fresh one does, and its history can be reset anywhere without a trace
(`flushed_is_fresh`).
-/

namespace Noflate

open BitString

/-- Two runs with the same segments emit the same bits, and have made the same bytes available. -/
theorem Refines.of_segments {options : EncodeOptions} {commands commands' : List Command} (hsame : segments commands = segments commands')
    {s s' : EncoderSession} (h : Refines s (Emission.run commands (Emission.start options)))
    (h' : Refines s' (Emission.run commands' (Emission.start options))) : s.bits = s'.bits ∧ s.output = s'.output := by
  have hsegments := Emission.run_segments options commands
  rw [hsame] at hsegments
  have hbits := (hsegments.trans (Emission.run_segments options commands').symm).bits_eq rfl
  have hout : s.output = [] ++ s'.output := h.output_eq h' hbits
  exact ⟨h.bits_eq.trans (hbits.trans h'.bits_eq.symm), hout⟩

/-- Calls with the same segments, in whatever pieces the bytes of a segment are fed and wherever output is consumed: both runs
succeed, and they have emitted the same bytes, and the same bits of the next one. -/
theorem feed_division_independence (options : EncodeOptions) {commands commands' : List Command}
    (hrange : (EncoderSession.start options).InRange commands) (hrange' : (EncoderSession.start options).InRange commands')
    (hsame : segments commands = segments commands') :
    ∃ s s', EncoderSession.run commands (EncoderSession.start options) = .ok s ∧
      EncoderSession.run commands' (EncoderSession.start options) = .ok s' ∧ s.bits = s'.bits ∧ s.output = s'.output := by
  obtain ⟨s, hrun, hs⟩ := run_refines (Refines.start options) hrange
  obtain ⟨s', hrun', hs'⟩ := run_refines (Refines.start options) hrange'
  exact ⟨s, s', hrun, hrun', Refines.of_segments hsame hs hs'⟩

/-- Two bytes, fed at once and one by one, with a reset and an empty feed in between. -/
theorem feed_division_independence_stored :
    ∃ s s', EncoderSession.run [.feed [65, 66], .finish] (EncoderSession.start EncodeOptions.new.stored) = .ok s ∧
      EncoderSession.run [.feed [65], .resetHistory, .feed [], .feed [66], .finish]
        (EncoderSession.start EncodeOptions.new.stored) = .ok s' ∧ s.bits = s'.bits ∧ s.output = s'.output :=
  feed_division_independence EncodeOptions.new.stored (EncoderSession.inRange_of_no_advance (by simp) _)
    (EncoderSession.inRange_of_no_advance (by simp) _) (by decide)

/-- Behind a flush that is not refused an encoder emits what a fresh one does, on whatever calls follow. And calls that differ in
where they reset the history emit the same bytes. -/
theorem flushed_is_fresh (options : EncodeOptions) :
    (∀ (front back : List Command) (s : EncoderSession) (enc : Encoder), (EncoderSession.start options).InRange front →
      EncoderSession.run front (EncoderSession.start options) = .ok s → s.encoder.syncFlush = .ok enc →
      EncoderSession.InRange { s with encoder := enc } back → (EncoderSession.start options).InRange back →
      ∃ s' s₀, EncoderSession.run back { s with encoder := enc } = .ok s' ∧
        EncoderSession.run back (EncoderSession.start options) = .ok s₀ ∧
        s'.output = EncoderSession.output { s with encoder := enc } ++ s₀.output) ∧
    (∀ commands commands' : List Command,
      commands.filter (· ≠ .resetHistory) = commands'.filter (· ≠ .resetHistory) →
      (EncoderSession.start options).InRange commands → (EncoderSession.start options).InRange commands' →
      ∃ s s', EncoderSession.run commands (EncoderSession.start options) = .ok s ∧
        EncoderSession.run commands' (EncoderSession.start options) = .ok s' ∧ s.bits = s'.bits ∧ s.output = s'.output) := by
  refine ⟨?_, ?_⟩
  · intro front back s enc hfront hrun hflush hback hback₀
    obtain ⟨s₁, hrun₁, hs⟩ := run_refines (Refines.start options) hfront
    obtain rfl := Exec.ok.inj (hrun.symm.trans hrun₁)
    have hopen : (Emission.run front (Emission.start options)).finishing = false := by
      refine Bool.eq_false_iff.mpr fun ht => ?_
      rw [Encoder.syncFlush, if_pos (hs.finishing_eq.trans ht)] at hflush
      cases hflush
    obtain ⟨s₂, hcall, hs₂⟩ := hs.call_syncFlush
    rw [EncoderSession.call, hflush] at hcall
    obtain rfl := Exec.ok.inj hcall
    have hoptions := (Emission.call_options _ .syncFlush).trans (Emission.run_options front (Emission.start options))
    have haligned := Emission.syncFlush_aligned hopen
    obtain ⟨-, hpending⟩ := Emission.call_syncFlush hopen
    obtain ⟨-, hfin, -⟩ := Emission.call_frame hopen .syncFlush
    have hf : ((Emission.run front (Emission.start options)).call .syncFlush).finishing = false := by
      refine Bool.eq_false_iff.mpr fun ht => ?_
      cases hfin.mp ht
    generalize (Emission.run front (Emission.start options)).call .syncFlush = e at hs₂ hoptions haligned hpending hf
    have hcontinues := Emission.Continues.of_start hf hpending
    obtain ⟨s', hrun', hs'⟩ := run_refines hs₂ hback
    obtain ⟨s₀, hrun₀, hs₀⟩ := run_refines (Refines.start options) hback₀
    refine ⟨s', s₀, hrun', hrun₀, hs'.output_eq hs₀ ?_⟩
    have hbits := Emission.bits_open hf
    have hout := (hs₂.output_bits (by rwa [hbits])).1
    rw [hout, hbits]
    rw [hoptions] at hcontinues
    exact (hcontinues.run haligned back).bits_eq haligned
  · intro commands commands' hsame hrange hrange'
    have hreset : ∀ commands : List Command, segments (commands.filter (· ≠ .resetHistory)) = segments commands := by
      intro commands
      unfold segments
      generalize (⟨[], []⟩ : Segments) = g
      induction commands generalizing g with
      | nil => rfl
      | cons c commands ih =>
        by_cases hc : c = .resetHistory
        · subst hc
          exact ih g
        · rw [List.filter_cons_of_pos (by rwa [decide_eq_true_iff])]
          exact ih (g.add c)
    obtain ⟨s, hrun, hs⟩ := run_refines (Refines.start options) hrange
    obtain ⟨s', hrun', hs'⟩ := run_refines (Refines.start options) hrange'
    refine ⟨s, s', hrun, hrun', Refines.of_segments ?_ hs hs'⟩
    rw [← hreset commands, ← hreset commands', hsame]

/-- Bytes that repeat and a flush, behind which the same bytes are encoded as by a fresh encoder; and bytes with a reset among them and
without, in one block with a back-reference over the reset. -/
theorem flushed_is_fresh_repeated :
    (∃ s enc s' s₀, EncoderSession.run [.feed [65, 66, 65, 66, 65]] (EncoderSession.start EncodeOptions.new) = .ok s ∧
      s.encoder.syncFlush = .ok enc ∧ EncoderSession.run [.feed [65, 66, 65, 66, 65], .finish] { s with encoder := enc } = .ok s' ∧
      EncoderSession.run [.feed [65, 66, 65, 66, 65], .finish] (EncoderSession.start EncodeOptions.new) = .ok s₀ ∧
      s'.output = EncoderSession.output { s with encoder := enc } ++ s₀.output) ∧
    (∃ s s', EncoderSession.run [.feed [65, 65, 65], .resetHistory, .feed [65, 65], .finish]
        (EncoderSession.start EncodeOptions.new.fixedHuffman) = .ok s ∧
      EncoderSession.run [.feed [65, 65, 65], .feed [65, 65], .finish] (EncoderSession.start EncodeOptions.new.fixedHuffman) = .ok s' ∧
      s.bits = s'.bits ∧ s.output = s'.output) := by
  have hrange : ∀ s : EncoderSession, s.InRange [.feed [65, 66, 65, 66, 65], .finish] :=
    EncoderSession.inRange_of_no_advance (by simp)
  constructor
  · have hfront : (EncoderSession.start EncodeOptions.new).InRange [.feed [65, 66, 65, 66, 65]] :=
      EncoderSession.inRange_of_no_advance (by simp) _
    obtain ⟨s, hrun, hs⟩ := run_refines (Refines.start EncodeOptions.new) hfront
    obtain ⟨hopen, hfailed, -⟩ := (Emission.start_sound EncodeOptions.new).run_open rfl
      (show .finish ∉ ([.feed [65, 66, 65, 66, 65]] : List Command) by decide)
    obtain ⟨-, -, hsame⟩ := Emission.call_frame hopen .syncFlush
    obtain ⟨s₁, hcall, hs₁⟩ := hs.call_syncFlush
    obtain ⟨enc, hflush, -⟩ := EncoderSession.of_becomes hcall (hs₁.failed_eq.trans (hsame.trans hfailed))
    obtain ⟨s', s₀, h1, h2, h3⟩ := (flushed_is_fresh EncodeOptions.new).1 _ _ s enc hfront hrun hflush (hrange _) (hrange _)
    exact ⟨s, enc, s', s₀, hrun, hflush, h1, h2, h3⟩
  · exact (flushed_is_fresh EncodeOptions.new.fixedHuffman).2 _ _ (by decide) (EncoderSession.inRange_of_no_advance (by simp) _)
      (EncoderSession.inRange_of_no_advance (by simp) _)

end Noflate
