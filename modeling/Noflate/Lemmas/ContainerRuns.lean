import Noflate.Lemmas.Draining
import Noflate.Lemmas.EncoderRuns

/-!
# What an encoder of a container puts out

Whatever calls its caller makes, an encoder of a container puts its header before, and its trailer behind, a byte string on which the
raw decoder finishes with all the bytes fed (`ContainerSession.run_close`). The deflate encoder in it stands for an emission all
along, and what it has put out is behind the header (`ContainerSession.Open`).
-/

namespace Noflate

open BitString

/-- Consuming output drops it from what is not consumed. -/
theorem Encoder.unread_of_advance {enc enc' : Encoder} {n : Nat} (h : enc.advance n = .ok enc') :
    enc'.unread = enc.unread.drop n := by
  unfold Encoder.advance at h
  split at h
  · cases h
  · simp only at h
    split at h
    · obtain rfl := Exec.ok.inj h
      exact List.drop_drop.symm
    · obtain rfl := Exec.ok.inj h
      exact List.drop_drop.symm

namespace Refines

variable {s : EncoderSession} {e : Emission}

/-- All that was put out is consumed. -/
theorem consumed (h : Refines s e) :
    ∃ enc', s.encoder.advance s.encoder.unread.length = .ok enc' ∧ enc'.unread = [] ∧
      Refines { s with encoder := enc', taken := s.taken ++ s.encoder.unread } e := by
  obtain ⟨s', hcall, hs'⟩ := h.call_advance le_rfl
  obtain ⟨enc', hadvance, hsame⟩ := Exec.bind_eq_ok.mp hcall
  obtain rfl := Exec.ok.inj hsame
  rw [List.take_length] at hs'
  refine ⟨enc', hadvance, ?_, hs'⟩
  rw [Encoder.unread_of_advance hadvance, List.drop_length]

/-- A finished encoder has put out a byte string on which the raw decoder finishes, with all the bytes fed. -/
theorem finishesOn (h : Refines s e) (hs : e.Sound) (hf : e.finishing = true) : Session.FinishesOn s.output e.payload :=
  finishesOn_of_halted (length_pad_lt _) (h.runs_finished hs hf)

end Refines

namespace ContainerEncoder

variable {κ : Type} {K : Container κ}

/-- The header, while it is not emitted. -/
def missingHeader (K : Container κ) (e : ContainerEncoder κ) : List UInt8 := if e.headerEmitted then [] else K.header

theorem ensureHeader_eq (K : Container κ) (e : ContainerEncoder κ) :
    e.ensureHeader K = { e with output := e.output ++ e.missingHeader K, headerEmitted := true } := by
  unfold ensureHeader missingHeader
  split
  · rename_i h
    rw [List.append_nil, ← h]
  · rfl

/-- What the deflate encoder has put out goes behind the output, and it keeps nothing of it. -/
theorem takeOver_spec {deflate : Encoder} {body : List UInt8} {emission : Emission}
    (h : Refines { encoder := deflate, taken := body, failed := false } emission) (e : ContainerEncoder κ) :
    ∃ deflate', e.takeOver deflate = .ok { e with deflate := deflate', output := e.output ++ deflate.unread } ∧
      deflate'.unread = [] ∧ Refines { encoder := deflate', taken := body ++ deflate.unread, failed := false } emission := by
  obtain ⟨deflate', hadvance, hunread, h'⟩ := h.consumed
  refine ⟨deflate', ?_, hunread, h'⟩
  unfold takeOver
  simp only at hadvance ⊢
  rw [hadvance, Exec.ok_bind]

end ContainerEncoder

namespace ContainerSession

variable {κ : Type} {K : Container κ} {C : List UInt8 → κ → Prop} {fed : List UInt8} {s : ContainerSession κ}

/-- What is put behind the output goes behind all the bytes made available. -/
theorem output_append (hle : s.encoder.drained ≤ s.encoder.output.length) {e' : ContainerEncoder κ} {new : List UInt8}
    (houtput : e'.output = s.encoder.output ++ new) (hdrained : e'.drained = s.encoder.drained) :
    output { s with encoder := e' } = s.output ++ new := by
  unfold output ContainerEncoder.unread
  simp only
  rw [houtput, hdrained, List.drop_append_of_le_length hle, List.append_assoc]

/-- An encoder of a container in use that is not finished: the checksum is that of the bytes fed, and behind the header the output is
what the deflate encoder has emitted for them, of which it keeps no whole byte back. -/
structure Open (K : Container κ) (C : List UInt8 → κ → Prop) (fed : List UInt8) (s : ContainerSession κ) : Prop where
  drained_le : s.encoder.drained ≤ s.encoder.output.length
  finishing_eq : s.encoder.finishing = false
  check_of : C fed s.encoder.check
  consumed : s.encoder.deflate.unread = []
  emitted : ∃ body e, Refines { encoder := s.encoder.deflate, taken := body, failed := false } e ∧ e.Sound ∧
    e.finishing = false ∧ e.payload = fed ∧ s.output ++ s.encoder.missingHeader K = K.header ++ body

theorem start_open (hnew : C [] K.new) (options : EncodeOptions) :
    Open K C [] (start (ContainerEncoder.withOptions K options)) :=
  ⟨le_rfl, rfl, hnew, rfl, [], Emission.start options, Refines.start options, Emission.start_sound options, rfl, rfl,
    (List.append_nil _).symm⟩

/-- The header, where it was missing, and more bytes of the body go behind the output. -/
theorem Open.output_eq (h : s.Open K C fed) {body new : List UInt8} (hout : s.output ++ s.encoder.missingHeader K = K.header ++ body)
    {e' : ContainerEncoder κ} (houtput : e'.output = s.encoder.output ++ s.encoder.missingHeader K ++ new)
    (hdrained : e'.drained = s.encoder.drained) : output { s with encoder := e' } = K.header ++ (body ++ new) := by
  rw [List.append_assoc] at houtput
  rw [output_append h.drained_le houtput hdrained, ← List.append_assoc, hout, List.append_assoc]

/-- More bytes are fed. -/
theorem Open.call_feed (hupdate : ∀ fed c data, C fed c → C (fed ++ data) (K.update c data)) (h : s.Open K C fed)
    (data : List UInt8) :
    ∃ s', s.call (ContainerEncoder.feed K) (.feed data) = .ok s' ∧ s'.Open K C (fed ++ data) := by
  obtain ⟨body, e, hrefines, hsound, hopen, hpayload, hout⟩ := h.emitted
  obtain ⟨hsound', hpayload'⟩ := hsound.call (.feed data)
  obtain ⟨-, hfin, hfail⟩ := Emission.call_frame hopen (.feed data)
  have hopen' : (e.call (.feed data)).finishing = false := Bool.eq_false_iff.mpr fun ht => (nomatch hfin.mp ht)
  rw [Emission.accepts, hopen, if_neg Bool.false_ne_true, hpayload] at hpayload'
  -- the deflate encoder takes the bytes in
  obtain ⟨t, hcall, hrefines'⟩ := hrefines.call_feed data
  obtain ⟨deflate, hfeed, rfl⟩ := EncoderSession.of_becomes hcall (hrefines'.failed_eq.trans (hfail.trans hrefines.failed_eq.symm))
  simp only at hfeed hrefines'
  have hcheck := hupdate fed _ data h.check_of
  have hle : ∀ new, s.encoder.drained ≤ (s.encoder.output ++ s.encoder.missingHeader K ++ new).length := by
    intro new
    have hle := h.drained_le
    rw [List.append_assoc, List.length_append]
    omega
  rw [call, ContainerEncoder.feed, h.finishing_eq, if_neg Bool.false_ne_true, ContainerEncoder.ensureHeader_eq]
  simp only [hfeed, Exec.ok_bind]
  by_cases hproduced : 0 < deflate.unread.length
  · obtain ⟨deflate', htake, hunread, hrefines''⟩ := ContainerEncoder.takeOver_spec hrefines'
      { s.encoder with
        output := s.encoder.output ++ s.encoder.missingHeader K, headerEmitted := true, check := K.update s.encoder.check data }
    rw [if_pos hproduced, htake, Exec.ok_bind]
    exact ⟨_, rfl, hle _, h.finishing_eq, hcheck, hunread, _, _, hrefines'', hsound', hopen', hpayload',
      (List.append_nil _).trans (h.output_eq hout rfl rfl)⟩
  · have hnone : deflate.unread = [] := List.eq_nil_of_length_eq_zero (Nat.eq_zero_of_not_pos hproduced)
    rw [if_neg hproduced, Exec.ok_bind]
    refine ⟨_, rfl, ?_, h.finishing_eq, hcheck, hnone, _, _, hrefines', hsound', hopen', hpayload', ?_⟩
    · simpa only [List.append_nil] using hle []
    · refine Eq.trans (List.append_nil _) (Eq.trans ?_ hout)
      exact output_append h.drained_le rfl rfl

/-- Output is consumed. -/
theorem Open.call_advance (feed : ContainerEncoder κ → List UInt8 → Exec (ContainerEncoder κ)) (h : s.Open K C fed) {n : Nat}
    (hn : n ≤ s.encoder.unread.length) : ∃ s', s.call feed (.advance n) = .ok s' ∧ s'.Open K C fed := by
  obtain ⟨body, e, hrefines, hsound, hopen, hpayload, hout⟩ := h.emitted
  have hlen : s.encoder.unread.length = s.encoder.output.length - s.encoder.drained := List.length_drop
  have hle := h.drained_le
  have hnot : ¬(s.encoder.output.length < s.encoder.drained ∨ s.encoder.output.length - s.encoder.drained < n) := by omega
  have hdrop : s.encoder.output.drop (s.encoder.drained + n) = s.encoder.unread.drop n := List.drop_drop.symm
  have hsame : ∀ e' : ContainerEncoder κ, e'.unread = s.encoder.unread.drop n →
      output { encoder := e', taken := s.taken ++ s.encoder.unread.take n } = s.output := by
    intro e' hunread
    unfold output
    simp only
    rw [hunread, List.append_assoc, List.take_append_drop]
  rw [call, ContainerEncoder.advance, if_neg hnot]
  by_cases hc : ContainerEncoder.compactThreshold ≤ s.encoder.drained + n
  · simp only [if_pos hc, Exec.ok_bind]
    refine ⟨_, rfl, Nat.zero_le _, h.finishing_eq, h.check_of, h.consumed, body, e, hrefines, hsound, hopen, hpayload, ?_⟩
    rw [hsame { s.encoder with output := s.encoder.output.drop (s.encoder.drained + n), drained := 0 } hdrop]
    exact hout
  · simp only [if_neg hc, Exec.ok_bind]
    refine ⟨_, rfl, ?_, h.finishing_eq, h.check_of, h.consumed, body, e, hrefines, hsound, hopen, hpayload, ?_⟩
    · show s.encoder.drained + n ≤ s.encoder.output.length
      omega
    · rw [hsame { s.encoder with drained := s.encoder.drained + n } hdrop]
      exact hout

/-- Calls in range, one after the other. -/
theorem Open.run (hupdate : ∀ fed c data, C fed c → C (fed ++ data) (K.update c data)) (h : s.Open K C fed) {calls : List Call}
    (hrange : s.InRange (ContainerEncoder.feed K) calls) :
    ∃ s', ContainerSession.run (ContainerEncoder.feed K) calls s = .ok s' ∧ s'.Open K C (fed ++ fedBytes calls) := by
  induction calls generalizing s fed with
  | nil => exact ⟨s, rfl, by rwa [fedBytes_nil, List.append_nil]⟩
  | cons c calls ih =>
    obtain ⟨hc, hrest⟩ := inRange_cons.mp hrange
    rw [run_cons]
    cases c with
    | feed data =>
      obtain ⟨s₁, h1, h2⟩ := h.call_feed hupdate data
      obtain ⟨s', h3, h4⟩ := ih h2 (hrest s₁ h1)
      rw [h1, Exec.ok_bind, h3, fedBytes_feed, ← List.append_assoc]
      exact ⟨s', rfl, h4⟩
    | advance n =>
      obtain ⟨s₁, h1, h2⟩ := h.call_advance (ContainerEncoder.feed K) (hc n rfl)
      obtain ⟨s', h3, h4⟩ := ih h2 (hrest s₁ h1)
      rw [h1, Exec.ok_bind, h3, fedBytes_advance]
      exact ⟨s', rfl, h4⟩

/-- The stream is finished: the final block and the trailer go behind the output. -/
theorem Open.close (h : s.Open K C fed) :
    ∃ s' body c, s.close (ContainerEncoder.finish K) = .ok s' ∧ C fed c ∧ s'.output = K.header ++ body ++ K.trailer c ∧
      Session.FinishesOn body fed := by
  obtain ⟨body, e, hrefines, hsound, hopen, hpayload, hout⟩ := h.emitted
  obtain ⟨hsound', hpayload'⟩ := hsound.call .finish
  obtain ⟨-, hfin, hfail⟩ := Emission.call_frame hopen .finish
  rw [Emission.accepts, List.append_nil, hpayload] at hpayload'
  obtain ⟨t, hcall, hrefines'⟩ := hrefines.call_finish
  obtain ⟨deflate, hfinish, rfl⟩ := EncoderSession.of_becomes hcall (hrefines'.failed_eq.trans (hfail.trans hrefines.failed_eq.symm))
  simp only at hfinish hrefines'
  have hbody := hrefines'.finishesOn hsound' (hfin.mpr rfl)
  rw [hpayload'] at hbody
  obtain ⟨deflate', htake, -, -⟩ := ContainerEncoder.takeOver_spec hrefines'
    { s.encoder with output := s.encoder.output ++ s.encoder.missingHeader K, headerEmitted := true }
  rw [ContainerSession.close, ContainerEncoder.finish, h.finishing_eq, if_neg Bool.false_ne_true, ContainerEncoder.ensureHeader_eq]
  simp only [hfinish, Exec.ok_bind]
  rw [htake, Exec.ok_bind, Exec.ok_bind]
  refine ⟨_, body ++ deflate.unread, s.encoder.check, rfl, h.check_of, ?_, hbody⟩
  refine Eq.trans (h.output_eq hout (List.append_assoc _ _ _) rfl) ?_
  rw [← List.append_assoc, ← List.append_assoc, ← List.append_assoc]

/-- Calls in range on a fresh encoder of a container, and then `finish`: all succeed, and the output is the header, a byte string on
which the raw decoder finishes, with all the bytes fed, and the trailer. -/
theorem run_close (hnew : C [] K.new) (hupdate : ∀ fed c data, C fed c → C (fed ++ data) (K.update c data)) (options : EncodeOptions)
    {calls : List Call} (hrange : (start (ContainerEncoder.withOptions K options)).InRange (ContainerEncoder.feed K) calls) :
    ∃ s body c, (run (ContainerEncoder.feed K) calls (start (ContainerEncoder.withOptions K options)) >>=
        close (ContainerEncoder.finish K)) = .ok s ∧
      C (fedBytes calls) c ∧ s.output = K.header ++ body ++ K.trailer c ∧ Session.FinishesOn body (fedBytes calls) := by
  obtain ⟨s, hrun, hopen⟩ := (start_open hnew options).run hupdate hrange
  rw [List.nil_append] at hopen
  rw [hrun, Exec.ok_bind]
  exact hopen.close

end ContainerSession

end Noflate
