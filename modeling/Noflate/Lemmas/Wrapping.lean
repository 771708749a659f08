import Noflate.OneShot
import Noflate.Lemmas.ContainerRuns
import Noflate.Lemmas.Sending

/-!
# A container around an emission

An encoder of a container in use stands for the emission of the bytes it was fed (`ContainerSession.Wraps`): its output is the header,
once it has been called, and what has been emitted. Each call is a call on the emission, and finishing puts the trailer behind it
(`Wraps.close`).
-/

namespace Noflate

open BitString

/-- The pieces that calls feed. -/
def fedPieces (calls : List Call) : List (List UInt8) :=
  calls.flatMap fun
    | .feed data => [data]
    | .advance _ => []

/-- The pieces hold the bytes fed. -/
theorem flatten_fedPieces (calls : List Call) : (fedPieces calls).flatten = fedBytes calls := by
  induction calls with
  | nil => rfl
  | cons c calls ih =>
    cases c with
    | feed data =>
      rw [fedBytes_feed, ← ih]
      rfl
    | advance n =>
      rw [fedBytes_advance, ← ih]
      rfl

/-- Pieces have the segments of one feed of all bytes, whatever is done behind them. -/
theorem segments_pieces (pieces : List (List UInt8)) (behind : List Command) :
    segments (feeds pieces ++ behind) = segments (.feed pieces.flatten :: behind) := by
  have hsplit : segments (feeds pieces ++ behind) = behind.foldl Segments.add (segments (feeds pieces)) := List.foldl_append
  rw [hsplit, segments_feeds]
  rfl

namespace ContainerSession

variable {κ : Type}

/-- An encoder of a container in use that is not finished: behind the header its output is what has been emitted, of which the deflate
encoder keeps no whole byte back. Before the first feed it has none. -/
structure Wraps (K : Container κ) (e : Emission) (s : ContainerSession κ) : Prop where
  drained_le : s.encoder.drained ≤ s.encoder.output.length
  finishing_eq : s.encoder.finishing = false
  fine : e.Fine
  consumed : s.encoder.deflate.unread = []
  untouched : s.encoder.headerEmitted = false → s.output = []
  wrapped : ∃ body, Refines { encoder := s.encoder.deflate, taken := body, failed := false } e ∧
    s.output ++ s.encoder.missingHeader K = K.header ++ body

section

variable {K : Container κ} {e : Emission} {s : ContainerSession κ}

/-- A fresh encoder of a container. -/
theorem Wraps.start (K : Container κ) (options : EncodeOptions) :
    Wraps K (Emission.start options) (start (ContainerEncoder.withOptions K options)) :=
  ⟨le_rfl, rfl, Emission.start_fine options, rfl, fun _ => rfl, [], Refines.start options, (List.append_nil _).symm⟩

/-- What the deflate encoder has put out, if anything, goes behind the output. -/
theorem takeOver_if {deflate : Encoder} {body : List UInt8} (h : Refines { encoder := deflate, taken := body, failed := false } e)
    (c : ContainerEncoder κ) :
    ∃ deflate', (if 0 < deflate.unread.length then c.takeOver deflate else .ok { c with deflate }) =
        .ok { c with deflate := deflate', output := c.output ++ deflate.unread } ∧
      deflate'.unread = [] ∧ Refines { encoder := deflate', taken := body ++ deflate.unread, failed := false } e := by
  by_cases hproduced : 0 < deflate.unread.length
  · rw [if_pos hproduced]
    exact ContainerEncoder.takeOver_spec h c
  · have hnone : deflate.unread = [] := List.eq_nil_of_length_eq_zero (Nat.eq_zero_of_not_pos hproduced)
    rw [if_neg hproduced, hnone, List.append_nil, List.append_nil]
    exact ⟨deflate, rfl, hnone, h⟩

/-- The header, where it was missing, and more bytes go behind the output. -/
theorem Wraps.output_eq (h : Wraps K e s) {body : List UInt8} (hout : s.output ++ s.encoder.missingHeader K = K.header ++ body)
    {c : ContainerEncoder κ} {new : List UInt8} (houtput : c.output = s.encoder.output ++ s.encoder.missingHeader K ++ new)
    (hdrained : c.drained = s.encoder.drained) : output { s with encoder := c } = K.header ++ (body ++ new) := by
  rw [List.append_assoc] at houtput
  rw [output_append h.drained_le houtput hdrained, ← List.append_assoc, hout, List.append_assoc]

/-- More bytes are fed. -/
theorem Wraps.feed (h : Wraps K e s) (data : List UInt8) :
    ∃ c, ContainerEncoder.feed K s.encoder data = .ok c ∧ Wraps K (e.call (.feed data)) { s with encoder := c } ∧
      c.headerEmitted = true ∧ c.check = K.update s.encoder.check data := by
  obtain ⟨body, hrefines, hout⟩ := h.wrapped
  have hfine : (e.call (.feed data)).Fine := h.fine.call (by simp)
  obtain ⟨deflate, hfeed, hrefines'⟩ := hrefines.feed_ok h.fine data
  obtain ⟨deflate', htake, hunread, hrefines''⟩ := takeOver_if hrefines'
    { s.encoder with
      output := s.encoder.output ++ s.encoder.missingHeader K, headerEmitted := true, check := K.update s.encoder.check data }
  simp only at hfeed
  rw [ContainerEncoder.feed, h.finishing_eq, if_neg Bool.false_ne_true, ContainerEncoder.ensureHeader_eq]
  simp only
  rw [hfeed, Exec.ok_bind, htake]
  refine ⟨_, rfl, ⟨?_, h.finishing_eq, hfine, hunread, fun hnot => ?_, _, hrefines'', ?_⟩, rfl, rfl⟩
  · show s.encoder.drained ≤ (s.encoder.output ++ s.encoder.missingHeader K ++ deflate.unread).length
    rw [List.append_assoc, List.length_append]
    exact h.drained_le.trans (Nat.le_add_right _ _)
  · cases hnot
  · exact (List.append_nil _).trans (h.output_eq hout rfl rfl)

/-- Output is consumed. -/
theorem Wraps.advance (h : Wraps K e s) {n : Nat} (hn : n ≤ s.encoder.unread.length) :
    ∃ c, s.encoder.advance n = .ok c ∧ Wraps K e { encoder := c, taken := s.taken ++ s.encoder.unread.take n } ∧
      c.headerEmitted = s.encoder.headerEmitted ∧ c.check = s.encoder.check := by
  have hlen : s.encoder.unread.length = s.encoder.output.length - s.encoder.drained := List.length_drop
  have hle := h.drained_le
  have hdrop : s.encoder.output.drop (s.encoder.drained + n) = s.encoder.unread.drop n := List.drop_drop.symm
  have hsame : ∀ c : ContainerEncoder κ, c.unread = s.encoder.unread.drop n →
      output { encoder := c, taken := s.taken ++ s.encoder.unread.take n } = s.output := by
    intro c hunread
    unfold output
    simp only
    rw [hunread, List.append_assoc, List.take_append_drop]
  obtain ⟨body, hrefines, hout⟩ := h.wrapped
  rw [ContainerEncoder.advance, if_neg (by omega)]
  simp only
  split
  · have hout' := hsame { s.encoder with output := s.encoder.output.drop (s.encoder.drained + n), drained := 0 } hdrop
    refine ⟨_, rfl, ⟨Nat.zero_le _, h.finishing_eq, h.fine, h.consumed, fun hnot => ?_, body, hrefines, ?_⟩, rfl, rfl⟩
    · exact hout'.trans (h.untouched hnot)
    · rw [hout']
      exact hout
  · have hout' := hsame { s.encoder with drained := s.encoder.drained + n } hdrop
    refine ⟨_, rfl, ⟨?_, h.finishing_eq, h.fine, h.consumed, fun hnot => ?_, body, hrefines, ?_⟩, rfl, rfl⟩
    · show s.encoder.drained + n ≤ s.encoder.output.length
      omega
    · exact hout'.trans (h.untouched hnot)
    · rw [hout']
      exact hout

/-- Calls in range. The header is emitted by the first feed, and the checksum takes in what is fed. -/
theorem Wraps.run (h : Wraps K e s) {calls : List Call} (hrange : s.InRange (ContainerEncoder.feed K) calls) :
    ∃ s', ContainerSession.run (ContainerEncoder.feed K) calls s = .ok s' ∧ Wraps K (Emission.run (feeds (fedPieces calls)) e) s' ∧
      (s'.encoder.headerEmitted = true ↔ s.encoder.headerEmitted = true ∨ fedPieces calls ≠ []) ∧
      s'.encoder.check = (fedPieces calls).foldl K.update s.encoder.check := by
  induction calls generalizing s e with
  | nil => exact ⟨s, rfl, h, ⟨.inl, fun hor => hor.resolve_right fun hne => hne rfl⟩, rfl⟩
  | cons c calls ih =>
    obtain ⟨hc, hrest⟩ := inRange_cons.mp hrange
    rw [run_cons]
    cases c with
    | feed data =>
      obtain ⟨c, h1, h2, h3, h4⟩ := h.feed data
      have hcall : s.call (ContainerEncoder.feed K) (.feed data) = .ok { s with encoder := c } := by
        rw [call, h1, Exec.ok_bind]
      obtain ⟨s', h5, h6, h7, h8⟩ := ih h2 (hrest _ hcall)
      rw [hcall, Exec.ok_bind]
      refine ⟨s', h5, h6, ⟨fun _ => .inr (List.cons_ne_nil _ _), fun _ => h7.mpr (.inl h3)⟩, h8.trans ?_⟩
      simp only [h4]
      rfl
    | advance n =>
      obtain ⟨c, h1, h2, h3, h4⟩ := h.advance (hc n rfl)
      have hcall : s.call (ContainerEncoder.feed K) (.advance n) =
          .ok { encoder := c, taken := s.taken ++ s.encoder.unread.take n } := by
        rw [call, h1, Exec.ok_bind]
      obtain ⟨s', h5, h6, h7, h8⟩ := ih h2 (hrest _ hcall)
      rw [hcall, Exec.ok_bind]
      refine ⟨s', h5, h6, ?_, ?_⟩
      · rw [h7, h3]
        rfl
      · rw [h8, h4]
        rfl

/-- Finishing: behind the header the output is that of the finished emission, and the trailer behind it. All of it consumed, the encoder
says that it is finished. -/
theorem Wraps.close (h : Wraps K e s) :
    ∃ s' deflate body, s.close (ContainerEncoder.finish K) = .ok s' ∧
      Refines { encoder := deflate, taken := body, failed := false } (e.call .finish) ∧ deflate.unread = [] ∧
      s'.output = K.header ++ body ++ K.trailer s.encoder.check ∧ s'.encoder.finishing = true ∧
      s'.encoder.drained ≤ s'.encoder.output.length := by
  obtain ⟨body, hrefines, hout⟩ := h.wrapped
  obtain ⟨deflate, hfinish, hrefines', -⟩ := hrefines.finish_ok h.fine
  obtain ⟨deflate', htake, hunread, hrefines''⟩ := ContainerEncoder.takeOver_spec hrefines'
    { s.encoder with output := s.encoder.output ++ s.encoder.missingHeader K, headerEmitted := true }
  simp only at hfinish
  rw [ContainerSession.close, ContainerEncoder.finish, h.finishing_eq, if_neg Bool.false_ne_true, ContainerEncoder.ensureHeader_eq]
  simp only
  rw [hfinish, Exec.ok_bind, htake, Exec.ok_bind, Exec.ok_bind]
  refine ⟨_, deflate', body ++ deflate.unread, rfl, hrefines'', hunread, ?_, rfl, ?_⟩
  · refine Eq.trans (h.output_eq hout (List.append_assoc _ _ _) rfl) ?_
    rw [← List.append_assoc, ← List.append_assoc, ← List.append_assoc]
  · show s.encoder.drained ≤
      (s.encoder.output ++ s.encoder.missingHeader K ++ deflate.unread ++ K.trailer s.encoder.check).length
    rw [List.append_assoc, List.append_assoc, List.length_append]
    exact h.drained_le.trans (Nat.le_add_right _ _)

end

end ContainerSession

/-! ## Compressing in one call -/

/-- All output of a container's encoder can be consumed. -/
theorem ContainerEncoder.advance_all {κ : Type} {e : ContainerEncoder κ} (h : e.drained ≤ e.output.length) :
    ∃ e', e.advance e.unread.length = .ok e' := by
  have hlen : e.unread.length = e.output.length - e.drained := List.length_drop
  rw [ContainerEncoder.advance, if_neg (by omega)]
  simp only
  split
  · exact ⟨_, rfl⟩
  · exact ⟨_, rfl⟩

/-- Compressing in one call is one feed and the end. -/
theorem compress_of_close {κ : Type} {K : Container κ} {data : List UInt8} {s s' : ContainerSession κ}
    (hrun : ContainerSession.run (ContainerEncoder.feed K) [.feed data]
      (ContainerSession.start (ContainerEncoder.withOptions K EncodeOptions.new.bufferAllInput)) = .ok s)
    (hclose : s.close (ContainerEncoder.finish K) = .ok s') (hle : s'.encoder.drained ≤ s'.encoder.output.length) :
    K.compress data = .ok s'.output := by
  obtain ⟨s₁, hcall, hnil⟩ := Exec.bind_eq_ok.mp hrun
  obtain rfl := Exec.ok.inj hnil
  obtain ⟨e, hfeed, hs⟩ := Exec.bind_eq_ok.mp hcall
  obtain rfl := Exec.ok.inj hs
  obtain ⟨e', hfinish, hs'⟩ := Exec.bind_eq_ok.mp hclose
  obtain rfl := Exec.ok.inj hs'
  obtain ⟨e'', hadvance⟩ := ContainerEncoder.advance_all hle
  have hstart : ContainerEncoder.feed K (ContainerEncoder.withOptions K EncodeOptions.new.bufferAllInput) data = .ok e := hfeed
  simp only at hfinish hadvance
  rw [Container.compress, hstart, Exec.ok_bind, hfinish, Exec.ok_bind]
  simp only
  rw [hadvance, Exec.ok_bind]
  rfl

end Noflate
