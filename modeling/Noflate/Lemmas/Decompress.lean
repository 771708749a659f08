import Noflate.Deflate
import Noflate.Lemmas.Messages
import Noflate.Lemmas.Sessions

/-!
# The one-shot decoder

`decompress` makes the calls of `Session.settle`: it returns the output of the machine where the machine halts, the error of a
truncated stream where it waits for input, and another error where it fails (`decompress_spec`).
-/

namespace Noflate

open BitString Resumable

namespace Session

/-- Consuming all there is leaves nothing. -/
theorem unread_advance_all {d d' : Decoder} (h : d.advance d.unread.length = .ok d') : d'.unread = [] := by
  unfold Decoder.advance at h
  by_cases hg : d.output.length < d.drained ∨ d.output.length - d.drained < d.unread.length
  · rw [if_pos hg] at h
    cases h
  · rw [if_neg hg] at h
    obtain rfl := Exec.ok.inj h
    have hall : d.drained + d.unread.length = d.output.length := by
      rw [Decoder.unread, List.length_drop]
      omega
    simp only [hall, Decoder.maybeCompact]
    by_cases hsmall : d.output.length < compactThreshold
    · rw [if_pos hsmall]
      exact List.drop_length
    · rw [if_neg hsmall]
      by_cases hkeep : min d.output.length (d.output.length - windowSize) = 0
      · rw [if_pos hkeep]
        exact List.drop_length
      · rw [if_neg hkeep]
        simp only [Decoder.unread, List.drop_drop]
        rw [List.drop_eq_nil_iff]
        omega

/-- Consuming all there is. -/
theorem call_advance_all {s s' : Session} (h : s.call (.advance s.decoder.unread.length) = .ok s') :
    s.decoder.advance s.decoder.unread.length = .ok s'.decoder ∧ s'.taken = s.taken ++ s.decoder.unread ∧
      s'.failed = s.failed ∧ s'.decoder.unread = [] := by
  simp only [call] at h
  obtain ⟨d, ha, h⟩ := Exec.bind_eq_ok.mp h
  obtain rfl := Exec.ok.inj h
  exact ⟨ha, by rw [List.take_length], rfl, unread_advance_all ha⟩

/-- Settling a session that has failed says so. -/
theorem settleLoop_failed {fuel : Nat} {s s' : Session} {verdict : Verdict} (hf : s.failed = true)
    (h : settleLoop fuel s = .ok (verdict, s')) : verdict = .failed := by
  cases fuel with
  | zero => cases h
  | succ fuel =>
    rw [settleLoop] at h
    obtain ⟨s₁, hc, h⟩ := Exec.bind_eq_ok.mp h
    have hf₁ := (call_advance_all hc).2.2.1.trans hf
    rw [if_pos hf₁] at h
    exact (congrArg Prod.fst (Exec.ok.inj h)).symm

/-- The loop of `decompress` makes the calls of `settle`. -/
theorem decompressLoop_of_settle (fuel : Nat) {s s' : Session} {verdict : Verdict} (hf : s.failed = false)
    (h : settleLoop fuel s = .ok (verdict, s')) :
    (verdict = .halted ∧ Deflate.decompressLoop fuel s.decoder s.taken = .ok s'.output) ∨
      (verdict = .waiting ∧ Deflate.decompressLoop fuel s.decoder s.taken = .err truncatedError) ∨
      (verdict = .failed ∧ ∃ e, e ≠ truncatedError ∧ Deflate.decompressLoop fuel s.decoder s.taken = .err e) := by
  induction fuel generalizing s with
  | zero => cases h
  | succ fuel ih =>
    rw [settleLoop] at h
    rw [Deflate.decompressLoop]
    obtain ⟨s₁, hc, h⟩ := Exec.bind_eq_ok.mp h
    obtain ⟨h1, h2, h3, h4⟩ := call_advance_all hc
    rw [h3, hf] at h
    simp only [Bool.false_eq_true, if_false] at h
    rw [h1, Exec.ok_bind, ← h2]
    by_cases hfin : s₁.decoder.finished = true
    · rw [if_pos hfin] at h ⊢
      obtain ⟨rfl, rfl⟩ := Prod.mk.inj (Exec.ok.inj h)
      simp only [output, h4, List.append_nil, true_and, true_or]
    · rw [if_neg hfin] at h ⊢
      simp only [call] at h
      have huntruncated := Decoder.feed_untruncated s₁.decoder []
      cases hd : s₁.decoder.feed [] with
      | mk e d =>
        rw [hd] at h huntruncated
        simp only at h huntruncated ⊢
        cases e with
        | panic => cases h
        | diverge => cases h
        | err e =>
          simp only [Exec.ok_bind, Bool.not_true, Bool.false_and, Bool.false_eq_true, if_false] at h
          obtain rfl := settleLoop_failed rfl h
          exact .inr (.inr ⟨rfl, e, Exec.untruncated_err.mp huntruncated, rfl⟩)
        | ok u =>
          simp only [Exec.ok_bind, h3, hf, Bool.not_false, Bool.true_and] at h ⊢
          by_cases hstall : (d.unread.isEmpty && d.remainingInput.length == s₁.decoder.remainingInput.length &&
              !d.finished) = true
          · rw [if_pos hstall] at h ⊢
            obtain ⟨rfl, rfl⟩ := Prod.mk.inj (Exec.ok.inj h)
            exact .inr (.inl ⟨rfl, rfl⟩)
          · rw [if_neg hstall] at h ⊢
            exact ih rfl h

end Session

/-- Decompressing gives the output of the machine where it halts on the bytes, the error of a truncated stream where it waits
for input, and another error where it fails. -/
theorem decompress_spec (data : List UInt8) :
    ∃ verdict c, itemMachine.Runs (startItem data) c ∧ itemMachine.Stops c verdict ∧
      ((verdict = .halted ∧ c.1.1 = .finished ∧ Deflate.decompress data = .ok c.1.2) ∨
        (verdict = .waiting ∧ Deflate.decompress data = .err truncatedError) ∨
        (verdict = .failed ∧ ∃ e, e ≠ truncatedError ∧ Deflate.decompress data = .err e)) := by
  unfold Deflate.decompress
  rcases Decoder.feed_spec Decoder.new_live data (fun h => (nomatch h)) with
    ⟨d, h1, h2⟩ | ⟨e, d, h1, h2, -⟩
  · rw [h1]
    simp only
    have hwin : d.Windowed [] := h2.live.windowed
    have htracks : Session.Tracks [] { decoder := d, taken := [], failed := false } := by
      refine ⟨hwin, ?_⟩
      simp only [h2.drained_eq]
      rfl
    have hrank := Decoder.rank_lt_driveFuel [] d
    obtain ⟨verdict, s', h3, h4⟩ := Session.settleLoop_live (d.driveFuel + 2) ⟨h2.live, htracks⟩ rfl (by simp only; omega)
    obtain ⟨c, hr, hstop, hout, hitem⟩ := h4.stopped
    refine ⟨verdict, c, hr, hstop, ?_⟩
    rcases Session.decompressLoop_of_settle _ rfl h3 with ⟨rfl, hok⟩ | herr
    · obtain ⟨rfl, dropped, hlive⟩ := hitem nofun
      exact .inl ⟨rfl, hlive.decoder.finished_iff.mp (h4.finished_iff.mpr rfl), by rw [hout]; exact hok⟩
    · exact .inr herr
  · have huntruncated := Decoder.feed_untruncated Decoder.new data
    rw [h1] at huntruncated ⊢
    obtain ⟨c, hr, -, hstop⟩ := h2.failed
    exact ⟨.failed, c, hr, hstop, .inr (.inr ⟨rfl, e, Exec.untruncated_err.mp huntruncated, rfl⟩)⟩

end Noflate
