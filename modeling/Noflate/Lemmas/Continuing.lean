import Noflate.Lemmas.EncoderRuns

/-!
# Emissions that continue others

An emission that stands behind whole bytes goes on as one that starts there (`Continues.run`): what is emitted depends on the bit a
block starts at within a byte, and on nothing that was emitted before. And a run of calls emits what its segments ask for
(`run_segments`): blocks are cut from the bytes fed up to a flush point, however they are divided over the calls.
-/

namespace Noflate

open BitString

namespace Emission

/-! ## Continuing -/

/-- An emission is another one behind some blocks. Whether a call has reported an error is not asked. -/
structure Continues (front : List EmittedBlock) (e e₀ : Emission) : Prop where
  options_eq : e.options = e₀.options
  blocks_eq : e.blocks = front ++ e₀.blocks
  pending_eq : e.pending = e₀.pending
  finishing_eq : e.finishing = e₀.finishing

namespace Continues

variable {front : List EmittedBlock} {e e₀ e₁ : Emission}

theorem refl (e : Emission) : Continues [] e e := ⟨rfl, rfl, rfl, rfl⟩

theorem symm (h : Continues [] e e₀) : Continues [] e₀ e :=
  ⟨h.options_eq.symm, h.blocks_eq.symm, h.pending_eq.symm, h.finishing_eq.symm⟩

theorem trans (h : Continues front e e₁) (h' : Continues [] e₁ e₀) : Continues front e e₀ :=
  ⟨h.options_eq.trans h'.options_eq, h.blocks_eq.trans (congrArg (front ++ ·) h'.blocks_eq),
    h.pending_eq.trans h'.pending_eq, h.finishing_eq.trans h'.finishing_eq⟩

/-- An emission that is not finished continues the one that starts behind its blocks. -/
theorem of_start (hf : e.finishing = false) (hp : e.pending = []) : Continues e.blocks e (Emission.start e.options) :=
  ⟨rfl, (List.append_nil _).symm, hp, hf⟩

/-- Other bytes are pending. -/
theorem set_pending (h : Continues front e e₀) (pending : List UInt8) :
    Continues front { e with pending } { e₀ with pending } := ⟨h.options_eq, h.blocks_eq, rfl, h.finishing_eq⟩

section

variable (hfront : (blockBits front).length % 8 = 0)
include hfront

theorem length_mod (h : Continues front e e₀) : (blockBits e.blocks).length % 8 = (blockBits e₀.blocks).length % 8 := by
  rw [h.blocks_eq, blockBits_append, List.length_append]
  omega

/-- The bits of an emission that continues another one are those of the blocks before it and its own. -/
theorem bits_eq (h : Continues front e e₀) : e.bits = blockBits front ++ e₀.bits := by
  unfold Emission.bits
  rw [h.finishing_eq, Encoder.closing_mod e₀.finishing (h.length_mod hfront), h.blocks_eq, blockBits_append, List.append_assoc]

theorem emitAs (h : Continues front e e₀) (kind : BlockKind) (chunk : List UInt8) (isFinal : Bool) :
    Continues front (e.emitAs kind chunk isFinal) (e₀.emitAs kind chunk isFinal) := by
  refine ⟨h.options_eq, ?_, h.pending_eq, h.finishing_eq⟩
  unfold Emission.emitAs
  simp only
  rw [chunkBlocks_mod kind chunk isFinal (h.length_mod hfront), h.blocks_eq, List.append_assoc]

theorem emit (h : Continues front e e₀) (chunk : List UInt8) (isFinal : Bool) :
    Continues front (e.emit chunk isFinal) (e₀.emit chunk isFinal) := by
  unfold Emission.emit
  rw [h.options_eq]
  exact h.emitAs hfront _ chunk isFinal

theorem cut (h : Continues front e e₀) (limit : Nat) : Continues front (e.cut limit) (e₀.cut limit) := by
  induction e using cut.induct limit generalizing e₀ with
  | case1 e hc ih =>
    have hc₀ : 0 < limit ∧ limit ≤ e₀.pending.length := h.pending_eq ▸ hc
    rw [cut_full hc, cut_full hc₀, ← h.pending_eq]
    exact ih ((h.set_pending _).emit hfront _ _)
  | case2 e hc =>
    have hc₀ : ¬(0 < limit ∧ limit ≤ e₀.pending.length) := h.pending_eq ▸ hc
    rw [cut_rest hc, cut_rest hc₀]
    exact h

theorem cutAll (h : Continues front e e₀) : Continues front e.cutAll e₀.cutAll := by
  unfold Emission.cutAll
  rw [h.options_eq]
  cases e₀.options.maxBlockInputBytes with
  | none => exact h
  | some limit => exact h.cut hfront limit

theorem flush (h : Continues front e e₀) : Continues front e.flush e₀.flush := by
  unfold Emission.flush
  rw [h.pending_eq]
  by_cases hp : e₀.pending = []
  · rw [if_pos hp, if_pos hp]
    exact h
  · rw [if_neg hp, if_neg hp]
    exact (h.set_pending _).emit hfront _ _

/-- A call on an emission that continues another one does what it does on that one. -/
theorem call (h : Continues front e e₀) (c : Command) : Continues front (e.call c) (e₀.call c) := by
  have hfailed : Continues front { e with failed := true } { e₀ with failed := true } :=
    ⟨h.options_eq, h.blocks_eq, h.pending_eq, h.finishing_eq⟩
  by_cases ht : e₀.finishing = true
  · have ht' : e.finishing = true := h.finishing_eq.trans ht
    cases c with
    | feed data =>
      rw [Emission.call, Emission.call, if_pos ht, if_pos ht']
      exact hfailed
    | syncFlush =>
      rw [Emission.call, Emission.call, if_pos ht, if_pos ht']
      exact hfailed
    | finish =>
      rw [Emission.call, Emission.call, if_pos ht, if_pos ht']
      exact h
    | resetHistory => exact h
    | advance n => exact h
  · have ht' : ¬e.finishing = true := fun h0 => ht (h.finishing_eq.symm.trans h0)
    cases c with
    | feed data =>
      rw [Emission.call, Emission.call, if_neg ht, if_neg ht', h.pending_eq]
      exact (h.set_pending _).cutAll hfront
    | syncFlush =>
      rw [Emission.call, Emission.call, if_neg ht, if_neg ht']
      exact (h.flush hfront).emitAs hfront _ _ _
    | finish =>
      rw [Emission.call, Emission.call, if_neg ht, if_neg ht', h.pending_eq]
      have hemit := (h.set_pending []).emit hfront e₀.pending true
      exact ⟨hemit.options_eq, hemit.blocks_eq, hemit.pending_eq, rfl⟩
    | resetHistory => exact h
    | advance n => exact h

/-- Calls on an emission that continues another one do what they do on that one. -/
theorem run (h : Continues front e e₀) (commands : List Command) :
    Continues front (Emission.run commands e) (Emission.run commands e₀) := by
  induction commands generalizing e e₀ with
  | nil => exact h
  | cons c commands ih => exact ih (h.call hfront c)

end

end Continues

/-! ## Segments -/

section

variable {e : Emission}

/-- Cutting blocks before more bytes arrive makes no difference. -/
theorem cut_append (limit : Nat) (data : List UInt8) (e : Emission) :
    cut limit { cut limit e with pending := (cut limit e).pending ++ data } = cut limit { e with pending := e.pending ++ data } := by
  induction e using cut.induct limit with
  | case1 e hc ih =>
    have hc' : 0 < limit ∧ limit ≤ (e.pending ++ data).length := by
      rw [List.length_append]
      omega
    have hfull : cut limit { e with pending := e.pending ++ data } =
        cut limit (emit { e with pending := e.pending.drop limit ++ data } (e.pending.take limit) false) := by
      rw [cut_full hc']
      simp only
      rw [List.take_append_of_le_length hc.2, List.drop_append_of_le_length hc.2]
    rw [cut_full hc, ih, hfull]
    rfl
  | case2 e hc =>
    rw [cut_rest hc]

/-- Two feeds are one. -/
theorem call_feed_feed (e : Emission) (data data' : List UInt8) :
    Continues [] ((e.call (.feed data)).call (.feed data')) (e.call (.feed (data ++ data'))) := by
  by_cases ht : e.finishing = true
  · rw [Emission.call, Emission.call, Emission.call, if_pos ht, if_pos ht, if_pos ht]
    exact ⟨rfl, rfl, rfl, rfl⟩
  · have hf : e.finishing = false := Bool.eq_false_iff.mpr ht
    have ht' : ¬(e.call (.feed data)).finishing = true := by
      intro h0
      cases (call_frame hf (.feed data)).2.1.mp h0
    have hfed : e.call (.feed data) = cutAll { e with pending := e.pending ++ data } := by rw [Emission.call, if_neg ht]
    rw [Emission.call, if_neg ht', hfed, Emission.call, if_neg ht, ← List.append_assoc]
    have hmax : (cutAll { e with pending := e.pending ++ data }).options.maxBlockInputBytes = e.options.maxBlockInputBytes := by
      rw [← hfed, (call_frame hf (.feed data)).1]
    have hsame : cutAll { cutAll { e with pending := e.pending ++ data } with
        pending := (cutAll { e with pending := e.pending ++ data }).pending ++ data' } =
          cutAll { e with pending := e.pending ++ data ++ data' } := by
      rw [cutAll]
      simp only [hmax]
      unfold cutAll
      simp only
      cases e.options.maxBlockInputBytes with
      | none => rfl
      | some limit => exact cut_append limit data' { e with pending := e.pending ++ data }
    rw [hsame]
    exact Continues.refl _

/-- An empty feed changes nothing where nothing is pending. -/
theorem call_feed_nil (h : e.finishing = false → e.pending = []) : Continues [] (e.call (.feed [])) e := by
  by_cases ht : e.finishing = true
  · rw [Emission.call, if_pos ht]
    exact ⟨rfl, rfl, rfl, rfl⟩
  · have hp := h (Bool.eq_false_iff.mpr ht)
    have hsame : cutAll { e with pending := e.pending ++ [] } = e := by
      rw [List.append_nil]
      unfold cutAll
      cases hmax : e.options.maxBlockInputBytes with
      | none => rfl
      | some limit =>
        have hlimit : 0 < limit := e.options.positive limit (by rw [hmax]; rfl)
        have hnot : ¬(0 < limit ∧ limit ≤ e.pending.length) := by
          rw [hp, List.length_nil]
          omega
        exact cut_rest hnot
    rw [Emission.call, if_neg ht, hsame]
    exact Continues.refl _

/-- Nothing is pending at a flush point. -/
theorem pending_flushPoint (e : Emission) (point : FlushPoint) :
    (e.call point.command).finishing = false → (e.call point.command).pending = [] := by
  intro hf
  by_cases ht : e.finishing = true
  · have hstill : (e.call point.command).finishing = true := by
      cases point with
      | syncFlush =>
        rw [FlushPoint.command, Emission.call, if_pos ht]
        exact ht
      | finish =>
        rw [FlushPoint.command, Emission.call, if_pos ht]
        exact ht
    cases hf.symm.trans hstill
  · cases point with
    | syncFlush => exact (call_syncFlush (Bool.eq_false_iff.mpr ht)).2
    | finish =>
      rw [FlushPoint.command, Emission.call, if_neg ht]
      rfl

/-- What segments ask for is emitted. -/
noncomputable def runSegments (g : Segments) (e : Emission) : Emission :=
  (g.flushed.foldl (fun e p => (e.call (.feed p.1)).call p.2.command) e).call (.feed g.rest)

/-- A call emits what it adds to the segments. -/
theorem call_runSegments (g : Segments) (e : Emission) (c : Command) :
    Continues [] ((e.runSegments g).call c) (e.runSegments (g.add c)) := by
  have hpoint : ∀ point : FlushPoint, Continues [] ((e.runSegments g).call point.command)
      (e.runSegments { flushed := g.flushed ++ [(g.rest, point)], rest := [] }) := by
    intro point
    unfold runSegments
    rw [List.foldl_append]
    exact (call_feed_nil (pending_flushPoint _ point)).symm
  cases c with
  | feed data => exact call_feed_feed _ _ _
  | syncFlush => exact hpoint .syncFlush
  | finish => exact hpoint .finish
  | resetHistory => exact Continues.refl _
  | advance n => exact Continues.refl _

/-- A run emits what its segments ask for. -/
theorem run_segments (options : EncodeOptions) (commands : List Command) :
    Continues [] (Emission.run commands (start options)) (runSegments (segments commands) (start options)) := by
  have hrun : ∀ (commands : List Command) (g : Segments) (e' : Emission), Continues [] e' (runSegments g (start options)) →
      Continues [] (Emission.run commands e') (runSegments (commands.foldl Segments.add g) (start options)) := by
    intro commands
    induction commands with
    | nil => exact fun g e' h => h
    | cons c commands ih => exact fun g e' h => ih (g.add c) (e'.call c) ((h.call rfl c).trans (call_runSegments g _ c))
  exact hrun commands { flushed := [], rest := [] } (start options) (call_feed_nil fun _ => rfl).symm

end

end Emission

end Noflate
