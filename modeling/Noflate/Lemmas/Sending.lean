import Noflate.Error
import Noflate.Lemmas.ContainerRuns
import Noflate.Lemmas.Frames

/-!
# An encoder between two messages

The calls of the encoder under `?`, without a session that would note an error (`Refines.feeds`, `Refines.syncFlush_ok`,
`Refines.finish_ok`), and the encoder behind a flush of which all output is consumed (`Encoder.Between`): it emits what a fresh one does.
-/

namespace Noflate

open BitString

/-- An emission that is not finished and has met no error. -/
structure Emission.Fine (e : Emission) : Prop where
  sound : e.Sound
  finishing : e.finishing = false
  failed : e.failed = false

/-- Nothing emitted is fine. -/
theorem Emission.start_fine (options : EncodeOptions) : (Emission.start options).Fine := ⟨Emission.start_sound options, rfl, rfl⟩

/-- A call that does not finish leaves a fine emission. -/
theorem Emission.Fine.call {e : Emission} (h : e.Fine) {c : Command} (hc : c ≠ .finish) : (e.call c).Fine := by
  obtain ⟨-, hfin, hfail⟩ := Emission.call_frame h.finishing c
  exact ⟨(h.sound.call c).1, Bool.eq_false_iff.mpr fun ht => hc (hfin.mp ht), hfail.trans h.failed⟩

/-- Calls that do not finish leave a fine emission. -/
theorem Emission.Fine.run {e : Emission} (h : e.Fine) {commands : List Command} (hc : .finish ∉ commands) :
    (Emission.run commands e).Fine := by
  obtain ⟨h1, h2, -⟩ := h.sound.run_open h.finishing hc
  exact ⟨h.sound.run commands, h1, h2.trans h.failed⟩

/-- The calls that feed pieces. -/
def feeds (pieces : List (List UInt8)) : List Command := pieces.map .feed

/-- Pieces hold their bytes. -/
theorem payload_feeds (pieces : List (List UInt8)) : payload (feeds pieces) = pieces.flatten := by
  induction pieces with
  | nil => rfl
  | cons data pieces ih =>
    show payload (.feed data :: feeds pieces) = _
    rw [payload_feed, ih, List.flatten_cons]

/-- Feeding does not finish. -/
theorem finish_not_mem_feeds (pieces : List (List UInt8)) : .finish ∉ feeds pieces := by
  simp [feeds]

/-- The segments of calls that feed pieces. -/
theorem segments_feeds (pieces : List (List UInt8)) : segments (feeds pieces) = { flushed := [], rest := pieces.flatten } := by
  have hadd : ∀ (pieces : List (List UInt8)) (g : Segments),
      (feeds pieces).foldl Segments.add g = { g with rest := g.rest ++ pieces.flatten } := by
    intro pieces
    induction pieces with
    | nil =>
      intro g
      rw [List.flatten_nil, List.append_nil]
      rfl
    | cons data pieces ih =>
      intro g
      have hcons : (feeds (data :: pieces)).foldl Segments.add g = (feeds pieces).foldl Segments.add (g.add (.feed data)) := rfl
      rw [hcons, ih, List.flatten_cons, ← List.append_assoc]
      rfl
  exact (hadd pieces _).trans (by rw [List.nil_append])

namespace Refines

variable {s : EncoderSession} {e : Emission}

/-- Feeding an encoder that is not finished. -/
theorem feed_ok (h : Refines s e) (he : e.Fine) (data : List UInt8) :
    ∃ enc, s.encoder.feed data = .ok enc ∧ Refines { s with encoder := enc } (e.call (.feed data)) := by
  obtain ⟨s', hcall, hs'⟩ := h.call_feed data
  have hfine : (e.call (.feed data)).Fine := he.call (by simp)
  obtain ⟨enc, hok, rfl⟩ := EncoderSession.of_becomes hcall (hs'.failed_eq.trans hfine.failed)
  exact ⟨enc, hok, hs'⟩

/-- Feeding pieces. -/
theorem feeds_ok (h : Refines s e) (he : e.Fine) (pieces : List (List UInt8)) :
    ∃ enc, pieces.foldlM Encoder.feed s.encoder = .ok enc ∧ Refines { s with encoder := enc } (Emission.run (feeds pieces) e) := by
  induction pieces generalizing s e with
  | nil => exact ⟨s.encoder, rfl, h⟩
  | cons data pieces ih =>
    obtain ⟨enc₁, h1, h2⟩ := h.feed_ok he data
    obtain ⟨enc, h3, h4⟩ := ih h2 (he.call (by simp))
    refine ⟨enc, ?_, h4⟩
    rw [List.foldlM_cons, h1, Exec.ok_bind]
    exact h3

/-- Flushing an encoder that is not finished. -/
theorem syncFlush_ok (h : Refines s e) (he : e.Fine) :
    ∃ enc, s.encoder.syncFlush = .ok enc ∧ Refines { s with encoder := enc } (e.call .syncFlush) := by
  obtain ⟨s', hcall, hs'⟩ := h.call_syncFlush
  have hfine : (e.call .syncFlush).Fine := he.call (by simp)
  obtain ⟨enc, hok, rfl⟩ := EncoderSession.of_becomes hcall (hs'.failed_eq.trans hfine.failed)
  exact ⟨enc, hok, hs'⟩

/-- Finishing an encoder that is not finished. -/
theorem finish_ok (h : Refines s e) (he : e.Fine) :
    ∃ enc, s.encoder.finish = .ok enc ∧ Refines { s with encoder := enc } (e.call .finish) ∧ (e.call .finish).finishing = true := by
  obtain ⟨s', hcall, hs'⟩ := h.call_finish
  obtain ⟨-, hfin, hfail⟩ := Emission.call_frame he.finishing .finish
  obtain ⟨enc, hok, rfl⟩ := EncoderSession.of_becomes hcall (hs'.failed_eq.trans (hfail.trans he.failed))
  exact ⟨enc, hok, hs', hfin.mpr rfl⟩

/-- A flush ends in the empty stored block. -/
theorem trailer_suffix (h : Refines s (e.call .syncFlush)) (he : e.Fine) : [0, 0, 0xFF, 0xFF] <:+ s.output := by
  have hfine : (e.call .syncFlush).Fine := he.call (by simp)
  obtain ⟨hblocks, -⟩ := Emission.call_syncFlush he.finishing
  have hbits := Emission.bits_open hfine.finishing
  have hmod : (e.call .syncFlush).bits.length % 8 = 0 := by
    rw [hbits]
    exact Emission.syncFlush_aligned he.finishing
  have hsuffix : ofBytes [0, 0, 0xFF, 0xFF] <:+ ofBytes s.output := by
    rw [(h.output_bits hmod).1, hbits, hblocks, blockBits_append, blockBits_singleton]
    exact (List.suffix_append _ _).trans ((List.suffix_cons _ _).trans (List.suffix_append _ _))
  obtain ⟨front, hfront⟩ := suffix_of_ofBytes hsuffix
  exact ⟨front, hfront.symm⟩

end Refines

/-- An encoder that is not finished, has emitted all it was fed in whole bytes, and of which all output is consumed. -/
def Encoder.Between (options : EncodeOptions) (enc : Encoder) : Prop :=
  ∃ taken e, Refines { encoder := enc, taken, failed := false } e ∧ e.Fine ∧ e.options = options ∧ e.pending = [] ∧
    (blockBits e.blocks).length % 8 = 0 ∧ enc.unread = []

/-- A fresh encoder stands between two messages. -/
theorem Encoder.withOptions_between (options : EncodeOptions) : (Encoder.withOptions options).Between options :=
  ⟨[], Emission.start options, Refines.start options, Emission.start_fine options, rfl, rfl, rfl, rfl⟩

/-- Dropping the history leaves no trace. -/
theorem Encoder.Between.resetHistory {options : EncodeOptions} {enc : Encoder} (h : enc.Between options) :
    enc.resetHistory.Between options := by
  obtain ⟨taken, e, hr, he⟩ := h
  obtain ⟨s', hcall, hs'⟩ := hr.call (c := .resetHistory) trivial
  obtain rfl := Exec.ok.inj hcall
  exact ⟨taken, e, hs', he⟩

/-- Calls on an encoder between two messages that do not finish it, up to a flush: what it puts out is what a fresh encoder does, and it
carries the bytes fed. -/
theorem Encoder.Between.flushed {options : EncodeOptions} {enc : Encoder} (h : enc.Between options) (pieces : List (List UInt8)) :
    ∃ enc₁ enc₂ enc₃, pieces.foldlM Encoder.feed enc = .ok enc₁ ∧ enc₁.syncFlush = .ok enc₂ ∧
      enc₂.advance enc₂.unread.length = .ok enc₃ ∧ enc₃.Between options ∧ Carries enc₂.unread pieces.flatten ∧
      [0, 0, 0xFF, 0xFF] <:+ enc₂.unread ∧
      ofBytes enc₂.unread = ((Emission.run (feeds pieces) (Emission.start options)).call .syncFlush).bits := by
  obtain ⟨taken, e, hr, he, hoptions, hpending, haligned, hunread⟩ := h
  obtain ⟨enc₁, h1, h2⟩ := hr.feeds_ok he pieces
  have he₁ := he.run (finish_not_mem_feeds pieces)
  obtain ⟨enc₂, h3, h4⟩ := h2.syncFlush_ok he₁
  obtain ⟨enc₃, h5, h6, h7⟩ := h4.consumed
  -- the same calls on a fresh encoder
  have hstart := Emission.start_fine options
  obtain ⟨enc₀, -, h2'⟩ := (Refines.start options).feeds_ok hstart pieces
  have he₀ := hstart.run (finish_not_mem_feeds pieces)
  obtain ⟨enc₀', -, h4'⟩ := h2'.syncFlush_ok he₀
  simp only at h4 h4'
  have hcontinues := (((Emission.Continues.of_start he.finishing hpending).run haligned (feeds pieces)).call haligned .syncFlush)
  rw [hoptions] at hcontinues
  have hwhole := (hr.output_bits (by rwa [Emission.bits_open he.finishing])).1
  have hbits := hcontinues.bits_eq haligned
  rw [← Emission.bits_open he.finishing, ← hwhole] at hbits
  have hout := h4.output_eq h4' hbits
  simp only [EncoderSession.output, hunread, List.append_nil] at hout
  have hnew := List.append_cancel_left hout
  have hstart₀ : EncoderSession.output { EncoderSession.start options with encoder := enc₀' } = enc₀'.unread := List.nil_append _
  have hflush := he₀.call (c := .syncFlush) (by simp)
  have haligned₀ := Emission.syncFlush_aligned he₀.finishing
  obtain ⟨hcarries, -⟩ := h4'.carries hflush.sound hflush.finishing (Emission.call_syncFlush he₀.finishing).2 haligned₀
  have hsuffix := h4'.trailer_suffix he₀
  have hwhole₀ := (h4'.output_bits (by rwa [Emission.bits_open hflush.finishing])).1
  have hpayload : ((Emission.run (feeds pieces) (Emission.start options)).call .syncFlush).payload = pieces.flatten := by
    rw [(he₀.sound.call .syncFlush).2, Emission.accepts, List.append_nil,
      (hstart.sound.run_open rfl (finish_not_mem_feeds pieces)).2.2, payload_feeds]
    rfl
  have hnew' : enc₂.unread = enc₀'.unread := hnew
  rw [hstart₀] at hcarries hsuffix hwhole₀
  rw [hpayload] at hcarries
  refine ⟨enc₁, enc₂, enc₃, h1, h3, h5, ⟨_, _, h7, ?_, ?_, ?_, ?_, h6⟩, ?_, ?_, ?_⟩
  · exact he₁.call (c := .syncFlush) (by simp)
  · rw [Emission.call_options, Emission.run_options, hoptions]
  · exact (Emission.call_syncFlush he₁.finishing).2
  · exact Emission.syncFlush_aligned he₁.finishing
  · rwa [hnew']
  · rwa [hnew']
  · rwa [hnew']

end Noflate
