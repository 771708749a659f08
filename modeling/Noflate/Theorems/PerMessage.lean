import Noflate.Error
import Noflate.Lemmas.Sending
import Noflate.Lemmas.Receiving

/-!
# Messages are delivered

Whatever messages a sender frames, and whatever it does with its history in between, a receiver gets them: in whatever pieces the frames
arrive, and whether or not it starts afresh before any of them (`messages_delivered`). The receiver of the documentation, which looks
at the output once, gets every message that is shorter than what the decoder puts out at once (`short_messages_delivered`). What is sent
for a message depends on its bytes alone (`frames_context_free`).
-/

namespace Noflate.PerMessage

open BitString

/-- Sending a message: a frame that, with the trailer, carries it. -/
theorem send_spec {options : EncodeOptions} {enc : Encoder} (h : enc.Between options) (m : Message) :
    ∃ frame enc', send enc m = .ok (frame, enc') ∧ enc'.Between options ∧ Carries (frame ++ trailer) m.bytes ∧
      ofBytes (frame ++ trailer) = ((Emission.run (feeds m.pieces) (Emission.start options)).call .syncFlush).bits := by
  obtain ⟨enc₁, enc₂, enc₃, h1, h2, h3, h4, h5, h6, h7⟩ := h.flushed m.pieces
  obtain ⟨frame, hframe⟩ := h6
  have hsuffix : trailer.isSuffixOf enc₂.unread = true := List.isSuffixOf_iff_suffix.mpr ⟨frame, hframe⟩
  have htake : enc₂.unread.take (enc₂.unread.length - trailer.length) = frame := by
    rw [← hframe, List.length_append]
    exact List.take_left' (Nat.add_sub_cancel _ _).symm
  refine ⟨frame, if m.reset then enc₃.resetHistory else enc₃, ?_, ?_, ?_, ?_⟩
  · unfold send
    rw [h1, Exec.ok_bind, h2, Exec.ok_bind]
    simp only
    rw [h3, Exec.ok_bind, if_pos hsuffix, htake]
  · split
    · exact h4.resetHistory
    · exact h4
  · rw [trailer, hframe]
    exact h5
  · rw [trailer, hframe]
    exact h7

/-- Sending messages: frames that carry them, one each. -/
theorem sendAll_spec {options : EncodeOptions} {enc : Encoder} (h : enc.Between options) (messages : List Message) :
    ∃ frames, sendAll enc messages = .ok frames ∧
      List.Forall₂ (fun frame m => Carries (frame ++ trailer) m.bytes ∧
        ofBytes (frame ++ trailer) = ((Emission.run (feeds m.pieces) (Emission.start options)).call .syncFlush).bits) frames messages := by
  induction messages generalizing enc with
  | nil => exact ⟨[], rfl, .nil⟩
  | cons m messages ih =>
    obtain ⟨frame, enc', h1, h2, h3⟩ := send_spec h m
    obtain ⟨frames, h4, h5⟩ := ih h2
    refine ⟨frame :: frames, ?_, .cons h3 h5⟩
    rw [sendAll, h1, Exec.ok_bind]
    simp only
    rw [h4, Exec.ok_bind]

/-- A way to receive that gives the message of each frame gives the messages of all frames. -/
theorem receiveAll_spec {δ : Type} {receive : Decoder → δ → Exec (List UInt8 × Decoder)} {deliveries : List δ}
    {messages : List (List UInt8)}
    (h : List.Forall₂ (fun d m => ∀ dec, Between dec → ∃ dec', receive dec d = .ok (m, dec') ∧ Between dec') deliveries messages)
    {dec : Decoder} (hdec : Between dec) : receiveAll receive dec deliveries = .ok messages := by
  induction h generalizing dec with
  | nil => rfl
  | cons hd _ ih =>
    obtain ⟨dec', h1, h2⟩ := hd dec hdec
    rw [receiveAll, h1, Exec.ok_bind]
    simp only
    rw [ih h2, Exec.ok_bind]

/-- All messages sent are received: in whatever pieces a message is fed and a frame arrives, wherever the sender drops its history, and
wherever the receiver starts with a fresh decoder. -/
theorem messages_delivered (options : EncodeOptions) (messages : List Message) :
    ∃ frames, sendAll (Encoder.withOptions options) messages = .ok frames ∧ frames.length = messages.length ∧
      ∀ deliveries : List Delivery, deliveries.map Delivery.frame = frames →
        receiveAll receive Decoder.new deliveries = .ok (messages.map Message.bytes) := by
  obtain ⟨frames, h1, h2⟩ := sendAll_spec (Encoder.withOptions_between options) messages
  refine ⟨frames, h1, h2.length_eq, fun deliveries hdeliveries => receiveAll_spec ?_ new_between⟩
  rw [← hdeliveries, List.forall₂_map_left_iff] at h2
  rw [List.forall₂_map_right_iff]
  exact h2.imp fun d m hd dec hdec => hdec.receive hd.1

/-- The receiver of the documentation gets all messages that are shorter than what a decoder puts out at once. -/
theorem short_messages_delivered (options : EncodeOptions) {messages : List Message}
    (hshort : ∀ m ∈ messages, m.bytes.length < maxInternalBuffer) :
    ∃ frames, sendAll (Encoder.withOptions options) messages = .ok frames ∧
      receiveAll receiveOnce Decoder.new frames = .ok (messages.map Message.bytes) := by
  obtain ⟨frames, h1, h2⟩ := sendAll_spec (Encoder.withOptions_between options) messages
  refine ⟨frames, h1, receiveAll_spec ?_ new_between⟩
  rw [List.forall₂_map_right_iff]
  obtain ⟨hlen, hzip⟩ := List.forall₂_iff_zip.mp h2
  refine List.forall₂_iff_zip.mpr ⟨hlen, fun {frame m} hmem dec hdec => ?_⟩
  exact hdec.receiveOnce (hzip hmem).1 (hshort m (List.of_mem_zip hmem).2)

/-- Two short messages, the history dropped behind the first. -/
theorem short_messages_delivered_stored :
    ∃ frames, sendAll (Encoder.withOptions EncodeOptions.new.stored) [⟨[[65], [66]], true⟩, ⟨[], false⟩] = .ok frames ∧
      receiveAll receiveOnce Decoder.new frames = .ok [[65, 66], []] :=
  short_messages_delivered EncodeOptions.new.stored (by decide)

/-- What a flush puts out for a message depends on its bytes alone. -/
theorem flushed_bits (options : EncodeOptions) (pieces : List (List UInt8)) :
    ((Emission.run (feeds pieces) (Emission.start options)).call .syncFlush).bits =
      ((Emission.run (feeds [pieces.flatten]) (Emission.start options)).call .syncFlush).bits := by
  have hsegments : ∀ pieces : List (List UInt8),
      segments (feeds pieces ++ [.syncFlush]) = { flushed := [(pieces.flatten, .syncFlush)], rest := [] } := by
    intro pieces
    have happ : segments (feeds pieces ++ [.syncFlush]) = (segments (feeds pieces)).add .syncFlush := List.foldl_append
    rw [happ, segments_feeds]
    rfl
  have hrun := Emission.run_segments options (feeds pieces ++ [.syncFlush])
  have hrun' := Emission.run_segments options (feeds [pieces.flatten] ++ [.syncFlush])
  rw [hsegments, Emission.run_append, Emission.run_singleton] at hrun hrun'
  rw [List.flatten_singleton] at hrun'
  exact (hrun.trans hrun'.symm).bits_eq rfl

/-- The frame of a message depends on the options and the bytes of the message: not on what was sent before, on the pieces it is fed
in, or on where the history is dropped. -/
theorem frames_context_free (options : EncodeOptions) :
    ∃ frameOf : List UInt8 → List UInt8, ∀ messages : List Message,
      sendAll (Encoder.withOptions options) messages = .ok (messages.map fun m => frameOf m.bytes) := by
  have hone : ∀ data : List UInt8, ∃ frame : List UInt8,
      ofBytes (frame ++ trailer) = ((Emission.run (feeds [data]) (Emission.start options)).call .syncFlush).bits := by
    intro data
    obtain ⟨frame, -, -, -, -, hbits⟩ := send_spec (Encoder.withOptions_between options) ⟨[data], false⟩
    exact ⟨frame, hbits⟩
  choose frameOf hframeOf using hone
  refine ⟨frameOf, fun messages => ?_⟩
  obtain ⟨frames, h1, h2⟩ := sendAll_spec (Encoder.withOptions_between options) messages
  rw [h1]
  congr 1
  refine List.forall₂_eq_eq_eq ▸ List.forall₂_map_right_iff.mpr (h2.imp fun frame m hm => ?_)
  have hsame : ofBytes (frame ++ trailer) = ofBytes (frameOf m.bytes ++ trailer) := by
    rw [hm.2, flushed_bits, hframeOf]
    rfl
  exact List.append_cancel_right (ofBytes_injective hsame)

end Noflate.PerMessage
