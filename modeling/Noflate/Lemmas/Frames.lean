import Noflate.Error
import Noflate.Lemmas.Draining
import Noflate.Lemmas.Continuing

/-!
# Pieces of a stream

What an encoder puts out up to a flush are whole bytes that hold blocks none of which is the last (`Carries`); what it puts out
up to the end are whole bytes that hold blocks of which the last one is (`Closes`). Pieces can be put one behind the other, whatever
encoders they come from: they stand for their payloads together (`Carries.append`, `Carries.close`).
-/

namespace Noflate

open BitString Resumable

/-- Whole bytes that hold sound blocks for a payload, none of them the last of a stream. -/
def Carries (bytes payload : List UInt8) : Prop :=
  ∃ bs, Blocks 0 bs ∧ Open bs ∧ blockBits bs = ofBytes bytes ∧ blockPayload bs = payload

/-- Whole bytes that hold sound blocks for a payload, the last one the last of a stream, filled up to a whole byte. -/
def Closes (bytes payload : List UInt8) : Prop :=
  ∃ bs b, Blocks 0 (bs ++ [b]) ∧ Open bs ∧ b.isFinal = true ∧
    blockBits (bs ++ [b]) ++ pad (blockBits (bs ++ [b])) = ofBytes bytes ∧ blockPayload (bs ++ [b]) = payload

section

variable {bytes payload bytes' payload' : List UInt8}

/-- Nothing carries nothing. -/
theorem Carries.nil : Carries [] [] := ⟨[], .nil, .nil, rfl, rfl⟩

/-- Sound blocks are sound behind whole bytes. -/
theorem Blocks.behind {bs : List EmittedBlock} (h : Blocks 0 bs) {front : List EmittedBlock}
    (hfront : blockBits front = ofBytes bytes) : Blocks (0 + (blockBits front).length) bs := by
  refine h.congr ?_
  rw [hfront, length_ofBytes]
  omega

/-- Two pieces, one behind the other. -/
theorem Carries.append (h : Carries bytes payload) (h' : Carries bytes' payload') :
    Carries (bytes ++ bytes') (payload ++ payload') := by
  obtain ⟨bs, h1, h2, h3, h4⟩ := h
  obtain ⟨bs', h1', h2', h3', h4'⟩ := h'
  refine ⟨bs ++ bs', h1.append (h1'.behind h3), h2.append h2', ?_, ?_⟩
  · rw [blockBits_append, h3, h3', ofBytes_append]
  · rw [blockPayload_append, h4, h4']

/-- A piece, and the end of a stream behind it. -/
theorem Carries.close (h : Carries bytes payload) (h' : Closes bytes' payload') : Closes (bytes ++ bytes') (payload ++ payload') := by
  obtain ⟨bs, h1, h2, h3, h4⟩ := h
  obtain ⟨bs', b, h1', h2', h3', h4', h5'⟩ := h'
  have hpad : pad (blockBits bs ++ blockBits (bs' ++ [b])) = pad (blockBits (bs' ++ [b])) := by
    have hlen : (blockBits bs ++ blockBits (bs' ++ [b])).length % 8 = (blockBits (bs' ++ [b])).length % 8 := by
      rw [List.length_append, h3, length_ofBytes]
      omega
    unfold pad
    rw [hlen]
  refine ⟨bs ++ bs', b, ?_, h2.append h2', h3', ?_, ?_⟩
  · rw [List.append_assoc]
    exact h1.append (h1'.behind h3)
  · rw [List.append_assoc, blockBits_append, hpad, List.append_assoc, h4', h3, ofBytes_append]
  · rw [List.append_assoc, blockPayload_append, h4, h5']

/-- The machine reads a piece up to its end, and waits for the header of the next block. -/
theorem Carries.runs (h : Carries bytes payload) : itemMachine.Runs (startItem bytes) ((.blockHeader, payload), []) := by
  obtain ⟨bs, h1, h2, h3, rfl⟩ := h
  have halign : Aligned (blockBits bs).length [] := by
    rw [Aligned, h3, length_ofBytes]
    exact Nat.mul_mod_right 8 _
  have hr := runs_open h1 h2 halign
  rwa [List.append_nil, h3] at hr

/-- The machine halts on a closed stream, with its payload. -/
theorem Closes.runs (h : Closes bytes payload) :
    ∃ held, held.length < 8 ∧ itemMachine.Runs (startItem bytes) ((.finished, payload), held) := by
  obtain ⟨bs, b, h1, h2, h3, h4, rfl⟩ := h
  refine ⟨pad (blockBits (bs ++ [b])), length_pad_lt _, ?_⟩
  have halign : Aligned (blockBits (bs ++ [b])).length (pad (blockBits (bs ++ [b]))) := by
    rw [Aligned, ← List.length_append, h4, length_ofBytes]
    exact Nat.mul_mod_right 8 _
  have hr := runs_closed h1 h2 h3 halign
  rwa [h4] at hr

end

/-- The machine waits for more behind a piece. -/
theorem stops_header (output : List UInt8) : itemMachine.Stops ((.blockHeader, output), []) .waiting := stops_waiting rfl

/-! ## What encoders put out -/

namespace Refines

variable {s : EncoderSession} {e : Emission}

/-- What an encoder has put out carries all bytes it stands for, where they are whole bytes and none is pending. -/
theorem carries (h : Refines s e) (hs : e.Sound) (hf : e.finishing = false) (hpending : e.pending = [])
    (haligned : (blockBits e.blocks).length % 8 = 0) : Carries s.output e.payload ∧ s.encoder.bitCount = 0 := by
  have hbits := Emission.bits_open hf
  obtain ⟨hout, h0⟩ := h.output_bits (by rwa [hbits])
  refine ⟨⟨e.blocks, hs.blocks_sound, hs.opened hf, (hout.trans hbits).symm, ?_⟩, h0⟩
  rw [Emission.payload, hpending, List.append_nil]

/-- What a finished encoder has put out closes a stream. -/
theorem closes (h : Refines s e) (hs : e.Sound) (hf : e.finishing = true) : Closes s.output e.payload := by
  obtain ⟨⟨front, b, hblocks, hopen, hb⟩, hpending⟩ := hs.ended hf
  have hbits : e.bits = blockBits e.blocks ++ pad (blockBits e.blocks) := by
    rw [Emission.bits, hf, Encoder.closing, if_pos rfl]
  have hout := (h.output_bits (by rw [hbits]; exact length_append_pad _)).1
  have hsound := hs.blocks_sound
  rw [hblocks] at hsound
  refine ⟨front, b, hsound, hopen, hb, ?_, ?_⟩
  · rw [hout, hbits, ← hblocks]
  · rw [Emission.payload, hpending, List.append_nil, ← hblocks]

end Refines

end Noflate
