import Noflate.Error
import Noflate.Lemmas.Sizes
import Noflate.Theorems.OneShot

/-!
# What an encoder emits, and how much

An encoder cuts its input into pieces and emits the blocks of each, whatever calls have fed it (`encoder_laid_out`). The tokens of a
dynamic block take no more bits than any other codes would make of them (`dynamic_block_cheapest`). So however badly its input
compresses, an encoder adds no more than an eighth to it, and no more than `blockOverhead` bits for each piece (`output_bounded`); and
what is compressed in one call grows by no more than an eighth and 287 bytes (`compress_bounded`).
-/

namespace Noflate

open BitString

/-- The last byte is filled up. -/
theorem Encoder.length_closing (isFinal : Bool) (bits : List Bool) : (Encoder.closing isFinal bits).length ≤ 7 := by
  unfold Encoder.closing
  split
  · exact Nat.le_of_lt_succ (length_pad_lt bits)
  · exact Nat.zero_le _

/-! ## Layout -/

/-- Stored blocks of four bytes at most. -/
def blocksOfFour : EncodeOptions := { blockKind := .stored, maxBlockInputBytes := some 4, positive := by decide }

/-- Whatever calls an encoder has served, it has put out the blocks of the pieces that the calls cut, and holds what is not cut yet. The
pieces hold the bytes accepted, and no piece is larger than a block takes. -/
theorem encoder_laid_out {options : EncodeOptions} {commands : List Command} (hrange : (EncoderSession.start options).InRange commands) :
    ∃ s, EncoderSession.run commands (EncoderSession.start options) = .ok s ∧
      s.encoder.input = (Layout.run options commands Layout.start).pending ∧
      s.encoder.finishing = (Layout.run options commands Layout.start).finishing ∧
      s.bits = blockBits (pieceBlocks 0 (Layout.run options commands Layout.start).pieces) ++
        Encoder.closing s.encoder.finishing (blockBits (pieceBlocks 0 (Layout.run options commands Layout.start).pieces)) ∧
      (Layout.run options commands Layout.start).Sound options (accepted commands) (flushes commands) := by
  obtain ⟨s, hs, hr⟩ := run_refines (Refines.start options) hrange
  have hlaid := (Emission.start_laid options).run commands
  refine ⟨s, hs, hr.input_eq.trans hlaid.pending_eq, hr.finishing_eq.trans hlaid.finishing_eq, ?_, Layout.run_start options commands⟩
  rw [hr.bits_eq, Emission.bits, hr.finishing_eq, hlaid.blocks_eq]
  rfl

/-- Six bytes in blocks of four. -/
theorem encoder_laid_out_stored :
    ∃ s, EncoderSession.run [.feed [1, 2, 3], .feed [4, 5, 6]] (EncoderSession.start blocksOfFour) = .ok s ∧
      s.encoder.input = (Layout.run blocksOfFour [.feed [1, 2, 3], .feed [4, 5, 6]] Layout.start).pending ∧
      s.encoder.finishing = (Layout.run blocksOfFour [.feed [1, 2, 3], .feed [4, 5, 6]] Layout.start).finishing ∧
      s.bits = blockBits (pieceBlocks 0 (Layout.run blocksOfFour [.feed [1, 2, 3], .feed [4, 5, 6]] Layout.start).pieces) ++
        Encoder.closing s.encoder.finishing
          (blockBits (pieceBlocks 0 (Layout.run blocksOfFour [.feed [1, 2, 3], .feed [4, 5, 6]] Layout.start).pieces)) ∧
      (Layout.run blocksOfFour [.feed [1, 2, 3], .feed [4, 5, 6]] Layout.start).Sound blocksOfFour
        (accepted [.feed [1, 2, 3], .feed [4, 5, 6]]) (flushes [.feed [1, 2, 3], .feed [4, 5, 6]]) :=
  encoder_laid_out (EncoderSession.inRange_of_no_advance (by simp) _)

/-! ## The codes of a block -/

/-- In every state an encoder comes to, a dynamic block is written with code sets of its own, and its tokens, which stand for the chunk,
take no more bits than they would with any other codes that have their symbols. -/
theorem dynamic_block_cheapest {options : EncodeOptions} {commands : List Command}
    (hrange : (EncoderSession.start options).InRange commands) (chunk : List UInt8) (isFinal : Bool) :
    ∃ s enc' symbols setBits, ∃ sets : Rfc1951.CodeSets, EncoderSession.run commands (EncoderSession.start options) = .ok s ∧
      s.encoder.emitDynamicBlockChunk chunk isFinal = .ok enc' ∧
      (∃ padding, padding.length ≤ 7 ∧
        enc'.bits = s.encoder.bits ++ (isFinal :: ofNat 2 2 ++ setBits ++ tokenBits sets.literal sets.distance symbols) ++ padding) ∧
      (∀ rest, Rfc1951.readCodeSets (setBits ++ rest) = some (sets, rest)) ∧ Tokens symbols chunk ∧
      ∀ literal distance, Fits literal → Fits distance → HasCode literal endOfBlock →
        (∀ sym ∈ symbols, sym.Coded literal distance) →
          (tokenBits sets.literal sets.distance symbols).length ≤ (tokenBits literal distance symbols).length := by
  obtain ⟨s, hs, hr⟩ := run_refines (Refines.start options) hrange
  obtain ⟨enc', h1, h2⟩ := Encoder.emitDynamicBlockChunk_spec hr.wf chunk isFinal
  have hdynamic := dynamicCode chunk
  generalize hpadding : Encoder.closing isFinal
    (s.encoder.bits ++ blockBits (chunkBlocks .dynamic chunk isFinal s.encoder.bits.length)) = padding at h2
  refine ⟨s, enc', MatchFinder.tokens chunk, dynamicSetBits chunk, dynamicSets chunk, hs, h1,
    ⟨padding, hpadding ▸ Encoder.length_closing isFinal _, ?_⟩, hdynamic.reads, hdynamic.code.tokens, ?_⟩
  · have hbits : blockBits (chunkBlocks .dynamic chunk isFinal s.encoder.bits.length) = isFinal :: ofNat 2 2 ++ dynamicSetBits chunk ++
        tokenBits (dynamicSets chunk).literal (dynamicSets chunk).distance (MatchFinder.tokens chunk) := by
      simp only [chunkBlocks, blockBits_singleton, EmittedBlock.bits, codedBlock, List.append_assoc, List.cons_append]
    rw [← hbits, List.append_assoc]
    exact h2.bits_eq
  · intro literal distance hl hd hend hcoded
    obtain ⟨literalEncoder, -, hle⟩ := encoderOf_ok hl
    obtain ⟨distanceEncoder, -, hde⟩ := encoderOf_ok hd
    exact hdynamic.cheapest ⟨⟨literalEncoder, distanceEncoder, hle.used, hde.used, hl, hd⟩, hend, hdynamic.code.tokens, hcoded⟩

/-- A block behind some bytes that are held. -/
theorem dynamic_block_cheapest_three :
    ∃ s enc' symbols setBits, ∃ sets : Rfc1951.CodeSets,
      EncoderSession.run [.feed [1]] (EncoderSession.start EncodeOptions.new) = .ok s ∧
      s.encoder.emitDynamicBlockChunk [7, 7, 8] true = .ok enc' ∧
      (∃ padding, padding.length ≤ 7 ∧
        enc'.bits = s.encoder.bits ++ (true :: ofNat 2 2 ++ setBits ++ tokenBits sets.literal sets.distance symbols) ++ padding) ∧
      (∀ rest, Rfc1951.readCodeSets (setBits ++ rest) = some (sets, rest)) ∧ Tokens symbols [7, 7, 8] ∧
      ∀ literal distance, Fits literal → Fits distance → HasCode literal endOfBlock →
        (∀ sym ∈ symbols, sym.Coded literal distance) →
          (tokenBits sets.literal sets.distance symbols).length ≤ (tokenBits literal distance symbols).length :=
  dynamic_block_cheapest (EncoderSession.inRange_of_no_advance (by simp) _) [7, 7, 8] true

/-! ## Sizes -/

/-- How many pieces there may be: full ones, two for each flush, and the last one. -/
def mostPieces (options : EncodeOptions) (accepted flushes : Nat) : Nat :=
  (match options.maxBlockInputBytes with
    | some limit => accepted / limit
    | none => 0) + 2 * flushes + 1

theorem Layout.Sound.count_le_most {options : EncodeOptions} {bytes : List UInt8} {flushes : Nat} {l : Layout}
    (h : l.Sound options bytes flushes) : l.pieces.length ≤ mostPieces options bytes.length flushes := by
  have hodd : Layout.odd flushes l.finishing ≤ 2 * flushes + 1 := Nat.add_le_add_left l.finishing.toNat_le _
  unfold mostPieces
  cases hmax : options.maxBlockInputBytes with
  | none =>
    have hcount := h.count_le_odd hmax
    simp only
    omega
  | some limit =>
    have hpos := options.positive limit hmax
    have hcount := h.count_le limit hmax
    have hdiv : l.pieces.length - Layout.odd flushes l.finishing ≤ bytes.length / limit := by
      rw [Nat.le_div_iff_mul_le hpos, Nat.sub_mul, Nat.mul_comm, Nat.mul_comm _ limit]
      omega
    simp only
    omega

/-- The bits that calls emit. -/
theorem Emission.length_bits_le (options : EncodeOptions) (commands : List Command) :
    (Emission.run commands (Emission.start options)).bits.length ≤ 9 * (accepted commands).length +
      max (blockOverhead .stored) (blockOverhead options.blockKind) *
        mostPieces options (accepted commands).length (flushes commands) + 7 := by
  have hlaid : (Emission.run commands (Emission.start options)).Laid (Layout.start.run options commands) :=
    (Emission.start_laid options).run commands
  have hsound := Layout.run_start options commands
  have hkinds : ∀ p ∈ (Layout.start.run options commands).pieces,
      blockOverhead p.kind ≤ max (blockOverhead .stored) (blockOverhead options.blockKind) := by
    intro p hp
    rcases hsound.kinds p hp with hk | ⟨hk, -⟩
    · rw [hk]
      exact le_max_right _ _
    · rw [hk]
      exact le_max_left _ _
  have hblocks := length_pieceBlocks 0 hkinds
  have hcount := Nat.mul_le_mul_left (max (blockOverhead .stored) (blockOverhead options.blockKind)) hsound.count_le_most
  have hbytes := congrArg List.length hsound.bytes_eq
  have hpad := Encoder.length_closing (Emission.run commands (Emission.start options)).finishing
    (blockBits (Emission.run commands (Emission.start options)).blocks)
  rw [← hlaid.blocks_eq] at hblocks
  rw [List.length_append] at hbytes
  rw [Emission.bits, List.length_append]
  omega

theorem EncoderSession.length_output_le (s : EncoderSession) : 8 * s.output.length ≤ s.bits.length := by
  rw [EncoderSession.bits, List.length_append, length_ofBytes]
  exact Nat.le_add_right _ _

/-- An encoder has put out no more than nine bits for each byte it has accepted, and the overhead of the pieces. -/
theorem output_bounded {options : EncodeOptions} {commands : List Command} (hrange : (EncoderSession.start options).InRange commands) :
    ∃ s, EncoderSession.run commands (EncoderSession.start options) = .ok s ∧
      8 * s.output.length ≤ 9 * (accepted commands).length +
        max (blockOverhead .stored) (blockOverhead options.blockKind) *
          mostPieces options (accepted commands).length (flushes commands) + 7 := by
  obtain ⟨s, hs, hr⟩ := run_refines (Refines.start options) hrange
  refine ⟨s, hs, s.length_output_le.trans ?_⟩
  rw [hr.bits_eq]
  exact Emission.length_bits_le options commands

/-- Fixed codes, fed and flushed. -/
theorem output_bounded_fixed :
    ∃ s, EncoderSession.run [.feed [1, 2, 3], .syncFlush, .finish] (EncoderSession.start EncodeOptions.new.fixedHuffman) = .ok s ∧
      8 * s.output.length ≤ 9 * (accepted [.feed [1, 2, 3], .syncFlush, .finish]).length +
        max (blockOverhead .stored) (blockOverhead EncodeOptions.new.fixedHuffman.blockKind) *
          mostPieces EncodeOptions.new.fixedHuffman (accepted [.feed [1, 2, 3], .syncFlush, .finish]).length
            (flushes [.feed [1, 2, 3], .syncFlush, .finish]) + 7 :=
  output_bounded (EncoderSession.inRange_of_no_advance (by simp) _)

/-- The calls that compressing in one call makes. -/
theorem compress_run (data : List UInt8) :
    ∃ s, EncoderSession.run [.feed data, .finish] (EncoderSession.start EncodeOptions.new.bufferAllInput) = .ok s ∧
      Deflate.compress data = .ok s.output := by
  have hstart := Emission.start_fine EncodeOptions.new.bufferAllInput
  obtain ⟨enc₁, h1, h2⟩ := (Refines.start EncodeOptions.new.bufferAllInput).feed_ok hstart data
  obtain ⟨enc₂, h3, h4, -⟩ := h2.finish_ok (hstart.call (c := .feed data) (by simp))
  obtain ⟨enc₃, h5, -⟩ := h4.consumed
  have hraw : (Encoder.withOptions EncodeOptions.new.bufferAllInput).feed data = .ok enc₁ := h1
  have hout : EncoderSession.output { EncoderSession.start EncodeOptions.new.bufferAllInput with encoder := enc₂ } = enc₂.unread :=
    List.nil_append _
  simp only at h1 h3 h5
  refine ⟨{ EncoderSession.start EncodeOptions.new.bufferAllInput with encoder := enc₂ }, ?_, ?_⟩
  · simp only [EncoderSession.run, EncoderSession.call, EncoderSession.becomes, h1, h3, Exec.ok_bind]
  · rw [Deflate.compress, hraw, Exec.ok_bind, h3, Exec.ok_bind, hout]
    simp only
    rw [h5, Exec.ok_bind]

/-- What is compressed in one call grows by no more than an eighth and 288 bytes, and by the header and the trailer of a container. -/
theorem compress_bounded (data : List UInt8) :
    (∃ bytes, Deflate.compress data = .ok bytes ∧ bytes.length ≤ data.length + data.length / 8 + 288) ∧
      (∃ bytes, Gzip.compress data = .ok bytes ∧ bytes.length ≤ data.length + data.length / 8 + 306) ∧
      ∃ bytes, Zlib.compress data = .ok bytes ∧ bytes.length ≤ data.length + data.length / 8 + 294 := by
  obtain ⟨bytes, hbytes, -, hcontainer⟩ := compress_spec data
  have hsize : bytes.length ≤ data.length + data.length / 8 + 288 := by
    obtain ⟨s, hs, hout⟩ := compress_run data
    obtain rfl := Exec.ok.inj (hbytes.symm.trans hout)
    have hrange : (EncoderSession.start EncodeOptions.new.bufferAllInput).InRange [.feed data, .finish] :=
      EncoderSession.inRange_of_no_advance (by simp) _
    obtain ⟨s', hs', hr⟩ := run_refines (Refines.start EncodeOptions.new.bufferAllInput) hrange
    obtain rfl := Exec.ok.inj (hs.symm.trans hs')
    have hbits := Emission.length_bits_le EncodeOptions.new.bufferAllInput [.feed data, .finish]
    have haccepted : accepted [.feed data, .finish] = data := List.append_nil _
    have hpieces : mostPieces EncodeOptions.new.bufferAllInput data.length (flushes [.feed data, .finish]) = 1 := rfl
    have hoverhead : max (blockOverhead .stored) (blockOverhead EncodeOptions.new.bufferAllInput.blockKind) = 2293 := rfl
    rw [haccepted, hpieces, hoverhead, ← hr.bits_eq] at hbits
    have hout := s.length_output_le
    omega
  refine ⟨⟨bytes, hbytes, hsize⟩, ⟨_, hcontainer Gzip.container, ?_⟩, ⟨_, hcontainer Zlib.container, ?_⟩⟩
  · simp only [Gzip.container, List.length_append, length_leBytes, List.length_cons, List.length_nil]
    omega
  · simp only [Zlib.container, List.length_append, length_beBytes, List.length_cons, List.length_nil]
    omega

end Noflate
