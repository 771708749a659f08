import Noflate.Lemmas.CodeRanges
import Noflate.Lemmas.EncoderRuns

/-!
# The codes of an encoder are complete

The code lengths that are computed from frequencies are those of a complete code (`length_limited_complete`). The code sets of a
dynamic block are therefore what strict decoders ask for, and all that is written in the block has a code (`dynamic_blocks_strict`).
-/

namespace Noflate

open BitString
open Rfc1951 (CodeSets)

/-- The code lengths for frequencies and a limit: the symbols that occur have one, and no others; none is longer than the limit; a
code for two symbols or more is complete, and one symbol has a code of one bit. No number on the way leaves the range of its type. -/
theorem length_limited_complete {frequencies : List Nat} {limit : Nat} (hsymbols : frequencies.length ≤ 2 ^ 16) (hlimit : 1 ≤ limit)
    (hroom : usedCount frequencies ≤ 2 ^ limit) (hweight : limit * frequencies.sum < 2 ^ 63) :
    ∃ lengths, lengthLimitedCodeLengths frequencies limit = .ok lengths ∧ lengths.length = frequencies.length ∧
      (∀ s, lengths.getD s 0 ≠ 0 ↔ frequencies.getD s 0 ≠ 0) ∧ (∀ w ∈ lengths, w ≤ limit) ∧
      (2 ≤ usedCount frequencies → kraftSum limit lengths = 2 ^ limit) ∧
      (usedCount frequencies = 1 → ∃ s, SingleCode lengths s) ∧ CodeRange frequencies limit := by
  obtain ⟨lengths, h, hc⟩ := lengthLimited_spec hlimit hroom
  refine ⟨lengths, h, hc.length_eq, ?_, hc.le_limit, fun h2 => hc.kraft h2 limit le_rfl, ?_, codeRange hsymbols hlimit hweight⟩
  · intro s
    have hiff := hc.used_iff s
    rw [Nat.pos_iff_ne_zero, Nat.pos_iff_ne_zero] at hiff
    exact hiff
  · intro hone
    obtain ⟨s, hs⟩ : ∃ s, s ∈ usedSymbols frequencies := by
      refine List.exists_mem_of_length_pos ?_
      rw [length_usedSymbols, hone]
      exact Nat.one_pos
    exact ⟨s, hc.singleCode hone (mem_usedSymbols.mp hs)⟩

/-- Three symbols, one of them rare. -/
theorem length_limited_complete_three :
    ∃ lengths, lengthLimitedCodeLengths [5, 0, 1, 3] 15 = .ok lengths ∧ lengths.length = 4 ∧
      (∀ s, lengths.getD s 0 ≠ 0 ↔ [5, 0, 1, 3].getD s 0 ≠ 0) ∧ (∀ w ∈ lengths, w ≤ 15) ∧
      (2 ≤ usedCount [5, 0, 1, 3] → kraftSum 15 lengths = 2 ^ 15) ∧
      (usedCount [5, 0, 1, 3] = 1 → ∃ s, SingleCode lengths s) ∧ CodeRange [5, 0, 1, 3] 15 :=
  length_limited_complete (by decide) (by decide) (by decide) (by decide)

/-- The dynamic block that an encoder writes for a chunk, in whatever state its calls have left it: behind the header it announces
strict code sets, and the tokens of the chunk and the end of the block, which follow, all have codes in them. -/
theorem dynamic_blocks_strict (options : EncodeOptions) {commands : List Command} {s : EncoderSession}
    (hrange : (EncoderSession.start options).InRange commands)
    (hrun : EncoderSession.run commands (EncoderSession.start options) = .ok s) (chunk : List UInt8) (isFinal : Bool) :
    ∃ enc' block setBits sets symbols, s.encoder.emitDynamicBlockChunk chunk isFinal = .ok enc' ∧
      enc'.bits = s.encoder.bits ++ (block ++ Encoder.closing isFinal (s.encoder.bits ++ block)) ∧
      block = isFinal :: ofNat 2 2 ++ (setBits ++ tokenBits sets.literal sets.distance symbols) ∧
      (∀ rest, Rfc1951.readCodeSets (setBits ++ rest) = some (sets, rest)) ∧ sets.Strict ∧
      Tokens symbols chunk ∧ HasCode sets.literal endOfBlock ∧ ∀ sym ∈ symbols, sym.Coded sets.literal sets.distance := by
  obtain ⟨s', hrun', hs⟩ := run_refines (Refines.start options) hrange
  obtain rfl := Exec.ok.inj (hrun.symm.trans hrun')
  obtain ⟨enc', h1, h2⟩ := Encoder.emitDynamicBlockChunk_spec hs.wf chunk isFinal
  have hcode := dynamicCode chunk
  refine ⟨enc', _, _, _, _, h1, h2.bits_eq, ?_, hcode.reads, hcode.strict, MatchFinder.tokens_spec chunk, hcode.code.endOfBlock,
    hcode.code.coded⟩
  simp only [chunkBlocks, blockBits_singleton, EmittedBlock.bits, codedBlock, List.append_assoc, List.cons_append]

/-- A chunk with a back-reference, in the state that earlier blocks, a reset and pending bytes have left. -/
theorem dynamic_blocks_strict_repeated :
    ∃ s enc' block setBits sets symbols, EncoderSession.run [.feed [65, 65, 65, 65], .syncFlush, .resetHistory, .feed [66, 67]]
        (EncoderSession.start EncodeOptions.new) = .ok s ∧
      s.encoder.emitDynamicBlockChunk [65, 66, 65, 66, 65, 66, 65] true = .ok enc' ∧
      enc'.bits = s.encoder.bits ++ (block ++ Encoder.closing true (s.encoder.bits ++ block)) ∧
      block = true :: ofNat 2 2 ++ (setBits ++ tokenBits sets.literal sets.distance symbols) ∧
      (∀ rest, Rfc1951.readCodeSets (setBits ++ rest) = some (sets, rest)) ∧ sets.Strict ∧
      Tokens symbols [65, 66, 65, 66, 65, 66, 65] ∧ HasCode sets.literal endOfBlock ∧
      ∀ sym ∈ symbols, sym.Coded sets.literal sets.distance := by
  have hrange : (EncoderSession.start EncodeOptions.new).InRange [.feed [65, 65, 65, 65], .syncFlush, .resetHistory, .feed [66, 67]] :=
    EncoderSession.inRange_of_no_advance (by simp) _
  obtain ⟨s, hrun, -⟩ := run_refines (Refines.start EncodeOptions.new) hrange
  obtain ⟨enc', block, setBits, sets, symbols, h⟩ :=
    dynamic_blocks_strict EncodeOptions.new hrange hrun [65, 66, 65, 66, 65, 66, 65] true
  exact ⟨s, enc', block, setBits, sets, symbols, hrun, h⟩

end Noflate
