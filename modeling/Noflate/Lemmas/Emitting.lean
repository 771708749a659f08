import Noflate.Lemmas.DynamicBlocks

/-!
# What the encoder emits

`chunkBlocks` are the blocks of a chunk: they depend on the chunk, the kind of the blocks and the bit they start at within a byte,
and on nothing else in the encoder. Emitting a chunk puts their bits behind those there were (`emitBlockChunk_spec`).
-/

namespace Noflate

open BitString
open Rfc1951 (CodeSets)

/-! ## The blocks of a chunk -/

/-- The parts of a chunk, each as large as a stored block takes at most; an empty chunk is one empty part. -/
def storedParts (chunk : List UInt8) : List (List UInt8) :=
  if chunk.length ≤ maxStoredBlock then [chunk]
  else chunk.take maxStoredBlock :: storedParts (chunk.drop maxStoredBlock)
termination_by chunk.length
decreasing_by
  rw [List.length_drop]
  unfold maxStoredBlock at *
  omega

/-- Stored blocks for the parts of a chunk. -/
def storedBlocks (isFinal : Bool) : Nat → List (List UInt8) → List EmittedBlock
  | _, [] => []
  | offset, part :: parts =>
    let b := storedBlock offset (isFinal && parts.isEmpty) part
    b :: storedBlocks isFinal (offset + b.bits.length) parts

/-- The bits of the code sets of a chunk's dynamic block. -/
noncomputable def dynamicSetBits (chunk : List UInt8) : List Bool :=
  (exists_dynamicCode (MatchFinder.tokens_spec chunk)).choose

/-- The code sets of a chunk's dynamic block. -/
noncomputable def dynamicSets (chunk : List UInt8) : CodeSets :=
  (exists_dynamicCode (MatchFinder.tokens_spec chunk)).choose_spec.choose

theorem dynamicCode (chunk : List UInt8) : DynamicCode (MatchFinder.tokens chunk) chunk (dynamicSetBits chunk) (dynamicSets chunk) :=
  (exists_dynamicCode (MatchFinder.tokens_spec chunk)).choose_spec.choose_spec

/-- The blocks of a chunk, from a bit on. -/
noncomputable def chunkBlocks (kind : BlockKind) (chunk : List UInt8) (isFinal : Bool) (offset : Nat) : List EmittedBlock :=
  match kind with
  | .stored => storedBlocks isFinal offset (storedParts chunk)
  | .fixed =>
    [codedBlock isFinal 1 [] none fixedLiteralCodeLengths fixedDistanceCodeLengths (MatchFinder.tokens chunk) chunk]
  | .dynamic =>
    [codedBlock isFinal 2 (dynamicSetBits chunk) (some (dynamicSets chunk)) (dynamicSets chunk).literal (dynamicSets chunk).distance
      (MatchFinder.tokens chunk) chunk]

theorem storedParts_nil : storedParts [] = [[]] := by
  rw [storedParts]
  exact if_pos (Nat.zero_le _)

/-- An empty chunk is emitted as an empty stored block. -/
theorem chunkBlocks_stored_nil (isFinal : Bool) (offset : Nat) :
    chunkBlocks .stored [] isFinal offset = [storedBlock offset isFinal []] := by
  rw [chunkBlocks, storedParts_nil, storedBlocks, storedBlocks, List.isEmpty_nil, Bool.and_true]

/-- Blocks of which the last one is the last of the stream if a flag says so, and the others are not. -/
def Ending (isFinal : Bool) (bs : List EmittedBlock) : Prop := ∃ front b, bs = front ++ [b] ∧ Open front ∧ b.isFinal = isFinal

theorem Ending.singleton (b : EmittedBlock) : Ending b.isFinal [b] := ⟨[], b, rfl, .nil, rfl⟩

theorem Ending.opened {bs : List EmittedBlock} (h : Ending false bs) : Open bs := by
  obtain ⟨front, b, rfl, hopen, hb⟩ := h
  exact hopen.append (.cons hb .nil)

section

variable {chunk : List UInt8}

theorem storedParts_ne_nil (chunk : List UInt8) : storedParts chunk ≠ [] := by
  rw [storedParts]
  split <;> exact List.cons_ne_nil _ _

/-- The parts of a chunk fit into stored blocks, and are the chunk together. -/
theorem storedParts_spec (chunk : List UInt8) :
    (storedParts chunk).flatten = chunk ∧ ∀ part ∈ storedParts chunk, part.length ≤ maxStoredBlock := by
  induction chunk using storedParts.induct with
  | case1 chunk h =>
    rw [storedParts, if_pos h]
    exact ⟨List.append_nil _, fun part hp => by rwa [List.mem_singleton.mp hp]⟩
  | case2 chunk h ih =>
    rw [storedParts, if_neg h, List.flatten_cons, ih.1, List.take_append_drop]
    refine ⟨rfl, fun part hp => ?_⟩
    rcases List.mem_cons.mp hp with rfl | hp
    · exact List.length_take_le _ _
    · exact ih.2 part hp

theorem storedBlocks_spec (isFinal : Bool) {parts : List (List UInt8)} (hne : parts ≠ [])
    (hlen : ∀ part ∈ parts, part.length ≤ maxStoredBlock) (offset : Nat) :
    Blocks offset (storedBlocks isFinal offset parts) ∧ blockPayload (storedBlocks isFinal offset parts) = parts.flatten ∧
      Ending isFinal (storedBlocks isFinal offset parts) := by
  induction parts generalizing offset with
  | nil => exact absurd rfl hne
  | cons part parts ih =>
    have hsound := fun f => storedBlock_sound offset f (hlen part List.mem_cons_self)
    rw [storedBlocks, blockPayload_cons, List.flatten_cons]
    cases parts with
    | nil =>
      refine ⟨.cons (hsound _) .nil, rfl, [], _, rfl, .nil, ?_⟩
      exact Bool.and_true isFinal
    | cons part' parts =>
      obtain ⟨h1, h2, front, b, h3, h4, h5⟩ := ih (List.cons_ne_nil _ _) (fun p hp => hlen p (List.mem_cons_of_mem _ hp))
        (offset + (storedBlock offset (isFinal && (part' :: parts).isEmpty) part).bits.length)
      refine ⟨.cons (hsound _) h1, by rw [h2]; rfl, _ :: front, b, by rw [h3]; rfl, ?_, h5⟩
      exact .cons (Bool.and_false isFinal) h4

/-- The blocks of a chunk are sound, stand for the chunk, and end the stream if they are to. -/
theorem chunkBlocks_spec (kind : BlockKind) (chunk : List UInt8) (isFinal : Bool) (offset : Nat) :
    Blocks offset (chunkBlocks kind chunk isFinal offset) ∧ blockPayload (chunkBlocks kind chunk isFinal offset) = chunk ∧
      Ending isFinal (chunkBlocks kind chunk isFinal offset) := by
  cases kind with
  | stored =>
    obtain ⟨h1, h2⟩ := storedParts_spec chunk
    have h := storedBlocks_spec isFinal (storedParts_ne_nil chunk) h2 offset
    rw [h1] at h
    exact h
  | fixed =>
    refine ⟨.singleton ?_, blockPayload_singleton, .singleton _⟩
    exact (fixedCode (MatchFinder.tokens_spec chunk)).fixed_sound offset isFinal fixedLiteral_eq fixedDistance_eq
  | dynamic =>
    have h := dynamicCode chunk
    refine ⟨.singleton ?_, blockPayload_singleton, .singleton _⟩
    exact h.code.dynamic_sound offset isFinal h.reads h.strict

/-- The blocks of a chunk depend on the bit they start at within a byte. -/
theorem chunkBlocks_mod (kind : BlockKind) (chunk : List UInt8) (isFinal : Bool) {offset offset' : Nat}
    (h : offset % 8 = offset' % 8) : chunkBlocks kind chunk isFinal offset = chunkBlocks kind chunk isFinal offset' := by
  cases kind with
  | stored =>
    simp only [chunkBlocks]
    generalize storedParts chunk = parts
    induction parts generalizing offset offset' with
    | nil => rfl
    | cons part parts ih =>
      have hb : ∀ f, storedBlock offset f part = storedBlock offset' f part := by
        intro f
        unfold storedBlock storedPadding
        rw [show (offset + 3) % 8 = (offset' + 3) % 8 by omega]
      simp only [storedBlocks, hb]
      rw [ih (show (offset + (storedBlock offset' (isFinal && parts.isEmpty) part).bits.length) % 8 =
        (offset' + (storedBlock offset' (isFinal && parts.isEmpty) part).bits.length) % 8 by omega)]
  | fixed => rfl
  | dynamic => rfl

end

/-! ## Emitting -/

namespace Encoder

/-- The bits an encoder holds: those of its output, and the ones of the last, unfinished byte. -/
def bits (enc : Encoder) : List Bool := enc.writer.bits

/-- A well-formed encoder. -/
structure Wf (enc : Encoder) : Prop where
  writer_wf : enc.writer.Wf
  matcher_wf : enc.matcher.Wf

/-- An encoder has put bits behind those there were. Its pending input and what was consumed are as before. -/
structure Emits (enc enc' : Encoder) (bits : List Bool) : Prop where
  wf : enc'.Wf
  bits_eq : enc'.bits = enc.bits ++ bits
  options_eq : enc'.options = enc.options
  input_eq : enc'.input = enc.input
  drained_eq : enc'.drained = enc.drained
  finishing_eq : enc'.finishing = enc.finishing

theorem Emits.trans {enc enc' enc'' : Encoder} {bits bits' : List Bool} (h : Emits enc enc' bits) (h' : Emits enc' enc'' bits') :
    Emits enc enc'' (bits ++ bits') :=
  ⟨h'.wf, by rw [h'.bits_eq, h.bits_eq, List.append_assoc], h'.options_eq.trans h.options_eq, h'.input_eq.trans h.input_eq,
    h'.drained_eq.trans h.drained_eq, h'.finishing_eq.trans h.finishing_eq⟩

/-- What the last block of a stream is filled up with. -/
def closing (isFinal : Bool) (bits : List Bool) : List Bool := if isFinal then pad bits else []

theorem writes_blockHeader (isFinal : Bool) {type : Nat} (h : type < 2 ^ 2) :
    Writes (fun w => blockHeader isFinal type w) (isFinal :: ofNat 2 type) :=
  (Writes.bit isFinal).bind (Writes.field (by decide) h)

section

variable {enc : Encoder}

/-- A stored block: its header, and its bytes behind it. -/
theorem stored_emits (h : enc.Wf) (isFinal : Bool) (bytes : List UInt8) :
    ∃ enc', enc.storedHeader isFinal = .ok enc' ∧
      Emits enc { enc' with output := enc'.output ++ storedBytes bytes } (storedBlock enc.bits.length isFinal bytes).bits := by
  obtain ⟨w, h1, h2⟩ := writes_blockHeader isFinal (show 0 < 2 ^ 2 by decide) enc.writer h.writer_wf
  have hpad : pad w.bits = storedPadding enc.bits.length := by
    rw [h2.bits_eq]
    unfold pad storedPadding bits
    rw [List.length_append, List.length_cons, length_ofNat]
  have hout : ofBytes w.alignToByte.output = enc.bits ++ (isFinal :: (ofNat 2 0 ++ storedPadding enc.bits.length)) := by
    rw [(BitWriter.alignToByte_spec h2.wf).2.2, hpad, h2.bits_eq, List.append_assoc, List.cons_append]
    rfl
  have hheader : enc.storedHeader isFinal = .ok { enc with output := w.alignToByte.output, bitBuffer := 0, bitCount := 0 } := by
    have hblock : blockHeader isFinal 0 enc.writer = .ok w := h1
    rw [storedHeader, hblock, Exec.ok_bind]
  refine ⟨_, hheader, ⟨⟨Nat.one_pos, Nat.succ_pos 7⟩, h.matcher_wf⟩, ?_, rfl, rfl, rfl, rfl⟩
  have hbits : bits { enc with output := w.alignToByte.output ++ storedBytes bytes, bitBuffer := 0, bitCount := 0 } =
      ofBytes (w.alignToByte.output ++ storedBytes bytes) ++ ofNat 0 0 := rfl
  rw [hbits, ofNat_zero_width, List.append_nil, ofBytes_append, hout, EmittedBlock.bits, storedBlock, List.append_assoc,
    List.cons_append]

/-- The loop of `emitStoredChunk`, from a part of the chunk on. -/
theorem storedLoop_emits (h : enc.Wf) (chunk : List UInt8) (isFinal : Bool) (fuel offset : Nat) (hoffset : offset < chunk.length)
    (hfuel : chunk.length < offset + fuel) :
    ∃ enc', storedLoop chunk isFinal fuel offset enc = .ok enc' ∧
      Emits enc enc' (blockBits (storedBlocks isFinal enc.bits.length (storedParts (chunk.drop offset)))) := by
  induction fuel generalizing enc offset with
  | zero => omega
  | succ fuel ih =>
    rw [storedLoop, if_pos hoffset]
    simp only
    have hdrop : (chunk.drop offset).length = chunk.length - offset := List.length_drop
    by_cases hlast : chunk.length - offset ≤ maxStoredBlock
    · -- the last part of the chunk
      have hmin : min maxStoredBlock (chunk.length - offset) = chunk.length - offset := Nat.min_eq_right hlast
      have hpart : (chunk.drop offset).take (chunk.length - offset) = chunk.drop offset := List.take_of_length_le hdrop.le
      have hend : offset + (chunk.length - offset) = chunk.length := by omega
      rw [hmin, hpart, hend, beq_self_eq_true, Bool.and_true]
      obtain ⟨fuel, rfl⟩ : ∃ n, fuel = n + 1 := ⟨fuel - 1, by omega⟩
      obtain ⟨enc₁, hheader, hemits⟩ := stored_emits h isFinal (chunk.drop offset)
      unfold storedBytes at hemits
      rw [hdrop] at hemits
      rw [hheader, Exec.ok_bind]
      rw [storedLoop, if_neg (Nat.lt_irrefl _), storedParts, if_pos (by omega), storedBlocks, storedBlocks, List.isEmpty_nil,
        Bool.and_true, blockBits_singleton]
      refine ⟨_, rfl, ?_⟩
      simp only [List.append_assoc] at hemits ⊢
      exact hemits
    · have hmin : min maxStoredBlock (chunk.length - offset) = maxStoredBlock := Nat.min_eq_left (Nat.le_of_not_le hlast)
      have hpart : ((chunk.drop offset).take maxStoredBlock).length = maxStoredBlock := List.length_take_of_le (by omega)
      have hmore : (offset + maxStoredBlock == chunk.length) = false := by
        rw [beq_eq_false_iff_ne]
        omega
      obtain ⟨enc₁, hheader, hemits⟩ := stored_emits h false ((chunk.drop offset).take maxStoredBlock)
      unfold storedBytes at hemits
      rw [hpart] at hemits
      rw [hmin, hmore, Bool.and_false, hheader, Exec.ok_bind]
      simp only [List.append_assoc] at hemits ⊢
      obtain ⟨enc', h1, h2⟩ := ih hemits.wf (offset + maxStoredBlock) (by omega) (by
        unfold maxStoredBlock
        omega)
      refine ⟨enc', h1, ?_⟩
      have hparts : storedParts (chunk.drop offset) =
          (chunk.drop offset).take maxStoredBlock :: storedParts (chunk.drop (offset + maxStoredBlock)) := by
        rw [storedParts, if_neg (by omega), List.drop_drop]
      have hne : (storedParts (chunk.drop (offset + maxStoredBlock))).isEmpty = false := by
        rw [List.isEmpty_eq_false_iff]
        exact storedParts_ne_nil _
      rw [hparts, storedBlocks, hne, Bool.and_false, blockBits_cons]
      rw [hemits.bits_eq, List.length_append] at h2
      exact hemits.trans h2

/-- Stored blocks end at the end of a byte: nothing is filled up behind them. -/
theorem closing_storedBlocks (isFinal : Bool) (front : List Bool) {parts : List (List UInt8)} (hne : parts ≠ []) :
    closing isFinal (front ++ blockBits (storedBlocks isFinal front.length parts)) = [] := by
  have hlen : ∀ {parts : List (List UInt8)} (offset : Nat), parts ≠ [] →
      (offset + (blockBits (storedBlocks isFinal offset parts)).length) % 8 = 0 := by
    intro parts
    induction parts with
    | nil => exact fun offset h => absurd rfl h
    | cons part parts ih =>
      intro offset _
      have hb := storedBlock_length offset (isFinal && parts.isEmpty) part
      rw [storedBlocks, blockBits_cons, List.length_append, ← Nat.add_assoc]
      by_cases hnil : parts = []
      · subst hnil
        rw [storedBlocks, blockBits, List.flatMap_nil, List.length_nil]
        exact hb
      · exact ih _ hnil
  unfold closing pad
  rw [List.length_append, hlen _ hne]
  split <;> rfl

/-- A chunk is emitted as stored blocks. -/
theorem emitStoredChunk_spec (h : enc.Wf) (chunk : List UInt8) (isFinal : Bool) :
    ∃ enc', enc.emitStoredChunk chunk isFinal = .ok enc' ∧
      Emits enc enc' (blockBits (chunkBlocks .stored chunk isFinal enc.bits.length)) := by
  unfold emitStoredChunk
  by_cases h0 : chunk.length = 0
  · obtain rfl := List.eq_nil_of_length_eq_zero h0
    rw [if_pos h0, chunkBlocks_stored_nil, blockBits_singleton]
    obtain ⟨enc₁, hheader, hemits⟩ := stored_emits h isFinal []
    rw [hheader, Exec.ok_bind]
    exact ⟨_, rfl, hemits⟩
  · rw [if_neg h0]
    have := storedLoop_emits h chunk isFinal (chunk.length + 1) 0 (Nat.pos_of_ne_zero h0) (by omega)
    rwa [List.drop_zero] at this

/-- The end of a block with tokens. -/
theorem endBlock_emits (h : enc.Wf) (isFinal : Bool) {w : BitWriter} {bits : List Bool} (hw : enc.writer.Appends w bits) :
    Emits enc (enc.endBlock isFinal w) (bits ++ closing isFinal (enc.bits ++ bits)) := by
  have hbits : w.bits = enc.bits ++ bits := hw.bits_eq
  cases isFinal with
  | false =>
    refine ⟨⟨hw.wf, h.matcher_wf⟩, ?_, rfl, rfl, rfl, rfl⟩
    rw [closing, if_neg Bool.false_ne_true, List.append_nil]
    exact hbits
  | true =>
    refine ⟨⟨⟨Nat.one_pos, Nat.succ_pos 7⟩, h.matcher_wf⟩, ?_, rfl, rfl, rfl, rfl⟩
    have hout : Encoder.bits (enc.endBlock true w) = ofBytes w.alignToByte.output ++ ofNat 0 0 := rfl
    rw [hout, ofNat_zero_width, List.append_nil, (BitWriter.alignToByte_spec hw.wf).2.2, hbits, closing, if_pos rfl,
      List.append_assoc]

/-- A chunk is emitted as a block with the fixed codes. -/
theorem emitFixedBlockChunk_spec (h : enc.Wf) (chunk : List UInt8) (isFinal : Bool) :
    ∃ enc', enc.emitFixedBlockChunk chunk isFinal = .ok enc' ∧
      Emits enc enc' (blockBits (chunkBlocks .fixed chunk isFinal enc.bits.length) ++
        closing isFinal (enc.bits ++ blockBits (chunkBlocks .fixed chunk isFinal enc.bits.length))) := by
  obtain ⟨matcher, hm1, hm2⟩ := MatchFinder.fillSymbols_eq h.matcher_wf chunk
  obtain ⟨literalEncoder, distanceEncoder, hl, hd, hcoding⟩ := fixed_coding
  have htokens := MatchFinder.tokens_spec chunk
  have hcode := fixedCode htokens
  have hwrites := (writes_blockHeader isFinal (show 1 < 2 ^ 2 by decide)).bind
    (hcoding.writes_symbols hcode.endOfBlock htokens.in_range hcode.coded)
  obtain ⟨w, h1, h2⟩ := hwrites enc.writer h.writer_wf
  obtain ⟨w₁, hheader, hw⟩ := Exec.bind_eq_ok.mp h1
  have hwf : Wf { enc with matcher, symbols := MatchFinder.tokens chunk } := ⟨h.writer_wf, hm2⟩
  have hemits := endBlock_emits hwf isFinal h2
  have hbits : blockBits (chunkBlocks .fixed chunk isFinal enc.bits.length) =
      isFinal :: ofNat 2 1 ++ tokenBits fixedLiteralCodeLengths fixedDistanceCodeLengths (MatchFinder.tokens chunk) := by
    simp only [chunkBlocks, blockBits_singleton, EmittedBlock.bits, codedBlock, List.append_nil, List.cons_append]
  rw [hbits]
  refine ⟨_, ?_, hemits.wf, hemits.bits_eq, hemits.options_eq, hemits.input_eq, hemits.drained_eq, hemits.finishing_eq⟩
  unfold emitFixedBlockChunk
  rw [hm1, Exec.ok_bind]
  simp only
  rw [hl, hd, Exec.ok_bind, Exec.ok_bind]
  have hwriter : writer { enc with matcher, symbols := MatchFinder.tokens chunk } = enc.writer := rfl
  rw [hwriter, hheader, Exec.ok_bind, hw, Exec.ok_bind]

/-- A chunk is emitted as a block with codes of its own. -/
theorem emitDynamicBlockChunk_spec (h : enc.Wf) (chunk : List UInt8) (isFinal : Bool) :
    ∃ enc', enc.emitDynamicBlockChunk chunk isFinal = .ok enc' ∧
      Emits enc enc' (blockBits (chunkBlocks .dynamic chunk isFinal enc.bits.length) ++
        closing isFinal (enc.bits ++ blockBits (chunkBlocks .dynamic chunk isFinal enc.bits.length))) := by
  obtain ⟨matcher, hm1, hm2⟩ := MatchFinder.fillSymbols_eq h.matcher_wf chunk
  have htokens := MatchFinder.tokens_spec chunk
  have hdyn := dynamicCode chunk
  obtain ⟨f, literalLengths, distanceLengths, literalEncoder, distanceEncoder, hf, hll, hdl, hl, hd, hsets, hcoding⟩ := hdyn.written
  have hwrites := (writes_blockHeader isFinal (show 2 < 2 ^ 2 by decide)).bind
    (hsets.bind (hcoding.writes_symbols hdyn.code.endOfBlock htokens.in_range hdyn.code.coded))
  obtain ⟨w, h1, h2⟩ := hwrites enc.writer h.writer_wf
  obtain ⟨w₁, hheader, hrest⟩ := Exec.bind_eq_ok.mp h1
  obtain ⟨w₂, hw1, hw2⟩ := Exec.bind_eq_ok.mp hrest
  have hwf : Wf { enc with matcher, symbols := MatchFinder.tokens chunk } := ⟨h.writer_wf, hm2⟩
  have hemits := endBlock_emits hwf isFinal h2
  have hbits : blockBits (chunkBlocks .dynamic chunk isFinal enc.bits.length) = isFinal :: ofNat 2 2 ++ (dynamicSetBits chunk ++
      tokenBits (dynamicSets chunk).literal (dynamicSets chunk).distance (MatchFinder.tokens chunk)) := by
    simp only [chunkBlocks, blockBits_singleton, EmittedBlock.bits, codedBlock, List.append_assoc, List.cons_append]
  rw [hbits]
  refine ⟨_, ?_, hemits.wf, hemits.bits_eq, hemits.options_eq, hemits.input_eq, hemits.drained_eq, hemits.finishing_eq⟩
  unfold emitDynamicBlockChunk
  rw [hm1, Exec.ok_bind]
  simp only
  have hwriter : writer { enc with matcher, symbols := MatchFinder.tokens chunk } = enc.writer := rfl
  rw [hf, Exec.ok_bind, hll, Exec.ok_bind, hdl, Exec.ok_bind, hl, Exec.ok_bind, hd, Exec.ok_bind, hwriter, hheader, Exec.ok_bind, hw1,
    Exec.ok_bind, hw2, Exec.ok_bind]

/-- A chunk is emitted: its blocks are put behind the bits there were, and the last block is filled up to a whole byte. -/
theorem emitBlockChunk_spec (h : enc.Wf) (chunk : List UInt8) (isFinal : Bool) :
    ∃ enc', enc.emitBlockChunk chunk isFinal = .ok enc' ∧
      Emits enc enc' (blockBits (chunkBlocks enc.options.blockKind chunk isFinal enc.bits.length) ++
        closing isFinal (enc.bits ++ blockBits (chunkBlocks enc.options.blockKind chunk isFinal enc.bits.length))) := by
  unfold emitBlockChunk
  cases hk : enc.options.blockKind with
  | stored =>
    obtain ⟨enc', h1, h2⟩ := emitStoredChunk_spec h chunk isFinal
    refine ⟨enc', h1, ?_⟩
    rw [chunkBlocks, closing_storedBlocks isFinal enc.bits (storedParts_ne_nil chunk), List.append_nil]
    exact h2
  | fixed => exact emitFixedBlockChunk_spec h chunk isFinal
  | dynamic => exact emitDynamicBlockChunk_spec h chunk isFinal

end

end Encoder

end Noflate
