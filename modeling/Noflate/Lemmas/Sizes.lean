import Noflate.Lemmas.Costs
import Noflate.Lemmas.Layout

/-!
# How large what is emitted is

A stored block adds a header to its bytes; a token with the fixed codes takes no more than nine bits for each of its bytes; a dynamic block
does not take more for its tokens than the fixed codes would, and the code sets in front of them are small. So the blocks of a chunk
take nine bits for each of its bytes, and no more than `blockOverhead` beyond that (`length_chunkBlocks`).
-/

namespace Noflate

open BitString

/-! ## Stored blocks -/

/-- A stored block adds 42 bits at most to its bytes. -/
theorem length_storedBlock (offset : Nat) (isFinal : Bool) (bytes : List UInt8) :
    (storedBlock offset isFinal bytes).bits.length ≤ 8 * bytes.length + 42 := by
  have hpadding : (storedPadding offset).length ≤ 7 := by
    rw [storedPadding, List.length_replicate]
    omega
  simp only [EmittedBlock.bits, storedBlock, storedBytes, List.length_cons, List.length_append, length_ofNat, length_ofBytes,
    length_leBytes]
  omega

/-- The header of a full part takes less than a bit for each of its bytes. -/
theorem length_storedBlocks (isFinal : Bool) (offset : Nat) (chunk : List UInt8) :
    (blockBits (storedBlocks isFinal offset (storedParts chunk))).length ≤ 9 * chunk.length + 42 := by
  induction chunk using storedParts.induct generalizing offset with
  | case1 chunk h =>
    have hblock := length_storedBlock offset (isFinal && true) chunk
    rw [storedParts, if_pos h, storedBlocks, storedBlocks, blockBits_singleton]
    exact hblock.trans (by omega)
  | case2 chunk h ih =>
    rw [storedParts, if_neg h, storedBlocks, blockBits_cons, List.length_append]
    have hblock := length_storedBlock offset (isFinal && (storedParts (chunk.drop maxStoredBlock)).isEmpty) (chunk.take maxStoredBlock)
    have hrest := ih (offset +
      (storedBlock offset (isFinal && (storedParts (chunk.drop maxStoredBlock)).isEmpty) (chunk.take maxStoredBlock)).bits.length)
    rw [List.length_take_of_le (by omega)] at hblock
    rw [List.length_drop] at hrest
    unfold maxStoredBlock at *
    omega

/-! ## Fixed codes -/

/-- The fixed code of a literal has nine bits at most. -/
theorem fixedLiteral_le (s : Nat) : fixedLiteralCodeLengths.getD s 0 ≤ 9 := by
  have hall : ∀ w ∈ fixedLiteralCodeLengths, w ≤ 9 := by decide +kernel
  rw [List.getD_eq_getElem?_getD]
  cases h : fixedLiteralCodeLengths[s]? with
  | none => exact Nat.zero_le _
  | some w => exact hall w (List.mem_of_getElem? h)

/-- The symbol of a length, its extra bits and any distance take nine bits at most for each of the bytes the length stands for. -/
theorem lengthTable_le : ∀ e ∈ lengthTable.zipIdx, fixedLiteralCodeLengths.getD (257 + e.2) 0 + e.1.2 + 18 ≤ 9 * e.1.1 := by
  decide +kernel

/-- A symbol has as many extra bits as its entry says, and does not stand for less than the base of the entry. -/
theorem SymbolOf.extra_le {table : List (Nat × Nat)} {firstCode value base extraBits : Nat} {sym : EncodedSymbol}
    (h : SymbolOf table firstCode value sym base extraBits) : (extraField sym.extra).length ≤ extraBits ∧ base ≤ value := by
  obtain ⟨extra, hvalue, -⟩ := h.reads
  refine ⟨?_, by omega⟩
  cases he : sym.extra with
  | none => exact Nat.zero_le _
  | some e =>
    obtain ⟨bits, extra'⟩ := e
    rw [(h.some_bits bits extra' he).1, extraField, length_ofNat]

/-- With the fixed codes a token takes nine bits at most for each byte it stands for. -/
theorem length_fixed_bits {sym : Lz77Code} (hrange : sym.InRange) :
    (sym.bits fixedLiteralCodeLengths fixedDistanceCodeLengths).length ≤ 9 * sym.token.size := by
  rw [Lz77Code.length_bits _ _ hrange]
  cases sym with
  | literal byte => exact fixedLiteral_le _
  | pointer length dist =>
    obtain ⟨h3, h258, hd1, hd2⟩ := hrange
    obtain ⟨lenSym, lenBase, lenExtraBits, hlen, hlenOf⟩ := lengthToSymbol_spec h3 h258
    obtain ⟨distSym, distBase, distExtraBits, hdist, hdistOf⟩ := distanceToSymbol_spec hd1 hd2
    obtain ⟨hls, hds, hes⟩ := Lz77Code.pointer_symbols hlen hdist
    have hfirst := hlenOf.first_le
    have hentry := hlenOf.entry
    have hcode : lenSym.code = 257 + (lenSym.code - 257) := by omega
    have htable := lengthTable_le _ (List.mk_mem_zipIdx_iff_getElem?.mpr hentry)
    simp only [← hcode] at htable
    have hdistBits := distanceTable_le _ (List.mem_of_getElem? hdistOf.entry)
    have hdistCode : fixedDistanceCodeLengths.getD distSym.code 0 ≤ 5 := by
      rw [fixedDistanceCodeLengths, List.getD_eq_getElem?_getD, List.getElem?_replicate]
      split <;> simp
    obtain ⟨hle1, hle2⟩ := hlenOf.extra_le
    obtain ⟨hle3, -⟩ := hdistOf.extra_le
    have hsize : (Lz77Code.pointer length dist).token.size = length := rfl
    rw [hls, hds, hes, hsize, List.map_singleton, List.sum_singleton]
    omega

/-- With the fixed codes the tokens of a block take nine bits at most for each byte, and seven for the end. -/
theorem length_fixed_tokenBits {symbols : List Lz77Code} {payload : List UInt8} (h : Tokens symbols payload) :
    (tokenBits fixedLiteralCodeLengths fixedDistanceCodeLengths symbols).length ≤ 9 * payload.length + 7 := by
  have hsize := (fixedCode h).within.1
  have hend : (codeBits fixedLiteralCodeLengths endOfBlock).length = 7 := by
    rw [codeBits, length_ofNatMsb]
    decide +kernel
  have hsum : ∀ symbols : List Lz77Code, (∀ sym ∈ symbols, sym.InRange) →
      (symbols.flatMap (Lz77Code.bits fixedLiteralCodeLengths fixedDistanceCodeLengths)).length ≤
        9 * ((symbols.map Lz77Code.token).map Rfc1951.Token.size).sum := by
    intro symbols hrange
    induction symbols with
    | nil => exact le_rfl
    | cons sym symbols ih =>
      have hsym := length_fixed_bits (hrange sym List.mem_cons_self)
      have hrest := ih fun s hs => hrange s (List.mem_cons_of_mem _ hs)
      simp only [List.flatMap_cons, List.length_append, List.map_cons, List.sum_cons]
      omega
  have htokens := hsum symbols h.in_range
  rw [tokenBits, List.length_append, hend, ← hsize]
  omega

/-! ## Code sets -/

section

variable {codeLengthCode : List Nat} (hcode : ∀ w ∈ codeLengthCode, w ≤ 7)

include hcode

/-- An element of the code lengths takes seven bits at most for each length it adds. -/
theorem readCodeLength_size {lengths added : List Nat} {bits rest : List Bool}
    (h : CodeLengthRead codeLengthCode lengths bits added rest) : bits.length ≤ rest.length + 7 * added.length := by
  have hwidth : ∀ {s rest₁}, Rfc1951.readSymbol codeLengthCode bits = some (s, rest₁) → bits.length ≤ rest₁.length + 7 := by
    intro s rest₁ hs
    obtain ⟨w, hw, -, hlen⟩ := readSymbol_code hs
    have := hcode w (List.mem_of_getElem? hw)
    omega
  cases h with
  | length hsym _ => exact hwidth hsym
  | last hsym hextra _ =>
    have := hwidth hsym
    have := readField_length hextra
    rw [List.length_replicate]
    omega
  | zeros hsym hextra =>
    have := hwidth hsym
    have := readField_length hextra
    rw [List.length_replicate]
    omega
  | manyZeros hsym hextra =>
    have := hwidth hsym
    have := readField_length hextra
    rw [List.length_replicate]
    omega

/-- Each code length takes seven bits at most. -/
theorem readCodeLengths_size {total n : Nat} {bits rest : List Bool} {lengths all : List Nat}
    (h : Rfc1951.readCodeLengths codeLengthCode total n bits lengths = some (all, rest)) :
    bits.length + 7 * lengths.length ≤ rest.length + 7 * all.length := by
  have hdone : ∀ {fuel bits lengths}, total ≤ lengths.length →
      Rfc1951.readCodeLengths codeLengthCode total fuel bits lengths = some (all, rest) →
      bits.length + 7 * lengths.length ≤ rest.length + 7 * all.length := by
    intro fuel bits lengths hge h
    rw [readCodeLengths_done _ _ hge] at h
    by_cases heq : lengths.length = total
    · rw [if_pos heq, Option.some.injEq, Prod.mk.injEq] at h
      obtain ⟨rfl, rfl⟩ := h
      exact le_rfl
    · rw [if_neg heq] at h
      cases h
  induction n generalizing bits lengths with
  | zero =>
    rcases Nat.lt_or_ge lengths.length total with hlt | hge
    · rw [Rfc1951.readCodeLengths.eq_def] at h
      simp only [if_neg (Nat.ne_of_lt hlt), if_neg (Nat.not_lt.mpr hlt.le)] at h
      cases h
    · exact hdone hge h
  | succ n ih =>
    rcases Nat.lt_or_ge lengths.length total with hlt | hge
    · rw [readCodeLengths_succ _ _ hlt] at h
      obtain ⟨⟨added, bits₁⟩, h1, h⟩ := Option.bind_eq_some_iff.mp h
      have h2 := readCodeLength_size hcode (readCodeLength_iff.mp h1)
      have h3 := ih h
      rw [List.length_append] at h3
      omega
    · exact hdone hge h

end

/-- Each length of the code-length code takes three bits. -/
theorem readCodeLengthCode_size {slots : List Nat} {bits rest : List Bool} {lengths all : List Nat}
    (h : Rfc1951.readCodeLengthCode slots bits lengths = some (all, rest)) : bits.length = rest.length + 3 * slots.length := by
  induction slots generalizing bits lengths with
  | nil =>
    simp only [Rfc1951.readCodeLengthCode, Option.some.injEq, Prod.mk.injEq] at h
    rw [h.2]
    rfl
  | cons slot slots ih =>
    rw [Rfc1951.readCodeLengthCode] at h
    obtain ⟨⟨length, bits₁⟩, h1, h⟩ := Option.bind_eq_some_iff.mp h
    have h2 := readField_length h1
    have h3 := ih h
    rw [List.length_cons]
    omega

/-- Code sets that a strict decoder takes are transmitted in 2283 bits at most. -/
theorem readCodeSets_size {bits rest : List Bool} {sets : Rfc1951.CodeSets} (h : Rfc1951.readCodeSets bits = some (sets, rest))
    (hstrict : sets.Strict) : bits.length ≤ rest.length + 2283 := by
  unfold Rfc1951.readCodeSets at h
  obtain ⟨⟨hlit, bits₁⟩, h1, h⟩ := Option.bind_eq_some_iff.mp h
  obtain ⟨⟨hdist, bits₂⟩, h2, h⟩ := Option.bind_eq_some_iff.mp h
  obtain ⟨⟨hclen, bits₃⟩, h3, h⟩ := Option.bind_eq_some_iff.mp h
  obtain ⟨⟨codeLength, bits₄⟩, h4, h⟩ := Option.bind_eq_some_iff.mp h
  obtain ⟨⟨lengths, bits₅⟩, h5, h⟩ := Option.bind_eq_some_iff.mp h
  simp only [Option.some.injEq, Prod.mk.injEq] at h
  obtain ⟨rfl, rfl⟩ := h
  have hl1 := readField_length h1
  have hl2 := readField_length h2
  have hl3 := readField_length h3
  have hl4 := readCodeLengthCode_size h4
  have hl5 := readCodeLengths_size hstrict.codeLength_le h5
  have horder : (Rfc1951.codeLengthOrder.take (hclen + 4)).length ≤ 19 := List.length_take_le' _ _
  have hliteral := hstrict.literal_count.2
  have hdistance := hstrict.distance_count.2
  rw [List.length_take] at hliteral
  rw [List.length_drop] at hdistance
  rw [List.length_nil] at hl5
  omega

/-! ## The blocks of a chunk, and of a layout -/

/-- What the blocks of a chunk may take beyond nine bits for each byte. -/
def blockOverhead : BlockKind → Nat
  | .stored => 42
  | .fixed => 10
  | .dynamic => 2293

/-- The blocks of a chunk take nine bits at most for each byte, and their overhead. -/
theorem length_chunkBlocks (kind : BlockKind) (chunk : List UInt8) (isFinal : Bool) (offset : Nat) :
    (blockBits (chunkBlocks kind chunk isFinal offset)).length ≤ 9 * chunk.length + blockOverhead kind := by
  have htokens := MatchFinder.tokens_spec chunk
  have hfixed := length_fixed_tokenBits htokens
  cases kind with
  | stored => exact length_storedBlocks isFinal offset chunk
  | fixed =>
    simp only [chunkBlocks, blockBits_singleton, EmittedBlock.bits, codedBlock, List.length_cons, List.length_append, length_ofNat,
      List.length_nil, blockOverhead]
    omega
  | dynamic =>
    have hdynamic := dynamicCode chunk
    have hsets := hdynamic.reads []
    rw [List.append_nil] at hsets
    have hsize := readCodeSets_size hsets hdynamic.strict
    have hcheapest := hdynamic.cheapest (fixedCode htokens)
    simp only [chunkBlocks, blockBits_singleton, EmittedBlock.bits, codedBlock, List.length_cons, List.length_append, length_ofNat,
      List.length_nil, blockOverhead] at hsize ⊢
    omega

/-- The same for pieces: no piece is of another kind than the options say, or stored. -/
theorem length_pieceBlocks (offset : Nat) {pieces : List Piece} {overhead : Nat} (h : ∀ p ∈ pieces, blockOverhead p.kind ≤ overhead) :
    (blockBits (pieceBlocks offset pieces)).length ≤ 9 * (Layout.bytes pieces).length + overhead * pieces.length := by
  induction pieces generalizing offset with
  | nil => exact Nat.zero_le _
  | cons p pieces ih =>
    have hblocks := length_chunkBlocks p.kind p.chunk p.isFinal offset
    have hrest := ih (offset + (blockBits (chunkBlocks p.kind p.chunk p.isFinal offset)).length)
      fun q hq => h q (List.mem_cons_of_mem _ hq)
    have hkind := h p List.mem_cons_self
    have hbytes : Layout.bytes (p :: pieces) = p.chunk ++ Layout.bytes pieces := List.flatMap_cons
    rw [pieceBlocks, blockBits_append, List.length_append, hbytes, List.length_append, List.length_cons, Nat.mul_succ]
    omega

end Noflate
