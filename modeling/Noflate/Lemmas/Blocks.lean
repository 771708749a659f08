import Noflate.Lemmas.CodeSets
import Noflate.Lemmas.Freshness
import Noflate.Lemmas.Completeness
import Noflate.References

/-!
# Blocks and how they are read

`EmittedBlock` is a block of a stream with what it stands for. A block that is sound behind so many bits (`EmittedBlock.Sound`) is
read as that by the reference, whatever is before and behind it: the bits before it matter only for where the next byte begins.
Its back-references stay inside the block. Stored blocks (`storedBlock_sound`) and coded ones (`BlockCode.fixed_sound`,
`BlockCode.dynamic_sound`) are sound.
-/

namespace Noflate

open BitString
open Rfc1951 (CodeSets Meaning Reference)

/-- A block of a stream: whether it is the last, its other bits, and what they stand for. -/
structure EmittedBlock where
  isFinal : Bool
  tail : List Bool
  tokens : List Rfc1951.Token
  codeSets : Option CodeSets
  payload : List UInt8

/-- The bits of a block. -/
def EmittedBlock.bits (b : EmittedBlock) : List Bool := b.isFinal :: b.tail

/-- The block as the last of a stream, or not the last. -/
def EmittedBlock.ending (b : EmittedBlock) (isFinal : Bool) : EmittedBlock := { b with isFinal }

/-- There are whole bytes behind so many bits. -/
def Aligned (offset : Nat) (rest : List Bool) : Prop := (offset + rest.length) % 8 = 0

theorem Aligned.congr {offset offset' : Nat} {rest : List Bool} (h : Aligned offset rest) (hmod : offset % 8 = offset' % 8) :
    Aligned offset' rest := by
  unfold Aligned at h ⊢
  omega

theorem Aligned.append {offset : Nat} {bits rest : List Bool} :
    Aligned offset (bits ++ rest) ↔ Aligned (offset + bits.length) rest := by
  unfold Aligned
  rw [List.length_append, Nat.add_assoc]

/-- A block behind `offset` bits of a stream is read as what it stands for, be it the last or not; its code sets are strict, and its
back-references stay inside it. -/
structure EmittedBlock.Sound (b : EmittedBlock) (offset : Nat) : Prop where
  reads : ∀ isFinal history rest, Aligned (offset + b.bits.length) rest →
    Rfc1951.readBlock ((b.ending isFinal).bits ++ rest) history =
      some { isFinal, output := history ++ b.payload, codeSets := b.codeSets, rest }
  traced : ∀ isFinal rest, Aligned (offset + b.bits.length) rest →
    Rfc1951.readBlockTokens ((b.ending isFinal).bits ++ rest) = some (isFinal, b.tokens, rest)
  strict : ∀ sets ∈ b.codeSets, sets.Strict
  size_eq : (b.tokens.map Rfc1951.Token.size).sum = b.payload.length
  within : ∀ block position, ∀ ref ∈ Rfc1951.tokenReferences block position b.tokens, position + ref.distance ≤ ref.position

/-- A sound block is sound as the last of a stream and as one that is not. -/
theorem EmittedBlock.Sound.ending {b : EmittedBlock} {offset : Nat} (h : b.Sound offset) (isFinal : Bool) :
    (b.ending isFinal).Sound offset :=
  ⟨h.reads, h.traced, h.strict, h.size_eq, h.within⟩

/-! ## Headers -/

/-- The first bit of a block. -/
theorem readField_one (b : Bool) (bits : List Bool) : Rfc1951.readField 1 (b :: bits) = some (b.toNat, bits) := by
  have h := readField_append (show b.toNat < 2 ^ 1 from Bool.toNat_lt b) bits
  have hbit : ofNat 1 b.toNat = [b] := by cases b <;> rfl
  rwa [hbit] at h

theorem toNat_bne_zero (b : Bool) : (b.toNat != 0) = b := by cases b <;> rfl

section

variable (isFinal : Bool) (bits : List Bool) (history : List UInt8)

theorem readBlock_stored : Rfc1951.readBlock (isFinal :: (ofNat 2 0 ++ bits)) history =
    (Rfc1951.readStored bits history).map fun (output, rest) => { isFinal, output, codeSets := none, rest } := by
  unfold Rfc1951.readBlock
  simp only [readField_one, readField_append (show 0 < 2 ^ 2 by decide), Option.bind_eq_bind, Option.bind_some, toNat_bne_zero,
    Option.map_eq_bind]
  rfl

theorem readBlock_fixed : Rfc1951.readBlock (isFinal :: (ofNat 2 1 ++ bits)) history =
    (Rfc1951.readTokens Rfc1951.fixedLiteral Rfc1951.fixedDistance bits.length bits history).map fun (output, rest) =>
      { isFinal, output, codeSets := none, rest } := by
  unfold Rfc1951.readBlock
  simp only [readField_one, readField_append (show 1 < 2 ^ 2 by decide), Option.bind_eq_bind, Option.bind_some, toNat_bne_zero,
    Option.map_eq_bind]
  rfl

theorem readBlock_dynamic : Rfc1951.readBlock (isFinal :: (ofNat 2 2 ++ bits)) history =
    (Rfc1951.readCodeSets bits).bind fun (sets, bits) =>
      (Rfc1951.readTokens sets.literal sets.distance bits.length bits history).map fun (output, rest) =>
        { isFinal, output, codeSets := some sets, rest } := by
  unfold Rfc1951.readBlock
  simp only [readField_one, readField_append (show 2 < 2 ^ 2 by decide), Option.bind_eq_bind, Option.bind_some, toNat_bne_zero,
    Option.map_eq_bind]
  rfl

theorem readBlockTokens_stored : Rfc1951.readBlockTokens (isFinal :: (ofNat 2 0 ++ bits)) =
    (Rfc1951.readStored bits []).map fun (bytes, rest) => (isFinal, bytes.map .literal, rest) := by
  unfold Rfc1951.readBlockTokens
  simp only [readField_one, readField_append (show 0 < 2 ^ 2 by decide), Option.bind_eq_bind, Option.bind_some, toNat_bne_zero,
    Option.map_eq_bind]
  rfl

theorem readBlockTokens_fixed : Rfc1951.readBlockTokens (isFinal :: (ofNat 2 1 ++ bits)) =
    (Rfc1951.readTokenList Rfc1951.fixedLiteral Rfc1951.fixedDistance bits.length bits).map fun (tokens, rest) =>
      (isFinal, tokens, rest) := by
  unfold Rfc1951.readBlockTokens
  simp only [readField_one, readField_append (show 1 < 2 ^ 2 by decide), Option.bind_eq_bind, Option.bind_some, toNat_bne_zero,
    Option.map_eq_bind]
  rfl

theorem readBlockTokens_dynamic : Rfc1951.readBlockTokens (isFinal :: (ofNat 2 2 ++ bits)) =
    (Rfc1951.readCodeSets bits).bind fun (sets, bits) =>
      (Rfc1951.readTokenList sets.literal sets.distance bits.length bits).map fun (tokens, rest) =>
        (isFinal, tokens, rest) := by
  unfold Rfc1951.readBlockTokens
  simp only [readField_one, readField_append (show 2 < 2 ^ 2 by decide), Option.bind_eq_bind, Option.bind_some, toNat_bne_zero,
    Option.map_eq_bind]
  rfl

end

/-! ## Stored blocks -/

/-- The bits of a number's bytes are its bits. -/
theorem ofBytes_leBytes (n v : Nat) : ofBytes (leBytes n v) = ofNat (8 * n) v := by
  induction n generalizing v with
  | zero => rfl
  | succ n ih =>
    rw [leBytes, ofBytes_cons, ih, BitWriter.ofNat_eight_ofNat, Nat.mul_succ, Nat.add_comm, ofNat_add]
    rfl

/-- Bytes that were written are read back. -/
theorem readBytes_append (bytes : List UInt8) (rest : List Bool) (history : List UInt8) :
    Rfc1951.readBytes bytes.length (ofBytes bytes ++ rest) history = some (history ++ bytes, rest) := by
  induction bytes generalizing history with
  | nil =>
    rw [List.append_nil]
    rfl
  | cons byte bytes ih =>
    rw [ofBytes_cons, List.append_assoc, List.length_cons, Rfc1951.readBytes,
      readField_append (show byte.toNat < 2 ^ 8 from byte.toNat_lt), Option.bind_eq_bind, Option.bind_some]
    simp only [UInt8.ofNat_toNat]
    rw [ih, List.append_assoc, List.singleton_append]

/-- The bits from the header of a stored block to the next byte. -/
def storedPadding (offset : Nat) : List Bool := List.replicate ((8 - (offset + 3) % 8) % 8) false

/-- The bytes of a stored block: the length, its complement, and the bytes themselves. -/
def storedBytes (bytes : List UInt8) : List UInt8 :=
  leBytes 2 bytes.length ++ leBytes 2 (2 ^ 16 - 1 - bytes.length) ++ bytes

/-- A stored block behind `offset` bits. -/
def storedBlock (offset : Nat) (isFinal : Bool) (bytes : List UInt8) : EmittedBlock :=
  { isFinal, tail := ofNat 2 0 ++ storedPadding offset ++ ofBytes (storedBytes bytes), tokens := bytes.map .literal,
    codeSets := none, payload := bytes }

/-- A stored block ends at the end of a byte. -/
theorem storedBlock_length (offset : Nat) (isFinal : Bool) (bytes : List UInt8) :
    (offset + (storedBlock offset isFinal bytes).bits.length) % 8 = 0 := by
  unfold EmittedBlock.bits storedBlock storedPadding
  rw [List.length_cons, List.length_append, List.length_append, List.length_replicate, length_ofNat, length_ofBytes]
  omega

/-- What is behind the header of a stored block is read. -/
theorem readStored_storedBytes {offset : Nat} {bytes : List UInt8} (hlen : bytes.length ≤ maxStoredBlock) {rest : List Bool}
    (hrest : rest.length % 8 = 0) (history : List UInt8) :
    Rfc1951.readStored (storedPadding offset ++ (ofBytes (storedBytes bytes) ++ rest)) history = some (history ++ bytes, rest) := by
  have hmax : bytes.length < 2 ^ (8 * 2) := by
    unfold maxStoredBlock at hlen
    omega
  have hmod : (storedPadding offset ++ (ofBytes (storedBytes bytes) ++ rest)).length % 8 = (storedPadding offset).length := by
    unfold storedPadding
    rw [List.length_append, List.length_append, List.length_replicate, length_ofBytes]
    omega
  unfold Rfc1951.readStored
  rw [hmod, List.drop_left, storedBytes, ofBytes_append, ofBytes_append, ofBytes_leBytes, ofBytes_leBytes, List.append_assoc,
    List.append_assoc, readField_append hmax, Option.bind_eq_bind, Option.bind_some]
  simp only
  rw [readField_append (show 2 ^ 16 - 1 - bytes.length < 2 ^ (8 * 2) by omega), Option.bind_some]
  simp only
  rw [if_pos (by omega), readBytes_append]

/-- Literals make no back-reference. -/
theorem tokenReferences_literals (block position : Nat) (bytes : List UInt8) :
    Rfc1951.tokenReferences block position (bytes.map .literal) = [] := by
  induction bytes generalizing position with
  | nil => rfl
  | cons byte bytes ih => exact ih _

theorem sum_size_literals (bytes : List UInt8) :
    ((bytes.map Rfc1951.Token.literal).map Rfc1951.Token.size).sum = bytes.length := by
  induction bytes with
  | nil => rfl
  | cons byte bytes ih =>
    rw [List.map_cons, List.map_cons, List.sum_cons, ih, List.length_cons, Nat.add_comm]
    rfl

theorem storedBlock_sound (offset : Nat) (isFinal : Bool) {bytes : List UInt8} (hlen : bytes.length ≤ maxStoredBlock) :
    (storedBlock offset isFinal bytes).Sound offset := by
  have hread : ∀ rest, Aligned (offset + (storedBlock offset isFinal bytes).bits.length) rest → rest.length % 8 = 0 := by
    intro rest h
    have := storedBlock_length offset isFinal bytes
    unfold Aligned at h
    omega
  have hbits : ∀ f rest, ((storedBlock offset isFinal bytes).ending f).bits ++ rest =
      f :: (ofNat 2 0 ++ (storedPadding offset ++ (ofBytes (storedBytes bytes) ++ rest))) := by
    intro f rest
    simp only [EmittedBlock.bits, EmittedBlock.ending, storedBlock, List.cons_append, List.append_assoc]
  refine ⟨?_, ?_, fun sets hs => (nomatch hs), sum_size_literals bytes, ?_⟩
  · intro f history rest h
    rw [hbits, readBlock_stored, readStored_storedBytes hlen (hread rest h)]
    rfl
  · intro f rest h
    rw [hbits, readBlockTokens_stored, readStored_storedBytes hlen (hread rest h)]
    rfl
  · intro block position ref href
    rw [storedBlock, tokenReferences_literals] at href
    cases href

/-! ## Coded blocks -/

theorem copyBytes_length {distance length : Nat} {output output' : List UInt8}
    (h : Rfc1951.copyBytes distance length output = some output') :
    output'.length = output.length + length ∧ (0 < length → distance ≤ output.length) := by
  induction length generalizing output with
  | zero =>
    obtain rfl := Option.some.inj h
    exact ⟨rfl, fun h0 => absurd h0 (Nat.lt_irrefl 0)⟩
  | succ length ih =>
    rw [Rfc1951.copyBytes] at h
    split at h
    · rename_i hd
      have hlen := (ih h).1
      rw [List.length_append, List.length_singleton] at hlen
      exact ⟨by omega, fun _ => hd.2⟩
    · cases h

/-- Tokens that can be expanded behind an output reach back into that output at most. -/
theorem tokenReferences_expand {symbols : List Lz77Code} (hrange : ∀ sym ∈ symbols, sym.InRange) {output output' : List UInt8}
    (h : expand output symbols = some output') (block position : Nat) :
    output.length + ((symbols.map Lz77Code.token).map Rfc1951.Token.size).sum = output'.length ∧
      ∀ ref ∈ Rfc1951.tokenReferences block (position + output.length) (symbols.map Lz77Code.token),
        position + ref.distance ≤ ref.position := by
  induction symbols generalizing output with
  | nil =>
    obtain rfl := Option.some.inj h
    exact ⟨rfl, fun ref href => (nomatch href)⟩
  | cons sym symbols ih =>
    unfold expand at h
    rw [List.foldlM_cons] at h
    obtain ⟨output₁, h1, h2⟩ := Option.bind_eq_some_iff.mp h
    obtain ⟨hsize, hwithin⟩ := ih (fun s hs => hrange s (List.mem_cons_of_mem _ hs)) h2
    rw [List.map_cons, List.map_cons, List.sum_cons]
    cases sym with
    | literal byte =>
      obtain rfl := Option.some.inj h1
      rw [List.length_append, List.length_singleton] at hsize hwithin
      simp only [Lz77Code.token, Rfc1951.Token.size, Rfc1951.tokenReferences]
      exact ⟨by omega, hwithin⟩
    | pointer length distance =>
      obtain ⟨hlen, hback⟩ := copyBytes_length h1
      have hpos : 0 < length := Nat.lt_of_lt_of_le (by decide) (hrange _ List.mem_cons_self).1
      simp only [Lz77Code.token, Rfc1951.Token.size, Rfc1951.tokenReferences]
      refine ⟨by omega, ?_⟩
      intro ref href
      rcases List.mem_cons.mp href with rfl | href
      · have := hback hpos
        show position + distance ≤ position + output.length
        omega
      · refine hwithin ref ?_
        rwa [hlen, ← Nat.add_assoc]

section

variable {literalEncoder distanceEncoder : HuffmanEncoder} {literal distance : List Nat}

/-- The tokens of a block and its end are read back as tokens. -/
theorem Coding.reads_tokens (h : Coding literalEncoder distanceEncoder literal distance) (hend : HasCode literal endOfBlock)
    {symbols : List Lz77Code} (hrange : ∀ sym ∈ symbols, sym.InRange) (hcoded : ∀ sym ∈ symbols, sym.Coded literal distance)
    (rest : List Bool) {fuel : Nat} (hfuel : (tokenBits literal distance symbols ++ rest).length ≤ fuel) :
    Rfc1951.readTokenList literal distance fuel (tokenBits literal distance symbols ++ rest) =
      some (symbols.map Lz77Code.token, rest) := by
  induction symbols generalizing fuel with
  | nil =>
    have hread : Rfc1951.readToken literal distance (codeBits literal endOfBlock ++ rest) = some (.endOfBlock, rest) :=
      readToken_iff.mpr (.endOfBlock (readSymbol_codeBits h.literal_fits hend rest))
    rw [tokenBits, List.flatMap_nil, List.nil_append] at hfuel ⊢
    have hlen := readToken_length hread
    obtain ⟨fuel, rfl⟩ : ∃ n, fuel = n + 1 := ⟨fuel - 1, by omega⟩
    rw [Rfc1951.readTokenList, hread, Option.bind_eq_bind, Option.bind_some]
    exact if_pos rfl
  | cons sym symbols ih =>
    have hread := (h.writes_symbol (hrange sym List.mem_cons_self) (hcoded sym List.mem_cons_self)).2
      (tokenBits literal distance symbols ++ rest)
    have hsplit : tokenBits literal distance (sym :: symbols) ++ rest =
        sym.bits literal distance ++ (tokenBits literal distance symbols ++ rest) := by
      simp only [tokenBits, List.flatMap_cons, List.append_assoc]
    have hne : sym.token ≠ .endOfBlock := by
      cases sym <;> intro h0 <;> cases h0
    rw [hsplit] at hfuel ⊢
    have hlen := readToken_length hread
    obtain ⟨fuel, rfl⟩ : ∃ n, fuel = n + 1 := ⟨fuel - 1, by omega⟩
    rw [Rfc1951.readTokenList, hread, Option.bind_eq_bind, Option.bind_some]
    simp only [if_neg hne]
    rw [ih (fun s hs => hrange s (List.mem_cons_of_mem _ hs)) (fun s hs => hcoded s (List.mem_cons_of_mem _ hs)) (by omega)]
    rfl

end

/-- A block with tokens: behind its header, and its code sets if it has any, the tokens of its bytes. -/
def codedBlock (isFinal : Bool) (type : Nat) (setBits : List Bool) (codeSets : Option CodeSets) (literal distance : List Nat)
    (symbols : List Lz77Code) (payload : List UInt8) : EmittedBlock :=
  { isFinal, tail := ofNat 2 type ++ setBits ++ tokenBits literal distance symbols, tokens := symbols.map Lz77Code.token,
    codeSets, payload }

/-- The code set with which the tokens of a block are written, and what is in the block. -/
structure BlockCode (literal distance : List Nat) (symbols : List Lz77Code) (payload : List UInt8) : Prop where
  coding : ∃ literalEncoder distanceEncoder, Coding literalEncoder distanceEncoder literal distance
  endOfBlock : HasCode literal endOfBlock
  tokens : Tokens symbols payload
  coded : ∀ sym ∈ symbols, sym.Coded literal distance

section

variable {literal distance : List Nat} {symbols : List Lz77Code} {payload : List UInt8} (h : BlockCode literal distance symbols payload)

include h

theorem BlockCode.reads (history : List UInt8) (rest : List Bool) :
    Rfc1951.readTokens literal distance (tokenBits literal distance symbols ++ rest).length
      (tokenBits literal distance symbols ++ rest) history = some (history ++ payload, rest) := by
  obtain ⟨_, _, hc⟩ := h.coding
  rw [hc.reads_symbols h.endOfBlock h.tokens.in_range h.coded history rest, h.tokens.expand_eq]
  rfl

theorem BlockCode.traced (rest : List Bool) :
    Rfc1951.readTokenList literal distance (tokenBits literal distance symbols ++ rest).length
      (tokenBits literal distance symbols ++ rest) = some (symbols.map Lz77Code.token, rest) := by
  obtain ⟨_, _, hc⟩ := h.coding
  exact hc.reads_tokens h.endOfBlock h.tokens.in_range h.coded rest le_rfl

theorem BlockCode.within : ((symbols.map Lz77Code.token).map Rfc1951.Token.size).sum = payload.length ∧
    ∀ block position, ∀ ref ∈ Rfc1951.tokenReferences block position (symbols.map Lz77Code.token),
      position + ref.distance ≤ ref.position := by
  have hexp := h.tokens.expand_eq []
  rw [List.nil_append] at hexp
  refine ⟨?_, ?_⟩
  · have hsize := (tokenReferences_expand h.tokens.in_range hexp 0 0).1
    rwa [List.length_nil, Nat.zero_add] at hsize
  · intro block position
    exact (tokenReferences_expand h.tokens.in_range hexp block position).2

/-- A block with the fixed codes. -/
theorem BlockCode.fixed_sound (offset : Nat) (isFinal : Bool) (hl : literal = Rfc1951.fixedLiteral)
    (hd : distance = Rfc1951.fixedDistance) :
    (codedBlock isFinal 1 [] none literal distance symbols payload).Sound offset := by
  have hbits : ∀ f rest, ((codedBlock isFinal 1 [] none literal distance symbols payload).ending f).bits ++ rest =
      f :: (ofNat 2 1 ++ (tokenBits literal distance symbols ++ rest)) := by
    intro f rest
    simp only [EmittedBlock.bits, EmittedBlock.ending, codedBlock, List.append_nil, List.cons_append, List.append_assoc]
  refine ⟨?_, ?_, fun sets hs => (nomatch hs), h.within.1, h.within.2⟩
  · intro f history rest _
    rw [hbits, readBlock_fixed, ← hl, ← hd, h.reads]
    rfl
  · intro f rest _
    rw [hbits, readBlockTokens_fixed, ← hl, ← hd, h.traced]
    rfl

/-- A block with codes of its own. -/
theorem BlockCode.dynamic_sound (offset : Nat) (isFinal : Bool) {setBits : List Bool} {codeLength : List Nat}
    (hsets : ∀ rest, Rfc1951.readCodeSets (setBits ++ rest) = some ({ codeLength, literal, distance }, rest))
    (hstrict : CodeSets.Strict { codeLength, literal, distance }) :
    (codedBlock isFinal 2 setBits (some { codeLength, literal, distance }) literal distance symbols payload).Sound offset := by
  have hbits : ∀ f rest,
      ((codedBlock isFinal 2 setBits (some { codeLength, literal, distance }) literal distance symbols payload).ending f).bits ++ rest =
        f :: (ofNat 2 2 ++ (setBits ++ (tokenBits literal distance symbols ++ rest))) := by
    intro f rest
    simp only [EmittedBlock.bits, EmittedBlock.ending, codedBlock, List.cons_append, List.append_assoc]
  refine ⟨?_, ?_, ?_, h.within.1, h.within.2⟩
  · intro f history rest _
    rw [hbits, readBlock_dynamic, hsets, Option.bind_some]
    simp only
    rw [h.reads]
    rfl
  · intro f rest _
    rw [hbits, readBlockTokens_dynamic, hsets, Option.bind_some]
    simp only
    rw [h.traced]
    rfl
  · intro sets hs
    obtain rfl := Option.some.inj hs
    exact hstrict

end

end Noflate
