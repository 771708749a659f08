import Noflate.Lemmas.Reading

/-!
# The machine against the reference

`RefState` is where the reference interpreter stands between two items, with code lengths where the machine has tables, and
`RefState.meaning` is the meaning of a stream from there on. A state of the machine represents a state of the reference
(`Represents`), and the moves of the machine keep the meaning (`moves_meaning`): so what the machine has put out at the end of a
stream is what the stream stands for. The other way round, where there is a meaning the machine goes on (`moves_of_meaning`), if
the code sets in it are such as its tables can hold.
-/

namespace Noflate

open BitString Resumable
open Rfc1951 (CodeSets Meaning)

/-! ## Blocks -/

/-- What the reference goes on with behind a block. -/
def afterBlock (isFinal : Bool) (codeSets : List CodeSets) : List UInt8 × List Bool → Option Meaning
  | (output, rest) =>
    if isFinal then some { output, codeSets, rest } else Rfc1951.readBlocks rest.length rest output codeSets

/-- Reading the tokens of a block leaves no more bits than there were. -/
theorem readTokens_length_le {literal distance : List Nat} {n : Nat} {bits : List Bool} {output history : List UInt8}
    {rest : List Bool} (h : Rfc1951.readTokens literal distance n bits output = some (history, rest)) :
    rest.length ≤ bits.length := by
  obtain ⟨w, -, -, hw⟩ := readTokens_length h
  exact (Nat.le_add_right _ _).trans hw

/-- A block takes a bit at least. -/
theorem readBlock_length {bits : List Bool} {output : List UInt8} {block : Rfc1951.Block}
    (h : Rfc1951.readBlock bits output = some block) : block.rest.length < bits.length := by
  unfold Rfc1951.readBlock at h
  obtain ⟨⟨final, bits₁⟩, h1, h⟩ := Option.bind_eq_some_iff.mp h
  obtain ⟨⟨type, bits₂⟩, h2, h⟩ := Option.bind_eq_some_iff.mp h
  have hl1 := readField_length h1
  have hl2 := readField_length h2
  suffices block.rest.length ≤ bits₂.length by omega
  simp only at h
  split at h
  · obtain ⟨⟨history, rest⟩, h3, h⟩ := Option.bind_eq_some_iff.mp h
    obtain rfl := Option.some.inj h
    obtain ⟨len, bits₃, hp⟩ := parseStoredHeader_complete h3
    rw [parseStoredHeader_got hp] at h3
    exact (readBytes_length h3).trans (parseStoredHeader_length hp)
  · obtain ⟨⟨history, rest⟩, h3, h⟩ := Option.bind_eq_some_iff.mp h
    obtain rfl := Option.some.inj h
    exact readTokens_length_le h3
  · obtain ⟨⟨sets, bits₃⟩, h3, h⟩ := Option.bind_eq_some_iff.mp h
    obtain ⟨⟨history, rest⟩, h4, h⟩ := Option.bind_eq_some_iff.mp h
    obtain rfl := Option.some.inj h
    exact (readTokens_length_le h4).trans (readCodeSets_length h3)
  · cases h

/-- More rounds than there are bits make no difference. -/
theorem readBlocks_fuel {n : Nat} {bits : List Bool} (h : bits.length ≤ n) (output : List UInt8) (codeSets : List CodeSets) :
    Rfc1951.readBlocks n bits output codeSets = Rfc1951.readBlocks bits.length bits output codeSets := by
  induction n using Nat.strong_induction_on generalizing bits output codeSets with
  | _ n ih =>
    rcases Nat.lt_or_ge bits.length n with hlt | hge
    · obtain ⟨n, rfl⟩ : ∃ k, n = k + 1 := ⟨n - 1, by omega⟩
      cases hb : bits.length with
      | zero =>
        obtain rfl := List.eq_nil_of_length_eq_zero hb
        rfl
      | succ m =>
        rw [Rfc1951.readBlocks, Rfc1951.readBlocks]
        cases ht : Rfc1951.readBlock bits output with
        | none => rfl
        | some block =>
          have hrest := readBlock_length ht
          simp only [Option.bind_eq_bind, Option.bind_some]
          rw [ih n (Nat.lt_succ_self n) (by omega), ih m (by omega) (by omega)]
    · rw [Nat.le_antisymm h hge]

/-- Reading blocks, one at a time. -/
theorem readBlocks_eq (bits : List Bool) (output : List UInt8) (codeSets : List CodeSets) :
    Rfc1951.readBlocks bits.length bits output codeSets =
      (Rfc1951.readBlock bits output).bind fun block =>
        afterBlock block.isFinal (codeSets ++ block.codeSets.toList) (block.output, block.rest) := by
  rw [← readBlocks_fuel (Nat.le_succ bits.length), Rfc1951.readBlocks]
  cases ht : Rfc1951.readBlock bits output with
  | none => rfl
  | some block =>
    simp only [Option.bind_eq_bind, Option.bind_some, afterBlock]
    rw [readBlocks_fuel (readBlock_length ht).le]

/-- The code sets in a meaning extend those there were. -/
theorem readBlocks_codeSets {n : Nat} {bits : List Bool} {output : List UInt8} {codeSets : List CodeSets} {m : Meaning}
    (h : Rfc1951.readBlocks n bits output codeSets = some m) : codeSets <+: m.codeSets := by
  induction n generalizing bits output codeSets with
  | zero => cases h
  | succ n ih =>
    rw [Rfc1951.readBlocks] at h
    obtain ⟨block, -, h⟩ := Option.bind_eq_some_iff.mp h
    simp only at h
    split at h
    · obtain rfl := Option.some.inj h
      exact List.prefix_append _ _
    · exact (List.prefix_append _ _).trans (ih h)

theorem afterBlock_codeSets {isFinal : Bool} {codeSets : List CodeSets} {x : List UInt8 × List Bool} {m : Meaning}
    (h : afterBlock isFinal codeSets x = some m) : codeSets <+: m.codeSets := by
  cases isFinal with
  | true =>
    obtain rfl := Option.some.inj h
    exact List.prefix_refl _
  | false => exact readBlocks_codeSets h

/-! ## Where the reference stands -/

/-- Where the reference interpreter stands between two items of a stream: at a block, at the length of a stored block or with
some of its bytes to read, at the code sets of a dynamic block, in its code-length code or its code lengths, among tokens, or
behind the final block. -/
inductive RefState where
  | block
  | storedLength (isFinal : Bool)
  | storedBytes (isFinal : Bool) (remaining : Nat)
  | codeSets (isFinal : Bool)
  | codeLengthCode (isFinal : Bool) (hlit hdist : Nat) (slots lengths : List Nat)
  | codeLengths (isFinal : Bool) (hlit hdist : Nat) (codeLengthCode lengths : List Nat)
  | tokens (isFinal : Bool) (literal distance : List Nat)
  | done

/-- The tokens of a block and what is behind it. -/
def meaningOfTokens (isFinal : Bool) (literal distance : List Nat) (codeSets : List CodeSets) (output : List UInt8)
    (bits : List Bool) : Option Meaning :=
  (Rfc1951.readTokens literal distance bits.length bits output).bind (afterBlock isFinal codeSets)

/-- The tokens of a dynamic block whose code lengths are read. -/
def meaningOfLengths (isFinal : Bool) (hlit : Nat) (codeLength : List Nat) (codeSets : List CodeSets) (output : List UInt8) :
    List Nat × List Bool → Option Meaning
  | (lengths, bits) =>
    meaningOfTokens isFinal (lengths.take hlit) (lengths.drop hlit)
      (codeSets ++ [{ codeLength, literal := lengths.take hlit, distance := lengths.drop hlit }]) output bits

/-- The code lengths of a dynamic block whose code-length code is read, some of them read already. -/
def meaningOfCode (isFinal : Bool) (hlit hdist : Nat) (codeSets : List CodeSets) (output : List UInt8)
    (lengths codeLength : List Nat) (bits : List Bool) : Option Meaning :=
  (Rfc1951.readCodeLengths codeLength (hlit + hdist) (hlit + hdist - lengths.length) bits lengths).bind
    (meaningOfLengths isFinal hlit codeLength codeSets output)

/-- The meaning of a stream from where the reference stands, with some output and code sets behind it. -/
def RefState.meaning (codeSets : List CodeSets) (output : List UInt8) (bits : List Bool) : RefState → Option Meaning
  | .block => Rfc1951.readBlocks bits.length bits output codeSets
  | .storedLength isFinal => (Rfc1951.readStored bits output).bind (afterBlock isFinal codeSets)
  | .storedBytes isFinal remaining => (Rfc1951.readBytes remaining bits output).bind (afterBlock isFinal codeSets)
  | .codeSets isFinal =>
    (Rfc1951.readCodeSets bits).bind fun (sets, bits) =>
      meaningOfTokens isFinal sets.literal sets.distance (codeSets ++ [sets]) output bits
  | .codeLengthCode isFinal hlit hdist slots lengths =>
    (Rfc1951.readCodeLengthCode slots bits lengths).bind fun (codeLength, bits) =>
      meaningOfCode isFinal hlit hdist codeSets output [] codeLength bits
  | .codeLengths isFinal hlit hdist codeLength lengths => meaningOfCode isFinal hlit hdist codeSets output lengths codeLength bits
  | .tokens isFinal literal distance => meaningOfTokens isFinal literal distance codeSets output bits
  | .done => some { output, codeSets, rest := bits }

/-- A state of the machine represents a state of the reference: tables stand for code lengths. -/
inductive Represents : DecodeState → RefState → Prop where
  | block : Represents .blockHeader .block
  | storedLength (isFinal : Bool) : Represents (.storedAlignAndLen isFinal) (.storedLength isFinal)
  | storedBytes (isFinal : Bool) (remaining : Nat) : Represents (.storedBody remaining isFinal) (.storedBytes isFinal remaining)
  | codeSets (isFinal : Bool) : Represents (.dynamicHeader isFinal) (.codeSets isFinal)
  | codeLengthCode {isFinal : Bool} {hlit hdist hclen orderIdx : Nat} {lengths : List Nat} (hlit_pos : 0 < hlit)
      (hlit_le : hlit ≤ 288) (hdist_le : hdist ≤ 30) (hclen_le : hclen ≤ 19) (length_eq : lengths.length = 19)
      (widths_le : ∀ w ∈ lengths, w ≤ 7) :
      Represents (.dynamicBitwidthTable isFinal hlit hdist hclen orderIdx lengths)
        (.codeLengthCode isFinal hlit hdist ((Rfc1951.codeLengthOrder.take hclen).drop orderIdx) lengths)
  | codeLengths {isFinal : Bool} {hlit hdist : Nat} {bitwidthDecoder : HuffmanDecoder} {codeLength lengths : List Nat}
      (hlit_le : hlit ≤ 288) (hdist_le : hdist ≤ 30) (fits : Fits codeLength) (table : TableOf bitwidthDecoder codeLength)
      (peek_eq : bitwidthDecoder.safelyPeekBits = 1) (length_le : lengths.length ≤ hlit + hdist)
      (widths_le : ∀ w ∈ lengths, w ≤ 15) :
      Represents (.dynamicCodeLengths isFinal hlit hdist bitwidthDecoder lengths (hlit + hdist))
        (.codeLengths isFinal hlit hdist codeLength lengths)
  | tokens {isFinal : Bool} {literal distance : HuffmanDecoder} {literalWidths distanceWidths : List Nat}
      (tables : Tables literal distance literalWidths distanceWidths) :
      Represents (.symbolLoop isFinal literal distance) (.tokens isFinal literalWidths distanceWidths)
  | done : Represents .finished .done

/-- What a block with its bits goes on with, where the reference stands. -/
theorem meaning_afterBlock (isFinal : Bool) (codeSets : List CodeSets) (output : List UInt8) (bits : List Bool) :
    afterBlock isFinal codeSets (output, bits) = (if isFinal then RefState.done else .block).meaning codeSets output bits := by
  cases isFinal <;> rfl

theorem represents_afterBlock (isFinal : Bool) :
    Represents (if isFinal then .finished else .blockHeader) (if isFinal then .done else .block) := by
  cases isFinal
  · exact .block
  · exact .done

/-- The reference at a block header of which there are too few bits. -/
theorem meaning_block_none {bits : List Bool} (h : bits.length < 3) (codeSets : List CodeSets) (output : List UInt8) :
    RefState.block.meaning codeSets output bits = none := by
  unfold RefState.meaning
  rw [readBlocks_eq]
  cases hb : Rfc1951.readBlock bits output with
  | none => rfl
  | some block =>
    unfold Rfc1951.readBlock at hb
    obtain ⟨⟨final, bits₁⟩, h1, hb⟩ := Option.bind_eq_some_iff.mp hb
    obtain ⟨⟨type, bits₂⟩, h2, hb⟩ := Option.bind_eq_some_iff.mp hb
    have hl1 := readField_length h1
    have hl2 := readField_length h2
    omega

/-- Where the reference goes from a block header, by the type of the block. -/
def blockState (isFinal : Bool) : Nat → Option RefState
  | 0 => some (.storedLength isFinal)
  | 1 => some (.tokens isFinal Rfc1951.fixedLiteral Rfc1951.fixedDistance)
  | 2 => some (.codeSets isFinal)
  | _ => none

/-- The reference at a block header. -/
theorem meaning_block {bits : List Bool} (h : 3 ≤ bits.length) (codeSets : List CodeSets) (output : List UInt8) :
    RefState.block.meaning codeSets output bits =
      (blockState (toNat (bits.take 1) != 0) (toNat ((bits.drop 1).take 2))).bind
        (RefState.meaning codeSets output (bits.drop 3)) := by
  have h1 : Rfc1951.readField 1 bits = some (toNat (bits.take 1), bits.drop 1) :=
    readField_eq_some_iff.mpr ⟨by omega, rfl, rfl⟩
  have h2 : Rfc1951.readField 2 (bits.drop 1) = some (toNat ((bits.drop 1).take 2), bits.drop 3) :=
    readField_eq_some_iff.mpr ⟨by rw [List.length_drop]; omega, rfl, by rw [List.drop_drop]⟩
  generalize hf : (toNat (bits.take 1) != 0) = isFinal
  generalize ht : toNat ((bits.drop 1).take 2) = type
  unfold RefState.meaning
  rw [readBlocks_eq]
  unfold Rfc1951.readBlock
  simp only [h1, h2, Option.bind_eq_bind, Option.bind_some, hf, ht]
  rcases type with _ | _ | _ | type
  · simp only [blockState, Option.bind_some, Option.bind_assoc, Option.toList_none, List.append_nil]
  · simp only [blockState, Option.bind_some, Option.bind_assoc, Option.toList_none, List.append_nil, Nat.zero_add]
    rfl
  · simp only [blockState, Option.bind_some, Option.bind_assoc, Option.toList_some, Nat.zero_add]
    rfl
  · rfl

/-! ## Tables -/

/-- A table that was built is the table of its code lengths, and they fit. -/
theorem tableOf_of_ok {lengths : List Nat} {peek eobSymbol : Option Nat} {dec : HuffmanDecoder}
    (hlen : lengths.length ≤ 2 ^ 11) (h : HuffmanDecoder.fromCodeLengths lengths peek eobSymbol = .ok dec) :
    Fits lengths ∧ TableOf dec lengths ∧ dec.safelyPeekBits = min (lengths.foldl max 0)
      (max (peekOf eobSymbol (Canonical.sorted lengths) (peek.getD (lengths.foldl max 0))) 1) := by
  by_cases hfits : Fits lengths
  · obtain ⟨dec', h1, h2, -, h3⟩ := fromCodeLengths_ok peek eobSymbol hlen hfits
    obtain rfl : dec = dec' := Exec.ok.inj (h.symm.trans h1)
    exact ⟨hfits, h2, h3⟩
  · obtain ⟨e, h1⟩ := fromCodeLengths_err peek eobSymbol hlen hfits
    cases h.symm.trans h1

/-- The table of a code-length code looks one bit ahead. -/
theorem tableOf_peek_one {lengths : List Nat} {dec : HuffmanDecoder} (hlen : lengths.length ≤ 2 ^ 11)
    (h : HuffmanDecoder.fromCodeLengths lengths (some 1) none = .ok dec) :
    Fits lengths ∧ TableOf dec lengths ∧ dec.safelyPeekBits = 1 := by
  obtain ⟨hfits, h1, h2⟩ := tableOf_of_ok hlen h
  refine ⟨hfits, h1, ?_⟩
  have hpos : 0 < lengths.foldl max 0 := by
    obtain ⟨w, hw, hw0⟩ := hfits.nonempty
    exact hw0.trans_le (foldl_max_le.mp le_rfl w hw)
  rw [h2, peekOf_none, Option.getD_some, max_self]
  exact Nat.min_eq_right hpos

/-- Tables that were built for a block are the tables of its code lengths, and they fit. -/
theorem tables_of_ok {literalWidths distanceWidths : List Nat} {literal distance : HuffmanDecoder}
    (hl : literalWidths.length ≤ 288) (hd : distanceWidths.length ≤ 30)
    (h : HuffmanDecoder.fromCodeLengths literalWidths none (some endOfBlock) = .ok literal)
    (h' : HuffmanDecoder.fromCodeLengths distanceWidths (some literal.safelyPeekBits) none = .ok distance) :
    Fits literalWidths ∧ Fits distanceWidths ∧ Tables literal distance literalWidths distanceWidths := by
  have hfl := (tableOf_of_ok (by omega) h).1
  have hfd := (tableOf_of_ok (by omega) h').1
  obtain ⟨literal', h1, h2⟩ := build_tables hfl hfd hl (by omega)
  obtain rfl : literal = literal' := Exec.ok.inj (h.symm.trans h1)
  obtain ⟨distance', h3, h4⟩ := h2 _ le_rfl
  obtain rfl : distance = distance' := Exec.ok.inj (h'.symm.trans h3)
  exact ⟨hfl, hfd, h4⟩

/-! ## Code sets that tables hold -/

theorem kraft_iff {lengths : List Nat} :
    Rfc1951.NotOversubscribed lengths ↔ Canonical.weight 15 (Canonical.sorted lengths) ≤ 2 ^ 15 := by
  rw [Canonical.weight_sorted]
  rfl

/-- The code sets of a block that the decoder's tables hold. -/
structure Held (sets : CodeSets) : Prop where
  codeLength_code : Rfc1951.NotOversubscribed sets.codeLength
  literal_code : Rfc1951.NotOversubscribed sets.literal
  distance_code : Rfc1951.NotOversubscribed sets.distance
  distance_count : sets.distance.length ≤ 30
  distances : ∃ w ∈ sets.distance, 0 < w

theorem held_of_valid {sets : CodeSets} (h : sets.Valid) (h0 : sets.distance ≠ [0]) : Held sets :=
  ⟨h.codeLength_code, h.literal_code, h.distance_code, h.distance_count, h.distances.resolve_right h0⟩

/-! ## The moves keep the meaning -/

/-- What a move is to the reference: it goes on to a state that represents one with the same meaning, and a code set it has
transmitted by then is one that tables hold. -/
def Keeps (r : RefState) (codeSets : List CodeSets) (output : List UInt8) (bits : List Bool) (s' : ItemState)
    (bits' : List Bool) : Prop :=
  ∃ r' codeSets', Represents s'.1 r' ∧ r.meaning codeSets output bits = r'.meaning codeSets' s'.2 bits' ∧
    ∀ sets ∈ codeSets', sets ∈ codeSets ∨ Held sets

/-- A move inside a block: no code set is transmitted by it. -/
theorem Keeps.of_eq {r r' : RefState} {codeSets : List CodeSets} {output : List UInt8} {bits : List Bool} {s' : ItemState}
    {bits' : List Bool} (h : Represents s'.1 r') (heq : r.meaning codeSets output bits = r'.meaning codeSets s'.2 bits') :
    Keeps r codeSets output bits s' bits' := ⟨r', codeSets, h, heq, fun _ hs => .inl hs⟩

section

variable {output : List UInt8} {bits bits' : List Bool} {s' : ItemState} (codeSets : List CodeSets)

theorem moves_block (h : itemStep (.blockHeader, output) bits = .next s' bits') :
    Keeps .block codeSets output bits s' bits' := by
  simp only [itemStep] at h
  by_cases h3 : bits.length < 3
  · rw [if_pos h3] at h
    cases h
  · rw [if_neg h3] at h
    have hm := meaning_block (Nat.le_of_not_lt h3) codeSets output
    generalize toNat ((bits.drop 1).take 2) = type at h hm
    generalize (toNat (bits.take 1) != 0) = isFinal at h hm
    rcases type with _ | _ | _ | type
    · obtain ⟨rfl, rfl⟩ := Next.next.inj h
      exact .of_eq (.storedLength isFinal) hm
    · simp only [Nat.zero_add] at h hm
      obtain ⟨literal, distance, hfixed⟩ := exists_fixedTables
      rw [hfixed.literal_eq, hfixed.distance_eq, Exec.toNext_ok, Exec.toNext_ok] at h
      obtain ⟨rfl, rfl⟩ := Next.next.inj h
      have hT := hfixed.tables
      rw [fixedLiteral_eq, fixedDistance_eq] at hT
      exact .of_eq (.tokens hT) hm
    · obtain ⟨rfl, rfl⟩ := Next.next.inj h
      exact .of_eq (.codeSets isFinal) hm
    · cases h

theorem moves_storedLength {isFinal : Bool} (h : itemStep (.storedAlignAndLen isFinal, output) bits = .next s' bits') :
    Keeps (.storedLength isFinal) codeSets output bits s' bits' := by
  obtain ⟨len, rest, hp, h⟩ := Parse.toNext_eq_next h
  obtain ⟨rfl, rfl⟩ := Next.next.inj h
  refine .of_eq (.storedBytes isFinal len) ?_
  simp only [RefState.meaning, parseStoredHeader_got hp]

theorem moves_storedBytes {isFinal : Bool} {remaining : Nat}
    (h : itemStep (.storedBody remaining isFinal, output) bits = .next s' bits') :
    Keeps (.storedBytes isFinal remaining) codeSets output bits s' bits' := by
  simp only [itemStep] at h
  cases remaining with
  | zero =>
    rw [if_pos rfl] at h
    obtain ⟨rfl, rfl⟩ := Next.next.inj h
    refine .of_eq (represents_afterBlock isFinal) ?_
    simp only [RefState.meaning, Rfc1951.readBytes, Option.bind_some]
    exact meaning_afterBlock isFinal codeSets output bits
  | succ remaining =>
    rw [if_neg (Nat.succ_ne_zero _)] at h
    obtain ⟨byte, rest, hp, h⟩ := Parse.toNext_eq_next h
    obtain ⟨rfl, rfl⟩ := Next.next.inj h
    refine .of_eq (.storedBytes isFinal remaining) ?_
    simp only [RefState.meaning, Rfc1951.readBytes, parseField_eq_got_iff.mp hp, Option.bind_eq_bind, Option.bind_some]

theorem moves_codeSets {isFinal : Bool} (h : itemStep (.dynamicHeader isFinal, output) bits = .next s' bits') :
    Keeps (.codeSets isFinal) codeSets output bits s' bits' := by
  simp only [itemStep] at h
  by_cases hn : bits.length < 14
  · rw [if_pos hn] at h
    cases h
  · rw [if_neg hn] at h
    obtain ⟨hlit, bits₁, h1, h⟩ := Parse.toNext_eq_next h
    obtain ⟨hdist, bits₂, h2, h⟩ := Parse.toNext_eq_next h
    obtain ⟨hclen, bits₃, h3, h⟩ := Parse.toNext_eq_next h
    rw [parseField_eq_got_iff] at h1 h2 h3
    have hl1 := readField_lt h1
    have hl2 := readField_lt h2
    have hl3 := readField_lt h3
    by_cases hd : distanceTable.length < hdist + 1
    · rw [if_pos hd] at h
      cases h
    · rw [if_neg hd] at h
      obtain ⟨rfl, rfl⟩ := Next.next.inj h
      have hd' : hdist + 1 ≤ 30 := Nat.le_of_not_lt hd
      have hrep : ∀ w ∈ List.replicate 19 0, w ≤ 7 := fun w hw => (List.eq_of_mem_replicate hw).le.trans (Nat.zero_le _)
      refine .of_eq (.codeLengthCode (by omega) (by omega) hd' (by omega) List.length_replicate hrep) ?_
      simp only [RefState.meaning, Rfc1951.readCodeSets, h1, h2, h3, Option.bind_eq_bind, Option.bind_some, List.drop_zero,
        Option.bind_assoc, meaningOfCode, List.length_nil, Nat.sub_zero]
      rfl

theorem moves_codeLengthCode {isFinal : Bool} {hlit hdist hclen orderIdx : Nat} {lengths : List Nat} (hlit_pos : 0 < hlit)
    (hlit_le : hlit ≤ 288) (hdist_le : hdist ≤ 30) (hclen_le : hclen ≤ 19) (length_eq : lengths.length = 19)
    (widths_le : ∀ w ∈ lengths, w ≤ 7)
    (h : itemStep (.dynamicBitwidthTable isFinal hlit hdist hclen orderIdx lengths, output) bits = .next s' bits') :
    Keeps (.codeLengthCode isFinal hlit hdist ((Rfc1951.codeLengthOrder.take hclen).drop orderIdx) lengths) codeSets output
      bits s' bits' := by
  simp only [itemStep] at h
  have hlen : (Rfc1951.codeLengthOrder.take hclen).length = hclen := List.length_take_of_le hclen_le
  by_cases hi : orderIdx < hclen
  · rw [if_pos hi] at h
    obtain ⟨width, bits₁, h1, h⟩ := Parse.toNext_eq_next h
    obtain ⟨slot, hslot, h⟩ := Exec.toNext_eq_next h
    obtain ⟨rfl, rfl⟩ := Next.next.inj h
    rw [parseField_eq_got_iff] at h1
    have hlt := readField_lt h1
    have hslot' : Rfc1951.codeLengthOrder[orderIdx]? = some slot := by
      have horder : bitwidthCodeOrder = Rfc1951.codeLengthOrder := rfl
      rw [horder] at hslot
      unfold Exec.index at hslot
      split at hslot
      · rename_i heq
        rw [heq, Exec.ok.inj hslot]
      · cases hslot
    have hdrop : (Rfc1951.codeLengthOrder.take hclen).drop orderIdx =
        slot :: (Rfc1951.codeLengthOrder.take hclen).drop (orderIdx + 1) := by
      have hget : (Rfc1951.codeLengthOrder.take hclen)[orderIdx]? = some slot := by
        rw [List.getElem?_take_of_lt hi, hslot']
      obtain ⟨hlt', hget'⟩ := List.getElem?_eq_some_iff.mp hget
      rw [List.drop_eq_getElem_cons hlt', hget']
    have hwidths : ∀ w ∈ lengths.set slot width, w ≤ 7 := by
      intro w hw
      rcases List.mem_or_eq_of_mem_set hw with hw | rfl
      · exact widths_le w hw
      · exact Nat.le_of_lt_succ hlt
    refine .of_eq (.codeLengthCode hlit_pos hlit_le hdist_le hclen_le (by rw [List.length_set, length_eq]) hwidths) ?_
    rw [hdrop]
    simp only [RefState.meaning, Rfc1951.readCodeLengthCode, h1, Option.bind_eq_bind, Option.bind_some]
  · rw [if_neg hi] at h
    obtain ⟨bitwidthDecoder, hb, h⟩ := Exec.toNext_eq_next h
    obtain ⟨rfl, rfl⟩ := Next.next.inj h
    obtain ⟨hfits, hT, hpeek⟩ := tableOf_peek_one (by rw [length_eq]; decide) hb
    refine .of_eq (.codeLengths hlit_le hdist_le hfits hT hpeek (Nat.zero_le _) (fun w hw => absurd hw List.not_mem_nil)) ?_
    have hdrop : (Rfc1951.codeLengthOrder.take hclen).drop orderIdx = [] := by
      rw [List.drop_eq_nil_iff, hlen]
      exact Nat.le_of_not_lt hi
    rw [hdrop]
    simp only [RefState.meaning, Rfc1951.readCodeLengthCode, Option.bind_some]

theorem moves_codeLengths {isFinal : Bool} {hlit hdist : Nat} {bitwidthDecoder : HuffmanDecoder} {codeLength lengths : List Nat}
    (hlit_le : hlit ≤ 288) (hdist_le : hdist ≤ 30) (fits : Fits codeLength) (table : TableOf bitwidthDecoder codeLength)
    (peek_eq : bitwidthDecoder.safelyPeekBits = 1) (length_le : lengths.length ≤ hlit + hdist)
    (widths_le : ∀ w ∈ lengths, w ≤ 15)
    (h : itemStep (.dynamicCodeLengths isFinal hlit hdist bitwidthDecoder lengths (hlit + hdist), output) bits =
      .next s' bits') :
    Keeps (.codeLengths isFinal hlit hdist codeLength lengths) codeSets output bits s' bits' := by
  simp only [itemStep] at h
  by_cases hl : lengths.length < hlit + hdist
  · rw [if_pos hl] at h
    obtain ⟨added, bits₁, hp, h⟩ := Parse.toNext_eq_next h
    have hread := parseCodeLength_sound table hp
    by_cases hover : hlit + hdist < (lengths ++ added).length
    · rw [if_pos hover] at h
      cases h
    · rw [if_neg hover] at h
      obtain ⟨rfl, rfl⟩ := Next.next.inj h
      refine .of_eq (.codeLengths hlit_le hdist_le fits table peek_eq (Nat.le_of_not_lt hover) (hread.le widths_le)) ?_
      have hpos := hread.length_pos
      obtain ⟨n, hn⟩ : ∃ n, hlit + hdist - lengths.length = n + 1 := ⟨hlit + hdist - lengths.length - 1, by omega⟩
      have hle : hlit + hdist - (lengths ++ added).length ≤ n := by
        rw [List.length_append]
        omega
      simp only [RefState.meaning, meaningOfCode]
      rw [hn, readCodeLengths_succ n bits hl, readCodeLength_iff.mpr hread, Option.bind_some, ← readCodeLengths_fuel bits₁ hle]
  · rw [if_neg hl] at h
    have hdone : lengths.length = hlit + hdist := Nat.le_antisymm length_le (Nat.le_of_not_lt hl)
    obtain ⟨literal, h1, h⟩ := Exec.toNext_eq_next h
    obtain ⟨distance, h2, h⟩ := Exec.toNext_eq_next h
    obtain ⟨rfl, rfl⟩ := Next.next.inj h
    have htake : (lengths.drop hlit).take hdist = lengths.drop hlit := by
      refine List.take_of_length_le ?_
      rw [List.length_drop, hdone, Nat.add_sub_cancel_left]
    rw [htake] at h2
    have hll : (lengths.take hlit).length ≤ 288 := (List.length_take_le _ _).trans hlit_le
    have hdl : (lengths.drop hlit).length ≤ 30 := by
      rw [List.length_drop, hdone, Nat.add_sub_cancel_left]
      exact hdist_le
    obtain ⟨hfl, hfd, hT⟩ := tables_of_ok hll hdl h1 h2
    refine ⟨_, codeSets ++ [{ codeLength, literal := lengths.take hlit, distance := lengths.drop hlit }], .tokens hT, ?_, ?_⟩
    · simp only [RefState.meaning, meaningOfCode]
      rw [readCodeLengths_done _ _ hdone.ge, if_pos hdone, Option.bind_some, meaningOfLengths]
    · intro sets hs
      rcases List.mem_append.mp hs with hs | hs
      · exact .inl hs
      · rw [List.mem_singleton] at hs
        subst hs
        exact .inr ⟨kraft_iff.mpr fits.kraft, kraft_iff.mpr hfl.kraft, kraft_iff.mpr hfd.kraft, hdl, hfd.nonempty⟩

theorem moves_tokens {isFinal : Bool} {literal distance : HuffmanDecoder} {literalWidths distanceWidths : List Nat}
    (tables : Tables literal distance literalWidths distanceWidths)
    (h : itemStep (.symbolLoop isFinal literal distance, output) bits = .next s' bits') :
    Keeps (.tokens isFinal literalWidths distanceWidths) codeSets output bits s' bits' := by
  obtain ⟨token, rest, hp, h⟩ := Parse.toNext_eq_next h
  have hread := tables.parseToken_sound hp
  have hm : RefState.meaning codeSets output bits (.tokens isFinal literalWidths distanceWidths) =
      (tokensFrom literalWidths distanceWidths output (token, rest)).bind (afterBlock isFinal codeSets) := by
    simp only [RefState.meaning, meaningOfTokens]
    rw [readTokens_eq, hread, Option.bind_some]
  cases token with
  | literal byte =>
    obtain ⟨rfl, rfl⟩ := Next.next.inj h
    exact .of_eq (.tokens tables) hm
  | endOfBlock =>
    obtain ⟨rfl, rfl⟩ := Next.next.inj h
    exact .of_eq (represents_afterBlock isFinal) (hm.trans (meaning_afterBlock isFinal codeSets output rest))
  | copy length dist =>
    simp only at h
    cases hc : Rfc1951.copyBytes dist length output with
    | none =>
      rw [hc] at h
      cases h
    | some history =>
      rw [hc] at h
      obtain ⟨rfl, rfl⟩ := Next.next.inj h
      refine .of_eq (.tokens tables) ?_
      rw [hm, tokensFrom, hc, Option.bind_some]
      rfl

/-- A move of the machine keeps the meaning. -/
theorem moves_meaning {s : DecodeState} {r : RefState} (hr : Represents s r)
    (h : itemStep (s, output) bits = .next s' bits') : Keeps r codeSets output bits s' bits' := by
  cases hr with
  | block => exact moves_block codeSets h
  | storedLength isFinal => exact moves_storedLength codeSets h
  | storedBytes isFinal remaining => exact moves_storedBytes codeSets h
  | codeSets isFinal => exact moves_codeSets codeSets h
  | codeLengthCode h1 h2 h3 h4 h5 h6 => exact moves_codeLengthCode codeSets h1 h2 h3 h4 h5 h6 h
  | codeLengths h1 h2 h3 h4 h5 h6 h7 => exact moves_codeLengths codeSets h1 h2 h3 h4 h5 h6 h7 h
  | tokens hT => exact moves_tokens codeSets hT h
  | done => cases h

end

/-- A run of the machine keeps the meaning: the meaning of a byte string is that of what is left where the run has got to, and
the code sets transmitted by then are such as tables hold. -/
theorem runs_meaning {bits : List Bool} {c : ItemState × List Bool} (h : itemMachine.Runs ((.blockHeader, []), bits) c) :
    ∃ r codeSets, Represents c.1.1 r ∧ Rfc1951.inflate bits = r.meaning codeSets c.1.2 c.2 ∧
      ∀ sets ∈ codeSets, Held sets := by
  refine Machine.Runs.invariant (P := fun c => ∃ r codeSets, Represents c.1.1 r ∧
    Rfc1951.inflate bits = r.meaning codeSets c.1.2 c.2 ∧ ∀ sets ∈ codeSets, Held sets) ?_ h ?_
  · rintro ⟨⟨s, output⟩, bits₁⟩ ⟨s', bits₂⟩ hmove ⟨r, codeSets, hr, hm, hfits⟩
    obtain ⟨r', codeSets', hr', hm', hfits'⟩ := moves_meaning codeSets hr hmove
    exact ⟨r', codeSets', hr', hm.trans hm', fun sets hs => (hfits' sets hs).elim (hfits sets) id⟩
  · exact ⟨.block, [], .block, rfl, fun sets hs => (nomatch hs)⟩

/-- Where the machine halts, its output is what the reference reads. -/
theorem inflate_of_halted {bits : List Bool} {output : List UInt8} {rest : List Bool}
    (h : itemMachine.Runs ((.blockHeader, []), bits) ((.finished, output), rest)) :
    ∃ codeSets, Rfc1951.inflate bits = some { output, codeSets, rest } ∧ ∀ sets ∈ codeSets, Held sets := by
  obtain ⟨r, codeSets, hr, hm, hfits⟩ := runs_meaning h
  cases hr
  exact ⟨codeSets, hm, hfits⟩

end Noflate
