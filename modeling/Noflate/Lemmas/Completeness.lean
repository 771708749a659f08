import Noflate.Lemmas.Reference

/-!
# Where there is a meaning, the machine goes on

`moves_of_meaning`: in a state that represents a state of the reference, over bits that have a meaning from there, the machine
neither wants for input nor fails, if the code sets of the meaning are such as its tables hold (`CodeSets.Held`): a code for some
symbol in each, and none of them over-subscribed. Of the valid code sets that is all but the single zero-length distance code
(`held_of_valid`). Whatever the code sets, it does not want for input (`not_waiting_of_inflate`).
-/

namespace Noflate

open BitString Resumable
open Rfc1951 (CodeSets Meaning)

/-! ## What a meaning says about what is still to be read -/

section

variable {codeSets : List CodeSets} {output : List UInt8} {bits : List Bool} {m : Meaning}

theorem meaningOfTokens_codeSets {isFinal : Bool} {literal distance : List Nat}
    (h : meaningOfTokens isFinal literal distance codeSets output bits = some m) : codeSets <+: m.codeSets := by
  obtain ⟨x, -, h⟩ := Option.bind_eq_some_iff.mp h
  exact afterBlock_codeSets h

/-- The code sets that are read are in the meaning. -/
theorem meaningOfLengths_mem {isFinal : Bool} {hlit : Nat} {codeLength lengths : List Nat}
    (h : meaningOfLengths isFinal hlit codeLength codeSets output (lengths, bits) = some m) :
    { codeLength, literal := lengths.take hlit, distance := lengths.drop hlit } ∈ m.codeSets :=
  (meaningOfTokens_codeSets h).subset (List.mem_append_right _ (List.mem_singleton_self _))

/-- The code lengths of a meaning: as many as announced, in a code set of it. -/
theorem meaningOfCode_spec {isFinal : Bool} {hlit hdist : Nat} {lengths codeLength : List Nat}
    (h : meaningOfCode isFinal hlit hdist codeSets output lengths codeLength bits = some m) :
    ∃ all rest, Rfc1951.readCodeLengths codeLength (hlit + hdist) (hlit + hdist - lengths.length) bits lengths =
        some (all, rest) ∧ all.length = hlit + hdist ∧
      { codeLength, literal := all.take hlit, distance := all.drop hlit } ∈ m.codeSets := by
  obtain ⟨⟨all, rest⟩, h1, h⟩ := Option.bind_eq_some_iff.mp h
  exact ⟨all, rest, h1, (readCodeLengths_spec h1).1, meaningOfLengths_mem h⟩

end

/-! ## The machine goes on -/

/-- The machine makes a move. -/
def GoesOn (s : ItemState) (bits : List Bool) : Prop := ∃ s' bits', itemStep s bits = .next s' bits'

section

variable {codeSets : List CodeSets} {output : List UInt8} {bits : List Bool} {m : Meaning}

theorem goesOn_block (h : RefState.block.meaning codeSets output bits = some m) : GoesOn (.blockHeader, output) bits := by
  by_cases h3 : bits.length < 3
  · rw [meaning_block_none h3] at h
    cases h
  · rw [meaning_block (Nat.le_of_not_lt h3)] at h
    unfold GoesOn
    simp only [itemStep]
    rw [if_neg h3]
    generalize toNat ((bits.drop 1).take 2) = type at h ⊢
    rcases type with _ | _ | _ | type
    · exact ⟨_, _, rfl⟩
    · obtain ⟨literal, distance, hfixed⟩ := exists_fixedTables
      simp only [Nat.zero_add]
      rw [hfixed.literal_eq, hfixed.distance_eq]
      exact ⟨_, _, rfl⟩
    · exact ⟨_, _, rfl⟩
    · cases h

theorem goesOn_storedLength {isFinal : Bool} (h : RefState.meaning codeSets output bits (.storedLength isFinal) = some m) :
    GoesOn (.storedAlignAndLen isFinal, output) bits := by
  obtain ⟨x, hx, -⟩ := Option.bind_eq_some_iff.mp h
  obtain ⟨len, rest, hp⟩ := parseStoredHeader_complete hx
  unfold GoesOn
  simp only [itemStep, hp, Parse.toNext_got]
  exact ⟨_, _, rfl⟩

theorem goesOn_storedBytes {isFinal : Bool} {remaining : Nat}
    (h : RefState.meaning codeSets output bits (.storedBytes isFinal remaining) = some m) :
    GoesOn (.storedBody remaining isFinal, output) bits := by
  obtain ⟨x, hx, -⟩ := Option.bind_eq_some_iff.mp h
  unfold GoesOn
  simp only [itemStep]
  cases remaining with
  | zero => exact ⟨_, _, if_pos rfl⟩
  | succ remaining =>
    rw [Rfc1951.readBytes] at hx
    obtain ⟨⟨byte, bits₁⟩, h1, -⟩ := Option.bind_eq_some_iff.mp hx
    rw [if_neg (Nat.succ_ne_zero _), parseField_eq_got_iff.mpr h1]
    exact ⟨_, _, rfl⟩

/-- The counts of a dynamic block are there. -/
theorem codeSets_length {isFinal : Bool} (h : RefState.meaning codeSets output bits (.codeSets isFinal) = some m) :
    14 ≤ bits.length := by
  obtain ⟨⟨sets, rest⟩, hx, -⟩ := Option.bind_eq_some_iff.mp h
  unfold Rfc1951.readCodeSets at hx
  obtain ⟨⟨hlit, bits₁⟩, h1, hx⟩ := Option.bind_eq_some_iff.mp hx
  obtain ⟨⟨hdist, bits₂⟩, h2, hx⟩ := Option.bind_eq_some_iff.mp hx
  obtain ⟨⟨hclen, bits₃⟩, h3, -⟩ := Option.bind_eq_some_iff.mp hx
  have hl1 := readField_length h1
  have hl2 := readField_length h2
  have hl3 := readField_length h3
  omega

theorem goesOn_codeSets {isFinal : Bool} (h : RefState.meaning codeSets output bits (.codeSets isFinal) = some m)
    (hheld : ∀ sets ∈ m.codeSets, Held sets) : GoesOn (.dynamicHeader isFinal, output) bits := by
  have hlength := codeSets_length h
  obtain ⟨⟨sets, rest⟩, hx, h⟩ := Option.bind_eq_some_iff.mp h
  have hmem : sets ∈ m.codeSets :=
    (meaningOfTokens_codeSets h).subset (List.mem_append_right _ (List.mem_singleton_self _))
  unfold Rfc1951.readCodeSets at hx
  obtain ⟨⟨hlit, bits₁⟩, h1, hx⟩ := Option.bind_eq_some_iff.mp hx
  obtain ⟨⟨hdist, bits₂⟩, h2, hx⟩ := Option.bind_eq_some_iff.mp hx
  obtain ⟨⟨hclen, bits₃⟩, h3, hx⟩ := Option.bind_eq_some_iff.mp hx
  obtain ⟨⟨codeLength, bits₄⟩, -, hx⟩ := Option.bind_eq_some_iff.mp hx
  obtain ⟨⟨lengths, bits₅⟩, h5, hx⟩ := Option.bind_eq_some_iff.mp hx
  simp only [Option.some.injEq, Prod.mk.injEq] at hx
  obtain ⟨rfl, -⟩ := hx
  have hcount := (hheld _ hmem).distance_count
  simp only [List.length_drop, (readCodeLengths_spec h5).1, Nat.add_sub_cancel_left] at hcount
  have hd : ¬distanceTable.length < hdist + 1 := Nat.not_lt.mpr hcount
  unfold GoesOn
  simp only [itemStep]
  rw [if_neg (by omega), parseField_eq_got_iff.mpr h1, Parse.toNext_got, parseField_eq_got_iff.mpr h2, Parse.toNext_got,
    parseField_eq_got_iff.mpr h3, Parse.toNext_got, if_neg hd]
  exact ⟨_, _, rfl⟩

/-- Code lengths of which some are missing are read with a code that has a symbol. -/
theorem codeLength_nonempty {codeLength lengths all : List Nat} {total n : Nat} {rest : List Bool}
    (h : Rfc1951.readCodeLengths codeLength total n bits lengths = some (all, rest)) (hlt : lengths.length < total) :
    ∃ w ∈ codeLength, 0 < w := by
  cases n with
  | zero =>
    rw [Rfc1951.readCodeLengths.eq_def] at h
    simp only [if_neg (Nat.ne_of_lt hlt), if_neg (Nat.not_lt.mpr hlt.le)] at h
    cases h
  | succ n =>
    rw [readCodeLengths_succ n bits hlt] at h
    obtain ⟨⟨added, bits₁⟩, h1, -⟩ := Option.bind_eq_some_iff.mp h
    exact (readCodeLength_iff.mp h1).symbol.2

/-- A length of the code-length code is there. -/
theorem goesOn_codeLengthField {isFinal : Bool} {hlit hdist hclen orderIdx : Nat} {lengths : List Nat} (hclen_le : hclen ≤ 19)
    (hi : orderIdx < hclen)
    (h : RefState.meaning codeSets output bits
      (.codeLengthCode isFinal hlit hdist ((Rfc1951.codeLengthOrder.take hclen).drop orderIdx) lengths) = some m) :
    GoesOn (.dynamicBitwidthTable isFinal hlit hdist hclen orderIdx lengths, output) bits := by
  obtain ⟨⟨codeLength, rest⟩, hx, -⟩ := Option.bind_eq_some_iff.mp h
  have hlen : (Rfc1951.codeLengthOrder.take hclen).length = hclen := List.length_take_of_le hclen_le
  have hlt : orderIdx < bitwidthCodeOrder.length := hi.trans_le hclen_le
  obtain ⟨slot, hslot⟩ : ∃ slot, bitwidthCodeOrder[orderIdx]? = some slot := ⟨_, List.getElem?_eq_getElem hlt⟩
  rw [List.drop_eq_getElem_cons (hi.trans_eq hlen.symm), Rfc1951.readCodeLengthCode] at hx
  obtain ⟨⟨width, bits₁⟩, h1, -⟩ := Option.bind_eq_some_iff.mp hx
  unfold GoesOn
  simp only [itemStep]
  rw [if_pos hi, parseField_eq_got_iff.mpr h1, Parse.toNext_got]
  unfold Exec.index
  rw [hslot]
  exact ⟨_, _, rfl⟩

theorem goesOn_codeLengthCode {isFinal : Bool} {hlit hdist hclen orderIdx : Nat} {lengths : List Nat} (hlit_pos : 0 < hlit)
    (hclen_le : hclen ≤ 19) (length_eq : lengths.length = 19) (widths_le : ∀ w ∈ lengths, w ≤ 7)
    (h : RefState.meaning codeSets output bits
      (.codeLengthCode isFinal hlit hdist ((Rfc1951.codeLengthOrder.take hclen).drop orderIdx) lengths) = some m)
    (hheld : ∀ sets ∈ m.codeSets, Held sets) :
    GoesOn (.dynamicBitwidthTable isFinal hlit hdist hclen orderIdx lengths, output) bits := by
  by_cases hi : orderIdx < hclen
  · exact goesOn_codeLengthField hclen_le hi h
  · obtain ⟨⟨codeLength, rest⟩, hx, h⟩ := Option.bind_eq_some_iff.mp h
    unfold GoesOn
    simp only [itemStep]
    rw [if_neg hi]
    have hdrop : (Rfc1951.codeLengthOrder.take hclen).drop orderIdx = [] := by
      rw [List.drop_eq_nil_iff, List.length_take_of_le hclen_le]
      exact Nat.le_of_not_lt hi
    rw [hdrop, Rfc1951.readCodeLengthCode, Option.some.injEq, Prod.mk.injEq] at hx
    obtain ⟨rfl, rfl⟩ := hx
    obtain ⟨all, rest, h1, -, hmem⟩ := meaningOfCode_spec h
    have hfits : Fits lengths := by
      refine ⟨codeLength_nonempty h1 (Nat.add_pos_left hlit_pos _), fun w hw => (widths_le w hw).trans (by decide), ?_⟩
      exact kraft_iff.mp (hheld _ hmem).codeLength_code
    obtain ⟨dec, hdec, -⟩ := fromCodeLengths_ok (some 1) none (by rw [length_eq]; decide) hfits
    rw [hdec]
    exact ⟨_, _, rfl⟩

/-- An element of the code lengths is there. -/
theorem goesOn_codeLengthElement {isFinal : Bool} {hlit hdist : Nat} {bitwidthDecoder : HuffmanDecoder}
    {codeLength lengths : List Nat} (table : TableOf bitwidthDecoder codeLength) (peek_eq : bitwidthDecoder.safelyPeekBits = 1)
    (hl : lengths.length < hlit + hdist)
    (h : RefState.meaning codeSets output bits (.codeLengths isFinal hlit hdist codeLength lengths) = some m) :
    GoesOn (.dynamicCodeLengths isFinal hlit hdist bitwidthDecoder lengths (hlit + hdist), output) bits := by
  obtain ⟨all, rest, h1, -⟩ := meaningOfCode_spec h
  obtain ⟨n, hn⟩ : ∃ n, hlit + hdist - lengths.length = n + 1 := ⟨hlit + hdist - lengths.length - 1, by omega⟩
  rw [hn, readCodeLengths_succ n bits hl] at h1
  obtain ⟨⟨added, bits₁⟩, h2, h3⟩ := Option.bind_eq_some_iff.mp h1
  obtain ⟨h4, h5, -⟩ := readCodeLengths_spec h3
  have hover : ¬hlit + hdist < (lengths ++ added).length := Nat.not_lt.mpr (h5.length_le.trans_eq h4)
  unfold GoesOn
  simp only [itemStep]
  rw [if_pos hl, parseCodeLength_complete table peek_eq (readCodeLength_iff.mp h2), Parse.toNext_got, if_neg hover]
  exact ⟨_, _, rfl⟩

theorem goesOn_codeLengths {isFinal : Bool} {hlit hdist : Nat} {bitwidthDecoder : HuffmanDecoder} {codeLength lengths : List Nat}
    (hlit_le : hlit ≤ 288) (hdist_le : hdist ≤ 30) (table : TableOf bitwidthDecoder codeLength)
    (peek_eq : bitwidthDecoder.safelyPeekBits = 1) (length_le : lengths.length ≤ hlit + hdist)
    (widths_le : ∀ w ∈ lengths, w ≤ 15)
    (h : RefState.meaning codeSets output bits (.codeLengths isFinal hlit hdist codeLength lengths) = some m)
    (hheld : ∀ sets ∈ m.codeSets, Held sets) :
    GoesOn (.dynamicCodeLengths isFinal hlit hdist bitwidthDecoder lengths (hlit + hdist), output) bits := by
  by_cases hl : lengths.length < hlit + hdist
  · exact goesOn_codeLengthElement table peek_eq hl h
  · unfold GoesOn
    simp only [itemStep]
    have hdone : lengths.length = hlit + hdist := Nat.le_antisymm length_le (Nat.le_of_not_lt hl)
    have hm : meaningOfLengths isFinal hlit codeLength codeSets output (lengths, bits) = some m := by
      simp only [RefState.meaning, meaningOfCode] at h
      rwa [readCodeLengths_done _ _ hdone.ge, if_pos hdone, Option.bind_some] at h
    have hset := hheld _ (meaningOfLengths_mem hm)
    have htake : (lengths.drop hlit).take hdist = lengths.drop hlit := by
      refine List.take_of_length_le ?_
      rw [List.length_drop, hdone, Nat.add_sub_cancel_left]
    -- the end of the block is read with a code of the literal alphabet
    have hliteral : ∃ w ∈ lengths.take hlit, 0 < w := by
      obtain ⟨⟨history, rest⟩, h1, -⟩ := Option.bind_eq_some_iff.mp hm
      obtain ⟨w, h2, h3, -⟩ := readTokens_length h1
      exact ⟨w, List.mem_of_getElem? h2, h3⟩
    have hfl : Fits (lengths.take hlit) :=
      ⟨hliteral, fun w hw => widths_le w (List.mem_of_mem_take hw), kraft_iff.mp hset.literal_code⟩
    have hfd : Fits (lengths.drop hlit) :=
      ⟨hset.distances, fun w hw => widths_le w (List.mem_of_mem_drop hw), kraft_iff.mp hset.distance_code⟩
    have hcount : (lengths.drop hlit).length ≤ 30 := by
      rw [List.length_drop, hdone, Nat.add_sub_cancel_left]
      exact hdist_le
    obtain ⟨literal, h1, h2⟩ := build_tables hfl hfd ((List.length_take_le _ _).trans hlit_le) (hcount.trans (by decide))
    obtain ⟨distance, h3, -⟩ := h2 _ le_rfl
    rw [if_neg hl, h1, Exec.toNext_ok, htake, h3]
    exact ⟨_, _, rfl⟩

theorem goesOn_tokens {isFinal : Bool} {literal distance : HuffmanDecoder} {literalWidths distanceWidths : List Nat}
    (tables : Tables literal distance literalWidths distanceWidths)
    (h : RefState.meaning codeSets output bits (.tokens isFinal literalWidths distanceWidths) = some m) :
    GoesOn (.symbolLoop isFinal literal distance, output) bits := by
  obtain ⟨⟨history, last⟩, h1, -⟩ := Option.bind_eq_some_iff.mp h
  -- the code of the end of the block is still to be read: the look-ahead has its bits
  have hpeek : ∀ {bits' : List Bool} {n output'}, Rfc1951.readTokens literalWidths distanceWidths n bits' output' =
      some (history, last) → literal.safelyPeekBits ≤ bits'.length := by
    intro bits' n output' ht
    obtain ⟨w, h2, h3, h4⟩ := readTokens_length ht
    rw [tables.endOfBlock_width w h2 h3]
    exact (Nat.le_add_left _ _).trans h4
  have hbits := hpeek h1
  rw [readTokens_eq] at h1
  obtain ⟨⟨token, rest⟩, h2, h3⟩ := Option.bind_eq_some_iff.mp h1
  unfold GoesOn
  simp only [itemStep]
  cases token with
  | literal byte =>
    rw [tables.parseToken_complete h2 hbits (.inr (hpeek h3))]
    exact ⟨_, _, rfl⟩
  | endOfBlock =>
    rw [tables.parseToken_complete h2 hbits (.inl rfl)]
    exact ⟨_, _, rfl⟩
  | copy length dist =>
    obtain ⟨output', h4, h5⟩ := Option.bind_eq_some_iff.mp h3
    rw [tables.parseToken_complete h2 hbits (.inr (hpeek h5))]
    simp only [Parse.toNext_got, h4]
    exact ⟨_, _, rfl⟩

/-- Where there is a meaning, the machine goes on or has halted. -/
theorem moves_of_meaning {s : DecodeState} {r : RefState} (hr : Represents s r)
    (h : r.meaning codeSets output bits = some m) (hheld : ∀ sets ∈ m.codeSets, Held sets) :
    s = .finished ∨ GoesOn (s, output) bits := by
  cases hr with
  | block => exact .inr (goesOn_block h)
  | storedLength isFinal => exact .inr (goesOn_storedLength h)
  | storedBytes isFinal remaining => exact .inr (goesOn_storedBytes h)
  | codeSets isFinal => exact .inr (goesOn_codeSets h hheld)
  | codeLengthCode h1 h2 h3 h4 h5 h6 => exact .inr (goesOn_codeLengthCode h1 h4 h5 h6 h hheld)
  | codeLengths h1 h2 h3 h4 h5 h6 h7 => exact .inr (goesOn_codeLengths h1 h2 h4 h5 h6 h7 h hheld)
  | tokens hT => exact .inr (goesOn_tokens hT h)
  | done => exact .inl rfl

end

/-! ## The machine has its bits -/

theorem Exec.toNext_ne_more {α σ : Type} (x : Exec α) {f : α → Next σ Bool} (hf : ∀ a, f a ≠ .more) : x.toNext f ≠ .more := by
  cases x with
  | ok a => exact hf a
  | err e =>
    intro h
    cases h
  | panic =>
    intro h
    cases h
  | diverge =>
    intro h
    cases h

theorem parseField_toNext_ne_more {σ : Type} {n : Nat} {bits : List Bool} {f : Nat → List Bool → Next σ Bool}
    (h : n ≤ bits.length) (hf : ∀ a, f a (bits.drop n) ≠ .more) : (parseField n bits).toNext f ≠ .more := by
  unfold parseField
  rw [if_neg (Nat.not_lt.mpr h), Parse.toNext_got]
  exact hf _

theorem GoesOn.ne_more {s : ItemState} {bits : List Bool} (h : GoesOn s bits) : itemStep s bits ≠ .more := by
  obtain ⟨s', bits', h⟩ := h
  rw [h]
  intro h0
  cases h0

/-- Where there is a meaning, the machine has the bits of its next move: it goes on, fails at a table or has halted. -/
theorem ne_more_of_meaning {codeSets : List CodeSets} {output : List UInt8} {bits : List Bool} {m : Meaning} {s : DecodeState}
    {r : RefState} (hr : Represents s r) (h : r.meaning codeSets output bits = some m) : itemStep (s, output) bits ≠ .more := by
  cases hr with
  | block => exact (goesOn_block h).ne_more
  | storedLength isFinal => exact (goesOn_storedLength h).ne_more
  | storedBytes isFinal remaining => exact (goesOn_storedBytes h).ne_more
  | codeSets isFinal =>
    have hlength := codeSets_length h
    simp only [itemStep]
    rw [if_neg (by omega)]
    refine parseField_toNext_ne_more (by omega) fun hlit => ?_
    refine parseField_toNext_ne_more (by rw [List.length_drop]; omega) fun hdist => ?_
    refine parseField_toNext_ne_more (by rw [List.length_drop, List.length_drop]; omega) fun hclen => ?_
    split
    · intro h0
      cases h0
    · intro h0
      cases h0
  | @codeLengthCode isFinal hlit hdist hclen orderIdx lengths h1 h2 h3 hclen_le h5 h6 =>
    by_cases hi : orderIdx < hclen
    · exact (goesOn_codeLengthField hclen_le hi h).ne_more
    · simp only [itemStep]
      rw [if_neg hi]
      refine Exec.toNext_ne_more _ fun _ => ?_
      intro h0
      cases h0
  | @codeLengths isFinal hlit hdist bitwidthDecoder codeLength lengths h1 h2 fits table peek_eq length_le h7 =>
    by_cases hl : lengths.length < hlit + hdist
    · exact (goesOn_codeLengthElement table peek_eq hl h).ne_more
    · simp only [itemStep]
      rw [if_neg hl]
      refine Exec.toNext_ne_more _ fun _ => Exec.toNext_ne_more _ fun _ => ?_
      intro h0
      cases h0
  | tokens hT => exact (goesOn_tokens hT h).ne_more
  | done =>
    intro h0
    cases h0

/-- Over bits with a meaning the machine never wants for input. -/
theorem not_waiting_of_inflate {bits : List Bool} {m : Meaning} (h : Rfc1951.inflate bits = some m)
    {c : ItemState × List Bool} (hr : itemMachine.Runs ((.blockHeader, []), bits) c) : ¬itemMachine.Stops c .waiting := by
  obtain ⟨r, codeSets, hrep, hm, -⟩ := runs_meaning hr
  rw [h] at hm
  exact not_waiting_iff.mpr (ne_more_of_meaning hrep hm.symm)

/-- Over bits with a meaning whose code sets the tables hold, the machine stops only at the end of the stream, with the output
and the rest of the meaning. -/
theorem halted_of_inflate {bits : List Bool} {m : Meaning} (h : Rfc1951.inflate bits = some m)
    (hheld : ∀ sets ∈ m.codeSets, Held sets) {c : ItemState × List Bool} {verdict : Verdict}
    (hr : itemMachine.Runs ((.blockHeader, []), bits) c) (hstop : itemMachine.Stops c verdict) :
    verdict = .halted ∧ c = ((.finished, m.output), m.rest) := by
  obtain ⟨r, codeSets, hrep, hm, -⟩ := runs_meaning hr
  obtain ⟨⟨s, output⟩, rest⟩ := c
  rw [h] at hm
  rcases moves_of_meaning hrep hm.symm hheld with rfl | ⟨s', bits', hnext⟩
  · cases hrep
    obtain rfl := Option.some.inj hm
    exact ⟨(Machine.stop_unique (Machine.Runs.refl _) hstop (Machine.Runs.refl _) stops_halted).2, rfl⟩
  · exact absurd (moves_of_next hnext) hstop.not_moves

end Noflate
