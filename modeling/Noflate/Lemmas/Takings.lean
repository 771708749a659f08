import Noflate.Lemmas.Driving
import Noflate.Lemmas.Reference

/-!
# What a move takes

The bits that a move of the machine takes, state by state, against the bytes it puts out. A byte of a stored block takes its eight bits
(`storedBody_takes`), an element of a compressed block a bit at least, and a match two (`symbolLoop_takes`); the other moves put out
nothing. So every bit pays for 129 bytes (`itemStep_expansion`).
-/

namespace Noflate

open BitString Resumable

section

variable {output : List UInt8} {bits bits' : List Bool} {s' : ItemState}

/-- A move that puts out nothing, and takes some bits or none. -/
def TakesOnly (output : List UInt8) (bits : List Bool) (s' : ItemState) (bits' : List Bool) : Prop :=
  s'.2 = output ∧ bits'.length ≤ bits.length

theorem blockHeader_takes (h : itemStep (.blockHeader, output) bits = .next s' bits') : TakesOnly output bits s' bits' := by
  simp only [itemStep] at h
  by_cases h3 : bits.length < 3
  · rw [if_pos h3] at h
    cases h
  · rw [if_neg h3] at h
    have hdrop : (bits.drop 3).length ≤ bits.length := (List.drop_sublist 3 bits).length_le
    obtain ⟨literal, distance, hfixed⟩ := exists_fixedTables
    rw [hfixed.literal_eq, hfixed.distance_eq, Exec.toNext_ok, Exec.toNext_ok] at h
    split at h
    · obtain ⟨rfl, rfl⟩ := Next.next.inj h
      exact ⟨rfl, hdrop⟩
    · obtain ⟨rfl, rfl⟩ := Next.next.inj h
      exact ⟨rfl, hdrop⟩
    · obtain ⟨rfl, rfl⟩ := Next.next.inj h
      exact ⟨rfl, hdrop⟩
    · cases h

theorem storedAlignAndLen_takes {isFinal : Bool} (h : itemStep (.storedAlignAndLen isFinal, output) bits = .next s' bits') :
    TakesOnly output bits s' bits' := by
  obtain ⟨len, rest, hp, h⟩ := Parse.toNext_eq_next h
  obtain ⟨rfl, rfl⟩ := Next.next.inj h
  exact ⟨rfl, parseStoredHeader_length hp⟩

/-- The end of a stored block takes nothing, and a byte of it its eight bits. -/
theorem storedBody_takes {remaining : Nat} {isFinal : Bool} (h : itemStep (.storedBody remaining isFinal, output) bits = .next s' bits') :
    (remaining = 0 ∧ TakesOnly output bits s' bits') ∨
      (0 < remaining ∧ s'.2.length = output.length + 1 ∧ bits'.length + 8 = bits.length) := by
  simp only [itemStep] at h
  by_cases h0 : remaining = 0
  · rw [if_pos h0] at h
    obtain ⟨rfl, rfl⟩ := Next.next.inj h
    exact .inl ⟨h0, rfl, le_rfl⟩
  · rw [if_neg h0] at h
    obtain ⟨byte, rest, hp, h⟩ := Parse.toNext_eq_next h
    obtain ⟨rfl, rfl⟩ := Next.next.inj h
    exact .inr ⟨Nat.pos_of_ne_zero h0, List.length_append, readField_length (parseField_eq_got_iff.mp hp)⟩

theorem dynamicHeader_takes {isFinal : Bool} (h : itemStep (.dynamicHeader isFinal, output) bits = .next s' bits') :
    TakesOnly output bits s' bits' := by
  simp only [itemStep] at h
  by_cases hn : bits.length < 14
  · rw [if_pos hn] at h
    cases h
  · rw [if_neg hn] at h
    obtain ⟨hlit, bits₁, h1, h⟩ := Parse.toNext_eq_next h
    obtain ⟨hdist, bits₂, h2, h⟩ := Parse.toNext_eq_next h
    obtain ⟨hclen, bits₃, h3, h⟩ := Parse.toNext_eq_next h
    have hl1 := readField_length (parseField_eq_got_iff.mp h1)
    have hl2 := readField_length (parseField_eq_got_iff.mp h2)
    have hl3 := readField_length (parseField_eq_got_iff.mp h3)
    by_cases hd : distanceTable.length < hdist + 1
    · rw [if_pos hd] at h
      cases h
    · rw [if_neg hd] at h
      obtain ⟨rfl, rfl⟩ := Next.next.inj h
      exact ⟨rfl, by omega⟩

theorem dynamicBitwidthTable_takes {isFinal : Bool} {hlit hdist hclen orderIdx : Nat} {codeLengths : List Nat}
    (h : itemStep (.dynamicBitwidthTable isFinal hlit hdist hclen orderIdx codeLengths, output) bits = .next s' bits') :
    TakesOnly output bits s' bits' := by
  simp only [itemStep] at h
  by_cases hi : orderIdx < hclen
  · rw [if_pos hi] at h
    obtain ⟨width, bits₁, h1, h⟩ := Parse.toNext_eq_next h
    obtain ⟨slot, -, h⟩ := Exec.toNext_eq_next h
    obtain ⟨rfl, rfl⟩ := Next.next.inj h
    have hl1 := readField_length (parseField_eq_got_iff.mp h1)
    exact ⟨rfl, by omega⟩
  · rw [if_neg hi] at h
    obtain ⟨bitwidthDecoder, -, h⟩ := Exec.toNext_eq_next h
    obtain ⟨rfl, rfl⟩ := Next.next.inj h
    exact ⟨rfl, le_rfl⟩

theorem dynamicCodeLengths_takes {isFinal : Bool} {hlit hdist targetLen : Nat} {bitwidthDecoder : HuffmanDecoder}
    {codeLength lengths : List Nat} (table : TableOf bitwidthDecoder codeLength)
    (h : itemStep (.dynamicCodeLengths isFinal hlit hdist bitwidthDecoder lengths targetLen, output) bits = .next s' bits') :
    TakesOnly output bits s' bits' := by
  simp only [itemStep] at h
  by_cases hl : lengths.length < targetLen
  · rw [if_pos hl] at h
    obtain ⟨added, bits₁, hp, h⟩ := Parse.toNext_eq_next h
    have hlen := (parseCodeLength_sound table hp).symbol.1
    by_cases hover : targetLen < (lengths ++ added).length
    · rw [if_pos hover] at h
      cases h
    · rw [if_neg hover] at h
      obtain ⟨rfl, rfl⟩ := Next.next.inj h
      exact ⟨rfl, hlen.le⟩
  · rw [if_neg hl] at h
    obtain ⟨literal, -, h⟩ := Exec.toNext_eq_next h
    obtain ⟨distance, -, h⟩ := Exec.toNext_eq_next h
    obtain ⟨rfl, rfl⟩ := Next.next.inj h
    exact ⟨rfl, le_rfl⟩

/-- A copy takes two bits at least: one for the length, and one for the distance. -/
theorem copyToken_length {literal distance : List Nat} {length dist : Nat} {bits rest : List Bool}
    (h : Rfc1951.readToken literal distance bits = some (.copy length dist, rest)) : rest.length + 2 ≤ bits.length := by
  cases readToken_iff.mp h with
  | copy hsym _ _ hextra hdist _ hdistExtra =>
    have h1 := readSymbol_length hsym
    have h2 := readField_length hextra
    have h3 := readSymbol_length hdist
    have h4 := readField_length hdistExtra
    omega

/-- An element of a compressed block: each bit of it pays for 129 bytes. -/
theorem symbolLoop_takes {isFinal : Bool} {literal distance : HuffmanDecoder} {literalWidths distanceWidths : List Nat}
    (tables : Tables literal distance literalWidths distanceWidths)
    (h : itemStep (.symbolLoop isFinal literal distance, output) bits = .next s' bits') :
    s'.2.length + 129 * bits'.length ≤ output.length + 129 * bits.length := by
  have houtput := (itemStep_output h).2
  obtain ⟨token, rest, hp, h⟩ := Parse.toNext_eq_next h
  have hread := tables.parseToken_sound hp
  have hlen := readToken_length hread
  cases token with
  | literal byte =>
    obtain ⟨rfl, rfl⟩ := Next.next.inj h
    rw [List.length_append, List.length_singleton]
    omega
  | endOfBlock =>
    obtain ⟨rfl, rfl⟩ := Next.next.inj h
    exact Nat.add_le_add_left (Nat.mul_le_mul_left _ hlen.le) _
  | copy length dist =>
    have htwo := copyToken_length hread
    have hrest : bits' = rest := by
      simp only at h
      cases hc : Rfc1951.copyBytes dist length output with
      | none =>
        rw [hc] at h
        cases h
      | some history =>
        rw [hc] at h
        exact (Next.next.inj h).2.symm
    simp only [DecodeState.growth, maxMatch] at houtput
    rw [hrest]
    omega

/-- Every bit that a move takes pays for the 129 bytes it may put out. -/
theorem itemStep_expansion {state : DecodeState} {r : RefState} (hr : Represents state r)
    (h : itemStep (state, output) bits = .next s' bits') :
    s'.2.length + 129 * bits'.length ≤ output.length + 129 * bits.length := by
  have hsilent : TakesOnly output bits s' bits' → s'.2.length + 129 * bits'.length ≤ output.length + 129 * bits.length := by
    rintro ⟨rfl, hle⟩
    exact Nat.add_le_add_left (Nat.mul_le_mul_left _ hle) _
  cases hr with
  | block => exact hsilent (blockHeader_takes h)
  | storedLength isFinal => exact hsilent (storedAlignAndLen_takes h)
  | storedBytes isFinal remaining =>
    rcases storedBody_takes h with ⟨-, hend⟩ | ⟨-, hout, hbits⟩
    · exact hsilent hend
    · omega
  | codeSets isFinal => exact hsilent (dynamicHeader_takes h)
  | codeLengthCode => exact hsilent (dynamicBitwidthTable_takes h)
  | codeLengths _ _ _ table => exact hsilent (dynamicCodeLengths_takes table h)
  | tokens tables => exact symbolLoop_takes tables h
  | done => cases h

end

/-- The places of a run are such as the reference has too. -/
theorem runs_represents {bytes : List UInt8} {c : ItemState × List Bool} (h : itemMachine.Runs (startItem bytes) c) :
    ∃ r, Represents c.1.1 r := by
  refine Machine.Runs.invariant (P := fun c => ∃ r, Represents c.1.1 r) ?_ h ⟨.block, .block⟩
  rintro ⟨⟨s, output⟩, bits⟩ ⟨s', bits'⟩ hmove ⟨r, hr⟩
  obtain ⟨r', -, hr', -⟩ := moves_meaning [] hr hmove
  exact ⟨r', hr'⟩

/-- A move does not give bits back. -/
theorem itemStep_length {state : DecodeState} {r : RefState} (hr : Represents state r) {output : List UInt8} {bits bits' : List Bool}
    {s' : ItemState} (h : itemStep (state, output) bits = .next s' bits') : bits'.length ≤ bits.length := by
  have hgrows := (itemStep_output h).1.length_le
  have hpaid := itemStep_expansion hr h
  simp only at hgrows
  omega

end Noflate
