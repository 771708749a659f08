import Noflate.Lemmas.Steps

/-!
# What the machine parses and what the reference reads

Item by item, a parse of the machine that ends in a value is what the reference reads; and what the reference reads, the machine
parses, provided the bits its look-ahead wants are there. Every read of the reference leaves fewer bits, so the numbers of bits
that bound its loops never matter (`readTokens_fuel`, `readBlocks_fuel`).
-/

namespace Noflate

open BitString

/-! ## Fields -/

theorem readField_eq_some_iff {n : Nat} {bits : List Bool} {v : Nat} {rest : List Bool} :
    Rfc1951.readField n bits = some (v, rest) ↔ n ≤ bits.length ∧ v = toNat (bits.take n) ∧ rest = bits.drop n := by
  unfold Rfc1951.readField
  by_cases hn : n ≤ bits.length
  · rw [if_pos hn]
    simp only [Option.some.injEq, Prod.mk.injEq, hn, true_and]
    exact ⟨fun h => ⟨h.1.symm, h.2.symm⟩, fun h => ⟨h.1.symm, h.2.symm⟩⟩
  · rw [if_neg hn]
    exact ⟨fun h => (nomatch h), fun h => absurd h.1 hn⟩

/-- The machine and the reference read fields alike. -/
theorem parseField_eq_got_iff {n : Nat} {bits : List Bool} {v : Nat} {rest : List Bool} :
    parseField n bits = .got v rest ↔ Rfc1951.readField n bits = some (v, rest) := by
  rw [readField_eq_some_iff]
  unfold parseField
  by_cases hn : bits.length < n
  · rw [if_pos hn]
    exact ⟨fun h => (nomatch h), fun h => absurd h.1 (Nat.not_le.mpr hn)⟩
  · rw [if_neg hn]
    simp only [Parse.got.injEq, Nat.not_lt.mp hn, true_and]
    exact ⟨fun h => ⟨h.1.symm, h.2.symm⟩, fun h => ⟨h.1.symm, h.2.symm⟩⟩

theorem readField_length {n : Nat} {bits : List Bool} {v : Nat} {rest : List Bool}
    (h : Rfc1951.readField n bits = some (v, rest)) : rest.length + n = bits.length := by
  obtain ⟨hn, -, rfl⟩ := readField_eq_some_iff.mp h
  rw [List.length_drop]
  exact Nat.sub_add_cancel hn

theorem readField_lt {n : Nat} {bits : List Bool} {v : Nat} {rest : List Bool}
    (h : Rfc1951.readField n bits = some (v, rest)) : v < 2 ^ n := by
  obtain ⟨hn, rfl, -⟩ := readField_eq_some_iff.mp h
  have := toNat_lt (bits.take n)
  rwa [List.length_take_of_le hn] at this

theorem readField_zero (bits : List Bool) : Rfc1951.readField 0 bits = some (0, bits) :=
  readField_eq_some_iff.mpr ⟨Nat.zero_le _, rfl, rfl⟩

/-! ## Symbols and tokens -/

/-- A symbol takes a bit at least. -/
theorem readSymbol_length {lengths : List Nat} {bits : List Bool} {s : Nat} {rest : List Bool}
    (h : Rfc1951.readSymbol lengths bits = some (s, rest)) : rest.length < bits.length := by
  obtain ⟨w, hw, rfl⟩ := readSymbol_iff.mp h
  have h1 := hw.pos
  have h2 := hw.width_le
  rw [List.length_drop]
  omega

/-- A symbol that is read has a code. -/
theorem readSymbol_code {lengths : List Nat} {bits : List Bool} {s : Nat} {rest : List Bool}
    (h : Rfc1951.readSymbol lengths bits = some (s, rest)) :
    ∃ w, lengths[s]? = some w ∧ 0 < w ∧ rest.length + w = bits.length := by
  obtain ⟨w, hw, rfl⟩ := readSymbol_iff.mp h
  refine ⟨w, hw.length_eq, hw.pos, ?_⟩
  rw [List.length_drop]
  exact Nat.sub_add_cancel hw.width_le

theorem lengthTable_eq : lengthTable = Rfc1951.lengthCodes := by decide

theorem distanceTable_eq : distanceTable = Rfc1951.distanceCodes := by decide

theorem fixedLiteral_eq : fixedLiteralCodeLengths = Rfc1951.fixedLiteral := by decide +kernel

theorem fixedDistance_eq : fixedDistanceCodeLengths = Rfc1951.fixedDistance := rfl

/-- How the reference reads a token: a literal, the end of the block, or a match. -/
inductive TokenRead (literal distance : List Nat) (bits : List Bool) : Rfc1951.Token → List Bool → Prop where
  | literal {sym : Nat} {rest : List Bool} (hsym : Rfc1951.readSymbol literal bits = some (sym, rest)) (h : sym < 256) :
      TokenRead literal distance bits (.literal (UInt8.ofNat sym)) rest
  | endOfBlock {rest : List Bool} (hsym : Rfc1951.readSymbol literal bits = some (256, rest)) :
      TokenRead literal distance bits .endOfBlock rest
  | copy {sym base extraBits extra distSym distBase distExtraBits distExtra : Nat} {bits₁ bits₂ bits₃ rest : List Bool}
      (hsym : Rfc1951.readSymbol literal bits = some (sym, bits₁)) (h : 256 < sym)
      (hbase : Rfc1951.lengthCodes[sym - 257]? = some (base, extraBits))
      (hextra : Rfc1951.readField extraBits bits₁ = some (extra, bits₂))
      (hdist : Rfc1951.readSymbol distance bits₂ = some (distSym, bits₃))
      (hdistBase : Rfc1951.distanceCodes[distSym]? = some (distBase, distExtraBits))
      (hdistExtra : Rfc1951.readField distExtraBits bits₃ = some (distExtra, rest)) :
      TokenRead literal distance bits (.copy (base + extra) (distBase + distExtra)) rest

theorem readToken_iff {literal distance : List Nat} {bits : List Bool} {token : Rfc1951.Token} {rest : List Bool} :
    Rfc1951.readToken literal distance bits = some (token, rest) ↔ TokenRead literal distance bits token rest := by
  unfold Rfc1951.readToken
  constructor
  · intro h
    obtain ⟨⟨sym, bits₁⟩, hsym, h⟩ := Option.bind_eq_some_iff.mp h
    by_cases h1 : sym < 256
    · simp only [if_pos h1, Option.some.injEq, Prod.mk.injEq] at h
      obtain ⟨rfl, rfl⟩ := h
      exact .literal hsym h1
    · by_cases h2 : sym = 256
      · subst h2
        simp only [if_neg h1, if_true, Option.some.injEq, Prod.mk.injEq] at h
        obtain ⟨rfl, rfl⟩ := h
        exact .endOfBlock hsym
      · simp only [if_neg h1, if_neg h2] at h
        obtain ⟨⟨base, extraBits⟩, hbase, h⟩ := Option.bind_eq_some_iff.mp h
        obtain ⟨⟨extra, bits₂⟩, hextra, h⟩ := Option.bind_eq_some_iff.mp h
        obtain ⟨⟨distSym, bits₃⟩, hdist, h⟩ := Option.bind_eq_some_iff.mp h
        obtain ⟨⟨distBase, distExtraBits⟩, hdistBase, h⟩ := Option.bind_eq_some_iff.mp h
        obtain ⟨⟨distExtra, bits₄⟩, hdistExtra, h⟩ := Option.bind_eq_some_iff.mp h
        simp only [Option.some.injEq, Prod.mk.injEq] at h
        obtain ⟨rfl, rfl⟩ := h
        exact .copy hsym (by omega) hbase hextra hdist hdistBase hdistExtra
  · intro h
    cases h with
    | literal hsym h1 =>
      rw [hsym, Option.bind_eq_bind, Option.bind_some]
      simp only [if_pos h1]
    | endOfBlock hsym =>
      rw [hsym, Option.bind_eq_bind, Option.bind_some]
      rfl
    | copy hsym h1 hbase hextra hdist hdistBase hdistExtra =>
      rw [hsym, Option.bind_eq_bind, Option.bind_some]
      simp only [if_neg (Nat.not_lt.mpr h1.le), if_neg (Nat.ne_of_gt h1), hbase, hextra, hdist, hdistBase, hdistExtra,
        Option.bind_eq_bind, Option.bind_some]

/-- A token takes a bit at least. -/
theorem readToken_length {literal distance : List Nat} {bits : List Bool} {token : Rfc1951.Token} {rest : List Bool}
    (h : Rfc1951.readToken literal distance bits = some (token, rest)) : rest.length < bits.length := by
  cases readToken_iff.mp h with
  | literal hsym => exact readSymbol_length hsym
  | endOfBlock hsym => exact readSymbol_length hsym
  | copy hsym _ _ hextra hdist _ hdistExtra =>
    have h1 := readSymbol_length hsym
    have h2 := readField_length hextra
    have h3 := readSymbol_length hdist
    have h4 := readField_length hdistExtra
    omega

section

variable {literal distance : HuffmanDecoder} {lw dw : List Nat} {bits : List Bool} {token : Rfc1951.Token} {rest : List Bool}

/-- The distance of a match, as the machine parses it. -/
theorem parseDistance_got {dist : Nat} (h : parseDistance distance bits = .got dist rest) :
    ∃ distSym base extraBits extra bits₁, distance.parse bits = .got distSym bits₁ ∧
      Rfc1951.distanceCodes[distSym]? = some (base, extraBits) ∧
      Rfc1951.readField extraBits bits₁ = some (extra, rest) ∧ dist = base + extra := by
  unfold parseDistance at h
  obtain ⟨distSym, bits₁, hd, h⟩ := Parse.andThen_eq_got h
  rw [distanceTable_eq] at h
  cases hb : Rfc1951.distanceCodes[distSym]? with
  | none =>
    rw [hb] at h
    cases h
  | some e =>
    obtain ⟨base, extraBits⟩ := e
    rw [hb] at h
    obtain ⟨extra, bits₂, hf, h⟩ := Parse.andThen_eq_got h
    obtain ⟨rfl, rfl⟩ := Parse.got.inj h
    exact ⟨distSym, base, extraBits, extra, bits₁, hd, hb, parseField_eq_got_iff.mp hf, rfl⟩

/-- What the machine parses as a token, the reference reads. -/
theorem Tables.parseToken_sound (hT : Tables literal distance lw dw) (h : parseToken literal distance bits = .got token rest) :
    Rfc1951.readToken lw dw bits = some (token, rest) := by
  unfold parseToken at h
  by_cases hlen : bits.length < literal.safelyPeekBits
  · rw [if_pos hlen] at h
    cases h
  · rw [if_neg hlen] at h
    obtain ⟨sym, bits₁, hp, h⟩ := Parse.andThen_eq_got h
    have hsym := hT.literal_table.parse_sound hp
    by_cases h1 : sym ≤ 255
    · rw [if_pos h1, Parse.got.injEq] at h
      obtain ⟨rfl, rfl⟩ := h
      exact readToken_iff.mpr (.literal hsym (Nat.lt_succ_of_le h1))
    · by_cases h2 : sym = endOfBlock
      · rw [if_neg h1, if_pos h2, Parse.got.injEq] at h
        obtain ⟨rfl, rfl⟩ := h
        subst h2
        exact readToken_iff.mpr (.endOfBlock hsym)
      · have h3 : 256 < sym := Nat.lt_of_le_of_ne (Nat.lt_of_not_le h1) (Ne.symm h2)
        rw [if_neg h1, if_neg h2, lengthTable_eq] at h
        cases hb : Rfc1951.lengthCodes[sym - 257]? with
        | none =>
          rw [hb] at h
          cases h
        | some e =>
          obtain ⟨base, extraBits⟩ := e
          rw [hb] at h
          obtain ⟨extra, bits₂, hf, h⟩ := Parse.andThen_eq_got h
          obtain ⟨dist, bits₃, hd, h⟩ := Parse.andThen_eq_got h
          obtain ⟨rfl, rfl⟩ := Parse.got.inj h
          obtain ⟨distSym, distBase, distExtraBits, distExtra, bits₄, h4, h5, h6, rfl⟩ := parseDistance_got hd
          exact readToken_iff.mpr (.copy hsym h3 hb (parseField_eq_got_iff.mp hf) (hT.distance_table.parse_sound h4) h5 h6)

/-- What the reference reads as a token, the machine parses, if the bits its look-aheads want are there: those of the literal
table at the token, and those of the distance table behind it. -/
theorem Tables.parseToken_complete (hT : Tables literal distance lw dw)
    (h : Rfc1951.readToken lw dw bits = some (token, rest)) (hpeek : literal.safelyPeekBits ≤ bits.length)
    (hrest : token = .endOfBlock ∨ literal.safelyPeekBits ≤ rest.length) :
    parseToken literal distance bits = .got token rest := by
  unfold parseToken
  rw [if_neg (Nat.not_lt.mpr hpeek)]
  cases readToken_iff.mp h with
  | literal hsym h1 =>
    rw [hT.literal_table.parse_complete hpeek hsym, Parse.andThen_got, if_pos (Nat.le_of_lt_succ h1)]
  | endOfBlock hsym =>
    rw [hT.literal_table.parse_complete hpeek hsym, Parse.andThen_got]
    rfl
  | @copy sym base extraBits extra distSym distBase distExtraBits distExtra bits₁ bits₂ bits₃ _ hsym h1 hbase hextra hdist
      hdistBase hdistExtra =>
    have h2 : ¬sym ≤ 255 := by omega
    have h3 : sym ≠ endOfBlock := Nat.ne_of_gt h1
    have hlen : distance.safelyPeekBits ≤ bits₂.length := by
      have h4 := readSymbol_length hdist
      have h5 := readField_length hdistExtra
      have h6 : literal.safelyPeekBits ≤ rest.length := hrest.resolve_left (fun h => nomatch h)
      have h7 := hT.peek_le
      omega
    rw [hT.literal_table.parse_complete hpeek hsym, Parse.andThen_got, if_neg h2, if_neg h3, lengthTable_eq, hbase]
    simp only
    rw [parseField_eq_got_iff.mpr hextra, Parse.andThen_got]
    unfold parseDistance
    rw [hT.distance_table.parse_complete hlen hdist, Parse.andThen_got, distanceTable_eq, hdistBase]
    simp only
    rw [parseField_eq_got_iff.mpr hdistExtra]
    simp only [Parse.andThen_got]

end

/-! ## The loops of the reference -/

/-- What reading tokens goes on with, after one token. -/
def tokensFrom (literal distance : List Nat) (output : List UInt8) : Rfc1951.Token × List Bool → Option (List UInt8 × List Bool)
  | (.literal byte, bits) => Rfc1951.readTokens literal distance bits.length bits (output ++ [byte])
  | (.copy length dist, bits) =>
    (Rfc1951.copyBytes dist length output).bind fun output => Rfc1951.readTokens literal distance bits.length bits output
  | (.endOfBlock, bits) => some (output, bits)

/-- More rounds than there are bits make no difference. -/
theorem readTokens_fuel {literal distance : List Nat} {n : Nat} {bits : List Bool} (h : bits.length ≤ n)
    (output : List UInt8) :
    Rfc1951.readTokens literal distance n bits output = Rfc1951.readTokens literal distance bits.length bits output := by
  induction n using Nat.strong_induction_on generalizing bits output with
  | _ n ih =>
    rcases Nat.lt_or_ge bits.length n with hlt | hge
    · cases hb : bits.length with
      | zero =>
        obtain ⟨n, rfl⟩ : ∃ m, n = m + 1 := ⟨n - 1, by omega⟩
        obtain rfl := List.eq_nil_of_length_eq_zero hb
        rfl
      | succ m =>
        obtain ⟨n, rfl⟩ : ∃ k, n = k + 1 := ⟨n - 1, by omega⟩
        rw [Rfc1951.readTokens, Rfc1951.readTokens]
        cases ht : Rfc1951.readToken literal distance bits with
        | none => rfl
        | some e =>
          obtain ⟨token, rest⟩ := e
          have hrest := readToken_length ht
          have key : ∀ output, Rfc1951.readTokens literal distance n rest output =
              Rfc1951.readTokens literal distance m rest output := by
            intro output
            rw [ih n (by omega) (by omega), ih m (by omega) (by omega)]
          rw [Option.bind_eq_bind, Option.bind_some, Option.bind_eq_bind, Option.bind_some]
          cases token with
          | literal byte => exact key _
          | copy length dist => simp only [key]
          | endOfBlock => rfl
    · rw [Nat.le_antisymm h hge]

/-- Reading tokens, one at a time. -/
theorem readTokens_eq (literal distance : List Nat) (bits : List Bool) (output : List UInt8) :
    Rfc1951.readTokens literal distance bits.length bits output =
      (Rfc1951.readToken literal distance bits).bind (tokensFrom literal distance output) := by
  rw [← readTokens_fuel (Nat.le_succ bits.length), Rfc1951.readTokens]
  cases ht : Rfc1951.readToken literal distance bits with
  | none => rfl
  | some e =>
    obtain ⟨token, rest⟩ := e
    have hrest := (readToken_length ht).le
    rw [Option.bind_eq_bind, Option.bind_some, Option.bind_some]
    cases token with
    | literal byte => exact readTokens_fuel hrest _
    | copy length dist => simp only [tokensFrom, readTokens_fuel hrest, Option.bind_eq_bind]
    | endOfBlock => rfl

/-- Reading tokens to the end of the block leaves no more bits than there were, less the code of the end of the block. -/
theorem readTokens_length {literal distance : List Nat} {n : Nat} {bits : List Bool} {output history : List UInt8}
    {rest : List Bool} (h : Rfc1951.readTokens literal distance n bits output = some (history, rest)) :
    ∃ w, literal[256]? = some w ∧ 0 < w ∧ rest.length + w ≤ bits.length := by
  induction n generalizing bits output with
  | zero => cases h
  | succ n ih =>
    rw [Rfc1951.readTokens] at h
    obtain ⟨⟨token, bits₁⟩, ht, h⟩ := Option.bind_eq_some_iff.mp h
    have hlt := readToken_length ht
    have hgoes : ∀ {output}, Rfc1951.readTokens literal distance n bits₁ output = some (history, rest) →
        ∃ w, literal[256]? = some w ∧ 0 < w ∧ rest.length + w ≤ bits.length := by
      intro output hn
      obtain ⟨w, h1, h2, h3⟩ := ih hn
      exact ⟨w, h1, h2, by omega⟩
    cases token with
    | literal byte => exact hgoes h
    | copy length dist =>
      obtain ⟨output', -, h⟩ := Option.bind_eq_some_iff.mp h
      exact hgoes h
    | endOfBlock =>
      simp only [Option.some.injEq, Prod.mk.injEq] at h
      obtain ⟨rfl, rfl⟩ := h
      cases readToken_iff.mp ht with
      | endOfBlock hsym =>
        obtain ⟨w, h1, h2, h3⟩ := readSymbol_code hsym
        exact ⟨w, h1, h2, h3.le⟩

/-! ## Stored blocks -/

/-- The header of a stored block, as the machine parses it: two fields that complement each other. -/
theorem parseStoredHeader_fields {bits : List Bool} {len : Nat} {rest : List Bool}
    (h : parseStoredHeader bits = .got len rest) :
    ∃ nlen bits₁, Rfc1951.readField 16 (bits.drop (bits.length % 8)) = some (len, bits₁) ∧
      Rfc1951.readField 16 bits₁ = some (nlen, rest) ∧ len + nlen = 2 ^ 16 - 1 := by
  unfold parseStoredHeader at h
  by_cases hn : bits.length < bits.length % 8 + 32
  · rw [if_pos hn] at h
    cases h
  · rw [if_neg hn] at h
    obtain ⟨v, bits₁, h1, h⟩ := Parse.andThen_eq_got h
    obtain ⟨nlen, bits₂, h2, h⟩ := Parse.andThen_eq_got h
    have hv := readField_lt (parseField_eq_got_iff.mp h1)
    by_cases hc : 0xFFFF - v ≠ nlen
    · rw [if_pos hc] at h
      cases h
    · rw [if_neg hc, Parse.got.injEq] at h
      obtain ⟨rfl, rfl⟩ := h
      exact ⟨nlen, bits₁, parseField_eq_got_iff.mp h1, parseField_eq_got_iff.mp h2, by omega⟩

/-- Behind the header of a stored block, the reference reads its bytes. -/
theorem parseStoredHeader_got {bits : List Bool} {len : Nat} {rest : List Bool} (h : parseStoredHeader bits = .got len rest)
    (output : List UInt8) : Rfc1951.readStored bits output = Rfc1951.readBytes len rest output := by
  obtain ⟨nlen, bits₁, h1, h2, hsum⟩ := parseStoredHeader_fields h
  simp only [Rfc1951.readStored, h1, h2, Option.bind_eq_bind, Option.bind_some, if_pos hsum]

theorem parseStoredHeader_length {bits : List Bool} {len : Nat} {rest : List Bool}
    (h : parseStoredHeader bits = .got len rest) : rest.length ≤ bits.length := by
  obtain ⟨nlen, bits₁, h1, h2, -⟩ := parseStoredHeader_fields h
  have hl1 := readField_length h1
  have hl2 := readField_length h2
  rw [List.length_drop] at hl1
  omega

/-- A stored block that the reference reads has a header that the machine parses. -/
theorem parseStoredHeader_complete {bits : List Bool} {output : List UInt8} {x : List UInt8 × List Bool}
    (h : Rfc1951.readStored bits output = some x) : ∃ len rest, parseStoredHeader bits = .got len rest := by
  unfold Rfc1951.readStored at h
  obtain ⟨⟨len, bits₁⟩, h1, h⟩ := Option.bind_eq_some_iff.mp h
  obtain ⟨⟨nlen, bits₂⟩, h2, h⟩ := Option.bind_eq_some_iff.mp h
  by_cases hsum : len + nlen = 2 ^ 16 - 1
  · have hl1 := readField_length h1
    have hl2 := readField_length h2
    rw [List.length_drop] at hl1
    refine ⟨len, bits₂, ?_⟩
    unfold parseStoredHeader
    rw [if_neg (by omega), parseField_eq_got_iff.mpr h1, Parse.andThen_got, parseField_eq_got_iff.mpr h2, Parse.andThen_got,
      if_neg (by omega)]
  · simp only [if_neg hsum] at h
    cases h

theorem readBytes_length {n : Nat} {bits : List Bool} {output history : List UInt8} {rest : List Bool}
    (h : Rfc1951.readBytes n bits output = some (history, rest)) : rest.length ≤ bits.length := by
  induction n generalizing bits output with
  | zero =>
    simp only [Rfc1951.readBytes, Option.some.injEq, Prod.mk.injEq] at h
    exact le_of_eq (congrArg List.length h.2.symm)
  | succ n ih =>
    rw [Rfc1951.readBytes] at h
    obtain ⟨⟨byte, bits₁⟩, h1, h⟩ := Option.bind_eq_some_iff.mp h
    have hl1 := readField_length h1
    have hl := ih h
    omega

/-! ## Code lengths -/

/-- Read one element of the code lengths: those it adds behind the ones there are. -/
def readCodeLength (codeLengthCode lengths : List Nat) (bits : List Bool) : Option (List Nat × List Bool) :=
  (Rfc1951.readSymbol codeLengthCode bits).bind fun (sym, bits) =>
  if sym < 16 then some ([sym], bits)
  else if sym = 16 then
    (Rfc1951.readField 2 bits).bind fun (extra, bits) =>
    lengths.getLast?.map fun last => (List.replicate (extra + 3) last, bits)
  else if sym = 17 then (Rfc1951.readField 3 bits).map fun (extra, bits) => (List.replicate (extra + 3) 0, bits)
  else if sym = 18 then (Rfc1951.readField 7 bits).map fun (extra, bits) => (List.replicate (extra + 11) 0, bits)
  else none

/-- Reading code lengths, one element at a time. -/
theorem readCodeLengths_succ {codeLengthCode : List Nat} {total : Nat} (fuel : Nat) (bits : List Bool) {lengths : List Nat}
    (h : lengths.length < total) :
    Rfc1951.readCodeLengths codeLengthCode total (fuel + 1) bits lengths =
      (readCodeLength codeLengthCode lengths bits).bind fun (added, bits) =>
        Rfc1951.readCodeLengths codeLengthCode total fuel bits (lengths ++ added) := by
  rw [Rfc1951.readCodeLengths.eq_def]
  simp only [if_neg (Nat.ne_of_lt h), if_neg (Nat.not_lt.mpr h.le)]
  unfold readCodeLength
  cases Rfc1951.readSymbol codeLengthCode bits with
  | none => rfl
  | some e =>
    obtain ⟨sym, bits₁⟩ := e
    simp only [Option.bind_eq_bind, Option.bind_some]
    by_cases h1 : sym < 16
    · simp only [if_pos h1, Option.bind_some]
    · by_cases h2 : sym = 16
      · simp only [if_neg h1, if_pos h2]
        cases Rfc1951.readField 2 bits₁ with
        | none => rfl
        | some e =>
          simp only [Option.bind_some]
          cases lengths.getLast? <;> rfl
      · by_cases h3 : sym = 17
        · simp only [if_neg h1, if_neg h2, if_pos h3]
          cases Rfc1951.readField 3 bits₁ <;> rfl
        · by_cases h4 : sym = 18
          · simp only [if_neg h1, if_neg h2, if_neg h3, if_pos h4]
            cases Rfc1951.readField 7 bits₁ <;> rfl
          · simp only [if_neg h1, if_neg h2, if_neg h3, if_neg h4, Option.bind_none]

/-- With no lengths missing, no element is read. -/
theorem readCodeLengths_done {codeLengthCode : List Nat} {total : Nat} (fuel : Nat) (bits : List Bool) {lengths : List Nat}
    (h : total ≤ lengths.length) :
    Rfc1951.readCodeLengths codeLengthCode total fuel bits lengths =
      if lengths.length = total then some (lengths, bits) else none := by
  rw [Rfc1951.readCodeLengths.eq_def]
  by_cases heq : lengths.length = total
  · simp only [if_pos heq]
  · simp only [if_neg heq, if_pos (Nat.lt_of_le_of_ne h (Ne.symm heq))]

/-- How the reference reads an element of the code lengths: a length, a repetition of the last one, or a run of zeros. -/
inductive CodeLengthRead (codeLengthCode lengths : List Nat) (bits : List Bool) : List Nat → List Bool → Prop where
  | length {sym : Nat} {rest : List Bool} (hsym : Rfc1951.readSymbol codeLengthCode bits = some (sym, rest)) (h : sym < 16) :
      CodeLengthRead codeLengthCode lengths bits [sym] rest
  | last {extra last : Nat} {bits₁ rest : List Bool} (hsym : Rfc1951.readSymbol codeLengthCode bits = some (16, bits₁))
      (hextra : Rfc1951.readField 2 bits₁ = some (extra, rest)) (hlast : lengths.getLast? = some last) :
      CodeLengthRead codeLengthCode lengths bits (List.replicate (extra + 3) last) rest
  | zeros {extra : Nat} {bits₁ rest : List Bool} (hsym : Rfc1951.readSymbol codeLengthCode bits = some (17, bits₁))
      (hextra : Rfc1951.readField 3 bits₁ = some (extra, rest)) :
      CodeLengthRead codeLengthCode lengths bits (List.replicate (extra + 3) 0) rest
  | manyZeros {extra : Nat} {bits₁ rest : List Bool} (hsym : Rfc1951.readSymbol codeLengthCode bits = some (18, bits₁))
      (hextra : Rfc1951.readField 7 bits₁ = some (extra, rest)) :
      CodeLengthRead codeLengthCode lengths bits (List.replicate (extra + 11) 0) rest

section

variable {codeLengthCode lengths : List Nat} {bits : List Bool} {added : List Nat} {rest : List Bool}

theorem readCodeLength_iff :
    readCodeLength codeLengthCode lengths bits = some (added, rest) ↔
      CodeLengthRead codeLengthCode lengths bits added rest := by
  unfold readCodeLength
  constructor
  · intro h
    obtain ⟨⟨sym, bits₁⟩, hsym, h⟩ := Option.bind_eq_some_iff.mp h
    by_cases h1 : sym < 16
    · simp only [if_pos h1, Option.some.injEq, Prod.mk.injEq] at h
      obtain ⟨rfl, rfl⟩ := h
      exact .length hsym h1
    · by_cases h2 : sym = 16
      · simp only [if_neg h1, if_pos h2] at h
        obtain ⟨⟨extra, bits₂⟩, hextra, h⟩ := Option.bind_eq_some_iff.mp h
        obtain ⟨last, hlast, h⟩ := Option.map_eq_some_iff.mp h
        obtain ⟨rfl, rfl⟩ := Prod.mk.inj h
        subst h2
        exact .last hsym hextra hlast
      · by_cases h3 : sym = 17
        · simp only [if_neg h1, if_neg h2, if_pos h3] at h
          obtain ⟨⟨extra, bits₂⟩, hextra, h⟩ := Option.map_eq_some_iff.mp h
          obtain ⟨rfl, rfl⟩ := Prod.mk.inj h
          subst h3
          exact .zeros hsym hextra
        · by_cases h4 : sym = 18
          · simp only [if_neg h1, if_neg h2, if_neg h3, if_pos h4] at h
            obtain ⟨⟨extra, bits₂⟩, hextra, h⟩ := Option.map_eq_some_iff.mp h
            obtain ⟨rfl, rfl⟩ := Prod.mk.inj h
            subst h4
            exact .manyZeros hsym hextra
          · simp only [if_neg h1, if_neg h2, if_neg h3, if_neg h4] at h
            cases h
  · intro h
    cases h with
    | length hsym h1 => simp only [hsym, Option.bind_some, if_pos h1]
    | last hsym hextra hlast => simp [hsym, hextra, hlast]
    | zeros hsym hextra => simp [hsym, hextra]
    | manyZeros hsym hextra => simp [hsym, hextra]

/-- An element adds a length at least. -/
theorem CodeLengthRead.length_pos (h : CodeLengthRead codeLengthCode lengths bits added rest) : 0 < added.length := by
  cases h with
  | length => exact Nat.one_pos
  | last => rw [List.length_replicate]; exact Nat.succ_pos _
  | zeros => rw [List.length_replicate]; exact Nat.succ_pos _
  | manyZeros => rw [List.length_replicate]; exact Nat.succ_pos _

/-- An element takes a bit at least, read with a code that has a symbol. -/
theorem CodeLengthRead.symbol (h : CodeLengthRead codeLengthCode lengths bits added rest) :
    rest.length < bits.length ∧ ∃ w ∈ codeLengthCode, 0 < w := by
  have key : ∀ {sym bits₁}, Rfc1951.readSymbol codeLengthCode bits = some (sym, bits₁) → ∃ w ∈ codeLengthCode, 0 < w := by
    intro sym bits₁ hsym
    obtain ⟨w, h1, h2, -⟩ := readSymbol_code hsym
    exact ⟨w, List.mem_of_getElem? h1, h2⟩
  cases h with
  | length hsym _ => exact ⟨readSymbol_length hsym, key hsym⟩
  | last hsym hextra _ =>
    have h1 := readSymbol_length hsym
    have h2 := readField_length hextra
    exact ⟨by omega, key hsym⟩
  | zeros hsym hextra =>
    have h1 := readSymbol_length hsym
    have h2 := readField_length hextra
    exact ⟨by omega, key hsym⟩
  | manyZeros hsym hextra =>
    have h1 := readSymbol_length hsym
    have h2 := readField_length hextra
    exact ⟨by omega, key hsym⟩

/-- The lengths an element adds are at most 15, if those before are. -/
theorem CodeLengthRead.le (h : CodeLengthRead codeLengthCode lengths bits added rest) (hle : ∀ w ∈ lengths, w ≤ 15) :
    ∀ w ∈ lengths ++ added, w ≤ 15 := by
  intro w hw
  rcases List.mem_append.mp hw with hw | hw
  · exact hle w hw
  · cases h with
    | length _ h1 =>
      rw [List.mem_singleton] at hw
      omega
    | last _ _ hlast =>
      rw [List.eq_of_mem_replicate hw]
      exact hle _ (List.mem_of_getLast? hlast)
    | zeros => exact (List.eq_of_mem_replicate hw).le.trans (Nat.zero_le _)
    | manyZeros => exact (List.eq_of_mem_replicate hw).le.trans (Nat.zero_le _)

/-- What the machine parses as an element of the code lengths, the reference reads. -/
theorem parseCodeLength_sound {dec : HuffmanDecoder} (hT : TableOf dec codeLengthCode)
    (h : parseCodeLength dec lengths bits = .got added rest) : CodeLengthRead codeLengthCode lengths bits added rest := by
  unfold parseCodeLength at h
  obtain ⟨code, bits₁, hp, h⟩ := Parse.andThen_eq_got h
  have hsym := hT.parse_sound hp
  -- a field and the lengths it gives
  have hfield : ∀ {n : Nat} {f : Nat → List Nat}, ((parseField n bits₁).andThen fun v bits => .got (f v) bits) =
      .got added rest → ∃ v, Rfc1951.readField n bits₁ = some (v, rest) ∧ added = f v := by
    intro n f hf
    obtain ⟨v, bits₂, hb, hf⟩ := Parse.andThen_eq_got hf
    obtain ⟨rfl, rfl⟩ := Parse.got.inj hf
    exact ⟨v, parseField_eq_got_iff.mp hb, rfl⟩
  by_cases h1 : code ≤ 15
  · rw [if_pos h1, Parse.got.injEq] at h
    obtain ⟨rfl, rfl⟩ := h
    exact .length hsym (Nat.lt_succ_of_le h1)
  · rw [if_neg h1] at h
    by_cases h2 : code = 16
    · subst h2
      rw [if_pos rfl] at h
      cases hl : lengths.getLast? with
      | none =>
        rw [hl] at h
        obtain ⟨v, bits₂, -, h⟩ := Parse.andThen_eq_got h
        cases h
      | some last =>
        rw [hl] at h
        obtain ⟨v, hv, rfl⟩ := hfield h
        exact .last hsym hv hl
    · rw [if_neg h2] at h
      by_cases h3 : code = 17
      · subst h3
        rw [if_pos rfl] at h
        obtain ⟨v, hv, rfl⟩ := hfield h
        exact .zeros hsym hv
      · rw [if_neg h3] at h
        by_cases h4 : code = 18
        · subst h4
          rw [if_pos rfl] at h
          obtain ⟨v, hv, rfl⟩ := hfield h
          exact .manyZeros hsym hv
        · rw [if_neg h4] at h
          cases h

/-- What the reference reads as an element of the code lengths, the machine parses. -/
theorem parseCodeLength_complete {dec : HuffmanDecoder} (hT : TableOf dec codeLengthCode) (hpeek : dec.safelyPeekBits = 1)
    (h : CodeLengthRead codeLengthCode lengths bits added rest) : parseCodeLength dec lengths bits = .got added rest := by
  have hlen : dec.safelyPeekBits ≤ bits.length := by
    rw [hpeek]
    exact Nat.one_le_of_lt h.symbol.1
  unfold parseCodeLength
  cases h with
  | length hsym h1 => rw [hT.parse_complete hlen hsym, Parse.andThen_got, if_pos (Nat.le_of_lt_succ h1)]
  | last hsym hextra hlast =>
    rw [hT.parse_complete hlen hsym, Parse.andThen_got, if_neg (by decide), if_pos rfl, parseField_eq_got_iff.mpr hextra,
      Parse.andThen_got, hlast]
  | zeros hsym hextra =>
    rw [hT.parse_complete hlen hsym, Parse.andThen_got, if_neg (by decide), if_neg (by decide), if_pos rfl,
      parseField_eq_got_iff.mpr hextra, Parse.andThen_got]
  | manyZeros hsym hextra =>
    rw [hT.parse_complete hlen hsym, Parse.andThen_got, if_neg (by decide), if_neg (by decide), if_neg (by decide), if_pos rfl,
      parseField_eq_got_iff.mpr hextra, Parse.andThen_got]

end

/-- More rounds than there are lengths missing make no difference. -/
theorem readCodeLengths_fuel {codeLengthCode : List Nat} {total n : Nat} (bits : List Bool) {lengths : List Nat}
    (h : total - lengths.length ≤ n) :
    Rfc1951.readCodeLengths codeLengthCode total n bits lengths =
      Rfc1951.readCodeLengths codeLengthCode total (total - lengths.length) bits lengths := by
  induction n using Nat.strong_induction_on generalizing bits lengths with
  | _ n ih =>
    by_cases hlt : lengths.length < total
    · obtain ⟨n, rfl⟩ : ∃ k, n = k + 1 := ⟨n - 1, by omega⟩
      obtain ⟨m, hm⟩ : ∃ m, total - lengths.length = m + 1 := ⟨total - lengths.length - 1, by omega⟩
      rcases Nat.lt_or_ge m n with hmn | hge
      · rw [hm, readCodeLengths_succ _ _ hlt, readCodeLengths_succ _ _ hlt]
        cases hr : readCodeLength codeLengthCode lengths bits with
        | none => rfl
        | some e =>
          obtain ⟨added, rest⟩ := e
          have hpos := (readCodeLength_iff.mp hr).length_pos
          have hle : total - (lengths ++ added).length ≤ m := by
            rw [List.length_append]
            omega
          simp only [Option.bind_some]
          rw [ih n (Nat.lt_succ_self n) rest (hle.trans hmn.le), ih m (Nat.lt_succ_of_lt hmn) rest hle]
      · obtain rfl : n = m := by omega
        rw [hm]
    · -- there are enough lengths: no round is made
      have hge := Nat.le_of_not_lt hlt
      rw [readCodeLengths_done _ _ hge, readCodeLengths_done _ _ hge]

/-- The code lengths that are read are as many as announced, and behind those there were. -/
theorem readCodeLengths_spec {codeLengthCode : List Nat} {total n : Nat} {bits : List Bool} {lengths all : List Nat}
    {rest : List Bool} (h : Rfc1951.readCodeLengths codeLengthCode total n bits lengths = some (all, rest)) :
    all.length = total ∧ lengths <+: all ∧ rest.length ≤ bits.length := by
  have hdone : ∀ {fuel bits lengths}, total ≤ lengths.length →
      Rfc1951.readCodeLengths codeLengthCode total fuel bits lengths = some (all, rest) →
      all.length = total ∧ lengths <+: all ∧ rest.length ≤ bits.length := by
    intro fuel bits lengths hge h
    rw [readCodeLengths_done _ _ hge] at h
    by_cases heq : lengths.length = total
    · rw [if_pos heq, Option.some.injEq, Prod.mk.injEq] at h
      obtain ⟨rfl, rfl⟩ := h
      exact ⟨heq, List.prefix_refl _, le_rfl⟩
    · rw [if_neg heq] at h
      cases h
  induction n generalizing bits lengths with
  | zero =>
    rcases Nat.lt_or_ge lengths.length total with hlt | hge
    · rw [Rfc1951.readCodeLengths.eq_def] at h
      simp only [if_neg (Nat.ne_of_lt hlt), if_neg (Nat.not_lt.mpr hlt.le)] at h
      cases h
    · exact hdone hge h
  | succ n ih =>
    rcases Nat.lt_or_ge lengths.length total with hlt | hge
    · rw [readCodeLengths_succ _ _ hlt] at h
      obtain ⟨⟨added, bits₁⟩, h1, h⟩ := Option.bind_eq_some_iff.mp h
      obtain ⟨h2, h3, h4⟩ := ih h
      have h5 := (readCodeLength_iff.mp h1).symbol.1
      exact ⟨h2, (List.prefix_append _ _).trans h3, by omega⟩
    · exact hdone hge h

theorem readCodeLengthCode_length {slots : List Nat} {bits : List Bool} {lengths all : List Nat} {rest : List Bool}
    (h : Rfc1951.readCodeLengthCode slots bits lengths = some (all, rest)) : rest.length ≤ bits.length := by
  induction slots generalizing bits lengths with
  | nil =>
    simp only [Rfc1951.readCodeLengthCode, Option.some.injEq, Prod.mk.injEq] at h
    exact le_of_eq (congrArg List.length h.2.symm)
  | cons slot slots ih =>
    rw [Rfc1951.readCodeLengthCode] at h
    obtain ⟨⟨length, bits₁⟩, h1, h⟩ := Option.bind_eq_some_iff.mp h
    have h2 := readField_length h1
    have h3 := ih h
    omega

theorem readCodeSets_length {bits : List Bool} {sets : Rfc1951.CodeSets} {rest : List Bool}
    (h : Rfc1951.readCodeSets bits = some (sets, rest)) : rest.length ≤ bits.length := by
  unfold Rfc1951.readCodeSets at h
  obtain ⟨⟨hlit, bits₁⟩, h1, h⟩ := Option.bind_eq_some_iff.mp h
  obtain ⟨⟨hdist, bits₂⟩, h2, h⟩ := Option.bind_eq_some_iff.mp h
  obtain ⟨⟨hclen, bits₃⟩, h3, h⟩ := Option.bind_eq_some_iff.mp h
  obtain ⟨⟨codeLength, bits₄⟩, h4, h⟩ := Option.bind_eq_some_iff.mp h
  obtain ⟨⟨lengths, bits₅⟩, h5, h⟩ := Option.bind_eq_some_iff.mp h
  simp only [Option.some.injEq, Prod.mk.injEq] at h
  obtain ⟨-, rfl⟩ := h
  have hl1 := readField_length h1
  have hl2 := readField_length h2
  have hl3 := readField_length h3
  have hl4 := readCodeLengthCode_length h4
  have hl5 := (readCodeLengths_spec h5).2.2
  omega

end Noflate
