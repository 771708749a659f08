import Noflate.Lemmas.Streams

/-!
# The code of a block

A block with the fixed codes has a code for every token (`fixedCode`). For a dynamic block the symbols are counted, and what is
counted gets a code (`countTokens_spec`); the code lengths that come of it, cut off behind the last one that is announced, are a
strict code set (`exists_dynamicCode`).
-/

namespace Noflate

open BitString
open Rfc1951 (CodeSets)

/-! ## Symbols in range -/

theorem lengthToSymbol_lt {length : Nat} (h3 : minMatch ≤ length) (h258 : length ≤ maxMatch) {sym : EncodedSymbol}
    (h : lengthToSymbol length = .ok sym) : 256 < sym.code ∧ sym.code < 286 := by
  obtain ⟨sym', base, extraBits, h1, h2⟩ := lengthToSymbol_spec h3 h258
  obtain rfl := Exec.ok.inj (h1.symm.trans h)
  have hlt := (List.getElem?_eq_some_iff.mp h2.entry).1
  have hle := h2.first_le
  have htable : lengthTable.length = 29 := rfl
  omega

theorem distanceToSymbol_lt {distance : Nat} (h1 : 1 ≤ distance) (h2 : distance ≤ windowSize) {sym : EncodedSymbol}
    (h : distanceToSymbol distance = .ok sym) : sym.code < 30 := by
  obtain ⟨sym', base, extraBits, h3, h4⟩ := distanceToSymbol_spec h1 h2
  obtain rfl := Exec.ok.inj (h3.symm.trans h)
  have hlt := (List.getElem?_eq_some_iff.mp h4.entry).1
  have htable : distanceTable.length = 30 := rfl
  omega

/-! ## The fixed codes -/

theorem fixedLiteral_hasCode {s : Nat} (h : s < 288) : HasCode fixedLiteralCodeLengths s := by
  have hall : ∀ s < 288, 0 < fixedLiteralCodeLengths.getD s 0 := by decide +kernel
  exact hall s h

theorem fixedDistance_hasCode {s : Nat} (h : s < 30) : HasCode fixedDistanceCodeLengths s := by
  have hall : ∀ s < 30, 0 < fixedDistanceCodeLengths.getD s 0 := by decide
  exact hall s h

/-- Every token has a code among the fixed ones. -/
theorem fixed_coded {sym : Lz77Code} (h : sym.InRange) : sym.Coded fixedLiteralCodeLengths fixedDistanceCodeLengths := by
  cases sym with
  | literal byte => exact fixedLiteral_hasCode (byte.toNat_lt.trans (by decide))
  | pointer length distance =>
    obtain ⟨h3, h258, h1, hwindow⟩ := h
    refine ⟨fun sym hsym => ?_, fun sym hsym => ?_⟩
    · exact fixedLiteral_hasCode ((lengthToSymbol_lt h3 h258 hsym).2.trans (by decide))
    · exact fixedDistance_hasCode (distanceToSymbol_lt h1 hwindow hsym)

/-- The encoders of a fixed block. -/
theorem fixed_coding : ∃ literalEncoder distanceEncoder,
    HuffmanEncoder.fromCodeLengths fixedLiteralCodeLengths = .ok literalEncoder ∧
      HuffmanEncoder.fromCodeLengths fixedDistanceCodeLengths = .ok distanceEncoder ∧
      Coding literalEncoder distanceEncoder fixedLiteralCodeLengths fixedDistanceCodeLengths := by
  obtain ⟨literalEncoder, h1, h2⟩ := encoderOf_ok fixedLiteral_fits
  obtain ⟨distanceEncoder, h3, h4⟩ := encoderOf_ok fixedDistance_fits
  exact ⟨literalEncoder, distanceEncoder, h1, h3, ⟨h2.used, h4.used, fixedLiteral_fits, fixedDistance_fits⟩⟩

/-- The code of a block with the fixed codes. -/
theorem fixedCode {symbols : List Lz77Code} {payload : List UInt8} (h : Tokens symbols payload) :
    BlockCode fixedLiteralCodeLengths fixedDistanceCodeLengths symbols payload := by
  obtain ⟨literalEncoder, distanceEncoder, -, -, hc⟩ := fixed_coding
  exact ⟨⟨_, _, hc⟩, fixedLiteral_hasCode (by decide), h, fun sym hsym => fixed_coded (h.in_range sym hsym)⟩

/-! ## Counting -/

/-- Frequencies that are no smaller than others. -/
def Grows (frequencies frequencies' : List Nat) : Prop := ∀ s, frequencies.getD s 0 ≤ frequencies'.getD s 0

theorem Grows.hasCode {frequencies frequencies' : List Nat} (h : Grows frequencies frequencies') {s : Nat}
    (hs : HasCode frequencies s) : HasCode frequencies' s := Nat.lt_of_lt_of_le hs (h s)

/-- A symbol that is counted has a frequency; no frequency falls. -/
theorem countSymbol_ok {frequencies : List Nat} {s : Nat} (hs : s < frequencies.length) :
    ∃ frequencies', countSymbol frequencies s = .ok frequencies' ∧ frequencies'.length = frequencies.length ∧
      HasCode frequencies' s ∧ Grows frequencies frequencies' := by
  have hmem : ∀ t ∈ [s], t < frequencies.length := by
    intro t ht
    rwa [List.mem_singleton.mp ht]
  obtain ⟨frequencies', h1, h2, h3⟩ := countSymbols_ok [s] hmem
  rw [List.foldlM_cons] at h1
  obtain ⟨frequencies₁, h4, h5⟩ := Exec.bind_eq_ok.mp h1
  obtain rfl : frequencies₁ = frequencies' := Exec.ok.inj h5
  refine ⟨frequencies₁, h4, h2, ?_, ?_⟩
  · unfold HasCode
    rw [h3 s hs, List.count_singleton_self]
    exact Nat.succ_pos _
  · intro t
    rcases Nat.lt_or_ge t frequencies.length with ht | ht
    · rw [h3 t ht]
      exact Nat.le_add_right _ _
    · rw [List.getD_eq_getElem?_getD, List.getElem?_eq_none ht]
      exact Nat.zero_le _

/-- Frequencies of the two alphabets, with a distance if one is noted. -/
structure Counted (f : Frequencies) : Prop where
  literal_length : f.literal.length = 286
  distance_length : f.distance.length = 30
  has_distance : f.hasDistance = true → ∃ s, HasCode f.distance s

/-- What is counted has codes, and keeps them when more is counted. -/
theorem Lz77Code.Coded.mono {literal literal' distance distance' : List Nat} (hl : Grows literal literal')
    (hd : Grows distance distance') {sym : Lz77Code} (h : sym.Coded literal distance) : sym.Coded literal' distance' := by
  cases sym with
  | literal byte => exact hl.hasCode h
  | pointer length dist => exact ⟨fun s hs => hl.hasCode (h.1 s hs), fun s hs => hd.hasCode (h.2 s hs)⟩

/-- A token is counted. -/
theorem countToken_ok {f : Frequencies} (hf : Counted f) {sym : Lz77Code} (hrange : sym.InRange) :
    ∃ f', countToken f sym = .ok f' ∧ Counted f' ∧ Grows f.literal f'.literal ∧ Grows f.distance f'.distance ∧
      sym.Coded f'.literal f'.distance := by
  cases sym with
  | literal byte =>
    have hlt : byte.toNat < f.literal.length := by
      rw [hf.literal_length]
      exact byte.toNat_lt.trans (by decide)
    obtain ⟨literal, h1, h2, h3, h4⟩ := countSymbol_ok hlt
    refine ⟨{ f with literal }, by rw [countToken, h1, Exec.ok_bind], ⟨h2.trans hf.literal_length, hf.distance_length, hf.has_distance⟩,
      h4, fun s => le_rfl, h3⟩
  | pointer length dist =>
    obtain ⟨h3, h258, hd1, hd2⟩ := hrange
    obtain ⟨lenSym, _, _, hlen, -⟩ := lengthToSymbol_spec h3 h258
    obtain ⟨distSym, _, _, hdist, -⟩ := distanceToSymbol_spec hd1 hd2
    have hllt : lenSym.code < f.literal.length := by
      rw [hf.literal_length]
      exact (lengthToSymbol_lt h3 h258 hlen).2
    have hdlt : distSym.code < f.distance.length := by
      rw [hf.distance_length]
      exact distanceToSymbol_lt hd1 hd2 hdist
    obtain ⟨literal, hl1, hl2, hl3, hl4⟩ := countSymbol_ok hllt
    obtain ⟨distance, hs1, hs2, hs3, hs4⟩ := countSymbol_ok hdlt
    have hmod : length % 2 ^ 16 = length := Nat.mod_eq_of_lt (Nat.lt_of_le_of_lt h258 (by decide))
    have hmod' : dist % 2 ^ 16 = dist := Nat.mod_eq_of_lt (Nat.lt_of_le_of_lt hd2 (by decide))
    refine ⟨{ literal, distance, hasDistance := true }, ?_, ⟨hl2.trans hf.literal_length, hs2.trans hf.distance_length,
      fun _ => ⟨_, hs3⟩⟩, hl4, hs4, ?_, ?_⟩
    · simp only [countToken, hmod, hmod', hlen, Exec.ok_bind, hl1, hdist, hs1]
    · intro sym hsym
      obtain rfl := Exec.ok.inj (hlen.symm.trans hsym)
      exact hl3
    · intro sym hsym
      obtain rfl := Exec.ok.inj (hdist.symm.trans hsym)
      exact hs3

/-- The tokens of a block are counted. -/
theorem foldlM_countToken_ok {f : Frequencies} (hf : Counted f) {symbols : List Lz77Code} (hrange : ∀ sym ∈ symbols, sym.InRange) :
    ∃ f', symbols.foldlM countToken f = .ok f' ∧ Counted f' ∧ Grows f.literal f'.literal ∧ Grows f.distance f'.distance ∧
      ∀ sym ∈ symbols, sym.Coded f'.literal f'.distance := by
  induction symbols generalizing f with
  | nil => exact ⟨f, rfl, hf, fun s => le_rfl, fun s => le_rfl, fun sym h => (nomatch h)⟩
  | cons sym symbols ih =>
    obtain ⟨f₁, h1, hf₁, hl₁, hd₁, hc₁⟩ := countToken_ok hf (hrange sym List.mem_cons_self)
    obtain ⟨f', h2, hf', hl', hd', hc'⟩ := ih hf₁ fun s hs => hrange s (List.mem_cons_of_mem _ hs)
    refine ⟨f', by rw [List.foldlM_cons, h1, Exec.ok_bind, h2], hf', fun s => (hl₁ s).trans (hl' s), fun s => (hd₁ s).trans (hd' s), ?_⟩
    intro s hs
    rcases List.mem_cons.mp hs with rfl | hs
    · exact hc₁.mono hl' hd'
    · exact hc' s hs

/-- A slot is set to one: the other frequencies stay. -/
theorem hasCode_set {frequencies : List Nat} {s t : Nat} (hs : s < frequencies.length) :
    HasCode (frequencies.set s 1) t ↔ t = s ∨ HasCode frequencies t := by
  unfold HasCode
  rw [List.getD_eq_getElem?_getD, List.getD_eq_getElem?_getD]
  by_cases h : t = s
  · subst h
    rw [List.getElem?_set_self hs, Option.getD_some]
    exact ⟨fun _ => .inl rfl, fun _ => Nat.one_pos⟩
  · rw [List.getElem?_set_ne (Ne.symm h)]
    exact ⟨.inr, fun h' => h'.resolve_left h⟩

/-- The frequencies of a block: all its tokens have one, the end of the block has, and some distance has. -/
theorem countTokens_spec {symbols : List Lz77Code} (hrange : ∀ sym ∈ symbols, sym.InRange) :
    ∃ f, countTokens symbols = .ok f ∧ f.literal.length = 286 ∧ f.distance.length = 30 ∧ HasCode f.literal endOfBlock ∧
      (∃ s, HasCode f.distance s) ∧ ∀ sym ∈ symbols, sym.Coded f.literal f.distance := by
  obtain ⟨f, h1, hf, -, -, hc⟩ := foldlM_countToken_ok
    (f := { literal := List.replicate 286 0, distance := List.replicate 30 0, hasDistance := false })
    ⟨List.length_replicate, List.length_replicate, fun h => (nomatch h)⟩ hrange
  have hend : endOfBlock < f.literal.length := by
    rw [hf.literal_length]
    decide
  have hzero : 0 < f.distance.length := by
    rw [hf.distance_length]
    decide
  refine ⟨_, by rw [countTokens, h1, Exec.ok_bind], ?_, ?_, (hasCode_set hend).mpr (.inl rfl), ?_, ?_⟩
  · rw [List.length_set]
    exact hf.literal_length
  · simp only
    split
    · exact hf.distance_length
    · rw [List.length_set]
      exact hf.distance_length
  · simp only
    split
    · exact hf.has_distance ‹_›
    · exact ⟨0, (hasCode_set hzero).mpr (.inl rfl)⟩
  · have hl : ∀ s, HasCode f.literal s → HasCode (f.literal.set endOfBlock 1) s := fun s h => (hasCode_set hend).mpr (.inr h)
    have hd : ∀ s, HasCode f.distance s → HasCode (if f.hasDistance then f.distance else f.distance.set 0 1) s := by
      intro s h
      split
      · exact h
      · exact (hasCode_set hzero).mpr (.inr h)
    intro sym hsym
    have h := hc sym hsym
    cases sym with
    | literal byte => exact hl _ h
    | pointer length dist => exact ⟨fun s hs => hl _ (h.1 s hs), fun s hs => hd _ (h.2 s hs)⟩

/-! ## Codes of its own -/

/-- Lengths without a code at the end are no lengths of symbols. -/
theorem getD_append_zeros (lengths : List Nat) (k s : Nat) : (lengths ++ List.replicate k 0).getD s 0 = lengths.getD s 0 := by
  rw [List.getD_eq_getElem?_getD, List.getD_eq_getElem?_getD, List.getElem?_append]
  split
  · rfl
  · rename_i h
    rw [List.getElem?_eq_none (Nat.le_of_not_lt h), List.getElem?_replicate]
    split <;> rfl

theorem kraftSum_append_zeros (M : Nat) (lengths : List Nat) (k : Nat) :
    kraftSum M (lengths ++ List.replicate k 0) = kraftSum M lengths := by
  unfold kraftSum
  rw [List.filter_append, List.filter_replicate, if_neg (by simp), List.append_nil]

theorem hasCode_append_zeros {lengths : List Nat} {k s : Nat} : HasCode (lengths ++ List.replicate k 0) s ↔ HasCode lengths s := by
  unfold HasCode
  rw [getD_append_zeros]

/-- A code for one symbol. -/
theorem CompleteLengths.singleCode {frequencies lengths : List Nat} {limit : Nat} (h : CompleteLengths frequencies limit lengths)
    (hone : usedCount frequencies = 1) {s : Nat} (hs : HasCode frequencies s) : SingleCode lengths s := by
  have hcode : HasCode lengths s := (h.used_iff s).mpr hs
  refine ⟨h.single hone _ (List.mem_of_getElem? hcode.getElem?) hcode, ?_⟩
  intro t hne
  by_contra ht
  have hpos : 0 < frequencies.getD t 0 := (h.used_iff t).mp (Nat.pos_of_ne_zero ht)
  have htwo := two_le_usedCount hs hpos (Ne.symm hne)
  omega

/-- A code of a single symbol, or a complete one. -/
theorem CompleteLengths.single_or_complete {frequencies lengths : List Nat} {limit : Nat}
    (h : CompleteLengths frequencies limit lengths) (hlimit : limit ≤ 15) {s : Nat} (hs : HasCode frequencies s) :
    SingleCode lengths s ∨ kraftSum 15 lengths = 2 ^ 15 := by
  by_cases h2 : 2 ≤ usedCount frequencies
  · exact .inr (h.kraft h2 15 hlimit)
  · have hone : usedCount frequencies = 1 := by
      have hmem := List.length_pos_of_mem (mem_usedSymbols.mpr hs)
      rw [length_usedSymbols] at hmem
      omega
    exact .inl (h.singleCode hone hs)

/-- The code of a dynamic block: the encoders the code sets and the tokens are written with, and the sets that are transmitted. -/
structure DynamicCode (symbols : List Lz77Code) (payload : List UInt8) (setBits : List Bool) (sets : CodeSets) : Prop where
  code : BlockCode sets.literal sets.distance symbols payload
  strict : sets.Strict
  reads : ∀ rest, Rfc1951.readCodeSets (setBits ++ rest) = some (sets, rest)
  written : ∃ f literalLengths distanceLengths literalEncoder distanceEncoder, countTokens symbols = .ok f ∧
    lengthLimitedCodeLengths f.literal maxBits = .ok literalLengths ∧
    lengthLimitedCodeLengths f.distance maxBits = .ok distanceLengths ∧
    HuffmanEncoder.fromCodeLengths literalLengths = .ok literalEncoder ∧
    HuffmanEncoder.fromCodeLengths distanceLengths = .ok distanceEncoder ∧
    Writes (fun w => Encoder.writeCodeSets w literalEncoder distanceEncoder) setBits ∧
    Coding literalEncoder distanceEncoder sets.literal sets.distance

/-- Every tokens of a chunk have the code of a dynamic block. -/
theorem exists_dynamicCode {symbols : List Lz77Code} {payload : List UInt8} (h : Tokens symbols payload) :
    ∃ setBits sets, DynamicCode symbols payload setBits sets := by
  obtain ⟨f, hcount, hll, hdl, hend, ⟨d, hd⟩, hcoded⟩ := countTokens_spec h.in_range
  have hroom : ∀ {frequencies : List Nat}, frequencies.length ≤ 286 → usedCount frequencies ≤ 2 ^ maxBits := by
    intro frequencies hlen
    exact (List.length_filter_le _ _).trans (hlen.trans (by decide))
  obtain ⟨literal, hl1, hl2⟩ := lengthLimited_spec (show 1 ≤ maxBits by decide) (hroom hll.le)
  obtain ⟨distance, hd1, hd2⟩ := lengthLimited_spec (show 1 ≤ maxBits by decide) (hroom (hdl.le.trans (by decide)))
  have hfl := hl2.fits (by decide) hend
  have hfd := hd2.fits (by decide) hd
  obtain ⟨literalEncoder, hle, hel⟩ := encoderOf_ok hfl
  obtain ⟨distanceEncoder, hde, hed⟩ := encoderOf_ok hfd
  have hllen : literal.length = 286 := hl2.length_eq.trans hll
  have hdlen : distance.length = 30 := hd2.length_eq.trans hdl
  have hlend : HasCode literal endOfBlock := (hl2.used_iff _).mpr hend
  have hlkraft : 2 ≤ usedCount literal → kraftSum 15 literal = 2 ^ 15 := by
    intro h2
    rcases hl2.single_or_complete (by decide) hend with hsingle | hsum
    · -- a code of one symbol has no two
      exfalso
      have hused : usedSymbols literal ⊆ [endOfBlock] := by
        intro t ht
        rw [List.mem_singleton]
        by_contra hne
        have := mem_usedSymbols.mp ht
        rw [hsingle.2 t hne] at this
        exact Nat.lt_irrefl 0 this
      have hlen := (List.subperm_of_subset (leaves_sourceNodes literal).nodup hused).length_le
      have heq := length_usedSymbols literal
      rw [List.length_singleton] at hlen
      omega
    · exact hsum
  obtain ⟨codeLength, setBits, hw, hr, hb1, hb2, hb3, -⟩ := writes_codeSets hel hed hfl hfd hllen hdlen hlend hlkraft
  obtain ⟨hlc1, hlc2, hlc3⟩ := codeCount_spec hel (by decide) (show 257 ≤ literal.length by omega)
  obtain ⟨hdc1, hdc2, hdc3⟩ := codeCount_spec hed (by decide) (show 1 ≤ distance.length by omega)
  generalize codeCount 257 literalEncoder = ln at hr hlc1 hlc2 hlc3
  generalize codeCount 1 distanceEncoder = dn at hr hdc1 hdc2 hdc3
  have hltake : (literal.take ln).length = ln := List.length_take_of_le (by omega)
  have hdtake : (distance.take dn).length = dn := List.length_take_of_le (by omega)
  have hlcode : ∀ s, HasCode literal s ↔ HasCode (literal.take ln) s := by
    intro s
    conv_lhs => rw [hlc3]
    exact hasCode_append_zeros
  have hdcode : ∀ s, HasCode distance s ↔ HasCode (distance.take dn) s := by
    intro s
    conv_lhs => rw [hdc3]
    exact hasCode_append_zeros
  have hcoding : Coding literalEncoder distanceEncoder (literal.take ln) (distance.take dn) := by
    have h1 := hel.used
    have h2 := hed.used
    have h3 := hfl
    have h4 := hfd
    rw [hlc3] at h1 h3
    rw [hdc3] at h2 h4
    exact ⟨h1.of_append_zeros, h2.of_append_zeros, h3.of_append_zeros, h4.of_append_zeros⟩
  have hsingle : ∀ {lengths : List Nat} {n s : Nat}, lengths = lengths.take n ++ List.replicate (lengths.length - n) 0 →
      SingleCode lengths s ∨ kraftSum 15 lengths = 2 ^ 15 →
      SingleCode (lengths.take n) s ∨ kraftSum 15 (lengths.take n) = 2 ^ 15 := by
    intro lengths n s heq h'
    have hget : ∀ t, lengths.getD t 0 = (lengths.take n).getD t 0 := by
      intro t
      conv_lhs => rw [heq]
      exact getD_append_zeros _ _ _
    have hsum : kraftSum 15 lengths = kraftSum 15 (lengths.take n) := by
      conv_lhs => rw [heq]
      exact kraftSum_append_zeros _ _ _
    unfold SingleCode at h' ⊢
    simp only [hget, hsum] at h'
    exact h'
  refine ⟨setBits, { codeLength, literal := literal.take ln, distance := distance.take dn }, ?_, ?_, hr, ?_⟩
  · refine ⟨⟨_, _, hcoding⟩, (hlcode _).mp hlend, h, ?_⟩
    intro sym hsym
    have hsym' := hcoded sym hsym
    cases sym with
    | literal byte => exact (hlcode _).mp ((hl2.used_iff _).mpr hsym')
    | pointer length dist =>
      exact ⟨fun s hs => (hlcode _).mp ((hl2.used_iff _).mpr (hsym'.1 s hs)),
        fun s hs => (hdcode _).mp ((hd2.used_iff _).mpr (hsym'.2 s hs))⟩
  · have hendTake : HasCode (literal.take ln) endOfBlock := (hlcode _).mp hlend
    refine ⟨?_, ?_, hb2, hb3, ?_, hendTake, ?_, ?_, ?_⟩
    · rw [hltake]
      omega
    · rw [hdtake]
      omega
    · exact fun w hw => hl2.le_limit w (List.mem_of_mem_take hw)
    · exact hsingle hlc3 (hl2.single_or_complete (by decide) hend)
    · exact fun w hw => hd2.le_limit w (List.mem_of_mem_take hw)
    · exact (hsingle hdc3 (hd2.single_or_complete (by decide) hd)).imp_left fun h' => ⟨d, h'⟩
  · exact ⟨f, literal, distance, literalEncoder, distanceEncoder, hcount, hl1, hd1, hle, hde, hw, hcoding⟩

end Noflate
