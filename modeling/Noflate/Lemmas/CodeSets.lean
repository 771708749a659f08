import Noflate.Lemmas.PackageMerge
import Noflate.Lemmas.RunCoding
import Mathlib.Tactic.IntervalCases
import Mathlib.Tactic.NormNum

/-!
# The code sets of a dynamic block

How many code lengths are announced (`codeCount_spec`, `bitwidthCodeCount_spec`), and that what is announced and transmitted is read
back (`writes_codeSets`). The code-length code always has two symbols: with one, all code lengths of a complete literal/length code
of at least 257 symbols would be the same (`two_codes`).
-/

namespace Noflate

open BitString

/-! ## The last symbol with a code -/

/-- Searching a list from its end finds the last element that passes. -/
theorem lastIndex_spec {α : Type} (p : α → Bool) (l : List α) :
    (l.zipIdx.reverse.find? (fun e => p e.1) = none ∧ ∀ a ∈ l, p a = false) ∨
      ∃ a j, l.zipIdx.reverse.find? (fun e => p e.1) = some (a, j) ∧ l[j]? = some a ∧ p a = true ∧
        ∀ i b, j < i → l[i]? = some b → p b = false := by
  induction l using List.reverseRecOn with
  | nil => exact .inl ⟨rfl, fun a ha => (nomatch ha)⟩
  | append_singleton l a ih =>
    rw [List.zipIdx_append, List.reverse_append, Nat.zero_add, List.zipIdx_singleton, List.reverse_singleton, List.singleton_append,
      List.find?_cons]
    cases ha : p a with
    | true =>
      refine .inr ⟨a, l.length, rfl, by rw [List.getElem?_concat_length], ha, ?_⟩
      intro i b hi hb
      have hlt := (List.getElem?_eq_some_iff.mp hb).1
      rw [List.length_append, List.length_singleton] at hlt
      omega
    | false =>
      rcases ih with ⟨h1, h2⟩ | ⟨b, j, h1, h2, h3, h4⟩
      · refine .inl ⟨h1, ?_⟩
        intro c hc
        rcases List.mem_append.mp hc with hc | hc
        · exact h2 c hc
        · rw [List.mem_singleton.mp hc]
          exact ha
      · refine .inr ⟨b, j, h1, by rw [List.getElem?_append_left (List.getElem?_eq_some_iff.mp h2).1, h2], h3, ?_⟩
        intro i c hi hc
        rw [List.getElem?_append] at hc
        split at hc
        · exact h4 i c hi hc
        · have hmem := List.mem_of_getElem? hc
          rw [List.mem_singleton.mp hmem]
          exact ha

/-- The lengths that are announced reach up to the last symbol with a code. -/
theorem codeCount_spec {enc : HuffmanEncoder} {lengths : List Nat} (h : EncoderOf enc lengths) {least : Nat}
    (hpos : 0 < least) (hleast : least ≤ lengths.length) :
    least ≤ codeCount least enc ∧ codeCount least enc ≤ max least lengths.length ∧
      lengths = lengths.take (codeCount least enc) ++ List.replicate (lengths.length - codeCount least enc) 0 := by
  have hcodes : ∀ i c, enc.codes[i]? = some c → lengths.getD i 0 = c.width := by
    intro i c hc
    rw [← h.codeWidth_eq i, HuffmanEncoder.codeWidth, hc]
    rfl
  -- beyond the count no symbol has a code
  have hbeyond : (codeCount least enc ≤ max least lengths.length) ∧ ∀ i, codeCount least enc ≤ i → lengths.getD i 0 = 0 := by
    have hnone : ∀ i, enc.codes[i]? = none → lengths.getD i 0 = 0 := by
      intro i hi
      rw [List.getElem?_eq_none_iff, h.length_eq] at hi
      rw [List.getD_eq_getElem?_getD, List.getElem?_eq_none hi, Option.getD_none]
    unfold codeCount HuffmanEncoder.usedMaxSymbol
    rcases lastIndex_spec (fun c : Code => decide (0 < c.width)) enc.codes with ⟨h1, h2⟩ | ⟨a, j, h1, h2, h3, h4⟩
    · rw [h1]
      have hzero : ∀ i, lengths.getD i 0 = 0 := by
        intro i
        cases hc : enc.codes[i]? with
        | none => exact hnone i hc
        | some c =>
          have := h2 c (List.mem_of_getElem? hc)
          rw [hcodes i c hc]
          simpa using this
      refine ⟨?_, fun i _ => hzero i⟩
      simp only [Option.map_none, Option.getD_none]
      omega
    · rw [h1]
      have hj := (List.getElem?_eq_some_iff.mp h2).1
      rw [h.length_eq] at hj
      simp only [Option.map_some, Option.getD_some]
      refine ⟨by omega, ?_⟩
      intro i hi
      cases hc : enc.codes[i]? with
      | none => exact hnone i hc
      | some c =>
        have := h4 i c (by omega) hc
        rw [hcodes i c hc]
        simpa using this
  refine ⟨le_max_left _ _, hbeyond.1, ?_⟩
  conv_lhs => rw [← List.take_append_drop (codeCount least enc) lengths]
  congr 1
  rw [← List.length_drop]
  refine List.eq_replicate_of_mem ?_
  intro w hw
  obtain ⟨i, hi, rfl⟩ := List.mem_iff_getElem.mp hw
  rw [List.length_drop] at hi
  have := hbeyond.2 (codeCount least enc + i) (Nat.le_add_right _ _)
  rw [List.getD_eq_getElem?_getD, List.getElem?_eq_getElem (by omega), Option.getD_some] at this
  rw [List.getElem_drop]
  exact this

/-- The widths of the first symbols of an encoder. -/
theorem map_codeWidth {enc : HuffmanEncoder} {lengths : List Nat} (h : EncoderOf enc lengths) {n : Nat} (hn : n ≤ lengths.length) :
    (List.range n).map enc.codeWidth = lengths.take n := by
  refine List.ext_getElem ?_ ?_
  · rw [List.length_map, List.length_range, List.length_take_of_le hn]
  · intro i h1 h2
    rw [List.length_take_of_le hn] at h2
    rw [List.getElem_map, List.getElem_range, h.codeWidth_eq, List.getElem_take, List.getD_eq_getElem?_getD,
      List.getElem?_eq_getElem (by omega), Option.getD_some]

/-- The lengths of the code-length code that are announced reach up to the last one that is not zero, in the order in which they are
transmitted. -/
theorem bitwidthCodeCount_spec {enc : HuffmanEncoder} {lengths : List Nat} (h : EncoderOf enc lengths) :
    4 ≤ bitwidthCodeCount enc ∧ bitwidthCodeCount enc ≤ 19 ∧
      ∀ slot < 19, HasCode lengths slot → slot ∈ bitwidthCodeOrder.take (bitwidthCodeCount enc) := by
  have hmem : ∀ slot < 19, ∃ i : Nat, bitwidthCodeOrder[i]? = some slot := by
    intro slot hslot
    have horder : ∀ slot < 19, slot ∈ bitwidthCodeOrder := by decide
    obtain ⟨i, hi⟩ := List.getElem?_of_mem (horder slot hslot)
    exact ⟨i, hi⟩
  unfold bitwidthCodeCount
  rcases lastIndex_spec (fun index => decide (0 < enc.codeWidth index)) bitwidthCodeOrder with ⟨h1, h2⟩ | ⟨a, j, h1, h2, h3, h4⟩
  · rw [h1]
    refine ⟨le_max_left _ _, by decide, ?_⟩
    intro slot hslot hcode
    obtain ⟨i, hi⟩ := hmem slot hslot
    have := h2 slot (List.mem_of_getElem? hi)
    rw [h.codeWidth_eq] at this
    exact absurd hcode (by simpa [HasCode] using this)
  · rw [h1]
    have hj := (List.getElem?_eq_some_iff.mp h2).1
    have hlen : bitwidthCodeOrder.length = 19 := rfl
    simp only [Option.map_some, Option.getD_some]
    refine ⟨le_max_left _ _, by omega, ?_⟩
    intro slot hslot hcode
    obtain ⟨i, hi⟩ := hmem slot hslot
    have hij : i ≤ j := by
      by_contra hlt
      have := h4 i slot (by omega) hi
      rw [h.codeWidth_eq] at this
      exact absurd hcode (by simpa [HasCode] using this)
    refine List.mem_of_getElem? (i := i) ?_
    rw [List.getElem?_take_of_lt (by omega), hi]

/-! ## The code-length code -/

/-- Lengths that were written into slots are read back into them. -/
theorem readCodeLengthCode_append {values : List Nat} (hv : ∀ i, values.getD i 0 < 2 ^ 3) (slots : List Nat) {lengths : List Nat}
    (hslots : ∀ s ∈ slots, s < lengths.length) (rest : List Bool) :
    ∃ lengths', Rfc1951.readCodeLengthCode slots (slots.flatMap (fun s => ofNat 3 (values.getD s 0)) ++ rest) lengths =
        some (lengths', rest) ∧ lengths'.length = lengths.length ∧
      ∀ i < lengths.length, lengths'.getD i 0 = if i ∈ slots then values.getD i 0 else lengths.getD i 0 := by
  induction slots generalizing lengths with
  | nil => exact ⟨lengths, rfl, rfl, fun i _ => by rw [if_neg (List.not_mem_nil)]⟩
  | cons slot slots ih =>
    have hslot := hslots slot List.mem_cons_self
    have hbound : ∀ s ∈ slots, s < (lengths.set slot (values.getD slot 0)).length := by
      intro s hs
      rw [List.length_set]
      exact hslots s (List.mem_cons_of_mem _ hs)
    obtain ⟨lengths', h1, h2, h3⟩ := ih hbound
    rw [List.length_set] at h2 h3
    refine ⟨lengths', ?_, h2, ?_⟩
    · rw [Rfc1951.readCodeLengthCode, List.flatMap_cons, List.append_assoc, readField_append (hv slot), Option.bind_eq_bind,
        Option.bind_some]
      exact h1
    · intro i hi
      rw [h3 i hi]
      by_cases hmem : i ∈ slots
      · rw [if_pos hmem, if_pos (List.mem_cons_of_mem _ hmem)]
      · rw [if_neg hmem, List.getD_eq_getElem?_getD, List.getElem?_set]
        by_cases his : slot = i
        · subst his
          rw [if_pos rfl, if_pos hslot, if_pos List.mem_cons_self, Option.getD_some]
        · have hne : i ∉ slot :: slots := by
            rw [List.mem_cons, not_or]
            exact ⟨Ne.symm his, hmem⟩
          rw [if_neg his, if_neg hne, ← List.getD_eq_getElem?_getD]

/-- Elements with only one symbol add only one width. -/
theorem Expands.single_code {lengths all : List Nat} {codes : List BitwidthCode} {v : Nat} (h : Expands lengths codes all)
    (hcodes : ∀ c ∈ codes, c.code = v) :
    (v = 16 ∧ (lengths = [] → codes = [])) ∨ ((v = 17 ∨ v = 18) ∧ ∀ w ∈ all, w ∈ lengths ∨ w = 0) ∨
      v < 16 ∧ (∀ w ∈ all, w ∈ lengths ∨ w = v) ∨ codes = [] := by
  induction h with
  | nil => exact .inr (.inr (.inr rfl))
  | cons hadds hrest ih =>
    rename_i lengths added all c codes
    have hc := hcodes c List.mem_cons_self
    have hrest' := ih fun c hc => hcodes c (List.mem_cons_of_mem _ hc)
    -- what this element adds, and what the others do
    have hothers : ∀ {x : Nat}, (∀ w ∈ added, w = x) → (∀ w ∈ all, w ∈ lengths ++ added ∨ w = x) →
        ∀ w ∈ all, w ∈ lengths ∨ w = x := by
      intro x hx hall w hw
      rcases hall w hw with h | h
      · rcases List.mem_append.mp h with h | h
        · exact .inl h
        · exact .inr (hx w h)
      · exact .inr h
    have hnil : ∀ {x : Nat}, codes = [] → ∀ w ∈ all, w ∈ lengths ++ added ∨ w = x := by
      intro x hnil w hw
      subst hnil
      cases hrest
      exact .inl hw
    cases hadds with
    | length h =>
      refine .inr (.inr (.inl ⟨hc ▸ h, ?_⟩))
      refine hothers (fun w hw => (List.mem_singleton.mp hw).trans hc) ?_
      rcases hrest' with ⟨hv, -⟩ | ⟨hv, -⟩ | ⟨-, hall⟩ | hnil'
      · simp only at hc
        omega
      · simp only at hc
        omega
      · exact hall
      · exact hnil hnil'
    | last hextra hlast =>
      refine .inl ⟨hc.symm, ?_⟩
      rintro rfl
      cases hlast
    | zeros hextra =>
      refine .inr (.inl ⟨.inl hc.symm, ?_⟩)
      refine hothers (fun w hw => List.eq_of_mem_replicate hw) ?_
      rcases hrest' with ⟨hv, -⟩ | ⟨-, hall⟩ | ⟨hv, -⟩ | hnil'
      · simp only at hc
        omega
      · exact hall
      · simp only at hc
        omega
      · exact hnil hnil'
    | manyZeros hextra =>
      refine .inr (.inl ⟨.inr hc.symm, ?_⟩)
      refine hothers (fun w hw => List.eq_of_mem_replicate hw) ?_
      rcases hrest' with ⟨hv, -⟩ | ⟨-, hall⟩ | ⟨hv, -⟩ | hnil'
      · simp only at hc
        omega
      · exact hall
      · simp only at hc
        omega
      · exact hnil hnil'

/-- A complete code with between 257 and 286 symbols does not have them all at one width. -/
theorem kraft_ne_of_width {n v : Nat} (h1 : 257 ≤ n) (h2 : n ≤ 286) (hv : v ≤ 15) : n * 2 ^ (15 - v) ≠ 2 ^ 15 := by
  interval_cases v
  all_goals
    norm_num
    omega

/-- The elements for the code lengths of a block have two symbols at least. -/
theorem two_codes {literal distance all : List Nat} {codes : List BitwidthCode} (h : Expands [] codes all)
    (hall : all = literal ++ distance) (h257 : 257 ≤ literal.length) (h286 : literal.length ≤ 286)
    (hend : HasCode literal endOfBlock) (hkraft : 2 ≤ usedCount literal → kraftSum 15 literal = 2 ^ 15) :
    ∃ c ∈ codes, ∃ c' ∈ codes, c.code ≠ c'.code := by
  by_contra hnone
  push Not at hnone
  have hendMem : literal.getD endOfBlock 0 ∈ all := by
    rw [hall]
    exact List.mem_append_left _ (List.mem_of_getElem? hend.getElem?)
  cases codes with
  | nil =>
    cases h
    cases hendMem
  | cons c codes =>
    have hcodes : ∀ c' ∈ c :: codes, c'.code = c.code := fun c' hc' => hnone c' hc' c List.mem_cons_self
    rcases h.single_code hcodes with ⟨-, hnil⟩ | ⟨-, hzero⟩ | ⟨hv, hwidths⟩ | hnil
    · cases hnil rfl
    · rcases hzero _ hendMem with hmem | hmem
      · cases hmem
      · unfold HasCode at hend
        omega
    · -- all code lengths are the same width, which is not zero
      have hsame : ∀ w ∈ literal, w = c.code := by
        intro w hw
        rcases hwidths w (hall ▸ List.mem_append_left _ hw) with hmem | hmem
        · cases hmem
        · exact hmem
      have hpos : 0 < c.code := by
        have := hsame _ (List.mem_of_getElem? hend.getElem?)
        unfold HasCode at hend
        omega
      have hfilter : literal.filter (fun w => 0 < w) = literal := by
        rw [List.filter_eq_self]
        intro w hw
        rw [hsame w hw]
        simpa using hpos
      have hsum := hkraft (by
        unfold usedCount
        rw [hfilter]
        omega)
      unfold kraftSum at hsum
      rw [hfilter, sum_map_of_eq (fun w hw => by rw [hsame w hw])] at hsum
      exact kraft_ne_of_width h257 h286 (Nat.le_of_lt_succ hv) hsum
    · cases hnil

/-- Two symbols with a frequency. -/
theorem two_le_usedCount {frequencies : List Nat} {s s' : Nat} (hs : 0 < frequencies.getD s 0) (hs' : 0 < frequencies.getD s' 0)
    (hne : s ≠ s') : 2 ≤ usedCount frequencies := by
  rw [← length_usedSymbols]
  have hmem := mem_usedSymbols.mpr hs
  have hmem' : s' ∈ (usedSymbols frequencies).erase s := (List.mem_erase_of_ne (Ne.symm hne)).mpr (mem_usedSymbols.mpr hs')
  have hlen := List.length_erase_of_mem hmem
  have hpos := List.length_pos_of_mem hmem'
  omega

/-- A complete code is a code that tables hold. -/
theorem CompleteLengths.fits {frequencies lengths : List Nat} {limit : Nat} (h : CompleteLengths frequencies limit lengths)
    (hlimit : limit ≤ 15) {s : Nat} (hs : 0 < frequencies.getD s 0) : Fits lengths := by
  have hused := (h.used_iff s).mpr hs
  refine ⟨⟨_, List.mem_of_getElem? (HasCode.getElem? hused), hused⟩, fun w hw => (h.le_limit w hw).trans hlimit, ?_⟩
  rw [Canonical.weight_sorted]
  by_cases h2 : 2 ≤ usedCount frequencies
  · exact (h.kraft h2 15 hlimit).le
  · have hone : usedCount frequencies = 1 := by
      have hmem := List.length_pos_of_mem (mem_usedSymbols.mpr hs)
      rw [length_usedSymbols] at hmem
      omega
    -- one symbol takes half of the code
    obtain ⟨a, ha⟩ := List.length_eq_one_iff.mp ((length_usedSymbols frequencies).trans hone)
    have hnodup := (leaves_sourceNodes frequencies).nodup
    have hmem : ∀ t, t ∈ usedSymbols frequencies ↔ 0 < lengths.getD t 0 := by
      intro t
      rw [mem_usedSymbols, h.used_iff t]
    have hsum := kraftSum_eq 15 hnodup hmem
    unfold kraftSum at hsum
    rw [hsum, ha, List.map_singleton, List.sum_singleton]
    exact Nat.pow_le_pow_right Nat.two_pos (Nat.sub_le _ _)

/-! ## Writing and reading the code sets -/

/-- The code that the encoder makes for elements of code lengths, with the steps that make it: it is complete, and all the elements have
codes in it. -/
structure CodeLengthCode (codes : List BitwidthCode) (codeLength : List Nat) (enc : HuffmanEncoder) : Prop where
  exists_frequencies : ∃ frequencies, (codes.map (·.code)).foldlM countSymbol (List.replicate 19 0) = .ok frequencies ∧
    lengthLimitedCodeLengths frequencies 7 = .ok codeLength
  encoder_eq : HuffmanEncoder.fromCodeLengths codeLength = .ok enc
  encoderOf : EncoderOf enc codeLength
  fits : Fits codeLength
  length_eq : codeLength.length = 19
  le_seven : ∀ w ∈ codeLength, w ≤ 7
  kraft_eq : kraftSum 7 codeLength = 2 ^ 7
  hasCode : ∀ c ∈ codes, HasCode codeLength c.code

/-- Elements of two different symbols at least have such a code. -/
theorem exists_codeLengthCode {codes : List BitwidthCode} (hbound : ∀ c ∈ codes, c.code < 19) {c c' : BitwidthCode}
    (hc : c ∈ codes) (hc' : c' ∈ codes) (hne : c.code ≠ c'.code) : ∃ codeLength enc, CodeLengthCode codes codeLength enc := by
  have hslots : ∀ s ∈ codes.map (·.code), s < (List.replicate 19 0).length := by
    intro s hs
    obtain ⟨c, hc, rfl⟩ := List.mem_map.mp hs
    rw [List.length_replicate]
    exact hbound c hc
  obtain ⟨frequencies, hf1, hf2, hf3⟩ := countSymbols_ok _ hslots
  rw [List.length_replicate] at hf2 hf3
  have hfreq : ∀ c ∈ codes, 0 < frequencies.getD c.code 0 := by
    intro c hc
    have hpos := List.count_pos_iff.mpr (List.mem_map_of_mem (f := (·.code)) hc)
    rw [hf3 _ (hbound c hc)]
    omega
  have htwo := two_le_usedCount (hfreq c hc) (hfreq c' hc') hne
  have hroom : usedCount frequencies ≤ 2 ^ 7 := by
    have := List.length_filter_le (fun value => decide (0 < value)) frequencies
    unfold usedCount
    omega
  obtain ⟨codeLength, hb1, hb2⟩ := lengthLimited_spec (show 1 ≤ 7 by decide) hroom
  have hfits := hb2.fits (by decide) (hfreq c hc)
  obtain ⟨enc, he1, he2⟩ := encoderOf_ok hfits
  exact ⟨codeLength, enc, ⟨frequencies, hf1, hb1⟩, he1, he2, hfits, by rw [hb2.length_eq, hf2], hb2.le_limit, hb2.kraft htwo 7 le_rfl,
    fun c hc => (hb2.used_iff _).mpr (hfreq c hc)⟩

/-- The code lengths of a block, `ln` and `dn` of them, transmitted by elements. -/
def codeSetBits (ln dn : Nat) (codeLength : List Nat) (enc : HuffmanEncoder) (codes : List BitwidthCode) : List Bool :=
  ofNat 5 (ln - 257) ++ (ofNat 5 (dn - 1) ++ (ofNat 4 (bitwidthCodeCount enc - 4) ++
    ((bitwidthCodeOrder.take (bitwidthCodeCount enc)).flatMap (fun s => ofNat 3 (codeLength.getD s 0)) ++
      codes.flatMap (BitwidthCode.bits codeLength))))

section

variable {codes : List BitwidthCode} {codeLength : List Nat} {enc : HuffmanEncoder}

theorem CodeLengthCode.width_lt (h : CodeLengthCode codes codeLength enc) (i : Nat) : codeLength.getD i 0 < 2 ^ 3 := by
  rw [List.getD_eq_getElem?_getD]
  cases hi : codeLength[i]? with
  | none => exact Nat.two_pow_pos 3
  | some w => exact Nat.lt_succ_of_le (h.le_seven w (List.mem_of_getElem? hi))

/-- The code lengths are written so. -/
theorem CodeLengthCode.writes (h : CodeLengthCode codes codeLength enc) {literalEncoder distanceEncoder : HuffmanEncoder} {all : List Nat}
    (hcodes : buildBitwidthCodes literalEncoder (codeCount 257 literalEncoder) distanceEncoder (codeCount 1 distanceEncoder) = codes)
    (hexpand : Expands [] codes all) (hlit : codeCount 257 literalEncoder - 257 < 2 ^ 5)
    (hdist : codeCount 1 distanceEncoder - 1 < 2 ^ 5) :
    Writes (fun w => Encoder.writeCodeSets w literalEncoder distanceEncoder)
      (codeSetBits (codeCount 257 literalEncoder) (codeCount 1 distanceEncoder) codeLength enc codes) := by
  obtain ⟨frequencies, hf, hb⟩ := h.exists_frequencies
  obtain ⟨hn1, hn2, -⟩ := bitwidthCodeCount_spec h.encoderOf
  have hwidths : Writes (fun w => (bitwidthCodeOrder.take (bitwidthCodeCount enc)).foldlM
      (fun w index => w.writeBits 3 (enc.codeWidth index)) w)
      ((bitwidthCodeOrder.take (bitwidthCodeCount enc)).flatMap (fun s => ofNat 3 (codeLength.getD s 0))) := by
    refine Writes.foldlM fun s _ => ?_
    simp only [h.encoderOf.codeWidth_eq]
    exact .field (by decide) (h.width_lt s)
  have helements : Writes (fun w => codes.foldlM (writeBitwidthCode enc) w) (codes.flatMap (BitwidthCode.bits codeLength)) :=
    .foldlM fun c hc =>
      BitwidthCode.writes h.encoderOf.used h.fits (h.hasCode c hc) (hexpand.extra_lt c hc).1 (hexpand.extra_lt c hc).2
  have hclen : bitwidthCodeCount enc - 4 < 2 ^ 4 := by omega
  refine ((Writes.field (by decide) hlit).bind ((Writes.field (by decide) hdist).bind ((Writes.field (by decide) hclen).bind
    (hwidths.bind helements)))).congr ?_
  intro w
  simp only [Encoder.writeCodeSets, hcodes, hf, Exec.ok_bind, hb, h.encoder_eq]

/-- The lengths of the code for the elements are read back. -/
theorem CodeLengthCode.read (h : CodeLengthCode codes codeLength enc) (rest : List Bool) :
    Rfc1951.readCodeLengthCode (Rfc1951.codeLengthOrder.take (bitwidthCodeCount enc))
      ((bitwidthCodeOrder.take (bitwidthCodeCount enc)).flatMap (fun s => ofNat 3 (codeLength.getD s 0)) ++ rest)
      (List.replicate 19 0) = some (codeLength, rest) := by
  have hslots : ∀ s ∈ bitwidthCodeOrder.take (bitwidthCodeCount enc), s < (List.replicate 19 0).length := by
    intro s hs
    have horder : ∀ s ∈ bitwidthCodeOrder, s < 19 := by decide
    rw [List.length_replicate]
    exact horder s (List.mem_of_mem_take hs)
  obtain ⟨lengths', hr1, hr2, hr3⟩ := readCodeLengthCode_append h.width_lt (bitwidthCodeOrder.take (bitwidthCodeCount enc)) hslots rest
  rw [List.length_replicate] at hr2 hr3
  have hlengths' : lengths' = codeLength := by
    refine List.ext_getElem (by rw [hr2, h.length_eq]) ?_
    intro i h1 h2
    have hi : i < 19 := by omega
    have hget : lengths'.getD i 0 = codeLength.getD i 0 := by
      rw [hr3 i hi]
      by_cases hmem : i ∈ bitwidthCodeOrder.take (bitwidthCodeCount enc)
      · rw [if_pos hmem]
      · rw [if_neg hmem, List.getD_eq_getElem?_getD, List.getElem?_replicate, if_pos hi, Option.getD_some]
        by_contra hne
        exact hmem ((bitwidthCodeCount_spec h.encoderOf).2.2 i hi (Nat.pos_of_ne_zero (Ne.symm hne)))
    rw [List.getD_eq_getElem?_getD, List.getD_eq_getElem?_getD, List.getElem?_eq_getElem h1, List.getElem?_eq_getElem h2] at hget
    exact hget
  rw [hlengths'] at hr1
  exact hr1

/-- The code lengths are read back. -/
theorem CodeLengthCode.reads (h : CodeLengthCode codes codeLength enc) {ln dn : Nat} {literal distance : List Nat}
    (hexpand : Expands [] codes (literal ++ distance)) (hln : literal.length = ln) (hdn : distance.length = dn) (hl : 257 ≤ ln)
    (hd : 1 ≤ dn) (hlit : ln - 257 < 2 ^ 5) (hdist : dn - 1 < 2 ^ 5) (rest : List Bool) :
    Rfc1951.readCodeSets (codeSetBits ln dn codeLength enc codes ++ rest) = some ({ codeLength, literal, distance }, rest) := by
  obtain ⟨hn1, hn2, -⟩ := bitwidthCodeCount_spec h.encoderOf
  have hclen : bitwidthCodeCount enc - 4 < 2 ^ 4 := by omega
  have htotal : ln - 257 + 257 + (dn - 1 + 1) = (literal ++ distance).length := by
    rw [List.length_append, hln, hdn]
    omega
  have hlengths := readCodeLengths_of_expand h.fits hexpand h.hasCode
    (show (literal ++ distance).length ≤ ([] : List Nat).length + (literal ++ distance).length by
      rw [List.length_nil, Nat.zero_add]) rest
  unfold codeSetBits Rfc1951.readCodeSets
  simp only [List.append_assoc, readField_append hlit, readField_append hdist, readField_append hclen, Option.bind_eq_bind,
    Option.bind_some]
  rw [Nat.sub_add_cancel hn1, htotal, h.read, Option.bind_some]
  simp only
  rw [hlengths, Option.bind_some, Nat.sub_add_cancel hl]
  simp only
  rw [List.take_left' hln, List.drop_left' hln]

end

/-- The code sets of a block, transmitted: they are written, and read back as the lengths that are announced, with a complete
code-length code. -/
theorem writes_codeSets {literalEncoder distanceEncoder : HuffmanEncoder} {literal distance : List Nat}
    (hl : EncoderOf literalEncoder literal) (hd : EncoderOf distanceEncoder distance) (hfl : Fits literal) (hfd : Fits distance)
    (hll : literal.length = 286) (hdl : distance.length = 30) (hend : HasCode literal endOfBlock)
    (hkraft : 2 ≤ usedCount literal → kraftSum 15 literal = 2 ^ 15) :
    ∃ codeLength bits, Writes (fun w => Encoder.writeCodeSets w literalEncoder distanceEncoder) bits ∧
      (∀ rest, Rfc1951.readCodeSets (bits ++ rest) = some
        ({ codeLength, literal := literal.take (codeCount 257 literalEncoder),
           distance := distance.take (codeCount 1 distanceEncoder) }, rest)) ∧
      codeLength.length = 19 ∧ (∀ w ∈ codeLength, w ≤ 7) ∧ kraftSum 7 codeLength = 2 ^ 7 ∧ Fits codeLength := by
  obtain ⟨hlc1, hlc2, hlc3⟩ := codeCount_spec hl (by decide) (show 257 ≤ literal.length by omega)
  obtain ⟨hdc1, hdc2, -⟩ := codeCount_spec hd (by decide) (show 1 ≤ distance.length by omega)
  have hltake : (literal.take (codeCount 257 literalEncoder)).length = codeCount 257 literalEncoder :=
    List.length_take_of_le (by omega)
  have hdtake : (distance.take (codeCount 1 distanceEncoder)).length = codeCount 1 distanceEncoder := List.length_take_of_le (by omega)
  -- the elements expand to the announced lengths
  have hexpand : Expands [] (buildBitwidthCodes literalEncoder (codeCount 257 literalEncoder) distanceEncoder
      (codeCount 1 distanceEncoder))
      (literal.take (codeCount 257 literalEncoder) ++ distance.take (codeCount 1 distanceEncoder)) := by
    rw [buildBitwidthCodes, map_codeWidth hl (by omega), map_codeWidth hd (by omega)]
    refine widths_expand ?_
    intro w hw
    rcases List.mem_append.mp hw with hw | hw
    · exact Nat.lt_succ_of_le (hfl.le_max w (List.mem_of_mem_take hw))
    · exact Nat.lt_succ_of_le (hfd.le_max w (List.mem_of_mem_take hw))
  -- and have two symbols at least
  have hendTake : HasCode (literal.take (codeCount 257 literalEncoder)) endOfBlock := by
    refine hasCode_of_getElem? (w := literal.getD endOfBlock 0) ?_ hend
    rw [List.getElem?_take_of_lt (by unfold endOfBlock; omega), hend.getElem?]
  have hfilter : (literal.take (codeCount 257 literalEncoder)).filter (fun w => 0 < w) = literal.filter (fun w => 0 < w) := by
    conv_rhs => rw [hlc3]
    rw [List.filter_append, List.filter_replicate, if_neg (by simp), List.append_nil]
  obtain ⟨c, hc, c', hc', hne⟩ := two_codes hexpand rfl (by omega) (by omega) hendTake (by
    unfold usedCount kraftSum at hkraft ⊢
    rw [hfilter]
    exact hkraft)
  obtain ⟨codeLength, enc, hcode⟩ := exists_codeLengthCode hexpand.code_lt hc hc' hne
  exact ⟨codeLength, _, hcode.writes rfl hexpand (by omega) (by omega),
    hcode.reads hexpand hltake hdtake hlc1 hdc1 (by omega) (by omega), hcode.length_eq, hcode.le_seven, hcode.kraft_eq, hcode.fits⟩

end Noflate
