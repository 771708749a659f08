import Noflate.Error
import Noflate.Decode
import Noflate.Lemmas.RunCoding

/-!
# The run coding of the code lengths

The elements that the encoder makes of the code lengths of a dynamic block, expanded by the rules of the decoder, are the code lengths
(`runCoding_inverted`).
-/

namespace Noflate

/-! ## The rules of the decoder -/

/-- What `stepDynamicCodeLengths` makes of the code lengths there are when it has read an element. -/
def BitwidthCode.apply (targetLen : Nat) (lengths : List Nat) (c : BitwidthCode) : Exec (List Nat) :=
  let continueWith (lengths : List Nat) : Exec (List Nat) :=
    if targetLen < lengths.length then .err (.invalidData "dynamic huffman code lengths exceed the announced table size")
    else .ok lengths
  if c.code ≤ 15 then continueWith (lengths ++ [c.code])
  else if c.code = 16 then
    match lengths.getLast? with
    | none => .err (.invalidData "repeat code 16 without a previous code")
    | some last => continueWith (lengths ++ List.replicate (c.extra + 3) last)
  else if c.code = 17 then continueWith (lengths ++ List.replicate (c.extra + 3) 0)
  else if c.code = 18 then continueWith (lengths ++ List.replicate (c.extra + 11) 0)
  else .err (.invalidData ("invalid code length symbol: " ++ toString c.code))

/-- Elements, expanded one after the other. -/
def expandCodes (targetLen : Nat) (codes : List BitwidthCode) (lengths : List Nat) : Exec (List Nat) :=
  codes.foldlM (BitwidthCode.apply targetLen) lengths

/-- The extra bits of an element: none for a length, and 2, 3 or 7 for a repetition, with a value that fits into them. -/
def BitwidthCode.ExtraFits (c : BitwidthCode) : Prop :=
  (c.code ≤ 15 ∧ c.extraBits = 0 ∧ c.extra = 0) ∨ (c.code = 16 ∧ c.extraBits = 2 ∧ c.extra < 2 ^ 2) ∨
    (c.code = 17 ∧ c.extraBits = 3 ∧ c.extra < 2 ^ 3) ∨ (c.code = 18 ∧ c.extraBits = 7 ∧ c.extra < 2 ^ 7)

/-- The decoder of the code-length code reads an element, and its extra bits if it has any. -/
def ReadsElement (dec : HuffmanDecoder) (r : BitReader) (c : BitwidthCode) (r' : BitReader) : Prop :=
  ∃ r₁, dec.decode r = (.ok c.code, r₁) ∧
    ((c.extraBits = 0 ∧ r₁ = r') ∨ (0 < c.extraBits ∧ r₁.readBits c.extraBits = (.ok c.extra, r')))

/-- A reader from which some elements are read one after the other, and the reader behind them. -/
inductive Delivers (dec : HuffmanDecoder) : BitReader → List BitwidthCode → BitReader → Prop
  | nil (r : BitReader) : Delivers dec r [] r
  | cons {r r₁ r' : BitReader} {c : BitwidthCode} {codes : List BitwidthCode} (hread : ReadsElement dec r c r₁)
      (hrest : Delivers dec r₁ codes r') : Delivers dec r (c :: codes) r'

/-- The loop of the decoder follows the rules: a round that reads an element goes on with what the rules make of it, or ends with
their error. -/
theorem codeLengthsLoop_element (isFinal : Bool) (hlit hdist fuel : Nat) {dec : HuffmanDecoder} {targetLen : Nat} {lengths : List Nat}
    {env : StepEnv} {c : BitwidthCode} {r' : BitReader} (hc : c.ExtraFits) (hread : ReadsElement dec env.reader c r')
    (hlt : lengths.length < targetLen) :
    codeLengthsLoop isFinal hlit hdist dec targetLen (fuel + 1) lengths env =
      StepEnv.calling { env with reader := r' } (c.apply targetLen lengths) fun lengths =>
        codeLengthsLoop isFinal hlit hdist dec targetLen fuel lengths { env with reader := r' } := by
  have hcontinue : ∀ lengths' : List Nat,
      (if targetLen < lengths'.length then
        (.err (.invalidData "dynamic huffman code lengths exceed the announced table size"), { env with reader := r' })
      else codeLengthsLoop isFinal hlit hdist dec targetLen fuel lengths' { env with reader := r' }) =
      StepEnv.calling { env with reader := r' }
        (if targetLen < lengths'.length then .err (.invalidData "dynamic huffman code lengths exceed the announced table size")
        else .ok lengths') fun lengths' => codeLengthsLoop isFinal hlit hdist dec targetLen fuel lengths' { env with reader := r' } := by
    intro lengths'
    by_cases hover : targetLen < lengths'.length
    · rw [if_pos hover, if_pos hover]
      rfl
    · rw [if_neg hover, if_neg hover]
      rfl
  obtain ⟨code, extraBits, extra⟩ := c
  obtain ⟨r₁, hcode, hextra⟩ := hread
  conv_lhs => unfold codeLengthsLoop
  unfold BitwidthCode.apply
  simp only [if_pos hlt, hcode, StepEnv.attempt]
  rcases hc with ⟨h15, h0, -⟩ | ⟨h16, hbits, hval⟩ | ⟨h17, hbits, hval⟩ | ⟨h18, hbits, hval⟩
  · obtain ⟨-, rfl⟩ := hextra.resolve_right (fun h => absurd h.1 (by rw [h0]; exact Nat.lt_irrefl 0))
    simp only [if_pos h15]
    exact hcontinue _
  · obtain ⟨-, hval'⟩ := hextra.resolve_left (fun h => absurd (hbits.symm.trans h.1) (by decide))
    simp only at h16 hbits hval hval'
    subst h16 hbits
    have hadd : Exec.checkedAdd 16 extra 3 = .ok (extra + 3) := Exec.checkedAdd_of_lt (by omega)
    simp only [hval', hadd, StepEnv.calling_ok]
    cases hlast : lengths.getLast? with
    | none => rfl
    | some last => exact hcontinue _
  · obtain ⟨-, hval'⟩ := hextra.resolve_left (fun h => absurd (hbits.symm.trans h.1) (by decide))
    simp only at h17 hbits hval hval'
    subst h17 hbits
    have hadd : Exec.checkedAdd 16 extra 3 = .ok (extra + 3) := Exec.checkedAdd_of_lt (by omega)
    simp only [hval', hadd, StepEnv.calling_ok]
    exact hcontinue _
  · obtain ⟨-, hval'⟩ := hextra.resolve_left (fun h => absurd (hbits.symm.trans h.1) (by decide))
    simp only at h18 hbits hval hval'
    subst h18 hbits
    have hadd : Exec.checkedAdd 16 extra 11 = .ok (extra + 11) := Exec.checkedAdd_of_lt (by omega)
    simp only [hval', hadd, StepEnv.calling_ok]
    exact hcontinue _

/-! ## Elements that add up to the announced total -/

theorem BitwidthCode.Adds.extraFits {lengths added : List Nat} {c : BitwidthCode} (h : c.Adds lengths added) : c.ExtraFits := by
  cases h with
  | length h => exact .inl ⟨Nat.le_of_lt_succ h, rfl, rfl⟩
  | last hextra hlast => exact .inr (.inl ⟨rfl, rfl, hextra⟩)
  | zeros hextra => exact .inr (.inr (.inl ⟨rfl, rfl, hextra⟩))
  | manyZeros hextra => exact .inr (.inr (.inr ⟨rfl, rfl, hextra⟩))

/-- An element adds a length at least. -/
theorem BitwidthCode.Adds.added_pos {lengths added : List Nat} {c : BitwidthCode} (h : c.Adds lengths added) : 0 < added.length := by
  cases h with
  | length h => exact Nat.one_pos
  | last hextra hlast =>
    rw [List.length_replicate]
    exact Nat.succ_pos _
  | zeros hextra =>
    rw [List.length_replicate]
    exact Nat.succ_pos _
  | manyZeros hextra =>
    rw [List.length_replicate]
    exact Nat.succ_pos _

/-- What an element adds, the rules add, as long as it is not too much. -/
theorem BitwidthCode.Adds.apply_eq {lengths added : List Nat} {c : BitwidthCode} (h : c.Adds lengths added) {targetLen : Nat}
    (hle : (lengths ++ added).length ≤ targetLen) : c.apply targetLen lengths = .ok (lengths ++ added) := by
  have hnot := Nat.not_lt.mpr hle
  unfold BitwidthCode.apply
  cases h with
  | length h => simp only [if_pos (Nat.le_of_lt_succ h), if_neg hnot]
  | last hextra hlast =>
    simp only [hlast, if_neg hnot]
    rfl
  | zeros hextra =>
    simp only [if_neg hnot]
    rfl
  | manyZeros hextra =>
    simp only [if_neg hnot]
    rfl

theorem Expands.length_mono {lengths all : List Nat} {codes : List BitwidthCode} (h : Expands lengths codes all) :
    lengths.length ≤ all.length := by
  have hle := h.length_le
  omega

theorem Expands.extraFits {lengths all : List Nat} {codes : List BitwidthCode} (h : Expands lengths codes all) :
    ∀ c ∈ codes, c.ExtraFits := by
  induction h with
  | nil =>
    intro c hc
    cases hc
  | cons hadds _ ih =>
    intro c hc
    rcases List.mem_cons.mp hc with rfl | hc
    · exact hadds.extraFits
    · exact ih c hc

/-- Elements that expand to the announced total, by the rules; and before each of them there is still a length to come. -/
theorem Expands.expandCodes_eq {lengths all : List Nat} {codes : List BitwidthCode} (h : Expands lengths codes all) :
    expandCodes all.length codes lengths = .ok all ∧
      ∀ front c back, codes = front ++ c :: back →
        ∃ lengths', expandCodes all.length front lengths = .ok lengths' ∧ lengths'.length < all.length := by
  induction h with
  | nil lengths =>
    refine ⟨rfl, ?_⟩
    intro front c back hsplit
    simp at hsplit
  | cons hadds hrest ih =>
    rename_i lengths added all c codes
    have hmono := hrest.length_mono
    have hstep : ∀ codes, expandCodes all.length (c :: codes) lengths = expandCodes all.length codes (lengths ++ added) := by
      intro codes
      rw [expandCodes, List.foldlM_cons, hadds.apply_eq hmono, Exec.ok_bind]
      rfl
    refine ⟨by rw [hstep, ih.1], ?_⟩
    intro front c' back hsplit
    cases front with
    | nil =>
      have hpos := hadds.added_pos
      rw [List.length_append] at hmono
      exact ⟨lengths, rfl, by omega⟩
    | cons d front =>
      rw [List.cons_append] at hsplit
      obtain ⟨rfl, htail⟩ := List.cons.inj hsplit
      rw [hstep]
      exact ih.2 front c' back htail

/-- The loop of the decoder, over a reader that delivers such elements: it goes on to the end with all the code lengths. -/
theorem Expands.codeLengthsLoop_eq {lengths all : List Nat} {codes : List BitwidthCode} (h : Expands lengths codes all)
    (isFinal : Bool) (hlit hdist fuel : Nat) {dec : HuffmanDecoder} (env : StepEnv) {r' : BitReader}
    (hd : Delivers dec env.reader codes r') (hfuel : all.length ≤ lengths.length + fuel) :
    ∃ fuel', codeLengthsLoop isFinal hlit hdist dec all.length fuel lengths env =
      codeLengthsLoop isFinal hlit hdist dec all.length fuel' all { env with reader := r' } := by
  induction h generalizing env fuel with
  | nil lengths =>
    cases hd with
    | nil => exact ⟨fuel, rfl⟩
  | cons hadds hrest ih =>
    rename_i lengths added all c codes
    have hmono := hrest.length_mono
    have hpos := hadds.added_pos
    have hlen : (lengths ++ added).length = lengths.length + added.length := List.length_append
    obtain ⟨fuel, rfl⟩ : ∃ k, fuel = k + 1 := ⟨fuel - 1, by omega⟩
    cases hd with
    | cons hread hdrest =>
      rename_i r₁
      obtain ⟨fuel', hloop⟩ := ih fuel { env with reader := r₁ } hdrest (by omega)
      refine ⟨fuel', ?_⟩
      rw [codeLengthsLoop_element isFinal hlit hdist fuel hadds.extraFits hread (by omega), hadds.apply_eq hmono, StepEnv.calling_ok,
        hloop]

/-! ## The code lengths of a block -/

/-- An encoder has codes of the given widths. -/
def HuffmanEncoder.HasWidths (enc : HuffmanEncoder) (lengths : List Nat) : Prop :=
  (List.range lengths.length).map enc.codeWidth = lengths

/-- The encoder of code lengths that fit has their widths. -/
theorem EncoderOf.hasWidths {enc : HuffmanEncoder} {lengths : List Nat} (h : EncoderOf enc lengths) : enc.HasWidths lengths := by
  refine List.ext_getElem (by simp) ?_
  intro i h1 h2
  rw [List.getElem_map, List.getElem_range, h.codeWidth_eq, List.getD_eq_getElem _ _ h2]

/-- For all code lengths of the two alphabets, no more than 15: the elements that the encoder makes of them, expanded by the rules of
the decoder, are the one vector followed by the other, without an error, and before each element there is still a length to come; the
extra bits of every element fit into 2, 3 or 7 bits. So the step of the decoder that reads these elements ends with building the tables
of the two vectors. -/
theorem runCoding_inverted (literal distance : HuffmanEncoder) (literalLengths distanceLengths : List Nat)
    (hliteral : literal.HasWidths literalLengths) (hdistance : distance.HasWidths distanceLengths)
    (hliteral15 : ∀ w ∈ literalLengths, w ≤ 15) (hdistance15 : ∀ w ∈ distanceLengths, w ≤ 15) :
    expandCodes (literalLengths.length + distanceLengths.length)
      (buildBitwidthCodes literal literalLengths.length distance distanceLengths.length) [] =
        .ok (literalLengths ++ distanceLengths) ∧
    (∀ front c back, buildBitwidthCodes literal literalLengths.length distance distanceLengths.length = front ++ c :: back →
      ∃ lengths, expandCodes (literalLengths.length + distanceLengths.length) front [] = .ok lengths ∧
        lengths.length < literalLengths.length + distanceLengths.length) ∧
    (∀ c ∈ buildBitwidthCodes literal literalLengths.length distance distanceLengths.length, c.ExtraFits) ∧
    ∀ (env : StepEnv) (isFinal : Bool) (dec : HuffmanDecoder) (r' : BitReader),
      Delivers dec env.reader (buildBitwidthCodes literal literalLengths.length distance distanceLengths.length) r' →
      stepDynamicCodeLengths env isFinal literalLengths.length distanceLengths.length dec []
        (literalLengths.length + distanceLengths.length) =
        StepEnv.calling { env with reader := r' } (HuffmanDecoder.fromCodeLengths literalLengths none (some endOfBlock)) fun literal =>
        StepEnv.calling { env with reader := r' }
          (HuffmanDecoder.fromCodeLengths distanceLengths (some literal.safelyPeekBits) none) fun distance =>
        (.ok .progress, { env with reader := r', state := .symbolLoop isFinal literal distance }) := by
  have hlen : (literalLengths ++ distanceLengths).length = literalLengths.length + distanceLengths.length := List.length_append
  have hwidths : ∀ w ∈ literalLengths ++ distanceLengths, w < 16 := by
    intro w hw
    rcases List.mem_append.mp hw with hw | hw
    · exact Nat.lt_succ_of_le (hliteral15 w hw)
    · exact Nat.lt_succ_of_le (hdistance15 w hw)
  have hexpands : Expands [] (buildBitwidthCodes literal literalLengths.length distance distanceLengths.length)
      (literalLengths ++ distanceLengths) := by
    rw [buildBitwidthCodes, hliteral, hdistance]
    exact widths_expand hwidths
  obtain ⟨h1, h2⟩ := hexpands.expandCodes_eq
  rw [hlen] at h1 h2
  refine ⟨h1, h2, hexpands.extraFits, ?_⟩
  intro env isFinal dec r' hd
  obtain ⟨fuel, hloop⟩ := hexpands.codeLengthsLoop_eq isFinal literalLengths.length distanceLengths.length
    (literalLengths.length + distanceLengths.length) env hd (by simp)
  rw [hlen] at hloop
  have hdone : ¬(literalLengths ++ distanceLengths).length < literalLengths.length + distanceLengths.length := by omega
  have htake : (literalLengths ++ distanceLengths).take literalLengths.length = literalLengths := List.take_left' rfl
  have hdrop : ((literalLengths ++ distanceLengths).drop literalLengths.length).take distanceLengths.length = distanceLengths := by
    rw [List.drop_left' rfl, List.take_length]
  rw [stepDynamicCodeLengths, List.length_nil, Nat.sub_zero, hloop]
  unfold codeLengthsLoop
  simp only [if_neg hdone, htake, hdrop]

/-- The code lengths of 257 symbols and of a distance, with the encoders that are made of them. -/
theorem runCoding_inverted_runs :
    ∃ literal distance : HuffmanEncoder, HuffmanEncoder.fromCodeLengths (List.replicate 257 9) = .ok literal ∧
      HuffmanEncoder.fromCodeLengths [1] = .ok distance ∧
      expandCodes 258 (buildBitwidthCodes literal 257 distance 1) [] = .ok (List.replicate 257 9 ++ [1]) := by
  have hnine : ∀ w ∈ List.replicate 257 9, w ≤ 15 := by
    intro w hw
    rw [List.eq_of_mem_replicate hw]
    decide
  have hfits : Fits (List.replicate 257 9) := by
    refine ⟨⟨9, List.mem_replicate.mpr ⟨by decide, rfl⟩, by decide⟩, hnine, ?_⟩
    rw [Canonical.weight_sorted]
    decide +kernel
  have hfits' : Fits [1] := ⟨⟨1, List.mem_singleton_self 1, by decide⟩, by decide, by decide⟩
  obtain ⟨literal, hliteral, henc⟩ := encoderOf_ok hfits
  obtain ⟨distance, hdistance, henc'⟩ := encoderOf_ok hfits'
  have h := (runCoding_inverted literal distance (List.replicate 257 9) [1] henc.hasWidths henc'.hasWidths hnine (by decide)).1
  rw [List.length_replicate] at h
  exact ⟨literal, distance, hliteral, hdistance, h⟩

end Noflate
