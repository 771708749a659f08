import Mathlib.Algebra.Order.BigOperators.Group.Finset
import Noflate.Lemmas.Emitting
import Noflate.Theorems.Optimality

/-!
# What the codes of a block cost

The bits of a block's tokens are the lengths of the codes of its symbols, and its extra bits (`length_tokenBits`). `countTokens` counts
these symbols (`countTokens_tally`), and so the code lengths that are computed from the counts make the tokens as short as any other
codes could (`DynamicCode.cheapest`).
-/

namespace Noflate

open BitString

/-! ## The symbols of a token -/

namespace Lz77Code

/-- The literal or length symbol of a token. -/
def literalSymbol : Lz77Code → Nat
  | .literal byte => byte.toNat
  | .pointer length _ =>
    match lengthToSymbol length with
    | .ok sym => sym.code
    | _ => 0

/-- The distance symbol of a token, if it has one. -/
def distanceSymbols : Lz77Code → List Nat
  | .literal _ => []
  | .pointer _ distance =>
    match distanceToSymbol distance with
    | .ok sym => [sym.code]
    | _ => []

/-- How many extra bits a token has. -/
def extraWidth : Lz77Code → Nat
  | .literal _ => 0
  | .pointer length distance =>
    match lengthToSymbol length, distanceToSymbol distance with
    | .ok lenSym, .ok distSym => (extraField lenSym.extra).length + (extraField distSym.extra).length
    | _, _ => 0

/-- What the symbols of a pointer are. -/
theorem pointer_symbols {length distance : Nat} {lenSym distSym : EncodedSymbol} (hlen : lengthToSymbol length = .ok lenSym)
    (hdist : distanceToSymbol distance = .ok distSym) :
    (Lz77Code.pointer length distance).literalSymbol = lenSym.code ∧
      (Lz77Code.pointer length distance).distanceSymbols = [distSym.code] ∧
      (Lz77Code.pointer length distance).extraWidth = (extraField lenSym.extra).length + (extraField distSym.extra).length := by
  rw [literalSymbol, distanceSymbols, extraWidth, hlen, hdist]
  exact ⟨rfl, rfl, rfl⟩

/-- The bits of a token: the codes of its symbols, and the extra bits. -/
theorem length_bits (literal distance : List Nat) {sym : Lz77Code} (hrange : sym.InRange) :
    (sym.bits literal distance).length =
      literal.getD sym.literalSymbol 0 + (sym.distanceSymbols.map fun s => distance.getD s 0).sum + sym.extraWidth := by
  cases sym with
  | literal byte => exact length_ofNatMsb _ _
  | pointer length dist =>
    obtain ⟨h3, h258, h1, hwindow⟩ := hrange
    obtain ⟨lenSym, _, _, hlen, -⟩ := lengthToSymbol_spec h3 h258
    obtain ⟨distSym, _, _, hdist, -⟩ := distanceToSymbol_spec h1 hwindow
    obtain ⟨hl, hd, he⟩ := pointer_symbols hlen hdist
    have hcode : ∀ lengths s, (codeBits lengths s).length = lengths.getD s 0 := fun _ _ => length_ofNatMsb _ _
    rw [hl, hd, he, Lz77Code.bits, hlen, hdist]
    simp only [List.length_append, hcode, List.map_cons, List.map_nil, List.sum_cons, List.sum_nil]
    omega

/-- The symbols of a token are in their alphabets, and no token has the end of the block as its symbol. -/
theorem symbols_lt {sym : Lz77Code} (hrange : sym.InRange) :
    sym.literalSymbol < 286 ∧ sym.literalSymbol ≠ endOfBlock ∧ ∀ s ∈ sym.distanceSymbols, s < 30 := by
  cases sym with
  | literal byte =>
    have hbyte : byte.toNat < 256 := byte.toNat_lt
    refine ⟨hbyte.trans (by decide), ?_, fun s hs => absurd hs List.not_mem_nil⟩
    show byte.toNat ≠ 256
    omega
  | pointer length dist =>
    obtain ⟨h3, h258, h1, hwindow⟩ := hrange
    obtain ⟨lenSym, _, _, hlen, -⟩ := lengthToSymbol_spec h3 h258
    obtain ⟨distSym, _, _, hdist, -⟩ := distanceToSymbol_spec h1 hwindow
    obtain ⟨hl, hd, -⟩ := pointer_symbols hlen hdist
    have hlt := lengthToSymbol_lt h3 h258 hlen
    rw [hl, hd]
    refine ⟨hlt.2, ?_, ?_⟩
    · unfold endOfBlock
      omega
    · intro s hs
      rw [List.mem_singleton.mp hs]
      exact distanceToSymbol_lt h1 hwindow hdist

end Lz77Code

/-- The literal and length symbols of a block, the end of the block among them. -/
def literalSymbols (symbols : List Lz77Code) : List Nat := symbols.map Lz77Code.literalSymbol ++ [endOfBlock]

/-- The distance symbols of a block. -/
def distanceSymbols (symbols : List Lz77Code) : List Nat := symbols.flatMap Lz77Code.distanceSymbols

/-- The bits of a block's tokens: the codes of all symbols, and the extra bits. -/
theorem length_tokenBits (literal distance : List Nat) {symbols : List Lz77Code} (hrange : ∀ sym ∈ symbols, sym.InRange) :
    (tokenBits literal distance symbols).length = ((literalSymbols symbols).map fun s => literal.getD s 0).sum +
      ((distanceSymbols symbols).map fun s => distance.getD s 0).sum + (symbols.map Lz77Code.extraWidth).sum := by
  have hend : (codeBits literal endOfBlock).length = literal.getD endOfBlock 0 := length_ofNatMsb _ _
  unfold tokenBits literalSymbols distanceSymbols
  rw [List.length_append, hend]
  induction symbols with
  | nil => simp
  | cons sym symbols ih =>
    have hsym := Lz77Code.length_bits literal distance (hrange sym List.mem_cons_self)
    have hrest := ih fun s hs => hrange s (List.mem_cons_of_mem _ hs)
    simp only [List.flatMap_cons, List.length_append, List.map_cons, List.cons_append, List.map_append, List.sum_cons,
      List.sum_append] at hrest ⊢
    omega

/-! ## Counting -/

/-- Frequencies that count so many symbols. -/
def Counts (frequencies syms : List Nat) : Prop := ∀ s < frequencies.length, frequencies.getD s 0 = syms.count s

/-- What the code lengths of counted symbols cost. -/
theorem Counts.cost_eq {frequencies syms : List Nat} (h : Counts frequencies syms) (hlt : ∀ s ∈ syms, s < frequencies.length)
    (lengths : List Nat) : codeCost frequencies lengths = (syms.map fun s => lengths.getD s 0).sum := by
  rw [sum_map_count (List.nodup_range (n := frequencies.length)) (fun s hs => List.mem_range.mpr (hlt s hs)), codeCost]
  congr 1
  refine List.map_congr_left ?_
  intro s hs
  rw [h s (List.mem_range.mp hs), Nat.mul_comm]

/-- A symbol is counted. -/
theorem Counts.count {frequencies syms : List Nat} (h : Counts frequencies syms) {s : Nat} (hs : s < frequencies.length) :
    ∃ frequencies', countSymbol frequencies s = .ok frequencies' ∧ frequencies'.length = frequencies.length ∧
      Counts frequencies' (syms ++ [s]) := by
  have hmem : ∀ t ∈ [s], t < frequencies.length := by
    intro t ht
    rwa [List.mem_singleton.mp ht]
  obtain ⟨frequencies', h1, h2, h3⟩ := countSymbols_ok [s] hmem
  rw [List.foldlM_cons] at h1
  obtain ⟨frequencies₁, h4, h5⟩ := Exec.bind_eq_ok.mp h1
  obtain rfl : frequencies₁ = frequencies' := Exec.ok.inj h5
  refine ⟨frequencies₁, h4, h2, ?_⟩
  intro t ht
  rw [h2] at ht
  rw [h3 t ht, h t ht, List.count_append]

/-- A symbol that was not counted is set to one. -/
theorem Counts.set {frequencies syms : List Nat} (h : Counts frequencies syms) {s : Nat} (hnot : s ∉ syms) :
    Counts (frequencies.set s 1) (syms ++ [s]) := by
  intro t ht
  rw [List.length_set] at ht
  rw [List.count_append, List.getD_eq_getElem?_getD]
  by_cases hst : s = t
  · subst hst
    rw [List.getElem?_set_self ht, List.count_eq_zero.mpr hnot, List.count_singleton_self]
    rfl
  · rw [List.getElem?_set_ne hst, ← List.getD_eq_getElem?_getD, h t ht, List.count_singleton, if_neg (by simpa using hst), Nat.add_zero]

/-- Frequencies that count the symbols of tokens. -/
structure Tally (f : Frequencies) (symbols : List Lz77Code) : Prop where
  literal_length : f.literal.length = 286
  distance_length : f.distance.length = 30
  literal : Counts f.literal (symbols.map Lz77Code.literalSymbol)
  distance : Counts f.distance (distanceSymbols symbols)
  has_distance : f.hasDistance = true ↔ distanceSymbols symbols ≠ []

/-- A token is counted. -/
theorem Tally.count {f : Frequencies} {symbols : List Lz77Code} (h : Tally f symbols) {sym : Lz77Code} (hrange : sym.InRange) :
    ∃ f', countToken f sym = .ok f' ∧ Tally f' (symbols ++ [sym]) := by
  obtain ⟨hlt, -, -⟩ := Lz77Code.symbols_lt hrange
  rw [← h.literal_length] at hlt
  obtain ⟨literal, hl1, hl2, hl3⟩ := h.literal.count hlt
  have hsyms : distanceSymbols (symbols ++ [sym]) = distanceSymbols symbols ++ sym.distanceSymbols := by
    unfold distanceSymbols
    rw [List.flatMap_append, List.flatMap_singleton]
  cases sym with
  | literal byte =>
    have hnone : (Lz77Code.literal byte).distanceSymbols = [] := rfl
    rw [hnone, List.append_nil] at hsyms
    refine ⟨{ f with literal }, ?_, hl2.trans h.literal_length, h.distance_length, ?_, ?_, ?_⟩
    · have hsym : (Lz77Code.literal byte).literalSymbol = byte.toNat := rfl
      rw [countToken, ← hsym, hl1, Exec.ok_bind]
    · rw [List.map_append]
      exact hl3
    · rw [hsyms]
      exact h.distance
    · rw [hsyms]
      exact h.has_distance
  | pointer length dist =>
    obtain ⟨h3, h258, hd1, hd2⟩ := hrange
    obtain ⟨lenSym, _, _, hlen, -⟩ := lengthToSymbol_spec h3 h258
    obtain ⟨distSym, _, _, hdist, -⟩ := distanceToSymbol_spec hd1 hd2
    obtain ⟨hls, hds, -⟩ := Lz77Code.pointer_symbols hlen hdist
    have hdlt : distSym.code < f.distance.length := by
      rw [h.distance_length]
      exact distanceToSymbol_lt hd1 hd2 hdist
    obtain ⟨distance, hs1, hs2, hs3⟩ := h.distance.count hdlt
    have hmod : length % 2 ^ 16 = length := Nat.mod_eq_of_lt (Nat.lt_of_le_of_lt h258 (by decide))
    have hmod' : dist % 2 ^ 16 = dist := Nat.mod_eq_of_lt (Nat.lt_of_le_of_lt hd2 (by decide))
    refine ⟨{ literal, distance, hasDistance := true }, ?_, hl2.trans h.literal_length, hs2.trans h.distance_length, ?_, ?_, ?_⟩
    · rw [hls] at hl1
      simp only [countToken, hmod, hmod', hlen, Exec.ok_bind, hl1, hdist, hs1]
    · rw [List.map_append]
      exact hl3
    · rw [hsyms, hds]
      exact hs3
    · rw [hsyms, hds]
      simp

/-- The tokens of a block are counted. -/
theorem Tally.counts {f : Frequencies} {symbols : List Lz77Code} (h : Tally f symbols) {more : List Lz77Code}
    (hrange : ∀ sym ∈ more, sym.InRange) : ∃ f', more.foldlM countToken f = .ok f' ∧ Tally f' (symbols ++ more) := by
  induction more generalizing f symbols with
  | nil => exact ⟨f, rfl, by rwa [List.append_nil]⟩
  | cons sym more ih =>
    obtain ⟨f₁, h1, h2⟩ := h.count (hrange sym List.mem_cons_self)
    obtain ⟨f', h3, h4⟩ := ih h2 fun s hs => hrange s (List.mem_cons_of_mem _ hs)
    rw [List.append_assoc] at h4
    exact ⟨f', by rw [List.foldlM_cons, h1, Exec.ok_bind, h3], h4⟩

/-- The frequencies of a block count its symbols; the distance that is made up where there is none is counted as well. -/
theorem countTokens_tally {symbols : List Lz77Code} (hrange : ∀ sym ∈ symbols, sym.InRange) :
    ∃ f, countTokens symbols = .ok f ∧ f.literal.length = 286 ∧ f.distance.length = 30 ∧
      Counts f.literal (literalSymbols symbols) ∧
      Counts f.distance (if distanceSymbols symbols = [] then [0] else distanceSymbols symbols) := by
  have hstart : Tally { literal := List.replicate 286 0, distance := List.replicate 30 0, hasDistance := false } [] := by
    refine ⟨List.length_replicate, List.length_replicate, ?_, ?_, by simp [distanceSymbols]⟩
    all_goals
      intro s hs
      rw [List.length_replicate] at hs
      rw [List.getD_eq_getElem?_getD, List.getElem?_replicate, if_pos hs]
      rfl
  obtain ⟨f, h1, h2⟩ := hstart.counts hrange
  rw [List.nil_append] at h2
  have hend : endOfBlock ∉ symbols.map Lz77Code.literalSymbol := by
    intro hmem
    obtain ⟨sym, hsym, heq⟩ := List.mem_map.mp hmem
    exact (Lz77Code.symbols_lt (hrange sym hsym)).2.1 heq
  refine ⟨_, by rw [countTokens, h1, Exec.ok_bind], ?_, ?_, h2.literal.set hend, ?_⟩
  · rw [List.length_set]
    exact h2.literal_length
  · simp only
    split
    · exact h2.distance_length
    · rw [List.length_set]
      exact h2.distance_length
  · simp only
    by_cases hnone : distanceSymbols symbols = []
    · have hfalse : ¬f.hasDistance = true := fun ht => h2.has_distance.mp ht hnone
      have hzero := h2.distance
      rw [hnone] at hzero
      rw [if_neg hfalse, if_pos hnone]
      exact hzero.set List.not_mem_nil
    · rw [if_pos (h2.has_distance.mpr hnone), if_neg hnone]
      exact h2.distance

/-! ## The cheapest codes -/

/-- The lengths of the symbols with a frequency, and none for the others. -/
def masked (frequencies lengths : List Nat) : List Nat :=
  (List.range frequencies.length).map fun s => if 0 < frequencies.getD s 0 then lengths.getD s 0 else 0

/-- The lengths of the symbols that occur are kept. -/
theorem getD_masked (frequencies lengths : List Nat) (s : Nat) :
    (masked frequencies lengths).getD s 0 = if 0 < frequencies.getD s 0 then lengths.getD s 0 else 0 := by
  unfold masked
  rw [List.getD_eq_getElem?_getD, List.getElem?_map]
  by_cases hs : s < frequencies.length
  · rw [List.getElem?_range hs]
    rfl
  · have hzero : ¬0 < frequencies.getD s 0 := by
      rw [List.getD_eq_default _ _ (Nat.le_of_not_lt hs)]
      exact Nat.lt_irrefl 0
    rw [List.getElem?_eq_none (by rw [List.length_range]; omega), if_neg hzero]
    rfl

/-- Only the symbols with a frequency cost something. -/
theorem cost_masked (frequencies lengths : List Nat) :
    codeCost frequencies (masked frequencies lengths) = codeCost frequencies lengths := by
  unfold codeCost
  congr 1
  refine List.map_congr_left ?_
  intro s _
  rw [getD_masked]
  by_cases hs : 0 < frequencies.getD s 0
  · rw [if_pos hs]
  · rw [Nat.eq_zero_of_not_pos hs, Nat.zero_mul, Nat.zero_mul]

/-- The lengths of a code that has all the symbols are admissible. -/
theorem masked_admissible {frequencies lengths : List Nat} (hfits : Fits lengths)
    (hcodes : ∀ s, 0 < frequencies.getD s 0 → HasCode lengths s) : Admissible frequencies 15 (masked frequencies lengths) := by
  have hused : ∀ s, s ∈ usedSymbols frequencies ↔ 0 < (masked frequencies lengths).getD s 0 := by
    intro s
    rw [mem_usedSymbols, getD_masked]
    by_cases hs : 0 < frequencies.getD s 0
    · rw [if_pos hs]
      exact ⟨fun _ => hcodes s hs, fun _ => hs⟩
    · rw [if_neg hs]
      exact ⟨fun h => absurd h hs, fun h => absurd h (Nat.lt_irrefl 0)⟩
  refine ⟨by rw [masked, List.length_map, List.length_range], ?_, ?_, ?_⟩
  · intro s hs
    rw [getD_masked, if_pos hs]
    exact ⟨hcodes s hs, hfits.le_max _ (List.mem_of_getElem? (hcodes s hs).getElem?)⟩
  · intro s hs
    rw [getD_masked, hs]
    rfl
  · -- the codes that are kept are among those that fit
    have hnodup := (leaves_sourceNodes frequencies).nodup
    have hsorted : ∀ s, s ∈ (List.range lengths.length).filter (fun s => 0 < lengths.getD s 0) ↔ 0 < lengths.getD s 0 := by
      intro s
      rw [List.mem_filter, List.mem_range, decide_eq_true_eq]
      refine ⟨And.right, fun hs => ⟨?_, hs⟩⟩
      by_contra hge
      rw [List.getD_eq_default _ _ (Nat.le_of_not_lt hge)] at hs
      exact Nat.lt_irrefl 0 hs
    have hkraft := hfits.kraft
    rw [Canonical.weight_sorted, ← kraftSum, kraftSum_eq 15 (List.nodup_range.filter _) hsorted] at hkraft
    refine le_trans ?_ hkraft
    rw [kraftSum_eq 15 hnodup hused, ← List.sum_toFinset _ hnodup, ← List.sum_toFinset _ (List.nodup_range.filter _)]
    refine le_trans (le_of_eq (Finset.sum_congr rfl ?_)) (Finset.sum_le_sum_of_subset ?_)
    · intro s hs
      rw [getD_masked, if_pos (mem_usedSymbols.mp (List.mem_toFinset.mp hs))]
    · intro s hs
      rw [List.mem_toFinset] at hs ⊢
      exact (hsorted s).mpr (hcodes s (mem_usedSymbols.mp hs))

/-- The code lengths that are computed cost no more than others that are admissible. -/
theorem lengthLimited_cost_le {frequencies lengths other : List Nat} {limit : Nat} (hlimit : 1 ≤ limit)
    (hroom : usedCount frequencies ≤ 2 ^ limit) (hlengths : lengthLimitedCodeLengths frequencies limit = .ok lengths)
    (hother : Admissible frequencies limit other) : codeCost frequencies lengths ≤ codeCost frequencies other := by
  have hm : 1 ≤ min limit (ordinaryHuffmanOptimalMaxBitwidth frequencies) := le_min hlimit (one_le_ordinaryLoop _ _)
  have hroom' := usedCount_le_lowered hroom
  by_cases htwo : 2 ≤ usedCount frequencies
  · obtain ⟨xs, hxs, hle, hfits, hcost⟩ := exists_depths_le hother
    exact (packageMerge_cost_le hm hroom' htwo hlengths hxs hle hfits).trans hcost
  · -- a single symbol has one bit
    obtain ⟨lengths', h1, hadmissible⟩ := packageMerge_admissible hm hroom'
    obtain rfl := Exec.ok.inj (hlengths.symm.trans h1)
    refine List.sum_le_sum ?_
    intro s _
    rcases Nat.eq_zero_or_pos (frequencies.getD s 0) with hs | hs
    · rw [hs, Nat.zero_mul, Nat.zero_mul]
    · have hdepth := (hadmissible.used s hs).2.trans (min_le_right _ _)
      rw [ordinary_of_single (by omega)] at hdepth
      exact Nat.mul_le_mul_left _ (hdepth.trans (hother.used s hs).1)

/-- Counted symbols cost no more with the code lengths that are computed from the counts than with those of any code that has them. -/
theorem Counts.cheapest {frequencies syms lengths other : List Nat} (h : Counts frequencies syms)
    (hlt : ∀ s ∈ syms, s < frequencies.length) (hroom : usedCount frequencies ≤ 2 ^ maxBits)
    (hlengths : lengthLimitedCodeLengths frequencies maxBits = .ok lengths) (hfits : Fits other)
    (hcodes : ∀ s ∈ syms, HasCode other s) :
    (syms.map fun s => lengths.getD s 0).sum ≤ (syms.map fun s => other.getD s 0).sum := by
  have hadmissible : Admissible frequencies maxBits (masked frequencies other) := by
    refine masked_admissible hfits ?_
    intro s hs
    have hslt : s < frequencies.length := by
      by_contra hge
      rw [List.getD_eq_default _ _ (Nat.le_of_not_lt hge)] at hs
      exact Nat.lt_irrefl 0 hs
    rw [h s hslt, List.count_pos_iff] at hs
    exact hcodes s hs
  rw [← h.cost_eq hlt lengths, ← h.cost_eq hlt other, ← cost_masked frequencies other]
  exact lengthLimited_cost_le (by decide) hroom hlengths hadmissible

/-- The symbols of tokens that have codes have codes. -/
theorem BlockCode.hasCodes {literal distance : List Nat} {symbols : List Lz77Code} {payload : List UInt8}
    (h : BlockCode literal distance symbols payload) :
    (∀ s ∈ literalSymbols symbols, HasCode literal s) ∧ ∀ s ∈ distanceSymbols symbols, HasCode distance s := by
  have hsym : ∀ sym ∈ symbols, HasCode literal sym.literalSymbol ∧ ∀ s ∈ sym.distanceSymbols, HasCode distance s := by
    intro sym hmem
    have hrange := h.tokens.in_range sym hmem
    have hcoded := h.coded sym hmem
    cases sym with
    | literal byte => exact ⟨hcoded, fun s hs => absurd hs List.not_mem_nil⟩
    | pointer length dist =>
      obtain ⟨h3, h258, hd1, hd2⟩ := hrange
      obtain ⟨lenSym, _, _, hlen, -⟩ := lengthToSymbol_spec h3 h258
      obtain ⟨distSym, _, _, hdist, -⟩ := distanceToSymbol_spec hd1 hd2
      obtain ⟨hls, hds, -⟩ := Lz77Code.pointer_symbols hlen hdist
      rw [hls, hds]
      refine ⟨hcoded.1 _ hlen, ?_⟩
      intro s hs
      rw [List.mem_singleton.mp hs]
      exact hcoded.2 _ hdist
  constructor
  · intro s hs
    rcases List.mem_append.mp hs with hs | hs
    · obtain ⟨sym, hmem, rfl⟩ := List.mem_map.mp hs
      exact (hsym sym hmem).1
    · rw [List.mem_singleton.mp hs]
      exact h.endOfBlock
  · intro s hs
    obtain ⟨sym, hmem, hs⟩ := List.mem_flatMap.mp hs
    exact (hsym sym hmem).2 s hs

/-- The tokens of a dynamic block are written with the codes that are computed from the counts of its symbols: what is transmitted of
these is all of them that matters. -/
theorem DynamicCode.tokenBits_eq {symbols : List Lz77Code} {payload : List UInt8} {setBits : List Bool} {sets : Rfc1951.CodeSets}
    (h : DynamicCode symbols payload setBits sets) :
    ∃ f literal distance, countTokens symbols = .ok f ∧ lengthLimitedCodeLengths f.literal maxBits = .ok literal ∧
      lengthLimitedCodeLengths f.distance maxBits = .ok distance ∧ usedCount f.literal ≤ 2 ^ maxBits ∧
      usedCount f.distance ≤ 2 ^ maxBits ∧
      tokenBits sets.literal sets.distance symbols = tokenBits literal distance symbols := by
  have hrange := h.code.tokens.in_range
  obtain ⟨f, literal, distance, literalEncoder, distanceEncoder, hcount, hl1, hd1, hl2, hd2, -, hcoding⟩ := h.written
  obtain ⟨f', hcount', hll, hdl, hend, ⟨d, hd⟩, hcoded⟩ := countTokens_spec hrange
  obtain rfl := Exec.ok.inj (hcount.symm.trans hcount')
  have hroom : ∀ {frequencies : List Nat}, frequencies.length ≤ 286 → usedCount frequencies ≤ 2 ^ maxBits := by
    intro frequencies hlen
    exact (List.length_filter_le _ _).trans (hlen.trans (by decide))
  have hlroom := hroom hll.le
  have hdroom := hroom (hdl.le.trans (by decide))
  obtain ⟨literal', hl3, hlc⟩ := lengthLimited_spec (show 1 ≤ maxBits by decide) hlroom
  obtain ⟨distance', hd3, hdc⟩ := lengthLimited_spec (show 1 ≤ maxBits by decide) hdroom
  obtain rfl := Exec.ok.inj (hl1.symm.trans hl3)
  obtain rfl := Exec.ok.inj (hd1.symm.trans hd3)
  have hlfits := hlc.fits (by decide) hend
  have hdfits := hdc.fits (by decide) hd
  obtain ⟨literalEncoder', hl4, hlof⟩ := encoderOf_ok hlfits
  obtain ⟨distanceEncoder', hd4, hdof⟩ := encoderOf_ok hdfits
  obtain rfl := Exec.ok.inj (hl2.symm.trans hl4)
  obtain rfl := Exec.ok.inj (hd2.symm.trans hd4)
  have hcoding' : Coding literalEncoder distanceEncoder literal distance := ⟨hlof.used, hdof.used, hlfits, hdfits⟩
  have hcoded' : ∀ sym ∈ symbols, sym.Coded literal distance := by
    intro sym hsym
    have hc := hcoded sym hsym
    cases sym with
    | literal byte => exact (hlc.used_iff _).mpr hc
    | pointer length dist => exact ⟨fun s hs => (hlc.used_iff _).mpr (hc.1 s hs), fun s hs => (hdc.used_iff _).mpr (hc.2 s hs)⟩
  exact ⟨f, literal, distance, hcount, hl1, hd1, hlroom, hdroom,
    (hcoding.writes_symbols h.code.endOfBlock hrange h.code.coded).unique
      (hcoding'.writes_symbols ((hlc.used_iff _).mpr hend) hrange hcoded')⟩

/-- With the codes of a dynamic block its tokens take no more bits than with any other codes that have their symbols. -/
theorem DynamicCode.cheapest {symbols : List Lz77Code} {payload : List UInt8} {setBits : List Bool} {sets : Rfc1951.CodeSets}
    (h : DynamicCode symbols payload setBits sets) {literal distance : List Nat} (hother : BlockCode literal distance symbols payload) :
    (tokenBits sets.literal sets.distance symbols).length ≤ (tokenBits literal distance symbols).length := by
  have hrange := h.code.tokens.in_range
  obtain ⟨f, hcount, hll, hdl, hliteral, hdistance⟩ := countTokens_tally hrange
  obtain ⟨f', literalLengths, distanceLengths, hcount', hl, hd, hlroom, hdroom, heq⟩ := h.tokenBits_eq
  obtain rfl := Exec.ok.inj (hcount.symm.trans hcount')
  obtain ⟨_, _, hcoding⟩ := hother.coding
  obtain ⟨hlcodes, hdcodes⟩ := hother.hasCodes
  have hllt : ∀ s ∈ literalSymbols symbols, s < f.literal.length := by
    intro s hs
    rw [hll]
    rcases List.mem_append.mp hs with hs | hs
    · obtain ⟨sym, hmem, rfl⟩ := List.mem_map.mp hs
      exact (Lz77Code.symbols_lt (hrange sym hmem)).1
    · rw [List.mem_singleton.mp hs]
      decide
  have hdlt : ∀ s ∈ distanceSymbols symbols, s < f.distance.length := by
    intro s hs
    rw [hdl]
    obtain ⟨sym, hmem, hs⟩ := List.mem_flatMap.mp hs
    exact (Lz77Code.symbols_lt (hrange sym hmem)).2.2 s hs
  have hlsum := hliteral.cheapest hllt hlroom hl hcoding.literal_fits hlcodes
  have hdsum : ((distanceSymbols symbols).map fun s => distanceLengths.getD s 0).sum ≤
      ((distanceSymbols symbols).map fun s => distance.getD s 0).sum := by
    by_cases hnone : distanceSymbols symbols = []
    · rw [hnone]
      exact le_rfl
    · rw [if_neg hnone] at hdistance
      exact hdistance.cheapest hdlt hdroom hd hcoding.distance_fits hdcodes
  rw [heq, length_tokenBits _ _ hrange, length_tokenBits _ _ hrange]
  exact Nat.add_le_add_right (Nat.add_le_add hlsum hdsum) _

end Noflate
