import Noflate.Error
import Noflate.Lemmas.Optimality

/-!
# Length-limited codes are optimal

Among all code lengths within a limit, those that are computed from frequencies cost the fewest bits (`length_limited_optimal`).
Package-merge is optimal for the limit it is given, and the ordinary construction shows that its own depth is limit enough.
-/

namespace Noflate

/-- The cost of code lengths: the sum of frequency times length. -/
def codeCost (frequencies lengths : List Nat) : Nat :=
  ((List.range frequencies.length).map (fun s => frequencies.getD s 0 * lengths.getD s 0)).sum

/-- Code lengths that frequencies and a limit allow: between one and the limit for the symbols with a frequency, none for the others,
and a Kraft sum of one at most. -/
structure Admissible (frequencies : List Nat) (limit : Nat) (lengths : List Nat) : Prop where
  length_eq : lengths.length = frequencies.length
  used : ∀ s, 0 < frequencies.getD s 0 → 1 ≤ lengths.getD s 0 ∧ lengths.getD s 0 ≤ limit
  unused : ∀ s, frequencies.getD s 0 = 0 → lengths.getD s 0 = 0
  kraft : kraftSum limit lengths ≤ 2 ^ limit

/-- The symbols with a frequency and their code lengths. -/
def depthsOf (frequencies lengths : List Nat) : List (Nat × Nat) :=
  (usedSymbols frequencies).map (fun s => (s, lengths.getD s 0))

theorem map_fst_depthsOf (frequencies lengths : List Nat) : (depthsOf frequencies lengths).map Prod.fst = usedSymbols frequencies := by
  unfold depthsOf
  rw [List.map_map]
  exact List.map_id _

/-- Only the symbols with a frequency cost something. -/
theorem cost_depthsOf (frequencies lengths : List Nat) :
    Depths.cost (fun s => frequencies.getD s 0) (depthsOf frequencies lengths) = codeCost frequencies lengths := by
  unfold Depths.cost depthsOf codeCost
  rw [List.map_map, ← List.sum_toFinset _ (leaves_sourceNodes frequencies).nodup, ← List.sum_toFinset _ List.nodup_range]
  refine Finset.sum_subset ?_ ?_
  · intro s hs
    have hused := mem_usedSymbols.mp (List.mem_toFinset.mp hs)
    rw [List.mem_toFinset, List.mem_range]
    by_contra hge
    rw [List.getD_eq_default _ _ (Nat.le_of_not_lt hge)] at hused
    exact Nat.lt_irrefl 0 hused
  · intro s _ hs
    rw [List.mem_toFinset, mem_usedSymbols] at hs
    simp only [Function.comp_apply, Nat.eq_zero_of_not_pos hs, Nat.zero_mul]

/-- The Kraft sum of code lengths is that of the symbols with a frequency, if these are the ones that have a code. -/
theorem weight_depthsOf {frequencies lengths : List Nat} (h : ∀ s, s ∈ usedSymbols frequencies ↔ 0 < lengths.getD s 0) (M : Nat) :
    Canonical.weight M (depthsOf frequencies lengths) = kraftSum M lengths := by
  rw [kraftSum_eq M (leaves_sourceNodes frequencies).nodup h]
  unfold Canonical.weight depthsOf
  rw [List.map_map]
  rfl

namespace Admissible

variable {frequencies lengths : List Nat} {limit : Nat}

theorem used_iff (h : Admissible frequencies limit lengths) (s : Nat) : s ∈ usedSymbols frequencies ↔ 0 < lengths.getD s 0 := by
  rw [mem_usedSymbols]
  constructor
  · exact fun hs => (h.used s hs).1
  · intro hs
    by_contra hzero
    rw [h.unused s (Nat.eq_zero_of_not_pos hzero)] at hs
    exact Nat.lt_irrefl 0 hs

theorem depths_le (h : Admissible frequencies limit lengths) : ∀ e ∈ depthsOf frequencies lengths, e.2 ≤ limit := by
  intro e he
  obtain ⟨s, hs, rfl⟩ := List.mem_map.mp he
  exact (h.used s (mem_usedSymbols.mp hs)).2

/-- The lengths are depths in a binary tree. -/
theorem fits (h : Admissible frequencies limit lengths) : Depths.Fits (depthsOf frequencies lengths) := by
  rw [Depths.fits_iff h.depths_le, weight_depthsOf h.used_iff]
  exact h.kraft

/-- A wider limit allows the same lengths. -/
theorem mono (h : Admissible frequencies limit lengths) {limit' : Nat} (hle : limit ≤ limit') :
    Admissible frequencies limit' lengths := by
  refine ⟨h.length_eq, fun s hs => ⟨(h.used s hs).1, (h.used s hs).2.trans hle⟩, h.unused, ?_⟩
  rw [← weight_depthsOf h.used_iff]
  exact (Depths.fits_iff fun e he => (h.depths_le e he).trans hle).mp h.fits

end Admissible

/-! ## Package-merge -/

/-- With room for all symbols, the lengths of package-merge are admissible. -/
theorem packageMerge_admissible {frequencies : List Nat} {m : Nat} (hm : 1 ≤ m) (hroom : usedCount frequencies ≤ 2 ^ m) :
    ∃ lengths, packageMergeCodeLengths frequencies m = .ok lengths ∧ Admissible frequencies m lengths := by
  obtain ⟨lengths, h1, h2, -, h3, h4, h5⟩ := packageMerge_spec hm hroom
  refine ⟨lengths, h1, h2, ?_, ?_, ?_⟩
  · intro s hs
    have hpos := (h3 s).mpr hs
    refine ⟨hpos, h4 _ ?_⟩
    rw [List.getD_eq_getElem?_getD] at hpos ⊢
    cases hget : lengths[s]? with
    | none =>
      rw [hget] at hpos
      exact absurd hpos (Nat.lt_irrefl 0)
    | some w => exact List.mem_of_getElem? hget
  · intro s hs
    have hiff := h3 s
    omega
  · by_cases htwo : 2 ≤ usedCount frequencies
    · exact (h5 htwo m le_rfl).le
    · rw [← weight_depthsOf fun s => mem_usedSymbols.trans (h3 s).symm]
      refine (Depths.weight_le m _).trans ?_
      unfold depthsOf
      rw [List.length_map, length_usedSymbols]
      exact (Nat.mul_le_mul_right _ (show usedCount frequencies ≤ 1 by omega)).trans (Nat.one_mul _).le

/-- The lengths of package-merge for two symbols or more cost no more than any depths within the limit. -/
theorem packageMerge_cost_le {frequencies lengths : List Nat} {m : Nat} (hm : 1 ≤ m) (hroom : usedCount frequencies ≤ 2 ^ m)
    (htwo : 2 ≤ usedCount frequencies) (hlengths : packageMergeCodeLengths frequencies m = .ok lengths) {xs : List (Nat × Nat)}
    (hxs : xs.map Prod.fst = usedSymbols frequencies) (hle : ∀ x ∈ xs, x.2 ≤ m) (hfits : Depths.Fits xs) :
    codeCost frequencies lengths ≤ Depths.cost (fun s => frequencies.getD s 0) xs := by
  obtain ⟨lengths', h1, -, h2, -⟩ := packageMerge_spec hm hroom
  obtain rfl := Exec.ok.inj (hlengths.symm.trans h1)
  have hs := leaves_sourceNodes frequencies
  -- the packages weigh what the lengths cost
  have hweighs : ∀ x ∈ sourceNodes frequencies, WeighsAs (fun s => frequencies.getD s 0) x := by
    intro x hx
    rw [sourceNodes_eq] at hx
    obtain ⟨s, -, rfl⟩ := List.mem_map.mp hx
    exact List.sum_singleton.symm
  have hcost : codeCost frequencies lengths = totalWeight (package (weightedNodes (sourceNodes frequencies) (m - 1))) := by
    rw [totalWeight_eq_leaves (weighsAs_package (weighsAs_weightedNodes hweighs (m - 1))),
      sum_map_count hs.nodup fun s hmem => mem_leaves_package _ hmem, ← cost_depthsOf]
    unfold Depths.cost depthsOf
    rw [List.map_map]
    congr 1
    refine List.map_congr_left ?_
    intro s _
    rw [Function.comp_apply, h2]
  rw [hcost]
  have hnodes : (xs.map (fun x => (leafNode frequencies x.1, x.2))).map Prod.fst = sourceNodes frequencies := by
    rw [sourceNodes_eq, ← hxs, List.map_map, List.map_map]
    rfl
  refine (totalWeight_package_le hs (by rwa [length_usedSymbols]) hm hnodes ?_ ?_).trans (le_of_eq ?_)
  · intro e he
    obtain ⟨x, hx, rfl⟩ := List.mem_map.mp he
    exact hle x hx
  · refine hfits.of_depths (.of_eq ?_)
    rw [List.map_map]
    rfl
  · unfold Depths.cost
    rw [List.map_map]
    rfl

/-! ## The limit -/

/-- Whatever lengths a limit allows, there are depths within the limit and the depth of the ordinary tree that cost no more. -/
theorem exists_depths_le {frequencies other : List Nat} {limit : Nat} (h : Admissible frequencies limit other) :
    ∃ xs : List (Nat × Nat), xs.map Prod.fst = usedSymbols frequencies ∧
      (∀ x ∈ xs, x.2 ≤ min limit (ordinaryHuffmanOptimalMaxBitwidth frequencies)) ∧ Depths.Fits xs ∧
      Depths.cost (fun s => frequencies.getD s 0) xs ≤ codeCost frequencies other := by
  rcases Nat.le_total limit (ordinaryHuffmanOptimalMaxBitwidth frequencies) with hle | hle
  · rw [min_eq_left hle]
    exact ⟨depthsOf frequencies other, map_fst_depthsOf frequencies other, h.depths_le, h.fits, (cost_depthsOf _ _).le⟩
  · rw [min_eq_right hle]
    obtain ⟨xs, hopt, hdepth⟩ := ordinary_optimal frequencies
    obtain ⟨ys, hys, hperm⟩ := Depths.exists_aligned hopt.perm
    refine ⟨ys, hys, fun y hy => hdepth y (hperm.mem_iff.mp hy), hopt.fits.perm hperm.symm, ?_⟩
    rw [Depths.cost_perm hperm, ← cost_depthsOf]
    exact hopt.cost_le _ (.of_eq (map_fst_depthsOf frequencies other)) h.fits

/-- For all frequencies and every limit with room for the symbols that have one: the code lengths are admissible, and no admissible
ones cost less. So those of package-merge without the depth of the ordinary tree as a limit cost no less. -/
theorem length_limited_optimal {frequencies : List Nat} {limit : Nat} (hsymbols : frequencies.length ≤ 2 ^ 16) (hlimit : 1 ≤ limit)
    (hroom : usedCount frequencies ≤ 2 ^ limit) (hweight : limit * frequencies.sum < 2 ^ 63) :
    ∃ lengths, lengthLimitedCodeLengths frequencies limit = .ok lengths ∧ Admissible frequencies limit lengths ∧
      (∀ other, Admissible frequencies limit other → codeCost frequencies lengths ≤ codeCost frequencies other) ∧
      (∃ unlowered, packageMergeCodeLengths frequencies limit = .ok unlowered ∧
        codeCost frequencies lengths ≤ codeCost frequencies unlowered) ∧
      CodeRange frequencies limit := by
  have hm : 1 ≤ min limit (ordinaryHuffmanOptimalMaxBitwidth frequencies) := le_min hlimit (one_le_ordinaryLoop _ _)
  have hroom' := usedCount_le_lowered hroom
  obtain ⟨lengths, hlengths, hadmissible⟩ := packageMerge_admissible hm hroom'
  have hoptimal : ∀ other, Admissible frequencies limit other → codeCost frequencies lengths ≤ codeCost frequencies other := by
    intro other hother
    by_cases htwo : 2 ≤ usedCount frequencies
    · obtain ⟨xs, hxs, hle, hfits, hcost⟩ := exists_depths_le hother
      exact (packageMerge_cost_le hm hroom' htwo hlengths hxs hle hfits).trans hcost
    · -- a single symbol has one bit, and cannot have less
      rw [← cost_depthsOf, ← cost_depthsOf]
      unfold Depths.cost depthsOf
      rw [List.map_map, List.map_map]
      refine List.sum_le_sum ?_
      intro s hs
      have hdepth := (hadmissible.used s (mem_usedSymbols.mp hs)).2.trans (min_le_right _ _)
      rw [ordinary_of_single (by omega)] at hdepth
      exact Nat.mul_le_mul_left _ (hdepth.trans (hother.used s (mem_usedSymbols.mp hs)).1)
  obtain ⟨unlowered, hunlowered, hadmissible'⟩ := packageMerge_admissible hlimit hroom
  exact ⟨lengths, hlengths, hadmissible.mono (min_le_left _ _), hoptimal, ⟨unlowered, hunlowered, hoptimal _ hadmissible'⟩,
    codeRange hsymbols hlimit hweight⟩

/-- Three symbols, one of them rare. -/
theorem length_limited_optimal_three :
    ∃ lengths, lengthLimitedCodeLengths [5, 0, 1, 3] 15 = .ok lengths ∧ Admissible [5, 0, 1, 3] 15 lengths ∧
      (∀ other, Admissible [5, 0, 1, 3] 15 other → codeCost [5, 0, 1, 3] lengths ≤ codeCost [5, 0, 1, 3] other) ∧
      (∃ unlowered, packageMergeCodeLengths [5, 0, 1, 3] 15 = .ok unlowered ∧
        codeCost [5, 0, 1, 3] lengths ≤ codeCost [5, 0, 1, 3] unlowered) ∧
      CodeRange [5, 0, 1, 3] 15 :=
  length_limited_optimal (by decide) (by decide) (by decide) (by decide)

end Noflate
