import Noflate.General.Depths
import Noflate.Lemmas.CodeRanges

/-!
# Code lengths of least cost

The two constructions of code lengths give depths of least cost. In package-merge the beginning of the list of a level is as light as
any depths that the level allows (`Lightest`): the packages take the depths one step further up, and the leaves beside them are the
lightest ones. The ordinary construction joins the two lightest trees, whose leaves are deepest in optimal depths, so there are optimal
depths within its own (`ordinaryLoop_optimal`).
-/

namespace Noflate

/-! ## The lightest nodes -/

theorem totalWeight_append (as bs : List Node) : totalWeight (as ++ bs) = totalWeight as + totalWeight bs := by
  unfold totalWeight
  rw [List.map_append, List.sum_append]

theorem totalWeight_perm {as bs : List Node} (h : as.Perm bs) : totalWeight as = totalWeight bs := (h.map _).sum_eq

/-- The first nodes of a sorted list are the lightest. -/
theorem totalWeight_take_le {nodes some : List Node} (h : SortedNodes nodes) (hsub : some.Subperm nodes) {t : Nat}
    (ht : t ≤ some.length) : totalWeight (nodes.take t) ≤ totalWeight some := by
  obtain ⟨some', hperm, hsub⟩ := hsub
  rw [← totalWeight_perm hperm]
  unfold totalWeight
  rw [List.map_take]
  refine Depths.sum_take_le ?_ (hsub.map _) ?_
  · exact List.pairwise_map.mpr h
  · rwa [List.length_map, hperm.length_eq]

/-- The beginning of a merged list is no heavier than beginnings of the two lists. -/
theorem totalWeight_take_mergeNodes_le {left right : List Node} (hl : SortedNodes left) (hr : SortedNodes right) {p s : Nat}
    (hp : p ≤ left.length) (hs : s ≤ right.length) :
    totalWeight ((mergeNodes left right).take (p + s)) ≤ totalWeight (left.take p) + totalWeight (right.take s) := by
  rw [← totalWeight_append]
  refine totalWeight_take_le (sorted_mergeNodes hl hr) ?_ ?_
  · exact ((List.take_sublist p left).append (List.take_sublist s right)).subperm.trans (mergeNodes_perm left right).symm.subperm
  · rw [List.length_append, List.length_take_of_le hp, List.length_take_of_le hs]

/-- The first packages weigh as much as the nodes they are made of. -/
theorem totalWeight_take_packagePairs {nodes : List Node} {p : Nat} (hp : 2 * p ≤ nodes.length) :
    totalWeight ((packagePairs nodes).take p) = totalWeight (nodes.take (2 * p)) := by
  induction p generalizing nodes with
  | zero => rfl
  | succ p ih =>
    match nodes, hp with
    | a :: b :: nodes, hp =>
      rw [List.length_cons, List.length_cons] at hp
      have hrest : totalWeight ((packagePairs nodes).take p) = totalWeight (nodes.take (2 * p)) := ih (by omega)
      rw [packagePairs, List.take_succ_cons, show 2 * (p + 1) = 2 * p + 1 + 1 by omega, List.take_succ_cons, List.take_succ_cons]
      unfold totalWeight at hrest ⊢
      rw [List.map_cons, List.map_cons, List.map_cons, List.sum_cons, List.sum_cons, List.sum_cons, hrest, Nat.add_assoc]

/-! ## Package-merge -/

/-- The list of a level, counting from one, is long enough for any depths of the leaves that the level allows, and the beginning of it
that stands for their Kraft sum is no heavier than they cost. -/
def Lightest (source : List Node) (k : Nat) (nodes : List Node) : Prop :=
  ∀ xs : List (Node × Nat), xs.map Prod.fst = source → (∀ e ∈ xs, e.2 ≤ k) → ∀ K, k ≤ K →
    ∀ t, 2 * Canonical.weight K xs + t * 2 ^ K ≤ source.length * 2 ^ (K + 1) →
      t ≤ nodes.length ∧ totalWeight (nodes.take t) ≤ Depths.cost (·.weight) xs

theorem lightest_zero (source : List Node) : Lightest source 0 [] := by
  intro xs hxs hle K _ t hroom
  rw [Canonical.weight_of_width (w := 0) (fun e he => Nat.le_zero.mp (hle e he)), ← hxs, List.length_map, Nat.sub_zero,
    Nat.pow_succ] at hroom
  have hzero : t * 2 ^ K = 0 := by
    rw [Nat.mul_comm _ 2, Nat.mul_left_comm] at hroom
    omega
  rcases Nat.mul_eq_zero.mp hzero with rfl | hpow
  · exact ⟨le_rfl, Nat.zero_le _⟩
  · exact absurd hpow (Nat.two_pow_pos K).ne'

/-- From one level to the next. -/
theorem Lightest.next {source nodes : List Node} {k : Nat} (hs : SortedNodes source) (hn : SortedNodes nodes)
    (h : Lightest source k nodes) : Lightest source (k + 1) (mergeNodes (packagePairs nodes) source) := by
  intro xs hxs hle K hK t hroom
  obtain ⟨K, rfl⟩ : ∃ K', K = K' + 1 := ⟨K - 1, by omega⟩
  have hlen : xs.length = source.length := by rw [← hxs, List.length_map]
  have hbelow : (Depths.below xs).length ≤ source.length := hlen ▸ List.length_filter_le _ xs
  have hweight := Depths.weight_shorten K xs
  have hcost := Depths.cost_shorten (w := (·.weight)) xs
  have hstep := h (Depths.shorten xs) ((Depths.map_fst_shorten xs).trans hxs) (Depths.shorten_le hle) K (by omega)
  generalize ha : (Depths.below xs).length = a at hbelow hweight
  rw [hlen] at hweight
  -- the packages taken: all nodes but as many leaves as have a depth
  have hpackages : 2 * Canonical.weight K (Depths.shorten xs) + 2 * (t - a) * 2 ^ K ≤ source.length * 2 ^ (K + 1) := by
    have hunits := Depths.weight_le K (Depths.shorten xs)
    rw [← List.length_map (f := Prod.fst), Depths.map_fst_shorten, hxs] at hunits
    rw [show 2 ^ (K + 1 + 1) = 4 * 2 ^ K by ring, show 2 ^ (K + 1) = 2 * 2 ^ K by ring] at hroom
    rw [show 2 ^ (K + 1) = 2 * 2 ^ K by ring]
    rcases Nat.le_total t a with hta | hta
    · rw [Nat.sub_eq_zero_of_le hta]
      linarith
    · obtain ⟨p, rfl⟩ := Nat.exists_eq_add_of_le hta
      rw [Nat.add_sub_cancel_left]
      linarith
  obtain ⟨hlong, hlight⟩ := hstep _ hpackages
  have hleaves : totalWeight (source.take (min t a)) ≤ ((Depths.below xs).map (fun e => e.1.weight)).sum := by
    have hsub : ((Depths.below xs).map Prod.fst).Sublist source := by
      rw [← hxs]
      exact (List.filter_sublist).map _
    refine (totalWeight_take_le hs hsub.subperm ?_).trans (le_of_eq ?_)
    · rw [List.length_map, ha]
      exact min_le_right t a
    · unfold totalWeight
      rw [List.map_map]
      rfl
  have hp : t - a ≤ (packagePairs nodes).length := by
    rw [length_packagePairs]
    omega
  have hmerge := totalWeight_take_mergeNodes_le (sorted_packagePairs hn) hs hp ((min_le_right t a).trans hbelow)
  rw [totalWeight_take_packagePairs hlong, show t - a + min t a = t by omega] at hmerge
  refine ⟨?_, ?_⟩
  · rw [length_mergeNodes]
    omega
  · omega

theorem lightest_weightedNodes {source : List Node} {syms : List Nat} (hs : Leaves source syms) (h2 : 2 ≤ syms.length) (k : Nat) :
    Lightest source (k + 1) (weightedNodes source k) := by
  induction k with
  | zero =>
    have h := (lightest_zero source).next hs.sorted .nil
    rw [packagePairs, mergeNodes_nil] at h
    · exact h
    · intro a b nodes hnil
      cases hnil
  | succ k ih =>
    obtain ⟨hlevel, hlong, -⟩ := level_weightedNodes hs h2 k
    have hpack : package (weightedNodes source k) = packagePairs (weightedNodes source k) := if_neg (by omega)
    rw [weightedNodes, hpack]
    exact ih.next hs.sorted hlevel.sorted

/-- The packages of the last list are no heavier than any depths cost that are within the limit. -/
theorem totalWeight_package_le {source : List Node} {syms : List Nat} (hs : Leaves source syms) (h2 : 2 ≤ syms.length) {m : Nat}
    (hm : 1 ≤ m) {xs : List (Node × Nat)} (hxs : xs.map Prod.fst = source) (hle : ∀ e ∈ xs, e.2 ≤ m) (hfits : Depths.Fits xs) :
    totalWeight (package (weightedNodes source (m - 1))) ≤ Depths.cost (·.weight) xs := by
  obtain ⟨k, rfl⟩ : ∃ k, m = k + 1 := ⟨m - 1, by omega⟩
  rw [Nat.add_sub_cancel]
  obtain ⟨-, hlong, hshort, -⟩ := level_weightedNodes hs h2 k
  have hroom : 2 * Canonical.weight (k + 1) xs + 2 * (syms.length - 1) * 2 ^ (k + 1) ≤ source.length * 2 ^ (k + 1 + 1) := by
    have hkraft := (Depths.fits_iff hle).mp hfits
    obtain ⟨n, hn⟩ : ∃ n, syms.length = n + 1 := ⟨syms.length - 1, by omega⟩
    rw [hs.length_eq, hn, Nat.add_sub_cancel, Nat.pow_succ 2 (k + 1)]
    linarith
  obtain ⟨htwice, hlight⟩ := lightest_weightedNodes hs h2 k xs hxs hle (k + 1) le_rfl _ hroom
  have hpack : package (weightedNodes source k) = packagePairs (weightedNodes source k) := if_neg (by omega)
  rw [← totalWeight_take_packagePairs htwice] at hlight
  rwa [hpack, ← List.take_of_length_le (l := packagePairs _) (i := syms.length - 1)]
  rw [length_packagePairs]
  omega

/-- A node weighs what its symbols do. -/
def WeighsAs (f : Nat → Nat) (x : Node) : Prop := x.weight = (x.symbols.map f).sum

theorem weighsAs_package {f : Nat → Nat} {nodes : List Node} (h : ∀ x ∈ nodes, WeighsAs f x) : ∀ x ∈ package nodes, WeighsAs f x := by
  intro x hx
  unfold package at hx
  split at hx
  · exact h x hx
  · obtain ⟨a, ha, b, hb, hsymbols, hweight⟩ := mem_packagePairs hx
    have ha := h a ha
    have hb := h b hb
    unfold WeighsAs at ha hb ⊢
    rw [hsymbols, hweight, ha, hb, List.map_append, List.sum_append]

theorem weighsAs_weightedNodes {f : Nat → Nat} {source : List Node} (h : ∀ x ∈ source, WeighsAs f x) (k : Nat) :
    ∀ x ∈ weightedNodes source k, WeighsAs f x := by
  induction k with
  | zero => exact h
  | succ k ih =>
    intro x hx
    rw [weightedNodes, (mergeNodes_perm _ _).mem_iff, List.mem_append] at hx
    rcases hx with hx | hx
    · exact weighsAs_package ih x hx
    · exact h x hx

/-- Nodes weigh together what the symbols of their leaves do. -/
theorem totalWeight_eq_leaves {f : Nat → Nat} {nodes : List Node} (h : ∀ x ∈ nodes, WeighsAs f x) :
    totalWeight nodes = ((leaves nodes).map f).sum := by
  induction nodes with
  | nil => rfl
  | cons x nodes ih =>
    have hx := h x List.mem_cons_self
    have hrest := ih fun y hy => h y (List.mem_cons_of_mem _ hy)
    unfold totalWeight leaves at *
    rw [List.map_cons, List.sum_cons, List.flatMap_cons, List.map_append, List.sum_append, hx, hrest]

/-- The sum over the members of a list, symbol by symbol. -/
theorem sum_map_count {syms packed : List Nat} (hnodup : syms.Nodup) (hsub : ∀ s ∈ packed, s ∈ syms) (f : Nat → Nat) :
    (packed.map f).sum = (syms.map (fun s => f s * packed.count s)).sum := by
  rw [Finset.sum_list_map_count, ← List.sum_toFinset _ hnodup]
  refine (Finset.sum_congr rfl fun s _ => ?_).trans (Finset.sum_subset ?_ ?_)
  · exact Nat.mul_comm _ _
  · intro s hs
    exact List.mem_toFinset.mpr (hsub s (List.mem_toFinset.mp hs))
  · intro s _ hs
    rw [List.count_eq_zero.mpr fun hmem => hs (List.mem_toFinset.mpr hmem), Nat.mul_zero]

/-! ## The ordinary tree -/

/-- The weight of a tree of the heap, where it is stored negated. -/
def treeWeight (e : Int × Nat) : Nat := (-e.1).toNat

/-- There are optimal depths of the trees of a heap that lead no deeper than a depth, with the trees below them. -/
def OptimalWithin (heap : List (Int × Nat)) (depth : Nat) : Prop :=
  ∃ xs, Depths.Optimal treeWeight heap xs ∧ ∀ x ∈ xs, x.2 + x.1.2 ≤ depth

theorem optimalWithin_nil (depth : Nat) : OptimalWithin [] depth :=
  ⟨[], Depths.optimal_nil, fun _ hx => absurd hx List.not_mem_nil⟩

/-- A single tree is as deep as it is. -/
theorem optimalWithin_single (e : Int × Nat) : OptimalWithin [e] (max 1 e.2) := by
  refine ⟨[(e, 0)], Depths.optimal_single e, ?_⟩
  intro x hx
  rw [List.mem_singleton.mp hx, Nat.zero_add]
  exact le_max_right 1 e.2

/-- The two lightest trees are put where the tree merged from them was. -/
theorem OptimalWithin.unmerge {weight1 weight2 : Int} {width1 width2 : Nat} {heap : List (Int × Nat)} {depth : Nat}
    (hsorted : ((weight1, width1) :: (weight2, width2) :: heap).Pairwise heapBefore) (hneg1 : weight1 ≤ 0) (hneg2 : weight2 ≤ 0)
    (h : OptimalWithin (List.orderedInsert heapBefore (weight1 + weight2, 1 + max width1 width2) heap) depth) :
    OptimalWithin ((weight1, width1) :: (weight2, width2) :: heap) depth := by
  obtain ⟨hs1, hs'⟩ := List.pairwise_cons.mp hsorted
  obtain ⟨hs2, -⟩ := List.pairwise_cons.mp hs'
  obtain ⟨xs, hopt, hdepth⟩ := h
  have hperm := List.perm_orderedInsert heapBefore (weight1 + weight2, 1 + max width1 width2) heap
  obtain ⟨_, haligned, hxs⟩ := Depths.exists_aligned (hopt.perm.trans hperm)
  obtain ⟨⟨e, k⟩, xs', rfl, rfl, -⟩ := List.map_eq_cons_iff.mp haligned
  have hjoint : treeWeight (weight1 + weight2, 1 + max width1 width2) =
      treeWeight (weight1, width1) + treeWeight (weight2, width2) := by
    unfold treeWeight
    simp only
    omega
  have hlight : ∀ a b, heapBefore a b → treeWeight a ≤ treeWeight b := by
    intro a b h
    unfold heapBefore at h
    unfold treeWeight
    omega
  have hsplit := (hopt.of_perm hperm hxs.symm).split hjoint (hlight _ _ (hs1 _ List.mem_cons_self))
    (fun e he => hlight _ _ (hs2 e he))
  have hk := hdepth _ (hxs.mem_iff.mp List.mem_cons_self)
  simp only at hk
  refine ⟨_, hsplit, ?_⟩
  intro x hx
  rcases List.mem_cons.mp hx with rfl | hx
  · have := le_max_left width1 width2
    simp only
    omega
  · rcases List.mem_cons.mp hx with rfl | hx
    · have := le_max_right width1 width2
      simp only
      omega
    · exact hdepth x (hxs.mem_iff.mp (List.mem_cons_of_mem _ hx))

/-- The last tree is deep enough for optimal depths of the trees of the heap. -/
theorem ordinaryLoop_optimal {fuel : Nat} {heap : List (Int × Nat)} (hlen : heap.length ≤ fuel + 1)
    (hsorted : heap.Pairwise heapBefore) (hneg : ∀ e ∈ heap, e.1 ≤ 0) : OptimalWithin heap (ordinaryLoop fuel heap) := by
  induction fuel generalizing heap with
  | zero =>
    match heap, hlen with
    | [], _ => exact optimalWithin_nil _
    | [e], _ => exact optimalWithin_single e
  | succ fuel ih =>
    match heap, hlen with
    | [], _ => exact optimalWithin_nil _
    | [e], _ => exact optimalWithin_single e
    | (weight1, width1) :: (weight2, width2) :: heap, hlen =>
      have hneg1 : weight1 ≤ 0 := hneg _ List.mem_cons_self
      have hneg2 : weight2 ≤ 0 := hneg _ (List.mem_cons_of_mem _ List.mem_cons_self)
      have hneg' : ∀ e ∈ List.orderedInsert heapBefore (weight1 + weight2, 1 + max width1 width2) heap, e.1 ≤ 0 := by
        intro e he
        rcases List.mem_cons.mp ((List.perm_orderedInsert heapBefore _ heap).mem_iff.mp he) with rfl | he
        · simp only
          omega
        · exact hneg e (List.mem_cons_of_mem _ (List.mem_cons_of_mem _ he))
      have hsorted' := (List.pairwise_cons.mp (List.pairwise_cons.mp hsorted).2).2.orderedInsert
        (weight1 + weight2, 1 + max width1 width2) heap
      rw [ordinaryLoop]
      exact (ih (length_merged _ hlen) hsorted' hneg').unmerge hsorted hneg1 hneg2

/-- The symbols with a frequency have optimal depths within that of the ordinary tree. -/
theorem ordinary_optimal (frequencies : List Nat) :
    ∃ xs, Depths.Optimal (fun s => frequencies.getD s 0) (usedSymbols frequencies) xs ∧
      ∀ x ∈ xs, x.2 ≤ ordinaryHuffmanOptimalMaxBitwidth frequencies := by
  unfold ordinaryHuffmanOptimalMaxBitwidth
  generalize hheap : (frequencies.filter (fun value => 0 < value)).map (fun (frequency : Nat) => (-(frequency : Int), 0)) = heap
  have hperm := List.perm_insertionSort heapBefore heap
  have hsymbols : heap.Perm ((usedSymbols frequencies).map (fun s => (-(frequencies.getD s 0 : Int), 0))) := by
    rw [← hheap]
    refine ((map_usedSymbols frequencies).symm.map _).trans (.of_eq ?_)
    rw [List.map_map]
    rfl
  have hneg : ∀ e ∈ heap.insertionSort heapBefore, e.1 ≤ 0 := by
    intro e he
    obtain ⟨s, -, rfl⟩ := List.mem_map.mp (hsymbols.mem_iff.mp (hperm.mem_iff.mp he))
    simp only
    omega
  obtain ⟨xs, hopt, hdepth⟩ := ordinaryLoop_optimal (Nat.le_succ _) (List.pairwise_insertionSort heapBefore heap) hneg
  have hweight : ∀ s, treeWeight (-(frequencies.getD s 0 : Int), 0) = frequencies.getD s 0 := by
    intro s
    unfold treeWeight
    simp only
    omega
  obtain ⟨ys, hys, hyxs⟩ := (hopt.of_perm (hperm.trans hsymbols) (.refl _)).of_map hweight
  refine ⟨ys, hys, ?_⟩
  intro y hy
  have hle := hdepth _ (hyxs.mem_iff.mp (List.mem_map_of_mem hy))
  rwa [Nat.add_zero] at hle

end Noflate
