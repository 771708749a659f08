import Mathlib.Algebra.BigOperators.Ring.Finset
import Mathlib.Data.Nat.Fib.Basic
import Mathlib.Tactic.NormNum.NatFib
import Noflate.Lemmas.PackageMerge

/-!
# The numbers of the code construction

The numbers that `lengthLimitedCodeLengths` computes fit into the types the code has for them (`CodeRange`). The weights of
package-merge are sums of frequencies (`totalWeight_weightedNodes`). A tree of the ordinary construction is heavier the deeper it is, since
the trees merged were the lightest: its weight grows like the Fibonacci numbers (`fib_ordinaryLoop`).
-/

namespace Noflate

/-! ## Weights -/

/-- The weight of all nodes. -/
def totalWeight (nodes : List Node) : Nat := (nodes.map (·.weight)).sum

theorem weight_le_total {nodes : List Node} {x : Node} (hx : x ∈ nodes) : x.weight ≤ totalWeight nodes :=
  List.single_le_sum (fun _ _ => Nat.zero_le _) _ (List.mem_map_of_mem hx)

theorem totalWeight_packagePairs (nodes : List Node) : totalWeight (packagePairs nodes) ≤ totalWeight nodes := by
  induction nodes using packagePairs.induct with
  | case1 a b nodes ih =>
    have h : totalWeight (packagePairs (a :: b :: nodes)) = a.weight + b.weight + totalWeight (packagePairs nodes) := rfl
    have h' : totalWeight (a :: b :: nodes) = a.weight + (b.weight + totalWeight nodes) := rfl
    omega
  | case2 nodes h =>
    rw [packagePairs]
    · exact Nat.zero_le _
    · exact h

theorem totalWeight_package (nodes : List Node) : totalWeight (package nodes) ≤ totalWeight nodes := by
  unfold package
  split
  · exact le_rfl
  · exact totalWeight_packagePairs nodes

/-- Every round adds the weight of the source at most. -/
theorem totalWeight_weightedNodes (source : List Node) (rounds : Nat) :
    totalWeight (weightedNodes source rounds) ≤ (rounds + 1) * totalWeight source := by
  induction rounds with
  | zero => exact le_of_eq (Nat.one_mul _).symm
  | succ rounds ih =>
    have hperm := mergeNodes_perm (package (weightedNodes source rounds)) source
    have hsum : totalWeight (weightedNodes source (rounds + 1)) =
        totalWeight (package (weightedNodes source rounds)) + totalWeight source := by
      unfold totalWeight
      rw [weightedNodes, (hperm.map _).sum_eq, List.map_append, List.sum_append]
    have hpackage := totalWeight_package (weightedNodes source rounds)
    rw [hsum, Nat.succ_mul]
    omega

/-- A frequency of zero adds nothing. -/
theorem sum_filter_pos (l : List Nat) : (l.filter (fun value => 0 < value)).sum = l.sum := by
  induction l with
  | nil => rfl
  | cons f l ih =>
    rcases Nat.eq_zero_or_pos f with rfl | hf
    · rw [List.filter_cons_of_neg (by simp), ih, List.sum_cons, Nat.zero_add]
    · rw [List.filter_cons_of_pos (by simpa using hf), List.sum_cons, List.sum_cons, ih]

theorem totalWeight_sourceNodes (frequencies : List Nat) : totalWeight (sourceNodes frequencies) = frequencies.sum := by
  rw [← sum_filter_pos frequencies, ← (map_usedSymbols frequencies).sum_eq, sourceNodes_eq]
  unfold totalWeight
  rw [List.map_map]
  rfl

/-! ## Depths -/

instance : IsTrans (Int × Nat) heapBefore where
  trans a b c hab hbc := by
    unfold heapBefore at *
    omega

instance : Std.Total heapBefore where
  total a b := by
    unfold heapBefore
    omega

/-- A heap of trees, in its order, that were merged from the lightest ones: a tree is as heavy as its depth asks for, and so heavy is
a tree of the next smaller depth beside any other. Weights are stored negated. -/
structure Heavy (heap : List (Int × Nat)) : Prop where
  sorted : heap.Pairwise heapBefore
  weight_le : ∀ e ∈ heap, (Nat.fib (e.2 + 2) : Int) ≤ -e.1
  beside_le : heap.Pairwise fun a b => (Nat.fib (a.2 + 1) : Int) ≤ -b.1 ∧ (Nat.fib (b.2 + 1) : Int) ≤ -a.1

/-- The two lightest trees are merged. -/
theorem Heavy.merge {weight1 weight2 : Int} {width1 width2 : Nat} {heap : List (Int × Nat)}
    (h : Heavy ((weight1, width1) :: (weight2, width2) :: heap)) :
    Heavy (List.orderedInsert heapBefore (weight1 + weight2, 1 + max width1 width2) heap) := by
  obtain ⟨hs1, hs'⟩ := List.pairwise_cons.mp h.sorted
  obtain ⟨hs2, hs⟩ := List.pairwise_cons.mp hs'
  obtain ⟨hb1, hb'⟩ := List.pairwise_cons.mp h.beside_le
  obtain ⟨hb2, hb⟩ := List.pairwise_cons.mp hb'
  have hw1 := h.weight_le _ List.mem_cons_self
  have hw2 := h.weight_le _ (List.mem_cons_of_mem _ List.mem_cons_self)
  obtain ⟨h12, h21⟩ := hb1 _ List.mem_cons_self
  have hperm := List.perm_orderedInsert heapBefore (weight1 + weight2, 1 + max width1 width2) heap
  have hpos : ∀ n, (0 : Int) ≤ (Nat.fib n : Int) := fun n => Int.natCast_nonneg _
  have hfib : ∀ n, (Nat.fib (1 + n + 2) : Int) = Nat.fib (n + 1) + Nat.fib (n + 2) := by
    intro n
    rw [show 1 + n + 2 = n + 1 + 2 by omega, Nat.fib_add_two, Int.natCast_add]
  refine ⟨hs.orderedInsert _ _, ?_, ?_⟩
  · intro e he
    rcases List.mem_cons.mp (hperm.mem_iff.mp he) with rfl | he
    · simp only at hw1 hw2 h12 h21 ⊢
      rw [hfib]
      rcases max_choice width1 width2 with hm | hm
      · rw [hm]
        omega
      · rw [hm]
        omega
    · exact h.weight_le e (List.mem_cons_of_mem _ (List.mem_cons_of_mem _ he))
  · refine (hperm.pairwise_iff fun hab => ⟨hab.2, hab.1⟩).mpr (List.pairwise_cons.mpr ⟨?_, hb⟩)
    intro e he
    have hlight1 := hs1 e (List.mem_cons_of_mem _ he)
    have hlight2 := hs2 e he
    have hbeside1 := (hb1 e (List.mem_cons_of_mem _ he)).2
    have hzero := hpos (width2 + 2)
    unfold heapBefore at hlight1 hlight2
    simp only at hw1 hw2 hlight1 hlight2 hbeside1 ⊢
    rw [show 1 + max width1 width2 + 1 = max width1 width2 + 2 by omega]
    refine ⟨?_, by omega⟩
    rcases max_choice width1 width2 with hm | hm
    · rw [hm]
      omega
    · rw [hm]
      omega

/-- The last tree is as heavy as its depth asks for. -/
theorem fib_ordinaryLoop {fuel : Nat} {heap : List (Int × Nat)} (hlen : heap.length ≤ fuel + 1) (h : Heavy heap) :
    (Nat.fib (ordinaryLoop fuel heap + 2) : Int) ≤ max 2 (heap.map (fun e => -e.1)).sum := by
  have hone : ∀ (weight : Int) (width : Nat), Heavy [(weight, width)] →
      (Nat.fib (max 1 width + 2) : Int) ≤ max 2 ([(weight, width)].map (fun e => -e.1)).sum := by
    intro weight width h
    have hw := h.weight_le _ List.mem_cons_self
    rw [List.map_singleton, List.sum_singleton]
    rcases max_choice 1 width with hm | hm
    · rw [hm]
      exact le_max_left 2 _
    · rw [hm]
      exact hw.trans (le_max_right 2 _)
  induction fuel generalizing heap with
  | zero =>
    match heap, hlen with
    | [], _ => exact le_max_left 2 _
    | [(weight, width)], _ => exact hone weight width h
  | succ fuel ih =>
    match heap, hlen with
    | [], _ => exact le_max_left 2 _
    | [(weight, width)], _ => exact hone weight width h
    | (weight1, width1) :: (weight2, width2) :: heap, hlen =>
      have hperm := List.perm_orderedInsert heapBefore (weight1 + weight2, 1 + max width1 width2) heap
      have hnext := ih (length_merged _ hlen) h.merge
      rw [(hperm.map _).sum_eq, List.map_cons, List.sum_cons] at hnext
      rw [ordinaryLoop, List.map_cons, List.map_cons, List.sum_cons, List.sum_cons]
      simp only at hnext ⊢
      omega

/-- The depth of the ordinary tree is small where the frequencies are. -/
theorem fib_ordinary_le (frequencies : List Nat) :
    Nat.fib (ordinaryHuffmanOptimalMaxBitwidth frequencies + 2) ≤ max 2 frequencies.sum := by
  have hsum : (((frequencies.filter (fun value => 0 < value)).map (fun (frequency : Nat) => (-(frequency : Int), 0))).map
      (fun e : Int × Nat => -e.1)).sum = (frequencies.sum : Int) := by
    rw [← sum_filter_pos, Nat.cast_list_sum, List.map_map]
    congr 1
    refine List.map_congr_left ?_
    intro f _
    exact Int.neg_neg f
  have hpos : ∀ e ∈ (frequencies.filter (fun value => 0 < value)).map (fun (frequency : Nat) => (-(frequency : Int), 0)),
      e.2 = 0 ∧ 1 ≤ -e.1 := by
    intro e he
    obtain ⟨f, hf, rfl⟩ := List.mem_map.mp he
    have h := of_decide_eq_true (List.mem_filter.mp hf).2
    refine ⟨rfl, ?_⟩
    simp only
    omega
  unfold ordinaryHuffmanOptimalMaxBitwidth
  generalize (frequencies.filter (fun value => 0 < value)).map (fun (frequency : Nat) => (-(frequency : Int), 0)) = heap at hsum hpos
  have hperm := List.perm_insertionSort heapBefore heap
  have hheavy : Heavy (heap.insertionSort heapBefore) := by
    refine ⟨List.pairwise_insertionSort heapBefore heap, ?_, ?_⟩
    · intro e he
      obtain ⟨h1, h2⟩ := hpos e (hperm.mem_iff.mp he)
      rw [h1]
      exact h2
    · refine List.Pairwise.imp_of_mem ?_ (List.pairwise_of_forall (R := fun _ _ => True) fun _ _ => trivial)
      intro a b ha hb _
      obtain ⟨h1, h2⟩ := hpos a (hperm.mem_iff.mp ha)
      obtain ⟨h3, h4⟩ := hpos b (hperm.mem_iff.mp hb)
      rw [h1, h3]
      exact ⟨h4, h2⟩
  have h := fib_ordinaryLoop (Nat.le_succ _) hheavy
  rw [(hperm.map _).sum_eq, hsum] at h
  simp only
  omega

/-! ## Ranges -/

/-- The numbers of the code construction for frequencies and a limit fit into the types of the code: a symbol into 16 bits, the
weights of all lists into 63, a depth into 8. -/
structure CodeRange (frequencies : List Nat) (limit : Nat) : Prop where
  symbol_lt : ∀ x ∈ sourceNodes frequencies, ∀ s ∈ x.symbols, s < 2 ^ 16
  weight_lt : ∀ rounds < limit, ∀ x ∈ weightedNodes (sourceNodes frequencies) rounds ++
    package (weightedNodes (sourceNodes frequencies) rounds), x.weight < 2 ^ 63
  depth_lt : ordinaryHuffmanOptimalMaxBitwidth frequencies < 2 ^ 8

theorem codeRange {frequencies : List Nat} {limit : Nat} (hsymbols : frequencies.length ≤ 2 ^ 16) (hlimit : 1 ≤ limit)
    (hweight : limit * frequencies.sum < 2 ^ 63) : CodeRange frequencies limit := by
  refine ⟨?_, ?_, ?_⟩
  · intro x hx s hs
    have hused := mem_usedSymbols.mp (List.mem_flatMap.mpr ⟨x, hx, hs⟩)
    by_contra hge
    rw [List.getD_eq_getElem?_getD, List.getElem?_eq_none (by omega)] at hused
    exact Nat.lt_irrefl 0 hused
  · intro rounds hrounds x hx
    have hle := totalWeight_weightedNodes (sourceNodes frequencies) rounds
    rw [totalWeight_sourceNodes] at hle
    have hmul : (rounds + 1) * frequencies.sum ≤ limit * frequencies.sum := Nat.mul_le_mul_right _ hrounds
    rcases List.mem_append.mp hx with hx | hx
    · have := weight_le_total hx
      omega
    · have := weight_le_total hx
      have := totalWeight_package (weightedNodes (sourceNodes frequencies) rounds)
      omega
  · have hfib := fib_ordinary_le frequencies
    have hsum : frequencies.sum ≤ limit * frequencies.sum := Nat.le_mul_of_pos_left _ hlimit
    have hbig : 2 ^ 63 ≤ Nat.fib (2 ^ 8 + 2) := by norm_num
    by_contra hge
    have hmono : Nat.fib (2 ^ 8 + 2) ≤ Nat.fib (ordinaryHuffmanOptimalMaxBitwidth frequencies + 2) := Nat.fib_mono (by omega)
    omega

end Noflate
