import Noflate.Strict
import Noflate.Huffman
import Noflate.General.Canonical
import Mathlib.Algebra.BigOperators.Ring.List

/-!
# Code lengths by package-merge

The lists of package-merge, level by level. The beginning of a merged list is the beginnings of the two lists it was merged from
(`take_mergeNodes`), and ties put a leaf before a package: so a symbol that occurs in a package at the beginning of a list occurs
there as a leaf too. Counting the occurrences of the symbols at the beginning of a list is then exact (`Level.kraft`), and at the
last level it is the Kraft sum of the code lengths (`lengthLimited_spec`).
-/

namespace Noflate

/-- The nodes are in the order of their weights. -/
def SortedNodes (nodes : List Node) : Prop := nodes.Pairwise (fun a b => a.weight ≤ b.weight)

/-- The symbols of the leaves of nodes. -/
def leaves (nodes : List Node) : List Nat := nodes.flatMap (·.symbols)

theorem leaves_append (as bs : List Node) : leaves (as ++ bs) = leaves as ++ leaves bs := List.flatMap_append

theorem leaves_perm {as bs : List Node} (h : as.Perm bs) : (leaves as).Perm (leaves bs) := h.flatMap_right _

/-! ## Merging -/

theorem mergeNodes_nil (right : List Node) : mergeNodes [] right = right := rfl

theorem mergeNodes_cons_nil (l : Node) (left : List Node) : mergeNodes (l :: left) [] = l :: mergeNodes left [] := rfl

theorem mergeNodes_cons_cons (l r : Node) (left right : List Node) :
    mergeNodes (l :: left) (r :: right) =
      if l.weight < r.weight then l :: mergeNodes left (r :: right) else r :: mergeNodes (l :: left) right := rfl

/-- A merged list holds the nodes of both lists. -/
theorem mergeNodes_perm (left right : List Node) : (mergeNodes left right).Perm (left ++ right) := by
  induction left generalizing right with
  | nil => exact .refl _
  | cons l left ih =>
    induction right with
    | nil =>
      rw [mergeNodes_cons_nil, List.cons_append]
      exact (ih []).cons l
    | cons r right ihr =>
      rw [mergeNodes_cons_cons]
      split
      · exact (ih (r :: right)).cons l
      · exact (ihr.cons r).trans List.perm_middle.symm

theorem length_mergeNodes (left right : List Node) : (mergeNodes left right).length = left.length + right.length := by
  rw [(mergeNodes_perm left right).length_eq, List.length_append]

/-- Merging sorted lists gives a sorted list. -/
theorem sorted_mergeNodes {left right : List Node} (hl : SortedNodes left) (hr : SortedNodes right) :
    SortedNodes (mergeNodes left right) := by
  induction left generalizing right with
  | nil => exact hr
  | cons l left ih =>
    obtain ⟨hfirst, hleft⟩ := List.pairwise_cons.mp hl
    induction right with
    | nil =>
      rw [mergeNodes_cons_nil]
      refine List.pairwise_cons.mpr ⟨?_, ih hleft hr⟩
      intro x hx
      have hmem := (mergeNodes_perm left []).mem_iff.mp hx
      rw [List.append_nil] at hmem
      exact hfirst x hmem
    | cons r right ihr =>
      obtain ⟨hfirst', hright⟩ := List.pairwise_cons.mp hr
      rw [mergeNodes_cons_cons]
      split
      · rename_i hlt
        refine List.pairwise_cons.mpr ⟨?_, ih hleft hr⟩
        intro x hx
        rcases List.mem_append.mp ((mergeNodes_perm left (r :: right)).mem_iff.mp hx) with hx | hx
        · exact hfirst x hx
        · rcases List.mem_cons.mp hx with rfl | hx
          · exact hlt.le
          · exact hlt.le.trans (hfirst' x hx)
      · rename_i hge
        have hrl : r.weight ≤ l.weight := Nat.le_of_not_lt hge
        refine List.pairwise_cons.mpr ⟨?_, ihr hright⟩
        intro x hx
        rcases List.mem_append.mp ((mergeNodes_perm (l :: left) right).mem_iff.mp hx) with hx | hx
        · rcases List.mem_cons.mp hx with rfl | hx
          · exact hrl
          · exact hrl.trans (hfirst x hx)
        · exact hfirst' x hx

/-- The beginning of a merged list is the beginnings of the two lists; what is taken of the left list is lighter than all that is
left of the right one. -/
theorem take_mergeNodes {left right : List Node} (hr : SortedNodes right) {t : Nat} (ht : t ≤ left.length + right.length) :
    ∃ p s, p + s = t ∧ p ≤ left.length ∧ s ≤ right.length ∧
      ((mergeNodes left right).take t).Perm (left.take p ++ right.take s) ∧
      ∀ a ∈ left.take p, ∀ b ∈ right.drop s, a.weight < b.weight := by
  induction left generalizing right t with
  | nil =>
    rw [List.length_nil, Nat.zero_add] at ht
    refine ⟨0, t, Nat.zero_add t, Nat.zero_le _, ht, .refl _, ?_⟩
    intro a ha
    cases ha
  | cons l left ih =>
    induction right generalizing t with
    | nil =>
      cases t with
      | zero => exact ⟨0, 0, rfl, Nat.zero_le _, Nat.zero_le _, .refl _, fun a ha => (nomatch ha)⟩
      | succ t =>
        obtain ⟨p, s, h1, h2, h3, h4, -⟩ := ih hr (show t ≤ left.length + ([] : List Node).length by
          rw [List.length_cons] at ht
          omega)
        refine ⟨p + 1, s, by omega, Nat.succ_le_succ h2, h3, h4.cons l, ?_⟩
        intro a _ b hb
        rw [List.drop_nil] at hb
        cases hb
    | cons r right ihr =>
      obtain ⟨hfirst, hright⟩ := List.pairwise_cons.mp hr
      rw [mergeNodes_cons_cons]
      cases t with
      | zero => exact ⟨0, 0, rfl, Nat.zero_le _, Nat.zero_le _, .refl _, fun a ha => (nomatch ha)⟩
      | succ t =>
        rw [List.length_cons, List.length_cons] at ht
        split
        · rename_i hlt
          obtain ⟨p, s, h1, h2, h3, h4, h5⟩ := ih hr (show t ≤ left.length + (r :: right).length by
            rw [List.length_cons]
            omega)
          refine ⟨p + 1, s, by omega, Nat.succ_le_succ h2, h3, h4.cons l, ?_⟩
          intro a ha b hb
          rw [List.take_succ_cons, List.mem_cons] at ha
          rcases ha with rfl | ha
          · rcases List.mem_cons.mp (List.mem_of_mem_drop hb) with rfl | hb
            · exact hlt
            · exact hlt.trans_le (hfirst b hb)
          · exact h5 a ha b hb
        · obtain ⟨p, s, h1, h2, h3, h4, h5⟩ := ihr hright (show t ≤ (l :: left).length + right.length by
            rw [List.length_cons]
            omega)
          refine ⟨p, s + 1, by omega, h2, Nat.succ_le_succ h3, ?_, h5⟩
          rw [List.take_succ_cons, List.take_succ_cons]
          exact (h4.cons r).trans List.perm_middle.symm

/-! ## Packaging -/

theorem length_packagePairs (nodes : List Node) : (packagePairs nodes).length = nodes.length / 2 := by
  induction nodes using packagePairs.induct with
  | case1 a b nodes ih =>
    rw [packagePairs, List.length_cons, ih, List.length_cons, List.length_cons]
    omega
  | case2 nodes h =>
    cases nodes with
    | nil => rfl
    | cons a nodes =>
      cases nodes with
      | nil =>
        rw [packagePairs]
        · exact (Nat.div_eq_of_lt (Nat.lt_succ_self 1)).symm
        · exact h
      | cons b nodes => exact (h a b nodes rfl).elim

/-- The first packages are made of twice as many nodes. -/
theorem leaves_packagePairs {nodes : List Node} {p : Nat} (hp : 2 * p ≤ nodes.length) :
    leaves ((packagePairs nodes).take p) = leaves (nodes.take (2 * p)) := by
  induction p generalizing nodes with
  | zero => rfl
  | succ p ih =>
    match nodes, hp with
    | a :: b :: nodes, hp =>
      rw [List.length_cons, List.length_cons] at hp
      have hrest : leaves ((packagePairs nodes).take p) = leaves (nodes.take (2 * p)) := ih (by omega)
      rw [packagePairs, List.take_succ_cons, show 2 * (p + 1) = 2 * p + 1 + 1 by omega, List.take_succ_cons, List.take_succ_cons]
      unfold leaves at hrest ⊢
      rw [List.flatMap_cons, List.flatMap_cons, List.flatMap_cons, hrest, List.append_assoc]

/-- A package is at least as heavy as the nodes it is made of. -/
theorem mem_packagePairs {nodes : List Node} {x : Node} (hx : x ∈ packagePairs nodes) :
    ∃ a ∈ nodes, ∃ b ∈ nodes, x.symbols = a.symbols ++ b.symbols ∧ x.weight = a.weight + b.weight := by
  induction nodes using packagePairs.induct with
  | case1 a b nodes ih =>
    rw [packagePairs, List.mem_cons] at hx
    rcases hx with rfl | hx
    · exact ⟨a, List.mem_cons_self, b, List.mem_cons_of_mem _ List.mem_cons_self, rfl, rfl⟩
    · obtain ⟨c, hc, d, hd, h⟩ := ih hx
      exact ⟨c, List.mem_cons_of_mem _ (List.mem_cons_of_mem _ hc), d, List.mem_cons_of_mem _ (List.mem_cons_of_mem _ hd), h⟩
  | case2 nodes h =>
    rw [packagePairs] at hx
    · cases hx
    · exact h

/-- The packages of a sorted list are sorted. -/
theorem sorted_packagePairs {nodes : List Node} (h : SortedNodes nodes) : SortedNodes (packagePairs nodes) := by
  induction nodes using packagePairs.induct with
  | case1 a b nodes ih =>
    obtain ⟨ha, h⟩ := List.pairwise_cons.mp h
    obtain ⟨hb, h⟩ := List.pairwise_cons.mp h
    rw [packagePairs]
    refine List.pairwise_cons.mpr ⟨?_, ih h⟩
    intro x hx
    obtain ⟨c, hc, d, hd, -, hw⟩ := mem_packagePairs hx
    rw [hw]
    exact Nat.add_le_add (ha c (List.mem_cons_of_mem _ hc)) (hb d hd)
  | case2 nodes h' =>
    rw [packagePairs]
    · exact .nil
    · exact h'

/-! ## Levels -/

/-- The leaves of package-merge: one for each symbol, sorted. -/
structure Leaves (source : List Node) (syms : List Nat) : Prop where
  symbols_eq : source.map (·.symbols) = syms.map (fun s => [s])
  nodup : syms.Nodup
  sorted : SortedNodes source

namespace Leaves

variable {source : List Node} {syms : List Nat}

theorem length_eq (h : Leaves source syms) : source.length = syms.length := by
  have := congrArg List.length h.symbols_eq
  rwa [List.length_map, List.length_map] at this

/-- The symbols of the first leaves. -/
theorem leaves_take (h : Leaves source syms) (s : Nat) : leaves (source.take s) = syms.take s := by
  unfold leaves
  rw [List.flatMap_def, List.map_take, h.symbols_eq, ← List.map_take, ← List.flatMap_def, List.flatMap_singleton']

/-- A symbol that is not among the first leaves: its leaf is among the others. -/
theorem mem_drop (h : Leaves source syms) {s sym : Nat} {y : Node} (hy : y ∈ source) (hsym : y.symbols = [sym])
    (hdrop : sym ∈ syms.drop s) : y ∈ source.drop s := by
  rw [← List.take_append_drop s source, List.mem_append] at hy
  rcases hy with hy | hy
  · exfalso
    have hmem : sym ∈ leaves (source.take s) := List.mem_flatMap.mpr ⟨y, hy, by rw [hsym]; exact List.mem_singleton_self sym⟩
    rw [h.leaves_take] at hmem
    exact List.disjoint_take_drop h.nodup le_rfl hmem hdrop
  · exact hy

end Leaves

/-- What holds of the list of a level, counting from one: it is sorted; a node is at least as heavy as the leaf of any symbol in it;
a symbol occurs at most once for each level; and the occurrences of the symbols at the beginning of the list, as widths of codes,
have the Kraft sum of all the symbols less half a unit for each node. -/
structure Level (source : List Node) (syms : List Nat) (k : Nat) (nodes : List Node) : Prop where
  sorted : SortedNodes nodes
  heavy : ∀ x ∈ nodes, ∀ s ∈ x.symbols, ∃ y ∈ source, y.symbols = [s] ∧ y.weight ≤ x.weight
  count_le : ∀ s, (leaves nodes).count s ≤ k
  kraft : ∀ t ≤ nodes.length, ∀ K, k ≤ K →
    2 * (syms.map (fun s => 2 ^ (K - (leaves (nodes.take t)).count s))).sum + t * 2 ^ K = syms.length * 2 ^ (K + 1)

/-- The symbols at the beginning of a list occur at most as often as in the list. -/
theorem count_leaves_take_le (nodes : List Node) (t s : Nat) : (leaves (nodes.take t)).count s ≤ (leaves nodes).count s := by
  conv_rhs => rw [← List.take_append_drop t nodes, leaves_append, List.count_append]
  exact Nat.le_add_right _ _

/-- A sum of equal terms. -/
theorem sum_map_of_eq {l : List Nat} {f : Nat → Nat} {c : Nat} (h : ∀ a ∈ l, f a = c) : (l.map f).sum = l.length * c := by
  induction l with
  | nil => exact (Nat.zero_mul c).symm
  | cons a l ih =>
    rw [List.map_cons, List.sum_cons, h a List.mem_cons_self, ih (fun b hb => h b (List.mem_cons_of_mem _ hb)),
      List.length_cons, Nat.succ_mul, Nat.add_comm]

theorem level_zero (source : List Node) (syms : List Nat) : Level source syms 0 [] := by
  refine ⟨.nil, fun x hx => (nomatch hx), fun s => le_rfl, ?_⟩
  intro t ht K _
  obtain rfl : t = 0 := Nat.le_zero.mp ht
  have hsum : (syms.map (fun s => 2 ^ (K - (leaves (([] : List Node).take 0)).count s))).sum = syms.length * 2 ^ K :=
    sum_map_of_eq fun s _ => rfl
  rw [hsum, Nat.pow_succ]
  ring

/-- From one level to the next. -/
theorem Level.next {source nodes : List Node} {syms : List Nat} {k : Nat} (hs : Leaves source syms) (h : Level source syms k nodes) :
    Level source syms (k + 1) (mergeNodes (packagePairs nodes) source) := by
  have hheavy : ∀ x ∈ packagePairs nodes, ∀ s ∈ x.symbols, ∃ y ∈ source, y.symbols = [s] ∧ y.weight ≤ x.weight := by
    intro x hx s hsx
    obtain ⟨a, ha, b, hb, hsyms, hweight⟩ := mem_packagePairs hx
    rw [hsyms, List.mem_append] at hsx
    rcases hsx with hsx | hsx
    · obtain ⟨y, h1, h2, h3⟩ := h.heavy a ha s hsx
      exact ⟨y, h1, h2, by omega⟩
    · obtain ⟨y, h1, h2, h3⟩ := h.heavy b hb s hsx
      exact ⟨y, h1, h2, by omega⟩
  -- what the beginning of the merged list holds of each symbol
  have hcount : ∀ t ≤ (mergeNodes (packagePairs nodes) source).length, ∃ p s, p + s = t ∧ 2 * p ≤ nodes.length ∧
      s ≤ syms.length ∧ (∀ sym, (leaves ((mergeNodes (packagePairs nodes) source).take t)).count sym =
        (leaves (nodes.take (2 * p))).count sym + (syms.take s).count sym) ∧
      ∀ sym ∈ syms.drop s, (leaves (nodes.take (2 * p))).count sym = 0 := by
    intro t ht
    rw [length_mergeNodes] at ht
    obtain ⟨p, s, h1, h2, h3, h4, h5⟩ := take_mergeNodes hs.sorted ht
    rw [length_packagePairs] at h2
    have hp : 2 * p ≤ nodes.length := by omega
    refine ⟨p, s, h1, hp, by rwa [← hs.length_eq], ?_, ?_⟩
    · intro sym
      rw [(leaves_perm h4).count_eq, leaves_append, List.count_append, leaves_packagePairs hp, hs.leaves_take]
    · intro sym hsym
      rw [List.count_eq_zero, ← leaves_packagePairs hp]
      intro hmem
      obtain ⟨x, hx, hxs⟩ := List.mem_flatMap.mp hmem
      obtain ⟨y, hy, hys, hle⟩ := hheavy x (List.mem_of_mem_take hx) sym hxs
      have := h5 x hx y (hs.mem_drop hy hys hsym)
      omega
  refine ⟨sorted_mergeNodes (sorted_packagePairs h.sorted) hs.sorted, ?_, ?_, ?_⟩
  · intro x hx s hsx
    rcases List.mem_append.mp ((mergeNodes_perm _ _).mem_iff.mp hx) with hx | hx
    · exact hheavy x hx s hsx
    · have hsymbols : x.symbols ∈ syms.map (fun s => [s]) := by
        rw [← hs.symbols_eq]
        exact List.mem_map_of_mem hx
      obtain ⟨s', -, hs'⟩ := List.mem_map.mp hsymbols
      rw [← hs', List.mem_singleton] at hsx
      exact ⟨x, hx, by rw [← hs', hsx], le_rfl⟩
  · intro sym
    obtain ⟨p, s, -, -, -, h4, -⟩ := hcount _ le_rfl
    have hall := h4 sym
    rw [List.take_length] at hall
    have h1 := count_leaves_take_le nodes (2 * p) sym
    have h2 := h.count_le sym
    have h3 : (syms.take s).count sym ≤ 1 :=
      List.nodup_iff_count_le_one.mp (hs.nodup.sublist (List.take_sublist s syms)) sym
    omega
  · intro t ht K hK
    obtain ⟨p, s, hps, hp, hsl, h4, h5⟩ := hcount t ht
    have ih := h.kraft (2 * p) hp K (by omega)
    -- the symbols are split into those whose leaf is taken and the others
    have hsplit : ∀ f : Nat → Nat, (syms.map f).sum = ((syms.take s).map f).sum + ((syms.drop s).map f).sum := by
      intro f
      conv_lhs => rw [← List.take_append_drop s syms, List.map_append, List.sum_append]
    have hold : ((syms.drop s).map (fun sym => 2 ^ (K - (leaves (nodes.take (2 * p))).count sym))).sum =
        (syms.length - s) * 2 ^ K := by
      rw [sum_map_of_eq (fun sym hsym => by rw [h5 sym hsym, Nat.sub_zero]), List.length_drop]
    have hnew : ((syms.drop s).map
        (fun sym => 2 ^ (K - (leaves ((mergeNodes (packagePairs nodes) source).take t)).count sym))).sum =
        (syms.length - s) * 2 ^ K := by
      rw [← List.length_drop]
      refine sum_map_of_eq ?_
      intro sym hsym
      have hzero : (syms.take s).count sym = 0 :=
        List.count_eq_zero.mpr fun hmem => List.disjoint_take_drop hs.nodup le_rfl hmem hsym
      rw [h4 sym, h5 sym hsym, hzero, Nat.sub_zero]
    have hhalf : 2 * ((syms.take s).map
        (fun sym => 2 ^ (K - (leaves ((mergeNodes (packagePairs nodes) source).take t)).count sym))).sum =
        ((syms.take s).map (fun sym => 2 ^ (K - (leaves (nodes.take (2 * p))).count sym))).sum := by
      rw [← List.sum_map_mul_left]
      congr 1
      refine List.map_congr_left ?_
      intro sym hsym
      have hone : (syms.take s).count sym = 1 :=
        List.count_eq_one_of_mem (hs.nodup.sublist (List.take_sublist s syms)) hsym
      have hle := (count_leaves_take_le nodes (2 * p) sym).trans (h.count_le sym)
      have hK' : K - (leaves (nodes.take (2 * p))).count sym = K - ((leaves (nodes.take (2 * p))).count sym + 1) + 1 := by
        omega
      rw [h4 sym, hone, hK', Nat.pow_succ']
    rw [hsplit, hold] at ih
    rw [hsplit, hnew, Nat.mul_add, hhalf]
    obtain ⟨r, hr⟩ := Nat.exists_eq_add_of_le hsl
    rw [hr, Nat.add_sub_cancel_left] at ih ⊢
    rw [← hps]
    rw [Nat.pow_succ] at ih ⊢
    nlinarith [ih]

/-! ## The lists of package-merge -/

/-- The list after some rounds: its level, and how long it is. Each round halves what is missing of all but one of two for each
leaf. -/
theorem level_weightedNodes {source : List Node} {syms : List Nat} (hs : Leaves source syms) (h2 : 2 ≤ syms.length) (k : Nat) :
    Level source syms (k + 1) (weightedNodes source k) ∧ syms.length ≤ (weightedNodes source k).length ∧
      (weightedNodes source k).length ≤ 2 * syms.length - 1 ∧
      (2 * syms.length - 1 - (weightedNodes source k).length) * 2 ^ k ≤ syms.length - 1 := by
  induction k with
  | zero =>
    have hlevel := (level_zero source syms).next hs
    rw [packagePairs, mergeNodes_nil] at hlevel
    · rw [weightedNodes, hs.length_eq, Nat.pow_zero, Nat.mul_one]
      exact ⟨hlevel, le_rfl, by omega, by omega⟩
    · intro a b nodes h
      cases h
  | succ k ih =>
    obtain ⟨h1, h3, h4, h5⟩ := ih
    have hpack : package (weightedNodes source k) = packagePairs (weightedNodes source k) := if_neg (by omega)
    rw [weightedNodes, hpack, length_mergeNodes, length_packagePairs, hs.length_eq]
    refine ⟨h1.next hs, Nat.le_add_left _ _, by omega, ?_⟩
    generalize (weightedNodes source k).length = len at h3 h4 h5 ⊢
    have hhalf : (2 * syms.length - 1 - (len / 2 + syms.length)) * 2 ≤ 2 * syms.length - 1 - len := by omega
    calc (2 * syms.length - 1 - (len / 2 + syms.length)) * 2 ^ (k + 1)
        = (2 * syms.length - 1 - (len / 2 + syms.length)) * 2 * 2 ^ k := by rw [Nat.pow_succ']; ring
      _ ≤ (2 * syms.length - 1 - len) * 2 ^ k := Nat.mul_le_mul_right _ hhalf
      _ ≤ syms.length - 1 := h5

/-- The packages of the last list: with room for all symbols, each symbol occurs in them, at most once for each level, and its
occurrences are the widths of a complete code. -/
theorem packages_spec {source : List Node} {syms : List Nat} (hs : Leaves source syms) (h2 : 2 ≤ syms.length) {m : Nat}
    (hm : 1 ≤ m) (hroom : syms.length ≤ 2 ^ m) :
    (∀ s, (leaves (package (weightedNodes source (m - 1)))).count s ≤ m) ∧
      (∀ s, 0 < (leaves (package (weightedNodes source (m - 1)))).count s ↔ s ∈ syms) ∧
      ∀ K, m ≤ K → (syms.map (fun s => 2 ^ (K - (leaves (package (weightedNodes source (m - 1)))).count s))).sum = 2 ^ K := by
  obtain ⟨k, rfl⟩ : ∃ k, m = k + 1 := ⟨m - 1, by omega⟩
  rw [Nat.add_sub_cancel]
  obtain ⟨hlevel, h3, h4, h5⟩ := level_weightedNodes hs h2 k
  -- the last list holds all but one of two nodes for each leaf, or one less
  have hlen : (weightedNodes source k).length / 2 = syms.length - 1 := by
    have hmiss : 2 * syms.length - 1 - (weightedNodes source k).length < 2 := by
      by_contra hge
      have := Nat.mul_le_mul_right (2 ^ k) (Nat.le_of_not_lt hge)
      rw [Nat.pow_succ'] at hroom
      omega
    omega
  have hpack : package (weightedNodes source k) = packagePairs (weightedNodes source k) := if_neg (by omega)
  have hleaves : leaves (package (weightedNodes source k)) = leaves ((weightedNodes source k).take (2 * (syms.length - 1))) := by
    rw [hpack, ← leaves_packagePairs (by omega), List.take_of_length_le]
    rw [length_packagePairs, hlen]
  rw [hleaves]
  have hcount : ∀ s, (leaves ((weightedNodes source k).take (2 * (syms.length - 1)))).count s ≤ k + 1 :=
    fun s => (count_leaves_take_le _ _ s).trans (hlevel.count_le s)
  have hkraft : ∀ K, k + 1 ≤ K →
      (syms.map (fun s => 2 ^ (K - (leaves ((weightedNodes source k).take (2 * (syms.length - 1)))).count s))).sum = 2 ^ K := by
    intro K hK
    have h := hlevel.kraft (2 * (syms.length - 1)) (by omega) K hK
    obtain ⟨n, hn⟩ : ∃ n, syms.length = n + 1 := ⟨syms.length - 1, by omega⟩
    rw [hn, Nat.add_sub_cancel, Nat.pow_succ] at h
    rw [hn, Nat.add_sub_cancel]
    nlinarith [h]
  refine ⟨hcount, ?_, hkraft⟩
  intro s
  constructor
  · intro hpos
    obtain ⟨x, hx, hxs⟩ := List.mem_flatMap.mp (List.count_pos_iff.mp hpos)
    obtain ⟨y, hy, hys, -⟩ := hlevel.heavy x (List.mem_of_mem_take hx) s hxs
    have hmem : s ∈ leaves (source.take source.length) :=
      List.mem_flatMap.mpr ⟨y, by rwa [List.take_length], by rw [hys]; exact List.mem_singleton_self s⟩
    rw [hs.leaves_take] at hmem
    exact List.mem_of_mem_take hmem
  · intro hmem
    -- a symbol that does not occur takes the whole of the code, and another one takes something
    by_contra hzero
    have h := hkraft (k + 1) le_rfl
    rw [((List.perm_cons_erase hmem).map _).sum_eq, List.map_cons, List.sum_cons,
      show (leaves ((weightedNodes source k).take (2 * (syms.length - 1)))).count s = 0 by omega, Nat.sub_zero] at h
    obtain ⟨s', hs'⟩ : ∃ s', s' ∈ syms.erase s := by
      refine List.exists_mem_of_length_pos ?_
      rw [List.length_erase_of_mem hmem]
      omega
    have hle := List.single_le_sum (fun x _ => Nat.zero_le x) _ (List.mem_map_of_mem
      (f := fun s => 2 ^ (k + 1 - (leaves ((weightedNodes source k).take (2 * (syms.length - 1)))).count s)) hs')
    have hpos := Nat.two_pow_pos (k + 1 - (leaves ((weightedNodes source k).take (2 * (syms.length - 1)))).count s')
    omega

/-- With one leaf there is one package, in which its symbol occurs once for each level. -/
theorem package_single {x : Node} {s : Nat} (hx : x.symbols = [s]) (k : Nat) :
    ∃ z, package (weightedNodes [x] k) = [z] ∧ z.symbols = List.replicate (k + 1) s := by
  induction k with
  | zero => exact ⟨x, rfl, hx⟩
  | succ k ih =>
    obtain ⟨z, h1, h2⟩ := ih
    rw [weightedNodes, h1, mergeNodes_cons_cons]
    split
    · refine ⟨_, rfl, ?_⟩
      simp only [hx, h2]
      exact (List.replicate_succ' (n := k + 1)).symm
    · refine ⟨_, rfl, ?_⟩
      simp only [hx, h2]
      rfl

/-- The symbols of the packages are symbols of the leaves. -/
theorem mem_leaves_package {source : List Node} {s : Nat} (k : Nat) (h : s ∈ leaves (package (weightedNodes source k))) :
    s ∈ leaves source := by
  have hpack : ∀ nodes : List Node, s ∈ leaves (package nodes) → s ∈ leaves nodes := by
    intro nodes h
    unfold package at h
    split at h
    · exact h
    · obtain ⟨x, hx, hs⟩ := List.mem_flatMap.mp h
      obtain ⟨a, ha, b, hb, hsyms, -⟩ := mem_packagePairs hx
      rw [hsyms, List.mem_append] at hs
      rcases hs with hs | hs
      · exact List.mem_flatMap.mpr ⟨a, ha, hs⟩
      · exact List.mem_flatMap.mpr ⟨b, hb, hs⟩
  induction k with
  | zero => exact hpack source h
  | succ k ih =>
    have hmerge := hpack _ h
    rw [weightedNodes, (leaves_perm (mergeNodes_perm _ _)).mem_iff, leaves_append, List.mem_append] at hmerge
    rcases hmerge with hmerge | hmerge
    · exact ih hmerge
    · exact hmerge

/-- In the packages of the last list each symbol occurs, and at most once for each level, however many symbols there are. -/
theorem count_packages {source : List Node} {syms : List Nat} (hs : Leaves source syms) {m : Nat} (hm : 1 ≤ m)
    (hroom : syms.length ≤ 2 ^ m) (s : Nat) :
    (leaves (package (weightedNodes source (m - 1)))).count s ≤ m ∧
      (0 < (leaves (package (weightedNodes source (m - 1)))).count s ↔ s ∈ syms) := by
  by_cases h2 : 2 ≤ syms.length
  · obtain ⟨h3, h4, -⟩ := packages_spec hs h2 hm hroom
    exact ⟨h3 s, h4 s⟩
  · have hsyms : leaves source = syms := by
      have h := hs.leaves_take source.length
      rwa [List.take_length, hs.length_eq, List.take_length] at h
    by_cases hused : s ∈ syms
    · have hone : syms.length = 1 := by
        have := List.length_pos_of_mem hused
        omega
      obtain ⟨s', rfl⟩ := List.length_eq_one_iff.mp hone
      obtain rfl := List.mem_singleton.mp hused
      obtain ⟨x, rfl⟩ := List.length_eq_one_iff.mp (hs.length_eq.trans hone)
      obtain ⟨z, h3, h4⟩ := package_single (List.cons.inj hs.symbols_eq).1 (m - 1)
      have hcount : (leaves (package (weightedNodes [x] (m - 1)))).count s = m := by
        unfold leaves
        rw [h3, List.flatMap_singleton, h4, List.count_replicate_self]
        omega
      rw [hcount]
      exact ⟨le_rfl, iff_of_true hm hused⟩
    · have hzero : (leaves (package (weightedNodes source (m - 1)))).count s = 0 :=
        List.count_eq_zero.mpr fun hmem => hused (hsyms ▸ mem_leaves_package _ hmem)
      rw [hzero]
      exact ⟨Nat.zero_le m, iff_of_false (Nat.lt_irrefl 0) hused⟩

/-! ## The depth of the ordinary tree -/

/-- A merge makes the heap shorter. -/
theorem length_merged {fuel : Nat} {e1 e2 : Int × Nat} {heap : List (Int × Nat)} (e : Int × Nat)
    (h : (e1 :: e2 :: heap).length ≤ fuel + 1 + 1) : (List.orderedInsert heapBefore e heap).length ≤ fuel + 1 := by
  rw [List.orderedInsert_length]
  rw [List.length_cons, List.length_cons] at h
  exact Nat.le_of_succ_le_succ h

/-- The trees of the heap have room for as many leaves as their depths say, and so has the last tree. -/
theorem le_ordinaryLoop {fuel : Nat} {heap : List (Int × Nat)} (h : heap.length ≤ fuel + 1) :
    (heap.map (fun e => 2 ^ e.2)).sum ≤ 2 ^ ordinaryLoop fuel heap := by
  induction fuel generalizing heap with
  | zero =>
    match heap, h with
    | [], _ => exact Nat.zero_le _
    | [(weight, width)], _ =>
      rw [List.map_singleton, List.sum_singleton]
      exact Nat.pow_le_pow_right Nat.two_pos (le_max_right 1 width)
  | succ fuel ih =>
    match heap, h with
    | [], _ => exact Nat.zero_le _
    | [(weight, width)], _ =>
      rw [List.map_singleton, List.sum_singleton]
      exact Nat.pow_le_pow_right Nat.two_pos (le_max_right 1 width)
    | (weight1, width1) :: (weight2, width2) :: heap, h =>
      have hperm := List.perm_orderedInsert heapBefore (weight1 + weight2, 1 + max width1 width2) heap
      have hnext := ih (length_merged (weight1 + weight2, 1 + max width1 width2) h)
      rw [(hperm.map _).sum_eq, List.map_cons, List.sum_cons] at hnext
      rw [ordinaryLoop, List.map_cons, List.map_cons, List.sum_cons, List.sum_cons]
      have h1 : 2 ^ width1 ≤ 2 ^ max width1 width2 := Nat.pow_le_pow_right Nat.two_pos (le_max_left _ _)
      have h2 : 2 ^ width2 ≤ 2 ^ max width1 width2 := Nat.pow_le_pow_right Nat.two_pos (le_max_right _ _)
      have h3 : 2 ^ (1 + max width1 width2) = 2 * 2 ^ max width1 width2 := by rw [Nat.add_comm, Nat.pow_succ']
      simp only at hnext ⊢
      omega

theorem one_le_ordinaryLoop (fuel : Nat) (heap : List (Int × Nat)) : 1 ≤ ordinaryLoop fuel heap := by
  induction fuel generalizing heap with
  | zero =>
    match heap with
    | [] => exact le_rfl
    | (_, width) :: _ => exact le_max_left 1 width
  | succ fuel ih =>
    match heap with
    | [] => exact le_rfl
    | [(_, width)] => exact le_max_left 1 width
    | _ :: _ :: heap =>
      rw [ordinaryLoop]
      exact ih _

/-- How many symbols have a frequency that is not zero. -/
def usedCount (frequencies : List Nat) : Nat := (frequencies.filter (fun value => 0 < value)).length

/-- A code as deep as the ordinary tree has room for all symbols. -/
theorem usedCount_le (frequencies : List Nat) : usedCount frequencies ≤ 2 ^ ordinaryHuffmanOptimalMaxBitwidth frequencies := by
  unfold ordinaryHuffmanOptimalMaxBitwidth
  refine le_trans (le_of_eq ?_) (le_ordinaryLoop (Nat.le_succ _))
  rw [((List.perm_insertionSort _ _).map _).sum_eq, List.map_map]
  exact (Nat.mul_one _).symm.trans (sum_map_of_eq (fun _ _ => rfl)).symm

/-- A limit with room for all symbols has room for them when it is lowered to the depth of the ordinary tree. -/
theorem usedCount_le_lowered {frequencies : List Nat} {limit : Nat} (hroom : usedCount frequencies ≤ 2 ^ limit) :
    usedCount frequencies ≤ 2 ^ min limit (ordinaryHuffmanOptimalMaxBitwidth frequencies) := by
  rcases min_choice limit (ordinaryHuffmanOptimalMaxBitwidth frequencies) with h | h
  · rw [h]
    exact hroom
  · rw [h]
    exact usedCount_le frequencies

/-- With one symbol or none the tree has the least depth. -/
theorem ordinary_of_single {frequencies : List Nat} (h : usedCount frequencies ≤ 1) :
    ordinaryHuffmanOptimalMaxBitwidth frequencies = 1 := by
  unfold usedCount at h
  unfold ordinaryHuffmanOptimalMaxBitwidth
  generalize frequencies.filter (fun value => 0 < value) = used at h ⊢
  match used, h with
  | [], _ => rfl
  | [frequency], _ => rfl

/-! ## Counting -/

/-- Counting symbols: each width grows by the number of times its symbol occurs. -/
theorem countSymbols_ok (syms : List Nat) {widths : List Nat} (h : ∀ s ∈ syms, s < widths.length) :
    ∃ widths', syms.foldlM countSymbol widths = .ok widths' ∧ widths'.length = widths.length ∧
      ∀ i < widths.length, widths'.getD i 0 = widths.getD i 0 + syms.count i := by
  induction syms generalizing widths with
  | nil => exact ⟨widths, rfl, rfl, fun i _ => rfl⟩
  | cons s syms ih =>
    have hs := h s List.mem_cons_self
    have hbound : ∀ t ∈ syms, t < (widths.set s (widths[s] + 1)).length := by
      intro t ht
      rw [List.length_set]
      exact h t (List.mem_cons_of_mem _ ht)
    obtain ⟨widths', h1, h2, h3⟩ := ih hbound
    rw [List.length_set] at h2 h3
    refine ⟨widths', ?_, h2, ?_⟩
    · rw [List.foldlM_cons, countSymbol, Exec.index_of_lt hs, Exec.ok_bind, Exec.assign_of_lt _ hs, Exec.ok_bind, h1]
    · intro i hi
      rw [h3 i hi, List.count_cons, List.getD_eq_getElem?_getD, List.getD_eq_getElem?_getD, List.getElem?_set]
      by_cases his : s = i
      · subst his
        rw [if_pos rfl, if_pos hs, List.getElem?_eq_getElem hs]
        simp only [Option.getD_some, beq_self_eq_true, if_true]
        omega
      · rw [if_neg his]
        simp [his]

/-! ## The leaves of a family of frequencies -/

/-- The symbols with a frequency, in the order of the leaves. -/
def usedSymbols (frequencies : List Nat) : List Nat := leaves (sourceNodes frequencies)

theorem mem_sourceNodes {frequencies : List Nat} {x : Node} (hx : x ∈ sourceNodes frequencies) :
    ∃ s, x.symbols = [s] ∧ frequencies[s]? = some x.weight ∧ 0 < x.weight := by
  rw [sourceNodes, List.mem_insertionSort, List.mem_map] at hx
  obtain ⟨⟨value, s⟩, he, rfl⟩ := hx
  obtain ⟨hmem, hpos⟩ := List.mem_filter.mp he
  rw [List.mk_mem_zipIdx_iff_getElem?] at hmem
  exact ⟨s, rfl, hmem, by simpa using hpos⟩

theorem perm_usedSymbols (frequencies : List Nat) :
    (usedSymbols frequencies).Perm ((frequencies.zipIdx.filter (fun e => 0 < e.1)).map (·.2)) := by
  unfold usedSymbols sourceNodes
  refine (leaves_perm (List.perm_insertionSort _ _)).trans (.of_eq ?_)
  unfold leaves
  rw [List.flatMap_map]
  exact List.map_eq_flatMap.symm

/-- The frequencies of the symbols that have one. -/
theorem map_usedSymbols (frequencies : List Nat) :
    ((usedSymbols frequencies).map (fun s => frequencies.getD s 0)).Perm (frequencies.filter (fun value => 0 < value)) := by
  refine ((perm_usedSymbols frequencies).map _).trans (.of_eq ?_)
  conv_rhs => rw [← List.zipIdx_map_fst 0 frequencies]
  rw [List.filter_map, List.map_map]
  refine List.map_congr_left ?_
  rintro ⟨value, s⟩ he
  have hs := List.mk_mem_zipIdx_iff_getElem?.mp (List.mem_filter.mp he).1
  rw [Function.comp_apply, List.getD_eq_getElem?_getD, hs, Option.getD_some]

theorem length_usedSymbols (frequencies : List Nat) : (usedSymbols frequencies).length = usedCount frequencies := by
  rw [← List.length_map, (map_usedSymbols frequencies).length_eq]
  rfl

theorem mem_usedSymbols {frequencies : List Nat} {s : Nat} : s ∈ usedSymbols frequencies ↔ 0 < frequencies.getD s 0 := by
  rw [(perm_usedSymbols frequencies).mem_iff, List.mem_map, List.getD_eq_getElem?_getD]
  constructor
  · rintro ⟨⟨value, s'⟩, he, rfl⟩
    obtain ⟨hmem, hpos⟩ := List.mem_filter.mp he
    rw [List.mk_mem_zipIdx_iff_getElem?] at hmem
    rw [hmem]
    simpa using hpos
  · intro h
    cases hs : frequencies[s]? with
    | none =>
      rw [hs] at h
      exact absurd h (Nat.lt_irrefl 0)
    | some value =>
      rw [hs] at h
      exact ⟨(value, s), List.mem_filter.mpr ⟨List.mk_mem_zipIdx_iff_getElem?.mpr hs, by simpa using h⟩, rfl⟩

/-- The leaf of a symbol. -/
def leafNode (frequencies : List Nat) (s : Nat) : Node := { symbols := [s], weight := frequencies.getD s 0 }

/-- The leaves of package-merge, in their order, are those of the symbols with a frequency. -/
theorem sourceNodes_eq (frequencies : List Nat) : sourceNodes frequencies = (usedSymbols frequencies).map (leafNode frequencies) := by
  have hgen : ∀ l : List Node, (∀ x ∈ l, ∃ s, x = leafNode frequencies s) → l = (leaves l).map (leafNode frequencies) := by
    intro l
    induction l with
    | nil => exact fun _ => rfl
    | cons x l ih =>
      intro h
      obtain ⟨s, rfl⟩ := h x List.mem_cons_self
      have hl := ih fun y hy => h y (List.mem_cons_of_mem _ hy)
      conv_lhs => rw [hl]
      rfl
  refine hgen _ ?_
  rintro ⟨symbols, weight⟩ hx
  obtain ⟨s, rfl, hs, -⟩ := mem_sourceNodes hx
  refine ⟨s, ?_⟩
  rw [leafNode, List.getD_eq_getElem?_getD, hs, Option.getD_some]

theorem leaves_sourceNodes (frequencies : List Nat) : Leaves (sourceNodes frequencies) (usedSymbols frequencies) := by
  refine ⟨?_, ?_, ?_⟩
  · rw [sourceNodes_eq, List.map_map]
    rfl
  · rw [(perm_usedSymbols frequencies).nodup_iff]
    have hsub : ((frequencies.zipIdx.filter (fun e => 0 < e.1)).map (·.2)).Sublist (frequencies.zipIdx.map (·.2)) :=
      (List.filter_sublist).map _
    refine hsub.nodup ?_
    rw [List.zipIdx_map_snd]
    exact List.nodup_range'
  · have : Std.Total (fun a b : Node => a.weight ≤ b.weight) := ⟨fun a b => le_total a.weight b.weight⟩
    have : IsTrans Node (fun a b : Node => a.weight ≤ b.weight) := ⟨fun _ _ _ => le_trans⟩
    exact List.pairwise_insertionSort _ _

/-! ## The code lengths -/

/-- The Kraft sum, symbol by symbol. -/
theorem kraftSum_eq (M : Nat) {lengths syms : List Nat} (hnodup : syms.Nodup) (hmem : ∀ s, s ∈ syms ↔ 0 < lengths.getD s 0) :
    kraftSum M lengths = (syms.map (fun s => 2 ^ (M - lengths.getD s 0))).sum := by
  have hperm : ((Canonical.sorted lengths).map Prod.fst).Perm syms := by
    refine (List.perm_ext_iff_of_nodup (Canonical.sorted_fst_nodup lengths) hnodup).mpr ?_
    intro s
    rw [hmem, List.mem_map, List.getD_eq_getElem?_getD]
    constructor
    · rintro ⟨⟨s', w⟩, he, rfl⟩
      obtain ⟨hs, hw⟩ := Canonical.mem_sorted.mp he
      rw [hs]
      exact hw
    · intro h
      cases hs : lengths[s]? with
      | none =>
        rw [hs] at h
        exact absurd h (Nat.lt_irrefl 0)
      | some w =>
        rw [hs] at h
        exact ⟨(s, w), Canonical.mem_sorted.mpr ⟨hs, h⟩, rfl⟩
  rw [kraftSum, ← Canonical.weight_sorted, Canonical.weight, ← (hperm.map _).sum_eq, List.map_map]
  congr 1
  refine List.map_congr_left ?_
  rintro ⟨s, w⟩ he
  have hs := (Canonical.mem_sorted.mp he).1
  rw [Function.comp_apply, List.getD_eq_getElem?_getD, hs, Option.getD_some]

/-- Code lengths of a complete code for the symbols with a frequency, of at most `limit` bits; with one symbol, its code is one bit
long. -/
structure CompleteLengths (frequencies : List Nat) (limit : Nat) (lengths : List Nat) : Prop where
  length_eq : lengths.length = frequencies.length
  used_iff : ∀ s, 0 < lengths.getD s 0 ↔ 0 < frequencies.getD s 0
  le_limit : ∀ w ∈ lengths, w ≤ limit
  single : usedCount frequencies = 1 → ∀ w ∈ lengths, 0 < w → w = 1
  kraft : 2 ≤ usedCount frequencies → ∀ K, limit ≤ K → kraftSum K lengths = 2 ^ K

/-- The code lengths of package-merge with room for all symbols: the occurrences of the symbols in the packages of the last list. Each
symbol with a frequency has one, and with two or more the code is complete. -/
theorem packageMerge_spec {frequencies : List Nat} {m : Nat} (hm : 1 ≤ m) (hroom : usedCount frequencies ≤ 2 ^ m) :
    ∃ lengths, packageMergeCodeLengths frequencies m = .ok lengths ∧ lengths.length = frequencies.length ∧
      (∀ s, lengths.getD s 0 = (leaves (package (weightedNodes (sourceNodes frequencies) (m - 1)))).count s) ∧
      (∀ s, 0 < lengths.getD s 0 ↔ 0 < frequencies.getD s 0) ∧ (∀ w ∈ lengths, w ≤ m) ∧
      (2 ≤ usedCount frequencies → ∀ K, m ≤ K → kraftSum K lengths = 2 ^ K) := by
  have hs := leaves_sourceNodes frequencies
  have hlen := length_usedSymbols frequencies
  have hcount := count_packages hs hm (by rwa [hlen])
  have hkraft : 2 ≤ usedCount frequencies → ∀ K, m ≤ K → ((usedSymbols frequencies).map
      (fun s => 2 ^ (K - (leaves (package (weightedNodes (sourceNodes frequencies) (m - 1)))).count s))).sum = 2 ^ K :=
    fun h2 => (packages_spec hs (by rwa [hlen]) hm (by rwa [hlen])).2.2
  generalize hpacked : leaves (package (weightedNodes (sourceNodes frequencies) (m - 1))) = packed at hcount hkraft ⊢
  have hbound : ∀ s ∈ packed, s < (List.replicate frequencies.length 0).length := by
    intro s hmem
    have hused := mem_usedSymbols.mp ((hcount s).2.mp (List.count_pos_iff.mpr hmem))
    rw [List.length_replicate]
    by_contra hge
    rw [List.getD_eq_getElem?_getD, List.getElem?_eq_none (Nat.le_of_not_lt hge)] at hused
    exact Nat.lt_irrefl 0 hused
  obtain ⟨lengths, h1, h2, h3⟩ := countSymbols_ok packed hbound
  rw [List.length_replicate] at h2 h3
  have hgetD : ∀ s, lengths.getD s 0 = packed.count s := by
    intro s
    rcases Nat.lt_or_ge s frequencies.length with hlt | hge
    · rw [h3 s hlt, List.getD_eq_getElem?_getD, List.getElem?_replicate, if_pos hlt, Option.getD_some, Nat.zero_add]
    · rw [List.getD_eq_getElem?_getD, List.getElem?_eq_none (by omega), Option.getD_none]
      refine (List.count_eq_zero.mpr ?_).symm
      intro hmem
      have := hbound s hmem
      rw [List.length_replicate] at this
      omega
  have hused : ∀ s, 0 < lengths.getD s 0 ↔ s ∈ usedSymbols frequencies := by
    intro s
    rw [hgetD s, (hcount s).2]
  refine ⟨lengths, ?_, h2, hgetD, fun s => (hused s).trans mem_usedSymbols, ?_, ?_⟩
  · unfold leaves at hpacked
    rw [packageMergeCodeLengths, hpacked]
    exact h1
  · intro w hw
    obtain ⟨s, hs', rfl⟩ := List.mem_iff_getElem.mp hw
    refine le_trans (le_of_eq ?_) (hcount s).1
    rw [← hgetD s, List.getD_eq_getElem?_getD, List.getElem?_eq_getElem hs', Option.getD_some]
  · intro htwo K hK
    rw [kraftSum_eq K hs.nodup (fun s => (hused s).symm)]
    refine Eq.trans ?_ (hkraft htwo K hK)
    congr 1
    refine List.map_congr_left ?_
    intro s _
    rw [hgetD s]

/-- The code lengths are those of a complete code. -/
theorem lengthLimited_spec {frequencies : List Nat} {limit : Nat} (hlimit : 1 ≤ limit)
    (hroom : usedCount frequencies ≤ 2 ^ limit) :
    ∃ lengths, lengthLimitedCodeLengths frequencies limit = .ok lengths ∧ CompleteLengths frequencies limit lengths := by
  have hm1 : 1 ≤ min limit (ordinaryHuffmanOptimalMaxBitwidth frequencies) := le_min hlimit (one_le_ordinaryLoop _ _)
  obtain ⟨lengths, h1, h2, -, h3, h4, h5⟩ := packageMerge_spec hm1 (usedCount_le_lowered hroom)
  have hml := min_le_left limit (ordinaryHuffmanOptimalMaxBitwidth frequencies)
  refine ⟨lengths, h1, h2, h3, fun w hw => (h4 w hw).trans hml, ?_, fun htwo K hK => h5 htwo K (hml.trans hK)⟩
  intro hone w hw hpos
  have hdepth := (h4 w hw).trans (min_le_right _ _)
  rw [ordinary_of_single hone.le] at hdepth
  exact Nat.le_antisymm hdepth hpos

end Noflate
