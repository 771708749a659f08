import Mathlib.Data.List.Perm.Basic
import Noflate.General.Canonical

/-!
# Depths of least cost

Weighted entries with their depths, as the leaves of a binary tree have them. The depths fit if their Kraft sum is at most one (`Fits`),
cost the sum of weight times depth (`cost`), and are optimal if no depths that fit cost less (`Optimal`).

Two of the lightest entries can be brought to the greatest depth, side by side, at no cost (`exists_deepest_first`, `Fits.join`). So
optimal depths of the entries with those two replaced by one of their joint weight are optimal for the entries once that one is split
(`Optimal.split`). For depths that are limited, all entries that have a depth are taken one step up (`shorten`).
-/

namespace Depths

variable {α β : Type} {w : α → ℕ}

/-! ## Cost and Kraft sum -/

/-- The cost of entries with their depths: the sum of weight times depth. -/
def cost (w : α → ℕ) (xs : List (α × ℕ)) : ℕ := (xs.map (fun e => w e.1 * e.2)).sum

@[simp] theorem cost_nil : cost w [] = 0 := rfl

@[simp] theorem cost_cons (e : α × ℕ) (xs : List (α × ℕ)) : cost w (e :: xs) = w e.1 * e.2 + cost w xs := List.sum_cons

theorem cost_perm {xs ys : List (α × ℕ)} (h : xs.Perm ys) : cost w xs = cost w ys := (h.map _).sum_eq

/-- The depths fit into one binary tree: in units of some depth, their Kraft sum is at most one. -/
def Fits (xs : List (α × ℕ)) : Prop := ∃ K, (∀ e ∈ xs, e.2 ≤ K) ∧ Canonical.weight K xs ≤ 2 ^ K

/-- An entry takes the whole at most. -/
theorem weight_le (K : ℕ) (xs : List (α × ℕ)) : Canonical.weight K xs ≤ xs.length * 2 ^ K := by
  induction xs with
  | nil => exact Nat.zero_le _
  | cons e xs ih =>
    rw [Canonical.weight_cons, List.length_cons, Nat.succ_mul, Nat.add_comm]
    exact Nat.add_le_add ih (Nat.pow_le_pow_right Nat.two_pos (Nat.sub_le K e.2))

/-- The Kraft sum in finer units. -/
theorem weight_add {K : ℕ} {xs : List (α × ℕ)} (h : ∀ e ∈ xs, e.2 ≤ K) (j : ℕ) :
    Canonical.weight (K + j) xs = Canonical.weight K xs * 2 ^ j := by
  induction xs with
  | nil => exact (Nat.zero_mul _).symm
  | cons e xs ih =>
    have he : K + j - e.2 = K - e.2 + j := by
      have := h e List.mem_cons_self
      omega
    rw [Canonical.weight_cons, Canonical.weight_cons, ih (fun x hx => h x (List.mem_cons_of_mem _ hx)), he, Nat.pow_add, Nat.add_mul]

/-- Whether depths fit can be told in any unit no coarser than they are. -/
theorem fits_iff {K : ℕ} {xs : List (α × ℕ)} (h : ∀ e ∈ xs, e.2 ≤ K) : Fits xs ↔ Canonical.weight K xs ≤ 2 ^ K := by
  constructor
  · rintro ⟨K', h', hle⟩
    refine Nat.le_of_mul_le_mul_right ?_ (Nat.two_pow_pos K')
    calc Canonical.weight K xs * 2 ^ K' = Canonical.weight (K' + K) xs := by rw [← weight_add h, Nat.add_comm]
      _ = Canonical.weight K' xs * 2 ^ K := weight_add h' K
      _ ≤ 2 ^ K' * 2 ^ K := Nat.mul_le_mul_right _ hle
      _ = 2 ^ K * 2 ^ K' := Nat.mul_comm _ _
  · exact fun hle => ⟨K, h, hle⟩

/-- Whether depths fit does not depend on the entries that have them, nor on their order. -/
theorem Fits.of_depths {xs : List (α × ℕ)} {ys : List (β × ℕ)} (hperm : (xs.map Prod.snd).Perm (ys.map Prod.snd)) (h : Fits xs) :
    Fits ys := by
  obtain ⟨K, h1, h2⟩ := h
  refine ⟨K, ?_, ?_⟩
  · intro y hy
    obtain ⟨x, hx, hxy⟩ := List.mem_map.mp (hperm.mem_iff.mpr (List.mem_map_of_mem hy))
    rw [← hxy]
    exact h1 x hx
  · have hsum := (hperm.map (fun d => 2 ^ (K - d))).sum_eq
    rw [List.map_map, List.map_map] at hsum
    exact hsum.symm.trans_le h2

theorem Fits.perm {xs ys : List (α × ℕ)} (h : Fits xs) (hperm : xs.Perm ys) : Fits ys := h.of_depths (hperm.map _)

/-- Entries with their depths can be put into any order of the entries. -/
theorem exists_aligned {xs : List (α × ℕ)} {entries : List α} (h : (xs.map Prod.fst).Perm entries) :
    ∃ ys : List (α × ℕ), ys.map Prod.fst = entries ∧ ys.Perm xs := by
  obtain ⟨ys, h1, h2⟩ := (congrFun (congrFun (List.eq_map_comp_perm (Prod.fst (α := α) (β := ℕ))) entries) xs).mpr h.symm
  exact ⟨ys, h1.symm, h2⟩

/-! ## Two of the lightest entries -/

/-- An exchange brings the greatest depth to an entry that is as light as any other, at no cost. -/
theorem exists_deepest_first {a : α} (d : ℕ) {xs : List (α × ℕ)} (ha : ∀ x ∈ xs, w a ≤ w x.1) :
    ∃ (m : ℕ) (ys : List (α × ℕ)), ys.map Prod.fst = xs.map Prod.fst ∧ (m :: ys.map Prod.snd).Perm (d :: xs.map Prod.snd) ∧
      (∀ y ∈ ys, y.2 ≤ m) ∧ cost w ((a, m) :: ys) ≤ cost w ((a, d) :: xs) := by
  induction xs with
  | nil => exact ⟨d, [], rfl, .refl _, fun y hy => absurd hy List.not_mem_nil, le_rfl⟩
  | cons x xs ih =>
    obtain ⟨m, ys, h1, h2, h3, h4⟩ := ih fun y hy => ha y (List.mem_cons_of_mem _ hy)
    have hax := ha x List.mem_cons_self
    simp only [cost_cons] at h4
    rcases Nat.le_total x.2 m with hx | hx
    · refine ⟨m, x :: ys, by rw [List.map_cons, List.map_cons, h1], ?_, ?_, ?_⟩
      · rw [List.map_cons, List.map_cons]
        exact (List.Perm.swap _ _ _).trans ((h2.cons x.2).trans (List.Perm.swap _ _ _))
      · intro y hy
        rcases List.mem_cons.mp hy with rfl | hy
        · exact hx
        · exact h3 y hy
      · simp only [cost_cons]
        omega
    · -- `x` is deeper than all that came before: it gives its depth away
      refine ⟨x.2, (x.1, m) :: ys, by rw [List.map_cons, List.map_cons, h1], ?_, ?_, ?_⟩
      · rw [List.map_cons, List.map_cons]
        exact (h2.cons x.2).trans (List.Perm.swap _ _ _)
      · intro y hy
        rcases List.mem_cons.mp hy with rfl | hy
        · exact hx
        · exact (h3 y hy).trans hx
      · have hexchange : w a * x.2 + w x.1 * m ≤ w a * m + w x.1 * x.2 := by nlinarith
        simp only [cost_cons]
        omega

/-- Exchanges bring the two greatest depths to the two lightest entries. -/
theorem exists_pair_first {a b : α} {rest : List α} (hab : w a ≤ w b) (hrest : ∀ e ∈ rest, w b ≤ w e) {ys : List (α × ℕ)}
    (hperm : (ys.map Prod.fst).Perm (a :: b :: rest)) (hfits : Fits ys) :
    ∃ (d1 d2 : ℕ) (zs : List (α × ℕ)), zs.map Prod.fst = rest ∧ d2 ≤ d1 ∧ (∀ z ∈ zs, z.2 ≤ d2) ∧
      Fits ((a, d1) :: (b, d2) :: zs) ∧ cost w ((a, d1) :: (b, d2) :: zs) ≤ cost w ys := by
  obtain ⟨_, haligned, hys⟩ := exists_aligned hperm
  obtain ⟨⟨a, d⟩, ys', rfl, rfl, hys'⟩ := List.map_eq_cons_iff.mp haligned
  have ha : ∀ y ∈ ys', w a ≤ w y.1 := by
    intro y hy
    have hmem := List.mem_map_of_mem (f := Prod.fst) hy
    rw [hys'] at hmem
    rcases List.mem_cons.mp hmem with hyb | hmem
    · rw [hyb]
      exact hab
    · exact hab.trans (hrest _ hmem)
  obtain ⟨d1, ts, hts, hdepths, hmax, hcost⟩ := exists_deepest_first d ha
  obtain ⟨⟨b, d'⟩, ts, rfl, rfl, hts⟩ := List.map_eq_cons_iff.mp (hts.trans hys')
  have hb : ∀ t ∈ ts, w b ≤ w t.1 := by
    intro t ht
    refine hrest _ ?_
    rw [← hts]
    exact List.mem_map_of_mem ht
  obtain ⟨d2, zs, hzs, hdepths', hmax', hcost'⟩ := exists_deepest_first d' hb
  refine ⟨d1, d2, zs, hzs.trans hts, ?_, hmax', ?_, ?_⟩
  · have hmem : d2 ∈ d' :: ts.map Prod.snd := hdepths'.mem_iff.mp List.mem_cons_self
    obtain ⟨t, ht, rfl⟩ := List.mem_map.mp (show d2 ∈ ((b, d') :: ts).map Prod.snd from hmem)
    exact hmax t ht
  · exact hfits.of_depths ((hys.map Prod.snd).symm.trans (hdepths.symm.trans (hdepths'.symm.cons d1)))
  · rw [← cost_perm hys]
    refine le_trans ?_ hcost
    rw [cost_cons, cost_cons (a, d1)]
    exact Nat.add_le_add_left hcost' _

/-- The two deepest entries: there is a depth above them, and one entry there is room for in place of the two. -/
theorem Fits.join {a b : α} (c : α) {d1 d2 : ℕ} {xs : List (α × ℕ)} (h : Fits ((a, d1) :: (b, d2) :: xs)) (h12 : d2 ≤ d1)
    (hxs : ∀ x ∈ xs, x.2 ≤ d2) : 1 ≤ d2 ∧ Fits ((c, d2 - 1) :: xs) := by
  obtain ⟨j, rfl⟩ := Nat.exists_eq_add_of_le h12
  have hrest : ∀ x ∈ (b, d2) :: xs, x.2 ≤ d2 := by
    intro x hx
    rcases List.mem_cons.mp hx with rfl | hx
    · exact le_rfl
    · exact hxs x hx
  have hall : ∀ x ∈ (a, d2 + j) :: (b, d2) :: xs, x.2 ≤ d2 + j := by
    intro x hx
    rcases List.mem_cons.mp hx with rfl | hx
    · exact le_rfl
    · exact (hrest x hx).trans (Nat.le_add_right _ _)
  -- all depths but the first are whole units of `d2`, so the first one takes a unit of them too
  have hroom := (fits_iff hall).mp h
  rw [Canonical.weight_cons, weight_add hrest, Nat.pow_add] at hroom
  have hlt : Canonical.weight d2 ((b, d2) :: xs) < 2 ^ d2 := by
    refine Nat.lt_of_mul_lt_mul_right (a := 2 ^ j) ?_
    have := Nat.two_pow_pos (d2 + j - (d2 + j))
    simp only at hroom
    omega
  rw [Canonical.weight_cons] at hlt
  simp only [Nat.sub_self, Nat.pow_zero] at hlt
  have hone : 1 ≤ d2 := by
    by_contra hzero
    obtain rfl : d2 = 0 := by omega
    rw [Nat.pow_zero] at hlt
    omega
  refine ⟨hone, d2, ?_, ?_⟩
  · intro x hx
    rcases List.mem_cons.mp hx with rfl | hx
    · exact Nat.sub_le _ _
    · exact hxs x hx
  · rw [Canonical.weight_cons]
    simp only [show d2 - (d2 - 1) = 1 by omega]
    omega

/-- An entry makes room for two, one step further down. -/
theorem Fits.split {a b c : α} {k : ℕ} {xs : List (α × ℕ)} (h : Fits ((c, k) :: xs)) : Fits ((a, k + 1) :: (b, k + 1) :: xs) := by
  obtain ⟨K, h1, h2⟩ := h
  have hk : k ≤ K := h1 _ List.mem_cons_self
  have hxs : ∀ x ∈ xs, x.2 ≤ K := fun x hx => h1 x (List.mem_cons_of_mem _ hx)
  refine ⟨K + 1, ?_, ?_⟩
  · intro x hx
    rcases List.mem_cons.mp hx with rfl | hx
    · exact Nat.succ_le_succ hk
    · rcases List.mem_cons.mp hx with rfl | hx
      · exact Nat.succ_le_succ hk
      · exact (hxs x hx).trans (Nat.le_succ K)
  · rw [Canonical.weight_cons] at h2
    rw [Canonical.weight_cons, Canonical.weight_cons, weight_add hxs 1]
    simp only [Nat.add_sub_add_right] at h2 ⊢
    omega

/-! ## Optimal depths -/

/-- Depths of least cost for the entries. -/
structure Optimal (w : α → ℕ) (entries : List α) (xs : List (α × ℕ)) : Prop where
  perm : (xs.map Prod.fst).Perm entries
  fits : Fits xs
  cost_le : ∀ ys, (ys.map Prod.fst).Perm entries → Fits ys → cost w xs ≤ cost w ys

theorem Optimal.of_perm {entries entries' : List α} {xs xs' : List (α × ℕ)} (h : Optimal w entries xs) (he : entries.Perm entries')
    (hx : xs.Perm xs') : Optimal w entries' xs' := by
  refine ⟨((hx.map _).symm.trans h.perm).trans he, h.fits.perm hx, ?_⟩
  intro ys hys hfits
  rw [← cost_perm hx]
  exact h.cost_le ys (hys.trans he.symm) hfits

theorem optimal_nil : Optimal w [] [] :=
  ⟨.refl _, ⟨0, fun _ he => absurd he List.not_mem_nil, Nat.zero_le _⟩, fun _ _ _ => Nat.zero_le _⟩

/-- A single entry has depth zero. -/
theorem optimal_single (a : α) : Optimal w [a] [(a, 0)] := by
  refine ⟨.refl _, ⟨0, ?_, le_rfl⟩, fun _ _ _ => Nat.zero_le _⟩
  intro e he
  rw [List.mem_singleton.mp he]

/-- The two lightest entries in place of one of their joint weight: both one step further down than it. -/
theorem Optimal.split {a b c : α} {rest : List α} {k : ℕ} {xs : List (α × ℕ)} (hc : w c = w a + w b) (hab : w a ≤ w b)
    (hrest : ∀ e ∈ rest, w b ≤ w e) (h : Optimal w (c :: rest) ((c, k) :: xs)) :
    Optimal w (a :: b :: rest) ((a, k + 1) :: (b, k + 1) :: xs) := by
  have hxs : (xs.map Prod.fst).Perm rest := (List.perm_cons c).mp h.perm
  refine ⟨(hxs.cons b).cons a, h.fits.split, ?_⟩
  intro ys hperm hfits
  obtain ⟨d1, d2, zs, hzs, h12, hmax, hfits, hcost⟩ := exists_pair_first hab hrest hperm hfits
  obtain ⟨hpos, hjoin⟩ := hfits.join c h12 hmax
  have hle := h.cost_le ((c, d2 - 1) :: zs) (by rw [List.map_cons, hzs]) hjoin
  refine le_trans ?_ hcost
  obtain ⟨d, rfl⟩ : ∃ d, d2 = d + 1 := ⟨d2 - 1, by omega⟩
  have hdeep : w a * (d + 1) ≤ w a * d1 := Nat.mul_le_mul_left _ h12
  simp only [cost_cons, hc, Nat.add_sub_cancel, Nat.add_mul] at hle ⊢
  rw [Nat.mul_succ] at hdeep
  simp only [Nat.mul_succ]
  omega

/-- Optimal depths of images under a map that keeps the weights are optimal for what they are images of. -/
theorem Optimal.of_map {v : β → ℕ} {g : α → β} (hg : ∀ a, v (g a) = w a) {entries : List α} {xs : List (β × ℕ)}
    (h : Optimal v (entries.map g) xs) :
    ∃ ys, Optimal w entries ys ∧ (ys.map (fun e => (g e.1, e.2))).Perm xs := by
  have hcost : ∀ ys : List (α × ℕ), cost v (ys.map (fun e => (g e.1, e.2))) = cost w ys := by
    intro ys
    unfold cost
    simp only [List.map_map, Function.comp_def, hg]
  have hdepths : ∀ ys : List (α × ℕ), (ys.map (fun e => (g e.1, e.2))).map Prod.snd = ys.map Prod.snd := by
    intro ys
    rw [List.map_map]
    rfl
  have hentries : ∀ ys : List (α × ℕ), (ys.map (fun e => (g e.1, e.2))).map Prod.fst = (ys.map Prod.fst).map g := by
    intro ys
    rw [List.map_map, List.map_map]
    rfl
  have hlift : ∀ (entries : List α) (zs : List (β × ℕ)), zs.map Prod.fst = entries.map g →
      ∃ ys : List (α × ℕ), ys.map Prod.fst = entries ∧ ys.map (fun e => (g e.1, e.2)) = zs := by
    intro entries
    induction entries with
    | nil =>
      intro zs hzs
      exact ⟨[], rfl, (List.map_eq_nil_iff.mp hzs).symm⟩
    | cons a entries ih =>
      intro zs hzs
      obtain ⟨⟨b, d⟩, zs, rfl, hb, hzs⟩ := List.map_eq_cons_iff.mp hzs
      obtain ⟨ys, h1, h2⟩ := ih zs hzs
      refine ⟨(a, d) :: ys, by rw [List.map_cons, h1], ?_⟩
      rw [List.map_cons, h2, ← hb]
  obtain ⟨zs, hzs, hperm⟩ := exists_aligned h.perm
  obtain ⟨ys, hys, rfl⟩ := hlift entries zs hzs
  refine ⟨ys, ⟨.of_eq hys, ?_, ?_⟩, hperm⟩
  · exact h.fits.of_depths ((hperm.map _).symm.trans (.of_eq (hdepths ys)))
  · intro ys' hys' hfits
    rw [← hcost ys, ← hcost ys', cost_perm hperm]
    refine h.cost_le _ ?_ (hfits.of_depths (.of_eq (hdepths ys').symm))
    rw [hentries]
    exact hys'.map g

/-! ## Limited depths -/

/-- All entries one step further up; at depth zero they stay. -/
def shorten (xs : List (α × ℕ)) : List (α × ℕ) := xs.map (fun e => (e.1, e.2 - 1))

/-- The entries that are not at depth zero. -/
def below (xs : List (α × ℕ)) : List (α × ℕ) := xs.filter (fun e => 0 < e.2)

theorem map_fst_shorten (xs : List (α × ℕ)) : (shorten xs).map Prod.fst = xs.map Prod.fst := by
  unfold shorten
  rw [List.map_map]
  rfl

theorem shorten_le {xs : List (α × ℕ)} {k : ℕ} (h : ∀ e ∈ xs, e.2 ≤ k + 1) : ∀ e ∈ shorten xs, e.2 ≤ k := by
  intro e he
  obtain ⟨x, hx, rfl⟩ := List.mem_map.mp he
  exact Nat.sub_le_of_le_add (h x hx)

/-- The Kraft sum with all entries one step further up: in units twice as coarse it is the same but for the entries at depth zero. -/
theorem weight_shorten (K : ℕ) (xs : List (α × ℕ)) :
    Canonical.weight (K + 1) xs + (below xs).length * 2 ^ K = Canonical.weight K (shorten xs) + xs.length * 2 ^ K := by
  unfold below shorten
  induction xs with
  | nil => rfl
  | cons e xs ih =>
    simp only [List.map_cons, Canonical.weight_cons, List.length_cons, Nat.succ_mul]
    rcases Nat.eq_zero_or_pos e.2 with he | he
    · rw [List.filter_cons_of_neg (by simp [he]), he]
      simp only [Nat.sub_zero, Nat.zero_sub, Nat.pow_succ]
      omega
    · rw [List.filter_cons_of_pos (by simpa using he), List.length_cons, Nat.succ_mul,
        show K + 1 - e.2 = K - (e.2 - 1) by omega]
      omega

/-- A step up saves the weight of the entries it is taken by. -/
theorem cost_shorten (xs : List (α × ℕ)) : cost w xs = cost w (shorten xs) + ((below xs).map (fun e => w e.1)).sum := by
  unfold below shorten
  induction xs with
  | nil => rfl
  | cons e xs ih =>
    simp only [List.map_cons, cost_cons]
    rw [ih]
    rcases Nat.eq_zero_or_pos e.2 with he | he
    · rw [List.filter_cons_of_neg (by simp [he]), he]
      omega
    · obtain ⟨d, hd⟩ : ∃ d, e.2 = d + 1 := ⟨e.2 - 1, by omega⟩
      rw [List.filter_cons_of_pos (by simpa using he), List.map_cons, List.sum_cons, hd, Nat.add_sub_cancel, Nat.mul_succ]
      omega

/-- The first members of a sorted list are the lightest ones. -/
theorem sum_take_le {l q : List ℕ} (hl : l.Pairwise (· ≤ ·)) (hq : q.Sublist l) {t : ℕ} (ht : t ≤ q.length) :
    (l.take t).sum ≤ q.sum := by
  induction l generalizing q t with
  | nil =>
    rw [List.take_nil]
    exact Nat.zero_le _
  | cons x l ih =>
    obtain ⟨hx, hl⟩ := List.pairwise_cons.mp hl
    cases t with
    | zero => exact Nat.zero_le _
    | succ t =>
      cases q with
      | nil => exact absurd ht (Nat.not_succ_le_zero t)
      | cons y q =>
        have hxy : x ≤ y := by
          rcases List.mem_cons.mp (hq.subset List.mem_cons_self) with rfl | hy
          · exact le_rfl
          · exact hx y hy
        rw [List.take_succ_cons, List.sum_cons, List.sum_cons]
        exact Nat.add_le_add hxy (ih hl (hq.tail) (Nat.le_of_succ_le_succ ht))

end Depths
