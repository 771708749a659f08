import Mathlib.Data.List.Sort
import Mathlib.Data.List.Basic
import Mathlib.Data.List.Flatten
import Mathlib.Algebra.Order.BigOperators.Group.List
import Mathlib.Tactic.Ring
import Mathlib.Tactic.Linarith

/-!
# Canonical prefix codes

A list of entries, each a symbol and the width of its code, in an order where the widths do not decrease. In units of
`2 ^ -M`, an entry of width `w` takes an interval of `2 ^ (M - w)` numbers, and the intervals of the entries are laid end to
end from zero. A number below `2 ^ M` is a stream of `M` bits, the first bit the most significant: the entry whose code is a
prefix of the stream is the one whose interval the number is in (`locate`), and the codes are a prefix code exactly when the
intervals fit (`weight`, the Kraft sum).

The canonical code of a family of widths, by counting (`nextCode`, `code`), is the start of the interval (`locate_iff_code`).
-/

namespace Canonical

variable {α : Type}

/-! ## Intervals -/

/-- The Kraft sum of the entries in units of `2 ^ -M`. -/
def weight (M : ℕ) (es : List (α × ℕ)) : ℕ := (es.map (fun e => 2 ^ (M - e.2))).sum

/-- The entry whose interval a number is in. -/
def locate (M : ℕ) : List (α × ℕ) → ℕ → Option (α × ℕ)
  | [], _ => none
  | e :: es, x => if x < 2 ^ (M - e.2) then some e else locate M es (x - 2 ^ (M - e.2))

/-- The entries are in the order of their widths. -/
def Ordered (es : List (α × ℕ)) : Prop := es.Pairwise (fun a b => a.2 ≤ b.2)

@[simp] theorem weight_nil (M : ℕ) : weight M ([] : List (α × ℕ)) = 0 := rfl

@[simp] theorem weight_cons (M : ℕ) (e : α × ℕ) (es : List (α × ℕ)) :
    weight M (e :: es) = 2 ^ (M - e.2) + weight M es := by
  simp [weight]

@[simp] theorem weight_append (M : ℕ) (as bs : List (α × ℕ)) : weight M (as ++ bs) = weight M as + weight M bs := by
  simp [weight]

/-- Numbers beyond the end of the last interval are in none. -/
theorem locate_eq_none_iff {M : ℕ} {es : List (α × ℕ)} {x : ℕ} : locate M es x = none ↔ weight M es ≤ x := by
  induction es generalizing x with
  | nil => simp [locate]
  | cons e es ih =>
    rw [locate, weight_cons]
    by_cases h : x < 2 ^ (M - e.2)
    · rw [if_pos h]
      simp only [reduceCtorEq, false_iff]
      omega
    · rw [if_neg h, ih]
      omega

/-- A number in the interval of an entry locates it. -/
theorem locate_mid {M : ℕ} (as bs : List (α × ℕ)) {e : α × ℕ} {x : ℕ} (h1 : weight M as ≤ x)
    (h2 : x < weight M as + 2 ^ (M - e.2)) : locate M (as ++ e :: bs) x = some e := by
  induction as generalizing x with
  | nil =>
    rw [weight_nil, Nat.zero_add] at h2
    rw [List.nil_append, locate, if_pos h2]
  | cons a as ih =>
    rw [weight_cons] at h1 h2
    have hx : ¬x < 2 ^ (M - a.2) := by omega
    rw [List.cons_append, locate, if_neg hx]
    exact ih (by omega) (by omega)

/-- The entry a number locates, with the entries before it. -/
theorem locate_some {M : ℕ} {es : List (α × ℕ)} {e : α × ℕ} {x : ℕ} (h : locate M es x = some e) :
    ∃ as bs, es = as ++ e :: bs ∧ weight M as ≤ x ∧ x < weight M as + 2 ^ (M - e.2) := by
  induction es generalizing x with
  | nil => simp [locate] at h
  | cons a es ih =>
    rw [locate] at h
    by_cases hx : x < 2 ^ (M - a.2)
    · rw [if_pos hx, Option.some.injEq] at h
      subst h
      exact ⟨[], es, rfl, by simp, by simpa using hx⟩
    · rw [if_neg hx] at h
      obtain ⟨as, bs, rfl, h1, h2⟩ := ih h
      exact ⟨a :: as, bs, rfl, by rw [weight_cons]; omega, by rw [weight_cons]; omega⟩

theorem locate_mem {M : ℕ} {es : List (α × ℕ)} {e : α × ℕ} {x : ℕ} (h : locate M es x = some e) : e ∈ es := by
  obtain ⟨as, bs, rfl, -⟩ := locate_some h
  simp

/-- The entry of an interval further right is at least as wide. -/
theorem locate_mono {M : ℕ} {es : List (α × ℕ)} (hs : Ordered es) {x y : ℕ} (hxy : x ≤ y) {e e' : α × ℕ}
    (h : locate M es x = some e) (h' : locate M es y = some e') : e.2 ≤ e'.2 := by
  induction es generalizing x y with
  | nil => simp [locate] at h
  | cons a es ih =>
    obtain ⟨ha, hs'⟩ := List.pairwise_cons.mp hs
    rw [locate] at h h'
    by_cases hx : x < 2 ^ (M - a.2)
    · rw [if_pos hx, Option.some.injEq] at h
      subst h
      by_cases hy : y < 2 ^ (M - a.2)
      · rw [if_pos hy, Option.some.injEq] at h'
        exact le_of_eq (by rw [h'])
      · rw [if_neg hy] at h'
        exact ha e' (locate_mem h')
    · rw [if_neg hx] at h
      rw [if_neg (by omega)] at h'
      exact ih hs' (by omega) h h'

/-- A number is in the interval that starts at `c * 2 ^ k` and has length `2 ^ k` exactly when its high part is `c`. -/
theorem mem_block_iff {x c k : ℕ} : (c * 2 ^ k ≤ x ∧ x < c * 2 ^ k + 2 ^ k) ↔ x / 2 ^ k = c := by
  have hp : 0 < 2 ^ k := Nat.two_pow_pos k
  rw [Nat.div_eq_iff hp]
  constructor
  · intro h
    omega
  · intro h
    omega

/-! ## Sorting by width -/

/-- Putting an element in front of the first element with a key not below its own. -/
theorem orderedInsert_append {β : Type} (f : β → ℕ) (a : β) (as bs : List β) (h1 : ∀ b ∈ as, f b < f a)
    (h2 : ∀ b ∈ bs, f a ≤ f b) : List.orderedInsert (fun x y => f x ≤ f y) a (as ++ bs) = as ++ a :: bs := by
  induction as with
  | nil =>
    cases bs with
    | nil => rfl
    | cons b bs => rw [List.nil_append, List.nil_append, List.orderedInsert, if_pos (h2 b List.mem_cons_self)]
  | cons b as ih =>
    have hb : f b < f a := h1 b List.mem_cons_self
    rw [List.cons_append, List.cons_append, List.orderedInsert, if_neg (by omega),
      ih (fun x hx => h1 x (List.mem_cons_of_mem _ hx))]

/-- The elements of a list grouped by a key below `N`, in the order of the keys. -/
def groups {β : Type} (f : β → ℕ) (N : ℕ) (l : List β) : List β :=
  (List.range N).flatMap (fun k => l.filter (fun b => f b = k))

/-- Grouping, split at a key: the groups below it, its own, and those above. -/
theorem groups_split {β : Type} (f : β → ℕ) (k m : ℕ) (l : List β) :
    groups f (k + 1 + m) l = groups f k l ++ (l.filter (fun b => f b = k) ++
      (List.range m).flatMap (fun j => l.filter (fun b => f b = k + 1 + j))) := by
  rw [groups, groups, List.range_add, List.flatMap_append, List.range_succ, List.flatMap_append, List.flatMap_singleton,
    List.flatMap_map, List.append_assoc]

theorem mem_groups {β : Type} {f : β → ℕ} {N : ℕ} {l : List β} {b : β} : b ∈ groups f N l ↔ b ∈ l ∧ f b < N := by
  simp only [groups, List.mem_flatMap, List.mem_filter, List.mem_range, decide_eq_true_eq]
  constructor
  · rintro ⟨k, hk, hb, rfl⟩
    exact ⟨hb, hk⟩
  · rintro ⟨hb, hk⟩
    exact ⟨f b, hk, hb, rfl⟩

/-- A stable sort by a key below `N` is the grouping by that key. -/
theorem insertionSort_eq_groups {β : Type} (f : β → ℕ) {N : ℕ} (l : List β) (h : ∀ b ∈ l, f b < N) :
    l.insertionSort (fun x y => f x ≤ f y) = groups f N l := by
  induction l with
  | nil => simp [groups]
  | cons a l ih =>
    have ha : f a < N := h a List.mem_cons_self
    obtain ⟨m, rfl⟩ : ∃ m, N = f a + 1 + m := Nat.exists_eq_add_of_le ha
    have hlow : groups f (f a) (a :: l) = groups f (f a) l := by
      refine List.flatMap_congr ?_
      intro k hk
      rw [List.mem_range] at hk
      exact List.filter_cons_of_neg (by simpa using Nat.ne_of_gt hk)
    have hhigh : (List.range m).flatMap (fun j => (a :: l).filter (fun b => f b = f a + 1 + j)) =
        (List.range m).flatMap (fun j => l.filter (fun b => f b = f a + 1 + j)) := by
      refine List.flatMap_congr ?_
      intro j _
      exact List.filter_cons_of_neg (by simp; omega)
    rw [List.insertionSort_cons, ih (fun b hb => h b (List.mem_cons_of_mem _ hb)), groups_split, groups_split, hlow, hhigh,
      List.filter_cons_of_pos (by simp), orderedInsert_append]
    · rfl
    · intro b hb
      exact (mem_groups.mp hb).2
    · intro b hb
      simp only [List.mem_append, List.mem_flatMap, List.mem_filter, decide_eq_true_eq] at hb
      rcases hb with ⟨-, hb⟩ | ⟨j, -, -, hb⟩ <;> omega

/-! ## Codes by counting -/

/-- The first code of each width, from the number of codes of each width: twice what comes after the codes one bit shorter. -/
def nextCode (count : ℕ → ℕ) : ℕ → ℕ
  | 0 => 0
  | b + 1 => (nextCode count b + if b = 0 then 0 else count b) * 2

/-- The code of a symbol in a family of widths: the first code of its width plus the number of earlier symbols that have the
width. -/
def code (widths : List ℕ) (s : ℕ) : ℕ :=
  nextCode (fun b => widths.count b) (widths.getD s 0) + (widths.take s).count (widths.getD s 0)

/-- The symbols that have a code and their widths, in the order of the symbols, counting from `k`. -/
def entriesFrom (k : ℕ) (widths : List ℕ) : List (ℕ × ℕ) :=
  ((widths.zipIdx k).filter (fun e => 0 < e.1)).map (fun e => (e.2, e.1))

/-- The symbols that have a code and their widths, in the order of the symbols. -/
def entries (widths : List ℕ) : List (ℕ × ℕ) := entriesFrom 0 widths

/-- The symbols that have a code and their widths, in the order of the widths. -/
def sorted (widths : List ℕ) : List (ℕ × ℕ) := (entries widths).insertionSort (fun a b => a.2 ≤ b.2)

theorem entriesFrom_append (k : ℕ) (l l' : List ℕ) :
    entriesFrom k (l ++ l') = entriesFrom k l ++ entriesFrom (k + l.length) l' := by
  simp [entriesFrom, List.zipIdx_append]

theorem entriesFrom_cons_pos (k : ℕ) {w : ℕ} (hw : 0 < w) (l : List ℕ) :
    entriesFrom k (w :: l) = (k, w) :: entriesFrom (k + 1) l := by
  simp [entriesFrom, List.zipIdx_cons, hw]

/-- The weight of the entries is the sum over the widths of those that have a code. -/
theorem weight_entriesFrom (M k : ℕ) (widths : List ℕ) :
    weight M (entriesFrom k widths) = ((widths.filter (fun w => 0 < w)).map (fun w => 2 ^ (M - w))).sum := by
  induction widths generalizing k with
  | nil => rfl
  | cons w widths ih =>
    by_cases hw : 0 < w
    · rw [entriesFrom_cons_pos k hw, weight_cons, ih]
      simp [hw]
    · have hskip : entriesFrom k (w :: widths) = entriesFrom (k + 1) widths := by
        simp [entriesFrom, List.zipIdx_cons, hw]
      rw [hskip, ih]
      simp [hw]

theorem weight_sorted (M : ℕ) (widths : List ℕ) :
    weight M (sorted widths) = ((widths.filter (fun w => 0 < w)).map (fun w => 2 ^ (M - w))).sum := by
  rw [← weight_entriesFrom M 0 widths]
  exact ((List.perm_insertionSort _ _).map _).sum_eq

theorem mem_entriesFrom {k s w : ℕ} {widths : List ℕ} :
    (s, w) ∈ entriesFrom k widths ↔ k ≤ s ∧ widths[s - k]? = some w ∧ 0 < w := by
  simp only [entriesFrom, List.mem_map, List.mem_filter, decide_eq_true_eq, Prod.mk.injEq, Prod.exists,
    List.mk_mem_zipIdx_iff_le_and_getElem?_sub]
  constructor
  · rintro ⟨a, b, ⟨⟨h1, h2⟩, h3⟩, rfl, rfl⟩
    exact ⟨h1, h2, h3⟩
  · rintro ⟨h1, h2, h3⟩
    exact ⟨w, s, ⟨⟨h1, h2⟩, h3⟩, rfl, rfl⟩

theorem mem_entries {s w : ℕ} {widths : List ℕ} : (s, w) ∈ entries widths ↔ widths[s]? = some w ∧ 0 < w := by
  rw [entries, mem_entriesFrom, Nat.sub_zero]
  simp

theorem mem_sorted {s w : ℕ} {widths : List ℕ} : (s, w) ∈ sorted widths ↔ widths[s]? = some w ∧ 0 < w := by
  rw [sorted, List.mem_insertionSort, mem_entries]

theorem sorted_ordered (widths : List ℕ) : Ordered (sorted widths) := by
  have : Std.Total (fun a b : ℕ × ℕ => a.2 ≤ b.2) := ⟨fun a b => le_total a.2 b.2⟩
  have : IsTrans (ℕ × ℕ) (fun a b : ℕ × ℕ => a.2 ≤ b.2) := ⟨fun _ _ _ => le_trans⟩
  exact List.pairwise_insertionSort _ _

theorem sorted_nodup (widths : List ℕ) : (sorted widths).Nodup := by
  rw [sorted, (List.perm_insertionSort _ _).nodup_iff]
  have hsub : ((entries widths).map Prod.fst).Sublist ((widths.zipIdx 0).map Prod.snd) := by
    rw [entries, entriesFrom, List.map_map]
    exact (List.filter_sublist).map _
  refine List.Nodup.of_map Prod.fst (hsub.nodup ?_)
  rw [List.zipIdx_map_snd]
  exact List.nodup_range'

/-- The symbols with a code are told apart by the sorted list of them. -/
theorem sorted_fst_nodup (widths : List ℕ) : ((sorted widths).map Prod.fst).Nodup := by
  rw [List.nodup_map_iff_inj_on (sorted_nodup widths)]
  rintro ⟨s, w⟩ h ⟨s', w'⟩ h' (rfl : s = s')
  have hw := (mem_sorted.mp h).1.symm.trans (mem_sorted.mp h').1
  rw [Option.some.inj hw]

/-- Entries of one width weigh as many intervals of that width. -/
theorem weight_of_width {M w : ℕ} {es : List (α × ℕ)} (h : ∀ e ∈ es, e.2 = w) : weight M es = es.length * 2 ^ (M - w) := by
  induction es with
  | nil => simp
  | cons e es ih =>
    rw [weight_cons, h e List.mem_cons_self, ih (fun a ha => h a (List.mem_cons_of_mem _ ha)), List.length_cons]
    ring

/-- The entries of a width are as many as the symbols that have it. -/
theorem length_filter_width {w : ℕ} (hw : 0 < w) (k : ℕ) (widths : List ℕ) :
    ((entriesFrom k widths).filter (fun e => e.2 = w)).length = widths.count w := by
  induction widths generalizing k with
  | nil => rfl
  | cons a l ih =>
    have hcons : entriesFrom k (a :: l) = entriesFrom k [a] ++ entriesFrom (k + 1) l := entriesFrom_append k [a] l
    rw [hcons, List.filter_append, List.length_append, ih, List.count_cons, Nat.add_comm]
    congr 1
    by_cases haw : a = w
    · subst haw
      simp [entriesFrom, hw]
    · by_cases ha : 0 < a <;> simp [entriesFrom, ha, haw]

/-- The entries narrower than a width weigh as many intervals of that width as its first code says. -/
theorem weight_groups {M w : ℕ} (hw : w ≤ M) (widths : List ℕ) :
    weight M (groups (fun e => e.2) w (entries widths)) = nextCode (fun b => widths.count b) w * 2 ^ (M - w) := by
  induction w with
  | zero => simp [groups, nextCode]
  | succ w ih =>
    have hsplit := groups_split (fun e : ℕ × ℕ => e.2) w 0 (entries widths)
    simp only [Nat.add_zero, List.range_zero, List.flatMap_nil, List.append_nil] at hsplit
    have hw2 : ∀ e ∈ (entries widths).filter (fun e => e.2 = w), e.2 = w := by
      intro e he
      simpa using (List.mem_filter.mp he).2
    have hlen : ((entries widths).filter (fun e => e.2 = w)).length = if w = 0 then 0 else widths.count w := by
      by_cases h0 : w = 0
      · subst h0
        rw [if_pos rfl, List.length_eq_zero_iff, List.filter_eq_nil_iff]
        rintro ⟨s, a⟩ ha
        have := (mem_entries.mp ha).2
        simp
        omega
      · rw [if_neg h0]
        exact length_filter_width (Nat.pos_of_ne_zero h0) 0 widths
    rw [hsplit, weight_append, ih (by omega), weight_of_width hw2, hlen, nextCode,
      show M - w = M - (w + 1) + 1 by omega, Nat.pow_succ]
    ring

/-- A symbol with a code, in the order of the widths: what comes before it weighs as many of its intervals as its code says. -/
theorem exists_sorted_split {M s w : ℕ} {widths : List ℕ} (hM : ∀ a ∈ widths, a ≤ M) (hs : widths[s]? = some w)
    (hw : 0 < w) : ∃ as bs, sorted widths = as ++ (s, w) :: bs ∧ weight M as = code widths s * 2 ^ (M - w) := by
  obtain ⟨hlt, hget⟩ := List.getElem?_eq_some_iff.mp hs
  have hwM : w ≤ M := hM w (List.mem_of_getElem? hs)
  have hsplit : widths = widths.take s ++ w :: widths.drop (s + 1) := by
    rw [← hget, ← List.drop_eq_getElem_cons hlt, List.take_append_drop]
  have hlen : (widths.take s).length = s := List.length_take_of_le hlt.le
  have hentries : entries widths = entriesFrom 0 (widths.take s) ++ (s, w) :: entriesFrom (s + 1) (widths.drop (s + 1)) := by
    conv_lhs => rw [entries, hsplit]
    rw [entriesFrom_append, hlen, Nat.zero_add, entriesFrom_cons_pos _ hw]
  have hbound : ∀ e ∈ entries widths, e.2 < w + 1 + (M - w) := by
    rintro ⟨t, a⟩ he
    have := hM a (List.mem_of_getElem? (mem_entries.mp he).1)
    simp only
    omega
  have hsorted : sorted widths = groups (fun e => e.2) (w + 1 + (M - w)) (entries widths) :=
    insertionSort_eq_groups (fun e : ℕ × ℕ => e.2) _ hbound
  have hfilter : (entries widths).filter (fun e => e.2 = w) = (entriesFrom 0 (widths.take s)).filter (fun e => e.2 = w) ++
      (s, w) :: (entriesFrom (s + 1) (widths.drop (s + 1))).filter (fun e => e.2 = w) := by
    rw [hentries, List.filter_append, List.filter_cons_of_pos (by simp)]
  have hgetD : widths.getD s 0 = w := by
    rw [List.getD_eq_getElem?_getD, hs, Option.getD_some]
  rw [groups_split, hfilter] at hsorted
  refine ⟨groups (fun e => e.2) w (entries widths) ++ (entriesFrom 0 (widths.take s)).filter (fun e => e.2 = w), _,
    by rw [hsorted, List.append_assoc, List.append_assoc, List.cons_append], ?_⟩
  rw [weight_append, weight_groups hwM, weight_of_width (fun e he => by simpa using (List.mem_filter.mp he).2),
    length_filter_width hw, code, hgetD]
  ring

/-- The entry a stream of bits locates is the symbol whose canonical code the stream starts with. -/
theorem locate_iff_code {M s w x : ℕ} {widths : List ℕ} (hM : ∀ a ∈ widths, a ≤ M) :
    locate M (sorted widths) x = some (s, w) ↔ widths[s]? = some w ∧ 0 < w ∧ x / 2 ^ (M - w) = code widths s := by
  constructor
  · intro h
    obtain ⟨hs, hw⟩ := mem_sorted.mp (locate_mem h)
    obtain ⟨as, bs, heq, hweight⟩ := exists_sorted_split hM hs hw
    obtain ⟨as', bs', heq', h1, h2⟩ := locate_some h
    have hnd := sorted_nodup widths
    rw [heq', List.nodup_middle, List.nodup_cons, List.mem_append, not_or] at hnd
    rw [heq'] at heq
    obtain ⟨rfl, -, -⟩ := (List.append_cons_inj_of_notMem hnd.1.1 hnd.1.2).mp heq
    rw [hweight] at h1 h2
    exact ⟨hs, hw, mem_block_iff.mp ⟨h1, h2⟩⟩
  · rintro ⟨hs, hw, hx⟩
    obtain ⟨as, bs, heq, hweight⟩ := exists_sorted_split hM hs hw
    obtain ⟨h1, h2⟩ := mem_block_iff.mpr hx
    rw [heq]
    exact locate_mid as bs (by rw [hweight]; exact h1) (by rw [hweight]; exact h2)

end Canonical
