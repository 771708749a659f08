import Mathlib.Data.List.Basic
import Mathlib.Data.Nat.ModEq

/-!
# Periodic lists

The list that repeats a seed over and over, up to a length. A copy that overlaps its own output makes such a list, one element at
a time (`cycle_succ`) or in pieces of whole periods (`cycle_add`).
-/

namespace Periodic

variable {α : Type} [Inhabited α]

/-- The first `n` elements of a seed repeated without end. -/
def cycle (seed : List α) (n : ℕ) : List α := (List.range n).map (fun i => seed.getD (i % seed.length) default)

@[simp] theorem length_cycle (seed : List α) (n : ℕ) : (cycle seed n).length = n := by
  simp [cycle]

@[simp] theorem cycle_zero (seed : List α) : cycle seed 0 = [] := rfl

/-- Whole periods, and then anything. -/
theorem cycle_add {seed : List α} {a : ℕ} (h : seed.length ∣ a) (b : ℕ) : cycle seed (a + b) = cycle seed a ++ cycle seed b := by
  rw [cycle, List.range_add, List.map_append, List.map_map]
  congr 1
  refine List.map_congr_left ?_
  intro i _
  simp only [Function.comp_apply]
  rw [Nat.add_mod, Nat.mod_eq_zero_of_dvd h, Nat.zero_add, Nat.mod_mod]

/-- One period is the seed. -/
theorem cycle_of_le {seed : List α} {n : ℕ} (h : n ≤ seed.length) : cycle seed n = seed.take n := by
  refine List.ext_getElem (by simp [h]) ?_
  intro i h1 h2
  rw [length_cycle] at h1
  have hi : i < seed.length := by omega
  simp [cycle, Nat.mod_eq_of_lt hi, hi]

theorem take_cycle (seed : List α) {k n : ℕ} (h : k ≤ n) : (cycle seed n).take k = cycle seed k := by
  rw [cycle, ← List.map_take, List.take_range, Nat.min_eq_left h, cycle]

/-- The first element, and then the seed turned by one. -/
theorem cycle_succ (y : α) (ys : List α) (n : ℕ) : cycle (y :: ys) (n + 1) = y :: cycle (ys ++ [y]) n := by
  rw [cycle, List.range_succ_eq_map, List.map_cons, List.map_map, cycle]
  congr 1
  refine List.map_congr_left ?_
  intro i _
  have hlen : (ys ++ [y]).length = ys.length + 1 := by simp
  simp only [Function.comp_apply, List.length_cons, hlen, Nat.succ_eq_add_one]
  have hlt : i % (ys.length + 1) < ys.length + 1 := Nat.mod_lt _ (Nat.succ_pos _)
  rcases Nat.lt_or_ge (i % (ys.length + 1)) ys.length with hi | hi
  · have hmod : (i + 1) % (ys.length + 1) = i % (ys.length + 1) + 1 := by
      rw [← Nat.mod_add_mod, Nat.mod_eq_of_lt (by omega)]
    rw [hmod, List.getD_cons_succ, List.getD_eq_getElem?_getD, List.getD_eq_getElem?_getD, List.getElem?_append_left hi]
  · have heq : i % (ys.length + 1) = ys.length := by omega
    have hmod : (i + 1) % (ys.length + 1) = 0 := by
      rw [← Nat.mod_add_mod, heq, Nat.mod_self]
    rw [hmod, heq, List.getD_cons_zero, List.getD_eq_getElem?_getD, List.getElem?_append_right le_rfl, Nat.sub_self]
    rfl

end Periodic
