import Noflate.General.Bits

/-!
# Reflected cyclic redundancy checks

A remainder as a number whose low bit is the next one out, moved down one place at a time over a polynomial. Moving is linear in
exclusive or (`shifts_xor`) and undoes a shift up (`shifts_mul`), so the moves over several bytes can be made at once, and the
result put together from what each byte alone contributes (`update_eq_shifts`, `shifts_byte`). That is what table-driven
implementations do, a byte or several bytes at a time.
-/

namespace Crc

open BitString

/-- Move a remainder down one place. -/
def shift (poly c : Nat) : Nat := if c % 2 = 1 then c / 2 ^^^ poly else c / 2

/-- Move a remainder down some places. -/
def shifts (poly : Nat) : Nat → Nat → Nat
  | 0, c => c
  | n + 1, c => shifts poly n (shift poly c)

/-- Take in bytes, the low bit of each first. -/
def update (poly : Nat) (c : Nat) (bytes : List UInt8) : Nat :=
  bytes.foldl (fun c b => shifts poly 8 (c ^^^ b.toNat)) c

theorem update_append (poly c : Nat) (a b : List UInt8) : update poly c (a ++ b) = update poly (update poly c a) b :=
  List.foldl_append

theorem shift_xor (poly a b : Nat) : shift poly (a ^^^ b) = shift poly a ^^^ shift poly b := by
  have hcancel : ∀ x y : Nat, x ^^^ poly ^^^ (y ^^^ poly) = x ^^^ y := by
    intro x y
    rw [Nat.xor_comm y poly, ← Nat.xor_assoc, Nat.xor_assoc x poly poly, Nat.xor_self, Nat.xor_zero]
  unfold shift
  rw [Nat.xor_div_two, Nat.xor_mod_two_eq]
  by_cases ha : a % 2 = 1
  · by_cases hb : b % 2 = 1
    · rw [if_neg (by omega), if_pos ha, if_pos hb, hcancel]
    · rw [if_pos (by omega), if_pos ha, if_neg hb, Nat.xor_assoc, Nat.xor_comm (b / 2), ← Nat.xor_assoc]
  · by_cases hb : b % 2 = 1
    · rw [if_pos (by omega), if_neg ha, if_pos hb, Nat.xor_assoc]
    · rw [if_neg (by omega), if_neg ha, if_neg hb]

theorem shifts_xor (poly n a b : Nat) : shifts poly n (a ^^^ b) = shifts poly n a ^^^ shifts poly n b := by
  induction n generalizing a b with
  | zero => rfl
  | succ n ih => rw [shifts, shifts, shifts, shift_xor, ih]

theorem shifts_add (poly m n c : Nat) : shifts poly (m + n) c = shifts poly n (shifts poly m c) := by
  induction m generalizing c with
  | zero => rw [Nat.zero_add, shifts]
  | succ m ih => rw [Nat.succ_add, shifts, shifts, ih]

/-- Moving down what was moved up: no bit falls out. -/
theorem shifts_mul (poly n c : Nat) : shifts poly n (2 ^ n * c) = c := by
  induction n with
  | zero => rw [Nat.pow_zero, Nat.one_mul, shifts]
  | succ n ih =>
    have hshift : shift poly (2 ^ (n + 1) * c) = 2 ^ n * c := by
      have heq : 2 ^ (n + 1) * c = 2 * (2 ^ n * c) := by rw [Nat.pow_succ', Nat.mul_assoc]
      rw [shift, heq, if_neg (by omega)]
      exact Nat.mul_div_cancel_left _ (by decide)
    rw [shifts, hshift, ih]

/-- A remainder stays below a power of two that the polynomial is below. -/
theorem shifts_lt {poly N : Nat} (hp : poly < 2 ^ N) (n : Nat) {c : Nat} (h : c < 2 ^ N) : shifts poly n c < 2 ^ N := by
  induction n generalizing c with
  | zero => exact h
  | succ n ih =>
    have hhalf : c / 2 < 2 ^ N := (Nat.div_le_self c 2).trans_lt h
    have hshift : shift poly c < 2 ^ N := by
      unfold shift
      split
      · exact Nat.xor_lt_two_pow hhalf hp
      · exact hhalf
    exact ih hshift

theorem update_lt {poly N : Nat} (hp : poly < 2 ^ N) (hN : 8 ≤ N) (bytes : List UInt8) {c : Nat} (h : c < 2 ^ N) :
    update poly c bytes < 2 ^ N := by
  induction bytes generalizing c with
  | nil => exact h
  | cons b bytes ih =>
    have hb : b.toNat < 2 ^ N := b.toNat_lt.trans_le (Nat.pow_le_pow_right (by decide) hN)
    exact ih (shifts_lt hp 8 (Nat.xor_lt_two_pow h hb))

/-- Numbers whose bits do not meet: their exclusive or is their sum. -/
theorem xor_mul_eq_add {v n : Nat} (w : Nat) (h : v < 2 ^ n) : v ^^^ (2 ^ n * w) = v + 2 ^ n * w := by
  have hdiv : (v ^^^ (2 ^ n * w)) / 2 ^ n = w := by
    rw [Nat.xor_div_two_pow, Nat.div_eq_of_lt h, Nat.mul_div_cancel_left _ (Nat.two_pow_pos n), Nat.zero_xor]
  have hmod : (v ^^^ (2 ^ n * w)) % 2 ^ n = v := by
    rw [Nat.xor_mod_two_pow, Nat.mod_eq_of_lt h, Nat.mul_mod_right, Nat.xor_zero]
  have hsum := Nat.div_add_mod (v ^^^ (2 ^ n * w)) (2 ^ n)
  rw [hdiv, hmod] at hsum
  rw [← hsum, Nat.add_comm]

/-- Moving down the low byte and what is above it. -/
theorem shifts_byte (poly n x : Nat) :
    shifts poly (8 * (n + 1)) x = shifts poly (8 * (n + 1)) (x % 256) ^^^ shifts poly (8 * n) (x / 256) := by
  have hsplit : x = (x % 2 ^ 8) ^^^ (2 ^ 8 * (x / 2 ^ 8)) := by
    rw [xor_mul_eq_add _ (Nat.mod_lt _ (by decide)), Nat.mod_add_div]
  have hlow : shifts poly (8 * (n + 1)) (2 ^ 8 * (x / 2 ^ 8)) = shifts poly (8 * n) (x / 2 ^ 8) := by
    rw [Nat.mul_succ, Nat.add_comm, shifts_add, shifts_mul]
  conv_lhs => rw [hsplit]
  rw [shifts_xor, hlow]
  rfl

/-- Taking in some bytes at once. -/
theorem update_eq_shifts (poly c : Nat) (bytes : List UInt8) :
    update poly c bytes = shifts poly (8 * bytes.length) (c ^^^ leNat bytes) := by
  induction bytes generalizing c with
  | nil => rw [leNat, Nat.xor_zero]; rfl
  | cons b bytes ih =>
    have hfold : update poly c (b :: bytes) = update poly (shifts poly 8 (c ^^^ b.toNat)) bytes := rfl
    have hle : c ^^^ leNat (b :: bytes) = (c ^^^ b.toNat) ^^^ (2 ^ 8 * leNat bytes) := by
      rw [leNat, Nat.xor_assoc, xor_mul_eq_add _ b.toNat_lt]
      rfl
    rw [hfold, ih, hle, List.length_cons, Nat.mul_succ, Nat.add_comm, shifts_add,
      shifts_xor poly 8 (c ^^^ b.toNat) (2 ^ 8 * leNat bytes), shifts_mul]

end Crc
