import Noflate.General.Crc

/-!
# What a cyclic redundancy check detects

Bits are taken in one at a time (`updateBits`), which is what taking in bytes is (`update_eq_updateBits`). A polynomial whose highest
place is set loses nothing when a remainder is moved down (`shifts_injective`), so two messages that differ in a window no wider than the
remainder, and nowhere else, have different remainders (`updateBits_window`).
-/

namespace Crc

open BitString

/-- Take in bits. -/
def updateBits (poly : Nat) (c : Nat) (bits : List Bool) : Nat := bits.foldl (fun c b => shift poly (c ^^^ b.toNat)) c

theorem updateBits_append (poly c : Nat) (a b : List Bool) : updateBits poly c (a ++ b) = updateBits poly (updateBits poly c a) b :=
  List.foldl_append

/-- Taking in some bits at once. -/
theorem updateBits_eq_shifts (poly c : Nat) (bits : List Bool) :
    updateBits poly c bits = shifts poly bits.length (c ^^^ toNat bits) := by
  induction bits generalizing c with
  | nil =>
    rw [toNat_nil, Nat.xor_zero]
    rfl
  | cons b bits ih =>
    have hfold : updateBits poly c (b :: bits) = updateBits poly (shift poly (c ^^^ b.toNat)) bits := rfl
    have hmoved : shift poly (2 ^ 1 * toNat bits) = toNat bits := shifts_mul poly 1 (toNat bits)
    have hb : b.toNat < 2 ^ 1 := b.toNat_lt
    have hsplit : c ^^^ toNat (b :: bits) = (c ^^^ b.toNat) ^^^ (2 ^ 1 * toNat bits) := by
      rw [toNat_cons, Nat.xor_assoc, xor_mul_eq_add _ hb]
      rfl
    rw [hfold, ih, List.length_cons, shifts, hsplit, shift_xor poly (c ^^^ b.toNat), hmoved]

/-- The number that bytes are, and the number that their bits are. -/
theorem leNat_eq_toNat (bytes : List UInt8) : leNat bytes = toNat (ofBytes bytes) := by
  induction bytes with
  | nil => rfl
  | cons b bytes ih =>
    rw [leNat, ih, ofBytes_cons, toNat_append, toNat_ofNat_byte, length_ofNat]
    rfl

/-- Taking in bytes is taking in their bits. -/
theorem update_eq_updateBits (poly c : Nat) (bytes : List UInt8) : update poly c bytes = updateBits poly c (ofBytes bytes) := by
  rw [update_eq_shifts, updateBits_eq_shifts, length_ofBytes, leNat_eq_toNat]

section

variable {poly N : Nat}

/-- Only nothing is moved down to nothing. -/
theorem shift_eq_zero (htop : 2 ^ N ≤ poly) {c : Nat} (hc : c < 2 ^ (N + 1)) (h : shift poly c = 0) : c = 0 := by
  rw [Nat.pow_succ] at hc
  unfold shift at h
  split at h
  · have hsame : c / 2 = poly := Nat.xor_eq_zero_iff.mp h
    omega
  · omega

theorem shifts_eq_zero (htop : 2 ^ N ≤ poly) (hpoly : poly < 2 ^ (N + 1)) (n : Nat) {c : Nat} (hc : c < 2 ^ (N + 1))
    (h : shifts poly n c = 0) : c = 0 := by
  induction n generalizing c with
  | zero => exact h
  | succ n ih => exact shift_eq_zero htop hc (ih (shifts_lt hpoly 1 hc) h)

/-- Moving down loses nothing. -/
theorem shifts_injective (htop : 2 ^ N ≤ poly) (hpoly : poly < 2 ^ (N + 1)) (n : Nat) {c c' : Nat} (hc : c < 2 ^ (N + 1))
    (hc' : c' < 2 ^ (N + 1)) (h : shifts poly n c = shifts poly n c') : c = c' := by
  have hzero : shifts poly n (c ^^^ c') = 0 := by rw [shifts_xor, h, Nat.xor_self]
  exact Nat.xor_eq_zero_iff.mp (shifts_eq_zero htop hpoly n (Nat.xor_lt_two_pow hc hc') hzero)

theorem updateBits_lt (hpoly : poly < 2 ^ (N + 1)) (bits : List Bool) {c : Nat} (hc : c < 2 ^ (N + 1)) :
    updateBits poly c bits < 2 ^ (N + 1) := by
  induction bits generalizing c with
  | nil => exact hc
  | cons b bits ih =>
    have hb : b.toNat < 2 ^ (N + 1) := b.toNat_lt.trans_le (Nat.pow_le_pow_right Nat.two_pos (Nat.succ_le_succ (Nat.zero_le N)))
    exact ih (shifts_lt hpoly 1 (Nat.xor_lt_two_pow hc hb))

/-- The same bits lead from different remainders to different ones. -/
theorem updateBits_injective (htop : 2 ^ N ≤ poly) (hpoly : poly < 2 ^ (N + 1)) (bits : List Bool) {c c' : Nat} (hc : c < 2 ^ (N + 1))
    (hc' : c' < 2 ^ (N + 1)) (h : updateBits poly c bits = updateBits poly c' bits) : c = c' := by
  rw [updateBits_eq_shifts, updateBits_eq_shifts, shifts_xor, shifts_xor] at h
  exact shifts_injective htop hpoly _ hc hc' (Nat.xor_left_inj.mp h)

/-- Messages that differ at most in a window as wide as the remainder, with the same remainder: they are the same. -/
theorem updateBits_window (htop : 2 ^ N ≤ poly) (hpoly : poly < 2 ^ (N + 1)) {c : Nat} (hc : c < 2 ^ (N + 1))
    {front u v rest : List Bool} (hlen : u.length = v.length) (hshort : u.length ≤ N + 1)
    (h : updateBits poly c (front ++ u ++ rest) = updateBits poly c (front ++ v ++ rest)) : u = v := by
  simp only [updateBits_append] at h
  have hstate := updateBits_lt hpoly front hc
  have hwindow := updateBits_injective htop hpoly rest (updateBits_lt hpoly u hstate) (updateBits_lt hpoly v hstate) h
  rw [updateBits_eq_shifts poly _ u, updateBits_eq_shifts poly _ v, ← hlen] at hwindow
  have hlt : ∀ w : List Bool, w.length ≤ N + 1 → toNat w < 2 ^ (N + 1) := fun w hw =>
    (toNat_lt w).trans_le (Nat.pow_le_pow_right Nat.two_pos hw)
  have hsame := shifts_injective htop hpoly _ (Nat.xor_lt_two_pow hstate (hlt u hshort))
    (Nat.xor_lt_two_pow hstate (hlt v (hlen ▸ hshort))) hwindow
  exact toNat_injective hlen (Nat.xor_right_inj.mp hsame)

end

end Crc
