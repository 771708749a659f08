import Mathlib.Data.Nat.Bitwise
import Mathlib.Data.List.Basic
import Mathlib.Tactic.Ring

/-!
# Lists of bits, least significant first

A number of `n` bits as the list of its bits, the low bit first, and back; a byte string as the list of the bits of its
bytes. Nothing here is about a particular format: these are the facts about fixed-width fields that a proof about bit streams
needs (how fields are concatenated, cut and reversed).
-/

namespace BitString

/-- The low `n` bits of a number, least significant first. -/
def ofNat : Nat → Nat → List Bool
  | 0, _ => []
  | n + 1, v => (v % 2 == 1) :: ofNat n (v / 2)

/-- The number a list of bits stands for, least significant first. -/
def toNat : List Bool → Nat
  | [] => 0
  | b :: bs => b.toNat + 2 * toNat bs

/-- The bits of a byte string: byte by byte, the low bit of each byte first. -/
def ofBytes (bytes : List UInt8) : List Bool :=
  bytes.flatMap (fun b => ofNat 8 b.toNat)

/-! ## Fields -/

@[simp] theorem length_ofNat (n v : Nat) : (ofNat n v).length = n := by
  induction n generalizing v with
  | zero => rfl
  | succ n ih => simp [ofNat, ih]

@[simp] theorem ofNat_zero_width (v : Nat) : ofNat 0 v = [] := rfl

@[simp] theorem toNat_nil : toNat [] = 0 := rfl

@[simp] theorem toNat_cons (b : Bool) (bs : List Bool) : toNat (b :: bs) = b.toNat + 2 * toNat bs := rfl

/-- The bit of a number that its parity is. -/
theorem toNat_mod_two (v : Nat) : (v % 2 == 1).toNat = v % 2 := by
  rcases Nat.mod_two_eq_zero_or_one v with h | h <;> simp [h]

/-- Writing a number in `n` bits and reading it back gives it modulo `2 ^ n`. -/
theorem toNat_ofNat (n v : Nat) : toNat (ofNat n v) = v % 2 ^ n := by
  induction n generalizing v with
  | zero => simp [Nat.mod_one]
  | succ n ih =>
    rw [ofNat, toNat_cons, ih, toNat_mod_two, Nat.pow_succ', Nat.mod_mul]

/-- A number below `2 ^ n` survives being written in `n` bits. -/
theorem toNat_ofNat_of_lt {n v : Nat} (h : v < 2 ^ n) : toNat (ofNat n v) = v := by
  rw [toNat_ofNat, Nat.mod_eq_of_lt h]

theorem toNat_lt (bs : List Bool) : toNat bs < 2 ^ bs.length := by
  induction bs with
  | nil => simp
  | cons b bs ih =>
    have hb : b.toNat ≤ 1 := Bool.toNat_le b
    rw [toNat_cons, List.length_cons, Nat.pow_succ']
    omega

/-- A list of bits is the number it stands for, written in its own length. -/
theorem ofNat_toNat (bs : List Bool) : ofNat bs.length (toNat bs) = bs := by
  induction bs with
  | nil => rfl
  | cons b bs ih =>
    have hdiv : (b.toNat + 2 * toNat bs) / 2 = toNat bs := by
      have hb : b.toNat ≤ 1 := Bool.toNat_le b
      omega
    have hmod : ((b.toNat + 2 * toNat bs) % 2 == 1) = b := by
      cases b <;> simp [Nat.add_mul_mod_self_left]
    rw [List.length_cons, toNat_cons, ofNat, hdiv, ih, hmod]

/-- Lists of bits of one length that stand for the same number are equal. -/
theorem toNat_injective {a b : List Bool} (hl : a.length = b.length) (h : toNat a = toNat b) : a = b := by
  rw [← ofNat_toNat a, ← ofNat_toNat b, hl, h]

theorem toNat_append (a b : List Bool) : toNat (a ++ b) = toNat a + 2 ^ a.length * toNat b := by
  induction a with
  | nil => simp
  | cons x a ih =>
    rw [List.cons_append, toNat_cons, toNat_cons, ih, List.length_cons, Nat.pow_succ']
    ring

/-- A field of `m + n` bits is a field of `m` bits and then a field of `n`. -/
theorem ofNat_add (m n v : Nat) : ofNat (m + n) v = ofNat m v ++ ofNat n (v / 2 ^ m) := by
  induction m generalizing v with
  | zero => simp
  | succ m ih =>
    rw [Nat.succ_add, ofNat, ofNat, ih, List.cons_append, Nat.pow_succ', Nat.div_div_eq_div_mul]

theorem ofNat_mod (n v : Nat) : ofNat n (v % 2 ^ n) = ofNat n v := by
  have h := ofNat_toNat (ofNat n v)
  rwa [length_ofNat, toNat_ofNat] at h

/-- A number of `m` bits followed by a number of `n` bits, as one number. -/
theorem ofNat_add_mul {m n v w : Nat} (h : v < 2 ^ m) : ofNat (m + n) (v + 2 ^ m * w) = ofNat m v ++ ofNat n w := by
  have hdiv : (v + 2 ^ m * w) / 2 ^ m = w := by
    rw [Nat.add_mul_div_left _ _ (Nat.two_pow_pos m), Nat.div_eq_of_lt h, Nat.zero_add]
  have hmod : (v + 2 ^ m * w) % 2 ^ m = v := by
    rw [Nat.add_mul_mod_self_left, Nat.mod_eq_of_lt h]
  rw [ofNat_add, hdiv, ← ofNat_mod m (v + 2 ^ m * w), hmod]

/-- Dropping the first bits of a field shifts its value down. -/
theorem drop_ofNat {k n : Nat} (v : Nat) (h : k ≤ n) : (ofNat n v).drop k = ofNat (n - k) (v / 2 ^ k) := by
  obtain ⟨m, rfl⟩ := Nat.exists_eq_add_of_le h
  rw [ofNat_add, List.drop_left' (length_ofNat k v), Nat.add_sub_cancel_left]

/-- The value of the first `k` bits of a list is its value modulo `2 ^ k`. -/
theorem toNat_take {k : Nat} {bs : List Bool} (h : k ≤ bs.length) : toNat (bs.take k) = toNat bs % 2 ^ k := by
  have hlen : (bs.take k).length = k := List.length_take_of_le h
  have hlt : toNat (bs.take k) < 2 ^ k := by
    have := toNat_lt (bs.take k)
    rwa [hlen] at this
  conv_rhs => rw [← List.take_append_drop k bs, toNat_append, hlen]
  rw [Nat.add_mul_mod_self_left, Nat.mod_eq_of_lt hlt]

/-- A field that fits below a shifted number: the disjunction of the two is their sum. -/
theorem or_shiftLeft {v n : Nat} (w : Nat) (h : v < 2 ^ n) : v ||| (w <<< n) = v + 2 ^ n * w := by
  rw [Nat.or_comm, ← Nat.shiftLeft_add_eq_or_of_lt h, Nat.shiftLeft_eq]
  ring

/-! ## Byte strings -/

@[simp] theorem ofBytes_nil : ofBytes [] = [] := rfl

theorem ofBytes_cons (b : UInt8) (bytes : List UInt8) : ofBytes (b :: bytes) = ofNat 8 b.toNat ++ ofBytes bytes := rfl

theorem ofBytes_append (a b : List UInt8) : ofBytes (a ++ b) = ofBytes a ++ ofBytes b := by
  simp [ofBytes]

@[simp] theorem length_ofBytes (bytes : List UInt8) : (ofBytes bytes).length = 8 * bytes.length := by
  induction bytes with
  | nil => rfl
  | cons b bytes ih =>
    rw [ofBytes_cons, List.length_append, ih, length_ofNat, List.length_cons]
    omega

/-- Dropping whole bytes of a byte string drops them from its bits, eight for each. -/
theorem drop_ofBytes (k : Nat) (bytes : List UInt8) : (ofBytes bytes).drop (8 * k) = ofBytes (bytes.drop k) := by
  induction k generalizing bytes with
  | zero => rfl
  | succ k ih =>
    cases bytes with
    | nil => simp
    | cons b bytes =>
      have h8 : 8 * (k + 1) = (ofNat 8 b.toNat).length + 8 * k := by
        rw [length_ofNat]
        omega
      rw [ofBytes_cons, h8, List.drop_length_add_append, List.drop_succ_cons, ih]

/-- The bits of the first bytes of a byte string. -/
theorem take_ofBytes (k : Nat) (bytes : List UInt8) : (ofBytes bytes).take (8 * k) = ofBytes (bytes.take k) := by
  induction k generalizing bytes with
  | zero => rfl
  | succ k ih =>
    cases bytes with
    | nil => simp
    | cons b bytes =>
      have h8 : 8 * (k + 1) = (ofNat 8 b.toNat).length + 8 * k := by
        rw [length_ofNat]
        omega
      rw [ofBytes_cons, h8, List.take_length_add_append, List.take_succ_cons, ofBytes_cons, ih]

/-- A byte is determined by its eight bits. -/
theorem ofNat_eight_injective {a b : UInt8} (h : ofNat 8 a.toNat = ofNat 8 b.toNat) : a = b := by
  have h' := congrArg toNat h
  rw [toNat_ofNat_of_lt a.toNat_lt, toNat_ofNat_of_lt b.toNat_lt] at h'
  exact UInt8.toNat_inj.mp h'

/-- A byte string is determined by its bits. -/
theorem ofBytes_injective {a b : List UInt8} (h : ofBytes a = ofBytes b) : a = b := by
  induction a generalizing b with
  | nil =>
    have hl := congrArg List.length h
    simp only [ofBytes_nil, List.length_nil, length_ofBytes] at hl
    exact (List.eq_nil_of_length_eq_zero (by omega)).symm
  | cons x a ih =>
    cases b with
    | nil =>
      have hl := congrArg List.length h
      simp only [ofBytes_nil, List.length_nil, length_ofBytes, List.length_cons] at hl
      omega
    | cons y b =>
      rw [ofBytes_cons, ofBytes_cons] at h
      obtain ⟨h1, h2⟩ := List.append_inj h (by simp)
      rw [ofNat_eight_injective h1, ih h2]

/-- Whole bytes at the end of the bits of a byte string are its end. -/
theorem suffix_of_ofBytes {a b : List UInt8} (h : ofBytes a <:+ ofBytes b) : ∃ front, b = front ++ a := by
  obtain ⟨front, hfront⟩ := h
  have hlen := congrArg List.length hfront
  rw [List.length_append, length_ofBytes, length_ofBytes] at hlen
  have hle : a.length ≤ b.length := by omega
  have hdrop : (ofBytes b).drop (8 * (b.length - a.length)) = ofBytes a := by
    rw [← hfront, List.drop_left' (by omega)]
  rw [drop_ofBytes] at hdrop
  have ha := ofBytes_injective hdrop
  have hsplit := List.take_append_drop (b.length - a.length) b
  rw [ha] at hsplit
  exact ⟨_, hsplit.symm⟩

/-- The value of one byte's bits is the byte. -/
theorem toNat_ofNat_byte (b : UInt8) : toNat (ofNat 8 b.toNat) = b.toNat :=
  toNat_ofNat_of_lt b.toNat_lt

/-! ## Numbers of whole bytes -/

/-- The number a byte string stands for, the low byte first. -/
def leNat : List UInt8 → Nat
  | [] => 0
  | b :: bytes => b.toNat + 256 * leNat bytes

/-- The low `n` bytes of a number, the low byte first. -/
def leBytes : Nat → Nat → List UInt8
  | 0, _ => []
  | n + 1, v => UInt8.ofNat v :: leBytes n (v / 256)

/-- The number a byte string stands for, the high byte first. -/
def beNat (bytes : List UInt8) : Nat := leNat bytes.reverse

/-- The low `n` bytes of a number, the high byte first. -/
def beBytes (n v : Nat) : List UInt8 := (leBytes n v).reverse

@[simp] theorem length_leBytes (n v : Nat) : (leBytes n v).length = n := by
  induction n generalizing v with
  | zero => rfl
  | succ n ih => rw [leBytes, List.length_cons, ih]

@[simp] theorem length_beBytes (n v : Nat) : (beBytes n v).length = n := by
  rw [beBytes, List.length_reverse, length_leBytes]

theorem leNat_lt (bytes : List UInt8) : leNat bytes < 256 ^ bytes.length := by
  induction bytes with
  | nil => exact Nat.one_pos
  | cons b bytes ih =>
    have hb := b.toNat_lt
    rw [leNat, List.length_cons, Nat.pow_succ']
    omega

theorem leNat_append (a b : List UInt8) : leNat (a ++ b) = leNat a + 256 ^ a.length * leNat b := by
  induction a with
  | nil => simp [leNat]
  | cons x a ih =>
    rw [List.cons_append, leNat, leNat, ih, List.length_cons, Nat.pow_succ', Nat.mul_add, Nat.mul_assoc, Nat.add_assoc]

/-- A byte string is the number it stands for, written in its own length. -/
theorem leBytes_leNat (bytes : List UInt8) : leBytes bytes.length (leNat bytes) = bytes := by
  induction bytes with
  | nil => rfl
  | cons b bytes ih =>
    have hb := b.toNat_lt
    have hdiv : (b.toNat + 256 * leNat bytes) / 256 = leNat bytes := by omega
    have hbyte : UInt8.ofNat (b.toNat + 256 * leNat bytes) = b := by
      rw [← UInt8.toNat_inj, UInt8.toNat_ofNat']
      omega
    rw [List.length_cons, leNat, leBytes, hdiv, ih, hbyte]

theorem leNat_leBytes {n v : Nat} (h : v < 256 ^ n) : leNat (leBytes n v) = v := by
  induction n generalizing v with
  | zero =>
    rw [Nat.pow_zero, Nat.lt_one_iff] at h
    rw [h]
    rfl
  | succ n ih =>
    rw [Nat.pow_succ'] at h
    rw [leBytes, leNat, ih (by omega), UInt8.toNat_ofNat']
    omega

/-- A byte string of `n` bytes stands for a number exactly when it is the number's bytes. -/
theorem leNat_eq_iff {bytes : List UInt8} {n v : Nat} (hl : bytes.length = n) (hv : v < 256 ^ n) :
    leNat bytes = v ↔ bytes = leBytes n v := by
  constructor
  · rintro rfl
    rw [← hl, leBytes_leNat]
  · rintro rfl
    exact leNat_leBytes hv

theorem beNat_eq_iff {bytes : List UInt8} {n v : Nat} (hl : bytes.length = n) (hv : v < 256 ^ n) :
    beNat bytes = v ↔ bytes = beBytes n v := by
  rw [beNat, leNat_eq_iff (by rw [List.length_reverse, hl]) hv, beBytes, List.reverse_eq_iff]

/-- The zero bits that fill a list of bits up to whole bytes. -/
def pad (bs : List Bool) : List Bool := List.replicate ((8 - bs.length % 8) % 8) false

theorem length_append_pad (bs : List Bool) : (bs ++ pad bs).length % 8 = 0 := by
  simp only [pad, List.length_append, List.length_replicate]
  omega

theorem length_pad_lt (bs : List Bool) : (pad bs).length < 8 := by
  rw [pad, List.length_replicate]
  exact Nat.mod_lt _ (by omega)

/-- A field whose value fits in fewer bits ends in zero bits. -/
theorem ofNat_add_of_lt {m v : Nat} (k : Nat) (h : v < 2 ^ m) : ofNat (m + k) v = ofNat m v ++ List.replicate k false := by
  have hz : ∀ n, ofNat n 0 = List.replicate n false := by
    intro n
    induction n with
    | zero => rfl
    | succ n ih => rw [ofNat, Nat.zero_div, ih, List.replicate_succ]; rfl
  rw [ofNat_add, Nat.div_eq_of_lt h, hz]

/-! ## Most significant first -/

/-- The number a list of bits stands for, most significant first. -/
def msbNat (bs : List Bool) : Nat := toNat bs.reverse

@[simp] theorem msbNat_nil : msbNat [] = 0 := rfl

theorem msbNat_concat (bs : List Bool) (b : Bool) : msbNat (bs ++ [b]) = 2 * msbNat bs + b.toNat := by
  simp [msbNat, Nat.add_comm]

theorem msbNat_append (a b : List Bool) : msbNat (a ++ b) = msbNat a * 2 ^ b.length + msbNat b := by
  rw [msbNat, List.reverse_append, toNat_append, List.length_reverse, msbNat, msbNat]
  ring

theorem msbNat_lt (bs : List Bool) : msbNat bs < 2 ^ bs.length := by
  have := toNat_lt bs.reverse
  rwa [List.length_reverse] at this

/-- Lists of bits of one length that stand for the same number, most significant first, are equal. -/
theorem msbNat_injective {a b : List Bool} (hl : a.length = b.length) (h : msbNat a = msbNat b) : a = b := by
  have := toNat_injective (a := a.reverse) (b := b.reverse) (by simp [hl]) h
  exact List.reverse_injective this

/-- The bits of a number of `n` bits, most significant first. -/
def ofNatMsb (n v : Nat) : List Bool := (ofNat n v).reverse

@[simp] theorem length_ofNatMsb (n v : Nat) : (ofNatMsb n v).length = n := by
  simp [ofNatMsb]

theorem msbNat_ofNatMsb (n v : Nat) : msbNat (ofNatMsb n v) = v % 2 ^ n := by
  rw [msbNat, ofNatMsb, List.reverse_reverse, toNat_ofNat]

end BitString
