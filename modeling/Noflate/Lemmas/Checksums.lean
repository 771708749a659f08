import Noflate.Crc32
import Noflate.Adler32
import Noflate.Rfc1950
import Noflate.Rfc1952

/-!
# The checksums against their formats

The tables of CRC-32 hold what a byte leaves after so many moves (`entry_eq`), so taking sixteen bytes at a time is taking them one
by one (`Crc32.value_eq`). The sums of Adler-32 never wrap around in a piece that is summed without reducing them
(`Adler32.value_eq`). In both, taking bytes in pieces is taking them at once.
-/

namespace Noflate

open BitString

/-! ## CRC-32 -/

namespace Crc32

theorem polynomial_lt : polynomial < 2 ^ 32 := by decide

theorem entryLoop_eq (n c : Nat) : entryLoop n c = Crc.shifts polynomial n c := by
  induction n generalizing c with
  | zero => rfl
  | succ n ih =>
    have hstep : (if c &&& 1 ≠ 0 then (c >>> 1) ^^^ polynomial else c >>> 1) = Crc.shift polynomial c := by
      rw [Crc.shift, Nat.and_one_is_mod, Nat.shiftRight_eq_div_pow, Nat.pow_one]
      rcases Nat.mod_two_eq_zero_or_one c with h | h
      · rw [if_neg (by rw [h]; decide), if_neg (by rw [h]; decide)]
      · rw [if_pos (by rw [h]; decide), if_pos h]
    rw [entryLoop, Crc.shifts, hstep, ih]

theorem and_255 (x : Nat) : x &&& 0xFF = x % 256 := Nat.and_two_pow_sub_one_eq_mod x 8

/-- What a table holds: a byte, moved over as many bytes as the table's number and one. -/
theorem makeTable_getD (k : Nat) {i : Nat} (hi : i < 256) :
    (makeTable k).getD i 0 = Crc.shifts polynomial (8 * (k + 1)) i ∧ (makeTable k).length = 256 := by
  induction k with
  | zero =>
    have hlen : table0.length = 256 := by rw [table0, List.length_map, List.length_range]
    refine ⟨?_, hlen⟩
    rw [makeTable, List.getD_eq_getElem _ _ (hi.trans_eq hlen.symm)]
    simp only [table0, List.getElem_map, List.getElem_range, entryLoop_eq]
  | succ k ih =>
    obtain ⟨hget, hlen⟩ := ih
    have hlen' : (makeTable (k + 1)).length = 256 := by rw [makeTable, List.length_map, hlen]
    refine ⟨?_, hlen'⟩
    have hrow : ∀ {j}, j < 256 → table0.getD j 0 = Crc.shifts polynomial 8 j := by
      intro j hj
      have hlen0 : table0.length = 256 := by rw [table0, List.length_map, List.length_range]
      rw [List.getD_eq_getElem _ _ (hj.trans_eq hlen0.symm)]
      simp only [table0, List.getElem_map, List.getElem_range, entryLoop_eq]
    have hi' : i < (makeTable k).length := hi.trans_eq hlen.symm
    rw [List.getD_eq_getElem _ _ hi'] at hget
    rw [List.getD_eq_getElem _ _ (hi.trans_eq hlen'.symm)]
    simp only [makeTable, List.getElem_map, hget]
    rw [and_255, hrow (Nat.mod_lt _ (by decide)), Nat.shiftRight_eq_div_pow, Nat.xor_comm,
      Nat.mul_succ 8 (k + 1), Crc.shifts_add]
    have hbyte := Crc.shifts_byte polynomial 0 (Crc.shifts polynomial (8 * (k + 1)) i)
    exact hbyte.symm

theorem entry_eq {k i : Nat} (hk : k < 16) (hi : i < 256) : entry k i = Crc.shifts polynomial (8 * (k + 1)) i := by
  have hrow : table.getD k [] = makeTable k := by
    have hlen : table.length = 16 := by rw [table, List.length_map, List.length_range]; rfl
    rw [List.getD_eq_getElem _ _ (hk.trans_eq hlen.symm)]
    simp only [table, List.getElem_map, List.getElem_range]
  rw [entry, hrow, (makeTable_getD k hi).1]

/-- Moving down a word and what is above it: the word's bytes by the tables. -/
theorem shifts_word {n : Nat} (hn : n + 3 < 16) {w : Nat} (hw : w < 2 ^ 32) (y : Nat) :
    Crc.shifts polynomial (8 * (n + 4)) (w + 2 ^ 32 * y) =
      entry (n + 3) (w &&& 0xFF) ^^^ (entry (n + 2) ((w >>> 8) &&& 0xFF) ^^^ (entry (n + 1) ((w >>> 16) &&& 0xFF) ^^^
        (entry n (w >>> 24) ^^^ Crc.shifts polynomial (8 * n) y))) := by
  have h8 : w >>> 8 = w / 256 := Nat.shiftRight_eq_div_pow w 8
  have h16 : w >>> 16 = w / 65536 := Nat.shiftRight_eq_div_pow w 16
  have h24 : w >>> 24 = w / 16777216 := Nat.shiftRight_eq_div_pow w 24
  rw [and_255, and_255, and_255, h8, h16, h24, entry_eq (by omega) (by omega), entry_eq (by omega) (by omega),
    entry_eq (by omega) (by omega), entry_eq (by omega) (by omega)]
  rw [Crc.shifts_byte polynomial (n + 3), Crc.shifts_byte polynomial (n + 2), Crc.shifts_byte polynomial (n + 1),
    Crc.shifts_byte polynomial n]
  have e1 : (w + 2 ^ 32 * y) % 256 = w % 256 := by omega
  have e2 : (w + 2 ^ 32 * y) / 256 % 256 = w / 256 % 256 := by omega
  have e3 : (w + 2 ^ 32 * y) / 256 / 256 % 256 = w / 65536 % 256 := by omega
  have e4 : (w + 2 ^ 32 * y) / 256 / 256 / 256 % 256 = w / 16777216 := by omega
  have e5 : (w + 2 ^ 32 * y) / 256 / 256 / 256 / 256 = y := by omega
  rw [e1, e2, e3, e4, e5]

/-- Taking a byte in by the table. -/
theorem byteStep_eq (crc : Nat) (b : UInt8) : byteStep crc b = Crc.update polynomial crc [b] := by
  have hb := b.toNat_lt
  have hhigh : (crc ^^^ b.toNat) / 256 = crc / 256 := by
    have h := Nat.xor_div_two_pow (a := crc) (b := b.toNat) (n := 8)
    rw [Nat.div_eq_of_lt hb, Nat.xor_zero] at h
    exact h
  have hbyte := Crc.shifts_byte polynomial 0 (crc ^^^ b.toNat)
  rw [byteStep, and_255, entry_eq (by decide) (Nat.mod_lt _ (by decide)), Nat.shiftRight_eq_div_pow, Nat.xor_comm]
  exact (congrArg _ hhigh.symm).trans hbyte.symm

theorem foldl_byteStep (crc : Nat) (data : List UInt8) : data.foldl byteStep crc = Crc.update polynomial crc data := by
  induction data generalizing crc with
  | nil => rfl
  | cons b data ih => rw [List.foldl_cons, ih, byteStep_eq]; rfl

/-- Taking sixteen bytes in by the tables. -/
theorem sliceStep_eq {crc : Nat} (hcrc : crc < 2 ^ 32) {chunk : List UInt8} (hlen : chunk.length = 16) :
    sliceStep crc chunk = Crc.update polynomial crc chunk := by
  have hsplit : chunk = chunk.take 4 ++ ((chunk.drop 4).take 4 ++ ((chunk.drop 8).take 4 ++ (chunk.drop 12).take 4)) := by
    have h12 : (chunk.drop 12).take 4 = chunk.drop 12 := by
      refine List.take_of_length_le ?_
      rw [List.length_drop]
      omega
    have h8 : chunk.drop 8 = (chunk.drop 8).take 4 ++ chunk.drop 12 := by
      conv_lhs => rw [← List.take_append_drop 4 (chunk.drop 8), List.drop_drop]
    have h4 : chunk.drop 4 = (chunk.drop 4).take 4 ++ chunk.drop 8 := by
      conv_lhs => rw [← List.take_append_drop 4 (chunk.drop 4), List.drop_drop]
    rw [h12, ← h8, ← h4, List.take_append_drop]
  have hl : ∀ k, k + 4 ≤ 16 → ((chunk.drop k).take 4).length = 4 := by
    intro k hk
    rw [List.length_take, List.length_drop]
    omega
  have hl0 : (chunk.take 4).length = 4 := hl 0 (by decide)
  have hl4 := hl 4 (by decide)
  have hl8 := hl 8 (by decide)
  have hl12 := hl 12 (by decide)
  have hv0 := leNat_lt (chunk.take 4)
  have hv4 := leNat_lt ((chunk.drop 4).take 4)
  have hv8 := leNat_lt ((chunk.drop 8).take 4)
  have hv12 := leNat_lt ((chunk.drop 12).take 4)
  rw [hl0] at hv0
  rw [hl4] at hv4
  rw [hl8] at hv8
  rw [hl12] at hv12
  have hle : leNat chunk = leNat (chunk.take 4) + 2 ^ 32 * (leNat ((chunk.drop 4).take 4) + 2 ^ 32 *
      (leNat ((chunk.drop 8).take 4) + 2 ^ 32 * (leNat ((chunk.drop 12).take 4) + 2 ^ 32 * 0))) := by
    conv_lhs => rw [hsplit]
    rw [leNat_append, leNat_append, leNat_append, hl0, hl4, hl8]
    rfl
  have hw0 : leNat (chunk.take 4) ^^^ crc < 2 ^ 32 := Nat.xor_lt_two_pow hv0 hcrc
  have hxor : ∀ y, crc ^^^ (leNat (chunk.take 4) + 2 ^ 32 * y) = (leNat (chunk.take 4) ^^^ crc) + 2 ^ 32 * y := by
    intro y
    rw [← Crc.xor_mul_eq_add y hv0, ← Nat.xor_assoc, Nat.xor_comm crc, Crc.xor_mul_eq_add y hw0]
  rw [Crc.update_eq_shifts, hlen, hle, hxor, shifts_word (n := 12) (by decide) hw0, shifts_word (n := 8) (by decide) hv4,
    shifts_word (n := 4) (by decide) hv8, shifts_word (n := 0) (by decide) hv12]
  simp only [sliceStep, Nat.zero_add, Crc.shifts, Nat.xor_zero, Nat.xor_assoc]

theorem updateLoop_eq (fuel : Nat) {crc : Nat} (hcrc : crc < 2 ^ 32) (data : List UInt8) :
    updateLoop fuel crc data = Crc.update polynomial crc data := by
  induction fuel generalizing crc data with
  | zero => exact foldl_byteStep crc data
  | succ fuel ih =>
    rw [updateLoop]
    by_cases h : slice ≤ data.length
    · have hlen : (data.take slice).length = 16 := List.length_take_of_le h
      rw [if_pos h, sliceStep_eq hcrc hlen, ih (Crc.update_lt polynomial_lt (by decide) _ hcrc),
        ← Crc.update_append, List.take_append_drop]
    · rw [if_neg h]
      exact foldl_byteStep crc data

/-- The checksum of some bytes, in the state of a checksum. -/
def Of (data : List UInt8) (c : Crc32) : Prop := c.state = Crc.update polynomial 0xFFFFFFFF data

theorem new_of : Of [] new := rfl

theorem Of.update {data : List UInt8} {c : Crc32} (h : Of data c) (more : List UInt8) : Of (data ++ more) (c.update more) := by
  have hlt : c.state < 2 ^ 32 := by
    rw [h]
    exact Crc.update_lt polynomial_lt (by decide) _ (by decide)
  unfold Of Crc32.update
  simp only
  rw [updateLoop_eq _ hlt, h, ← Crc.update_append]

/-- The value is the state with its 32 bits inverted. -/
theorem value_eq_xor {c : Crc32} (h : c.state < 2 ^ 32) : c.value = c.state ^^^ 0xFFFFFFFF := by
  have hbits := congrArg BitVec.toNat (BitVec.xor_allOnes (x := BitVec.ofNat 32 c.state))
  rw [BitVec.toNat_xor, BitVec.toNat_allOnes, BitVec.toNat_not, BitVec.toNat_ofNat, Nat.mod_eq_of_lt h] at hbits
  exact hbits.symm

/-- The value of a checksum is the CRC-32 of the bytes it was fed. -/
theorem Of.value_eq {data : List UInt8} {c : Crc32} (h : Of data c) : c.value = Rfc1952.crc32 data := by
  have hlt : c.state < 2 ^ 32 := by
    rw [h]
    exact Crc.update_lt polynomial_lt (by decide) _ (by decide)
  rw [value_eq_xor hlt, Rfc1952.crc32]
  exact congrArg (· ^^^ 0xFFFFFFFF) h

theorem crc32_lt (data : List UInt8) : Rfc1952.crc32 data < 2 ^ 32 :=
  Nat.xor_lt_two_pow (Crc.update_lt (by decide) (by decide) _ (by decide)) (by decide)

end Crc32

/-! ## Adler-32 -/

namespace Adler32

theorem sums_append (s : Nat × Nat) (a b : List UInt8) : Rfc1950.sums s (a ++ b) = Rfc1950.sums (Rfc1950.sums s a) b := by
  induction a generalizing s with
  | nil => rfl
  | cons x a ih => exact ih _

theorem sums_lt (data : List UInt8) {s : Nat × Nat} (h : s.1 < base ∧ s.2 < base) :
    (Rfc1950.sums s data).1 < base ∧ (Rfc1950.sums s data).2 < base := by
  induction data generalizing s with
  | nil => exact h
  | cons x data ih => exact ih ⟨Nat.mod_lt _ (by decide), Nat.mod_lt _ (by decide)⟩

/-- Sums so small that some more bytes, whatever they are, can be added without wrapping around. -/
structure Room (n : Nat) (s : Adler32) : Prop where
  a_lt : s.a + 255 * n < 2 ^ 32
  b_lt : 2 * s.b + 2 * (n * s.a) + 255 * (n * (n + 1)) < 2 ^ 33

/-- Adding a byte where there is room for one: both additions are exact, and there is room for one byte less. -/
theorem Room.addByte {n : Nat} {s : Adler32} (h : Room (n + 1) s) (x : UInt8) :
    s.a + x.toNat < 2 ^ 32 ∧ s.b + (s.a + x.toNat) < 2 ^ 32 ∧ s.addByte x = { a := s.a + x.toNat, b := s.b + (s.a + x.toNat) } ∧
      Room n (s.addByte x) := by
  have ha := h.a_lt
  have hb := h.b_lt
  have hx : x.toNat ≤ 255 := Nat.le_of_lt_succ x.toNat_lt
  have hnx : n * x.toNat ≤ 255 * n := by
    rw [Nat.mul_comm 255]
    exact Nat.mul_le_mul_left n hx
  have hmul : (n + 1) * s.a = n * s.a + s.a := Nat.succ_mul n s.a
  have hsq : (n + 1) * (n + 1 + 1) = n * (n + 1) + 2 * n + 2 := by ring
  have ha' : s.a + x.toNat < 2 ^ 32 := by omega
  have hb' : s.b + (s.a + x.toNat) < 2 ^ 32 := by omega
  have hadd : s.addByte x = { a := s.a + x.toNat, b := s.b + (s.a + x.toNat) } := by
    rw [Adler32.addByte, Nat.mod_eq_of_lt ha', Nat.mod_eq_of_lt hb']
  have hmul' : n * (s.a + x.toNat) = n * s.a + n * x.toNat := Nat.mul_add n s.a x.toNat
  refine ⟨ha', hb', hadd, ?_⟩
  rw [hadd]
  constructor
  · simp only
    omega
  · simp only [hmul']
    omega

/-- From reduced sums there is room for a whole piece. -/
theorem room_of_lt {s : Adler32} (h : s.a < base ∧ s.b < base) {n : Nat} (hn : n ≤ nmax) : Room n s := by
  have hbase : base = 65521 := rfl
  have hmax : nmax = 5552 := rfl
  rw [hmax] at hn
  have hsq : n * (n + 1) ≤ 5552 * 5553 := Nat.mul_le_mul hn (Nat.succ_le_succ hn)
  have hmul := Nat.mul_le_mul hn (Nat.le_of_lt h.1)
  constructor
  · omega
  · omega

/-- Adding bytes where there is room for them: the sums are those of the format, up to the modulus. -/
theorem foldl_addByte (chunk : List UInt8) {s : Adler32} (h : Room chunk.length s) :
    ((chunk.foldl addByte s).a % base, (chunk.foldl addByte s).b % base) =
      Rfc1950.sums (s.a % base, s.b % base) chunk := by
  induction chunk generalizing s with
  | nil => rfl
  | cons x chunk ih =>
    obtain ⟨-, -, hadd, hroom⟩ := h.addByte x
    have hsums : Rfc1950.sums (s.a % base, s.b % base) (x :: chunk) =
        Rfc1950.sums ((s.a + x.toNat) % base, (s.b + (s.a + x.toNat)) % base) chunk := by
      rw [Rfc1950.sums]
      have h1 : (s.a % base + x.toNat) % 65521 = (s.a + x.toNat) % base := Nat.mod_add_mod _ _ _
      have h2 : (s.b % base + (s.a + x.toNat) % base) % 65521 = (s.b + (s.a + x.toNat)) % base :=
        (Nat.add_mod _ _ _).symm
      rw [h1, h2]
    rw [List.foldl_cons, ih hroom, hadd, hsums]

/-- Reduced sums are below the modulus. -/
theorem reduce_lt (s : Adler32) : s.reduce.a < base ∧ s.reduce.b < base := ⟨Nat.mod_lt _ (by decide), Nat.mod_lt _ (by decide)⟩

theorem updateLoop_eq (fuel : Nat) {s : Adler32} (h : s.a < base ∧ s.b < base) {data : List UInt8} (hf : data.length ≤ fuel) :
    ((updateLoop fuel s data).a, (updateLoop fuel s data).b) = Rfc1950.sums (s.a, s.b) data := by
  induction fuel generalizing s data with
  | zero =>
    obtain rfl := List.eq_nil_of_length_eq_zero (Nat.le_zero.mp hf)
    rfl
  | succ fuel ih =>
    rw [updateLoop]
    cases data with
    | nil => rfl
    | cons x data =>
      have hpiece := foldl_addByte ((x :: data).take nmax) (room_of_lt h (List.length_take_le _ _))
      rw [Nat.mod_eq_of_lt h.1, Nat.mod_eq_of_lt h.2] at hpiece
      have hlen : ((x :: data).drop nmax).length ≤ fuel := by
        have hmax : nmax = 5552 := rfl
        rw [List.length_drop, List.length_cons]
        rw [List.length_cons] at hf
        omega
      simp only [List.isEmpty_cons, Bool.false_eq_true, if_false]
      rw [ih (reduce_lt _) hlen]
      have hsums : ((((x :: data).take nmax).foldl addByte s).reduce.a, (((x :: data).take nmax).foldl addByte s).reduce.b) =
          Rfc1950.sums (s.a, s.b) ((x :: data).take nmax) := hpiece
      rw [hsums, ← sums_append, List.take_append_drop]

/-- The checksum of some bytes, in the state of a checksum. -/
def Of (data : List UInt8) (s : Adler32) : Prop := (s.a, s.b) = Rfc1950.sums (1, 0) data

theorem new_of : Of [] new := rfl

theorem Of.lt {data : List UInt8} {s : Adler32} (h : Of data s) : s.a < base ∧ s.b < base := by
  have hlt := sums_lt data (s := (1, 0)) ⟨by decide, by decide⟩
  rwa [← h] at hlt

theorem Of.update {data : List UInt8} {s : Adler32} (h : Of data s) (more : List UInt8) : Of (data ++ more) (s.update more) := by
  unfold Of Adler32.update
  rw [updateLoop_eq _ h.lt le_rfl, h, sums_append]

/-- The value of a checksum is the Adler-32 of the bytes it was fed. -/
theorem Of.value_eq {data : List UInt8} {s : Adler32} (h : Of data s) : s.value = Rfc1950.adler32 data := by
  have hlt := h.lt
  have hbase : base = 65521 := rfl
  have hshift : s.b <<< 16 < 2 ^ 32 := by
    rw [Nat.shiftLeft_eq]
    omega
  have ha : s.a < 2 ^ 16 := by omega
  rw [value, Nat.mod_eq_of_lt hshift, Nat.or_comm, or_shiftLeft s.b ha, Rfc1950.adler32, ← h]
  simp only
  omega

theorem adler32_lt (data : List UInt8) : Rfc1950.adler32 data < 2 ^ 32 := by
  have hlt := sums_lt data (s := (1, 0)) ⟨by decide, by decide⟩
  have hbase : base = 65521 := rfl
  rw [Rfc1950.adler32]
  simp only
  omega

end Adler32

end Noflate
