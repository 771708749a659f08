import Mathlib.Data.List.Induction
import Noflate.Error
import Noflate.Lemmas.Checksums

/-!
# The checksums

From any state and in whatever pieces, `Crc32.update` takes bytes in as the reflected CRC-32 does bit by bit (`crc32_sliced`). The
sums of `Adler32.update` never wrap around: with additions that fail when they do, every call gives the same result
(`adler32_never_wraps`).
-/

namespace Noflate

/-! ## CRC-32 -/

namespace Crc32

/-- Updates in pieces, from any 32-bit state. -/
theorem foldl_update {c : Crc32} (h : c.state < 2 ^ 32) (pieces : List (List UInt8)) :
    (pieces.foldl update c).state = Crc.update polynomial c.state pieces.flatten := by
  induction pieces generalizing c with
  | nil => rfl
  | cons piece pieces ih =>
    have hstate : (c.update piece).state = Crc.update polynomial c.state piece := updateLoop_eq _ h piece
    have hlt : (c.update piece).state < 2 ^ 32 := by
      rw [hstate]
      exact Crc.update_lt polynomial_lt (by decide) _ h
    rw [List.foldl_cons, ih hlt, hstate, List.flatten_cons, Crc.update_append]

end Crc32

/-- From any state of 32 bits, updates with pieces of whatever lengths: the value is that of the CRC-32 of all the bytes, one bit at a
time, and depends on the pieces only through them. From the initial state it is the CRC-32 of the format. Sixteen bytes taken in by
the tables are the sixteen taken in one by one, from any state. -/
theorem crc32_sliced (state : UInt32) (pieces : List (List UInt8)) :
    (pieces.foldl Crc32.update { state := state.toNat }).value = Crc.update 0xEDB88320 state.toNat pieces.flatten ^^^ 0xFFFFFFFF ∧
    (∀ pieces' : List (List UInt8), pieces'.flatten = pieces.flatten →
      pieces'.foldl Crc32.update { state := state.toNat } = pieces.foldl Crc32.update { state := state.toNat }) ∧
    (pieces.foldl Crc32.update Crc32.new).value = Rfc1952.crc32 pieces.flatten ∧
    ∀ chunk : List UInt8, chunk.length = 16 → Crc32.sliceStep state.toNat chunk = chunk.foldl Crc32.byteStep state.toNat := by
  have hfold := fun pieces => Crc32.foldl_update (c := { state := state.toNat }) state.toNat_lt pieces
  refine ⟨?_, ?_, ?_, ?_⟩
  · rw [Crc32.value_eq_xor, hfold]
    · rfl
    · rw [hfold]
      exact Crc.update_lt Crc32.polynomial_lt (by decide) _ state.toNat_lt
  · intro pieces' hflat
    have hstate : (pieces'.foldl Crc32.update { state := state.toNat }).state =
        (pieces.foldl Crc32.update { state := state.toNat }).state := by
      rw [hfold, hfold, hflat]
    exact congrArg Crc32.mk hstate
  · have hof : Crc32.Of pieces.flatten (pieces.foldl Crc32.update Crc32.new) := Crc32.foldl_update (by decide) pieces
    exact hof.value_eq
  · intro chunk hlen
    rw [Crc32.sliceStep_eq state.toNat_lt hlen, Crc32.foldl_byteStep]

/-- Two pieces against one, and sixteen bytes. -/
theorem crc32_sliced_pieces :
    [[65, 66]].foldl Crc32.update { state := 0xFFFFFFFF } = [[65], [66]].foldl Crc32.update { state := 0xFFFFFFFF } ∧
      Crc32.sliceStep 0xFFFFFFFF (List.replicate 16 65) = (List.replicate 16 65).foldl Crc32.byteStep 0xFFFFFFFF :=
  have h := crc32_sliced 0xFFFFFFFF [[65], [66]]
  ⟨h.2.1 [[65, 66]] rfl, h.2.2.2 (List.replicate 16 65) rfl⟩

/-! ## Adler-32 -/

namespace Adler32

/-- `addByte` with additions that fail where they do not fit into 32 bits. -/
def addByteChecked (s : Adler32) (byte : UInt8) : Exec Adler32 := do
  let a ← Exec.checkedAdd 32 s.a byte.toNat
  let b ← Exec.checkedAdd 32 s.b a
  .ok { a, b }

/-- The loop of `update` with these additions. -/
def updateCheckedLoop : Nat → Adler32 → List UInt8 → Exec Adler32
  | 0, s, _ => .ok s
  | fuel + 1, s, data =>
    if data.isEmpty then .ok s
    else do
      let s ← (data.take nmax).foldlM addByteChecked s
      updateCheckedLoop fuel s.reduce (data.drop nmax)

/-- `update` with these additions. -/
def updateChecked (s : Adler32) (data : List UInt8) : Exec Adler32 := updateCheckedLoop data.length s data

/-- Where there is room for the bytes of a piece, no addition fails. -/
theorem foldlM_addByteChecked (chunk : List UInt8) {s : Adler32} (h : Room chunk.length s) :
    chunk.foldlM addByteChecked s = .ok (chunk.foldl addByte s) := by
  induction chunk generalizing s with
  | nil => rfl
  | cons x chunk ih =>
    obtain ⟨ha, hb, hadd, hroom⟩ := h.addByte x
    have hchecked : s.addByteChecked x = .ok (s.addByte x) := by
      rw [addByteChecked, Exec.checkedAdd_of_lt ha, Exec.ok_bind, Exec.checkedAdd_of_lt hb, Exec.ok_bind, hadd]
    rw [List.foldlM_cons, hchecked, Exec.ok_bind, ih hroom, List.foldl_cons]

/-- From reduced sums, no addition of an update fails, and its sums are reduced. -/
theorem updateCheckedLoop_eq (fuel : Nat) {s : Adler32} (h : s.a < base ∧ s.b < base) (data : List UInt8) :
    updateCheckedLoop fuel s data = .ok (updateLoop fuel s data) ∧
      (updateLoop fuel s data).a < base ∧ (updateLoop fuel s data).b < base := by
  induction fuel generalizing s data with
  | zero => exact ⟨rfl, h⟩
  | succ fuel ih =>
    rw [updateCheckedLoop, updateLoop]
    by_cases hdata : data.isEmpty = true
    · rw [if_pos hdata, if_pos hdata]
      exact ⟨rfl, h⟩
    · rw [if_neg hdata, if_neg hdata, foldlM_addByteChecked _ (room_of_lt h (List.length_take_le _ _)), Exec.ok_bind]
      exact ih (reduce_lt _) _

/-- The same for calls one after the other. -/
theorem foldlM_updateChecked (pieces : List (List UInt8)) {s : Adler32} (h : s.a < base ∧ s.b < base) :
    pieces.foldlM updateChecked s = .ok (pieces.foldl update s) ∧
      (pieces.foldl update s).a < base ∧ (pieces.foldl update s).b < base := by
  induction pieces generalizing s with
  | nil => exact ⟨rfl, h⟩
  | cons piece pieces ih =>
    obtain ⟨hchecked, hlt⟩ := updateCheckedLoop_eq piece.length h piece
    have hpiece : s.updateChecked piece = .ok (s.update piece) := hchecked
    rw [List.foldlM_cons, hpiece, Exec.ok_bind, List.foldl_cons]
    exact ih hlt

/-- The state of a checksum after calls with some pieces. -/
theorem foldl_update_of (pieces : List (List UInt8)) {data : List UInt8} {s : Adler32} (h : Of data s) :
    Of (data ++ pieces.flatten) (pieces.foldl update s) := by
  induction pieces generalizing data s with
  | nil => rwa [List.flatten_nil, List.append_nil]
  | cons piece pieces ih =>
    rw [List.flatten_cons, ← List.append_assoc]
    exact ih (h.update piece)

end Adler32

namespace Rfc1950

/-- One and the sum of all bytes. -/
def byteSum (data : List UInt8) : Nat := 1 + (data.map UInt8.toNat).sum

/-- The sum of the values that `byteSum` takes at each byte. -/
def prefixSum (data : List UInt8) : Nat := ((List.range data.length).map fun i => byteSum (data.take (i + 1))).sum

theorem byteSum_concat (data : List UInt8) (x : UInt8) : byteSum (data ++ [x]) = byteSum data + x.toNat := by
  simp [byteSum, Nat.add_assoc]

theorem prefixSum_concat (data : List UInt8) (x : UInt8) : prefixSum (data ++ [x]) = prefixSum data + byteSum (data ++ [x]) := by
  have hlen : (data ++ [x]).length = data.length + 1 := by simp
  have hfull : (data ++ [x]).take (data.length + 1) = data ++ [x] := by rw [← hlen, List.take_length]
  have hsame : (List.range data.length).map (fun i => byteSum ((data ++ [x]).take (i + 1))) =
      (List.range data.length).map fun i => byteSum (data.take (i + 1)) := by
    refine List.map_congr_left fun i hi => ?_
    have hlt := List.mem_range.mp hi
    rw [List.take_append_of_le_length (Nat.succ_le_of_lt hlt)]
  unfold prefixSum
  rw [hlen, List.range_succ, List.map_append, List.sum_append, hsame, List.map_singleton, List.sum_singleton, hfull]

/-- The two sums, reduced at every byte, are the sums reduced at the end. -/
theorem sums_eq (data : List UInt8) : sums (1, 0) data = (byteSum data % 65521, prefixSum data % 65521) := by
  induction data using List.reverseRecOn with
  | nil => rfl
  | append_singleton data x ih =>
    have hstep : sums (1, 0) (data ++ [x]) = sums (sums (1, 0) data) [x] := Adler32.sums_append _ _ _
    have ha : (byteSum data % 65521 + x.toNat) % 65521 = byteSum (data ++ [x]) % 65521 := by
      rw [byteSum_concat, Nat.mod_add_mod]
    rw [hstep, ih, sums, sums, ha, prefixSum_concat, ← Nat.add_mod]

end Rfc1950

/-- Calls of `update` with pieces of whatever lengths: the sums are below 65521 after each of them, and no addition wraps around, so
with additions that fail where they would the calls give the same. The value is made of the sum of all bytes and one, and of the sum
of the values that this sum takes, each modulo 65521. -/
theorem adler32_never_wraps (pieces : List (List UInt8)) :
    (pieces.foldl Adler32.update Adler32.new).a < 65521 ∧ (pieces.foldl Adler32.update Adler32.new).b < 65521 ∧
    pieces.foldlM Adler32.updateChecked Adler32.new = .ok (pieces.foldl Adler32.update Adler32.new) ∧
    (pieces.foldl Adler32.update Adler32.new).value =
      Rfc1950.prefixSum pieces.flatten % 65521 * 65536 + Rfc1950.byteSum pieces.flatten % 65521 := by
  obtain ⟨hchecked, ha, hb⟩ := Adler32.foldlM_updateChecked pieces (s := Adler32.new) ⟨by decide, by decide⟩
  refine ⟨ha, hb, hchecked, ?_⟩
  rw [(Adler32.foldl_update_of pieces Adler32.new_of).value_eq, List.nil_append, Rfc1950.adler32, Rfc1950.sums_eq]

end Noflate
