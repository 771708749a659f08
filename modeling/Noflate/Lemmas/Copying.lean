import Noflate.Machine
import Noflate.General.Periodic

/-!
# Back-references

The decoder copies a back-reference out of its window in whole slices, doubling the slice when the copy overlaps its own output;
the reference copies one byte at a time out of the whole output. Both append the bytes at the distance, repeated as often as the
length asks for.
-/

namespace Noflate

open Periodic

/-- Copying one byte at a time repeats the last bytes. -/
theorem copyBytes_eq {distance : Nat} (length : Nat) {output : List UInt8} (h0 : 0 < distance)
    (h : distance ≤ output.length) :
    Rfc1951.copyBytes distance length output = some (output ++ cycle (output.drop (output.length - distance)) length) := by
  induction length generalizing output with
  | zero => simp [Rfc1951.copyBytes]
  | succ length ih =>
    have hlt : output.length - distance < output.length := by omega
    have hget : output.getD (output.length - distance) 0 = output[output.length - distance] := by
      rw [List.getD_eq_getElem?_getD, List.getElem?_eq_getElem hlt, Option.getD_some]
    have hlen : (output ++ [output[output.length - distance]]).length = output.length + 1 := by simp
    have hdrop : (output ++ [output[output.length - distance]]).drop (output.length + 1 - distance) =
        output.drop (output.length - distance + 1) ++ [output[output.length - distance]] := by
      rw [show output.length + 1 - distance = output.length - distance + 1 by omega,
        List.drop_append_of_le_length (by omega)]
    rw [Rfc1951.copyBytes, if_pos ⟨h0, h⟩, hget, ih (by rw [hlen]; omega), hlen, hdrop,
      List.drop_eq_getElem_cons hlt, cycle_succ, List.append_assoc, List.singleton_append]

/-- A reference further back than the output goes cannot be copied. -/
theorem copyBytes_none {distance length : Nat} {output : List UInt8} (hl : 0 < length)
    (h : ¬(0 < distance ∧ distance ≤ output.length)) : Rfc1951.copyBytes distance length output = none := by
  obtain ⟨n, rfl⟩ : ∃ n, length = n + 1 := ⟨length - 1, by omega⟩
  rw [Rfc1951.copyBytes, if_neg h]

/-- The copy loop, once some whole periods have been copied. -/
theorem copyLoop_eq {distance : Nat} (length fuel emitted : Nat) {output : List UInt8} (h0 : 0 < distance)
    (h : distance ≤ output.length) (hdvd : distance ∣ emitted ∨ emitted = length) (hle : emitted ≤ length)
    (hf : length ≤ emitted + fuel) :
    copyLoop distance length fuel emitted (output ++ cycle (output.drop (output.length - distance)) emitted) =
      .ok (output ++ cycle (output.drop (output.length - distance)) length) := by
  induction fuel generalizing emitted with
  | zero =>
    obtain rfl : emitted = length := by omega
    unfold copyLoop
    simp only [Nat.lt_irrefl, if_false]
  | succ fuel ih =>
    unfold copyLoop
    by_cases hlt : emitted < length
    · have hd : distance ∣ emitted := hdvd.resolve_right (by omega)
      have hseed : (output.drop (output.length - distance)).length = distance := by
        rw [List.length_drop]
        omega
      generalize hs : output.drop (output.length - distance) = seed at *
      have hlen : (output ++ cycle seed emitted).length = output.length + emitted := by simp
      have hguard : ¬((output ++ cycle seed emitted).length < distance + emitted ∨
          (output ++ cycle seed emitted).length < (output ++ cycle seed emitted).length - (distance + emitted) +
            min (distance + emitted) (length - emitted)) := by
        rw [hlen]
        omega
      -- the tail that is copied from: the seed and the periods behind it, which are periods of the seed again
      have htail : (output ++ cycle seed emitted).drop ((output ++ cycle seed emitted).length - (distance + emitted)) =
          cycle seed (distance + emitted) := by
        have hone : cycle seed distance = seed := by
          rw [cycle_of_le (le_of_eq hseed.symm), List.take_of_length_le (le_of_eq hseed)]
        rw [hlen, show output.length + emitted - (distance + emitted) = output.length - distance by omega,
          List.drop_append_of_le_length (by omega), hs, cycle_add (by rw [hseed]), hone]
      simp only [if_pos hlt, if_neg hguard]
      rw [htail, take_cycle _ (Nat.min_le_left _ _), List.append_assoc, ← cycle_add (by rw [hseed]; exact hd)]
      refine ih (emitted + min (distance + emitted) (length - emitted)) ?_ (by omega) (by omega)
      rcases Nat.le_total (distance + emitted) (length - emitted) with hm | hm
      · left
        rw [Nat.min_eq_left hm]
        exact Nat.dvd_add hd (Nat.dvd_add (Nat.dvd_refl _) hd)
      · right
        rw [Nat.min_eq_right hm]
        omega
    · obtain rfl : emitted = length := by omega
      simp only [Nat.lt_irrefl, if_false]

/-- A back-reference the output reaches: the decoder appends the same bytes as the reference. -/
theorem copyFromDistance_eq {distance length : Nat} {output : List UInt8} (h0 : 0 < distance)
    (h : distance ≤ output.length) :
    copyFromDistance output distance length = .ok (output ++ cycle (output.drop (output.length - distance)) length) := by
  have hguard : ¬(distance = 0 ∨ output.length < distance) := by omega
  rw [copyFromDistance, if_neg hguard]
  by_cases hl : length ≤ distance
  · have hguard' : ¬output.length < output.length - distance + length := by omega
    simp only [if_pos hl, if_neg hguard']
    rw [cycle_of_le (by rw [List.length_drop]; omega)]
  · simp only [if_neg hl]
    have hc := copyLoop_eq length length 0 h0 h (.inl (Nat.dvd_zero _)) (Nat.zero_le _) (by omega)
    rwa [cycle_zero, List.append_nil] at hc

/-- Whether the window kept of a history is all of it or as long as a distance can reach. -/
def Window (dropped output : List UInt8) : Prop := dropped = [] ∨ windowSize ≤ output.length

/-- Copying out of the window against copying out of the history: a distance that the history reaches, the window reaches. -/
theorem copyFromDistance_window {distance length : Nat} {dropped output : List UInt8} (hw : Window dropped output)
    (hl : 0 < length) (hd : distance ≤ windowSize) :
    match Rfc1951.copyBytes distance length (dropped ++ output) with
    | none => ∃ e, copyFromDistance output distance length = .err e
    | some history => ∃ output', copyFromDistance output distance length = .ok output' ∧ history = dropped ++ output' ∧
        output'.length = output.length + length := by
  by_cases hreach : 0 < distance ∧ distance ≤ output.length
  · obtain ⟨h0, hle⟩ := hreach
    have hle' : distance ≤ (dropped ++ output).length := by
      rw [List.length_append]
      omega
    have hdrop : (dropped ++ output).drop ((dropped ++ output).length - distance) =
        output.drop (output.length - distance) := by
      rw [List.length_append, show dropped.length + output.length - distance =
        dropped.length + (output.length - distance) by omega, List.drop_length_add_append]
    rw [copyBytes_eq length h0 hle', hdrop]
    exact ⟨_, copyFromDistance_eq h0 hle, by rw [List.append_assoc], by simp⟩
  · have hnone : ¬(0 < distance ∧ distance ≤ (dropped ++ output).length) := by
      rintro ⟨h0, hle⟩
      refine hreach ⟨h0, ?_⟩
      rcases hw with rfl | hw
      · simpa using hle
      · exact hd.trans hw
    rw [copyBytes_none hl hnone]
    have hguard : distance = 0 ∨ output.length < distance := by omega
    exact ⟨_, by rw [copyFromDistance, if_pos hguard]⟩

end Noflate
