import Mathlib.Data.List.Basic

/-!
# Telling the formats apart

`Format::detect` of `lib.rs` looks at the first two bytes of a stream.
-/

namespace Noflate

/-- A compression format. -/
inductive StreamFormat where
  | deflate
  | zlib
  | gzip
  deriving DecidableEq, Repr

namespace StreamFormat

/-- Detect the format from the first bytes: the magic bytes of gzip, or a zlib header, or else raw deflate. -/
def detect : List UInt8 → Option StreamFormat
  | cmf :: flg :: _ =>
    if cmf = 0x1F ∧ flg = 0x8B then some .gzip
    else if cmf &&& 0x0F = 8 ∧ cmf >>> 4 ≤ 7 ∧ (cmf.toNat * 256 + flg.toNat) % 31 = 0 then some .zlib
    else some .deflate
  | _ => none

/-- The magic bytes of gzip. -/
theorem detect_gzip {cmf flg : UInt8} {rest : List UInt8} :
    detect (cmf :: flg :: rest) = some .gzip ↔ cmf = 0x1F ∧ flg = 0x8B := by
  rw [detect]
  split
  · exact ⟨fun _ => ‹_›, fun _ => rfl⟩
  · split
    · exact ⟨fun h => absurd h (by decide), fun h => absurd h ‹_›⟩
    · exact ⟨fun h => absurd h (by decide), fun h => absurd h ‹_›⟩

/-- A header of zlib, with or without a preset dictionary. -/
theorem detect_zlib {cmf flg : UInt8} {rest : List UInt8} :
    detect (cmf :: flg :: rest) = some .zlib ↔
      cmf.toNat % 16 = 8 ∧ cmf.toNat / 16 ≤ 7 ∧ (cmf.toNat * 256 + flg.toNat) % 31 = 0 := by
  have hlow : cmf &&& 0x0F = 8 ↔ cmf.toNat % 16 = 8 := by
    rw [← UInt8.toNat_inj, UInt8.toNat_and]
    exact (Nat.and_two_pow_sub_one_eq_mod cmf.toNat 4) ▸ Iff.rfl
  have hhigh : cmf >>> 4 ≤ 7 ↔ cmf.toNat / 16 ≤ 7 := by
    rw [UInt8.le_iff_toNat_le, UInt8.toNat_shiftRight]
    exact (Nat.shiftRight_eq_div_pow cmf.toNat 4) ▸ Iff.rfl
  rw [detect, ← hlow, ← hhigh]
  by_cases hmagic : cmf = 0x1F ∧ flg = 0x8B
  · rw [if_pos hmagic]
    refine ⟨fun h => absurd h (by decide), fun h => ?_⟩
    have hcmf := h.1
    rw [hmagic.1] at hcmf
    exact absurd hcmf (by decide)
  · rw [if_neg hmagic]
    split
    · exact ⟨fun _ => ‹_›, fun _ => rfl⟩
    · exact ⟨fun h => absurd h (by decide), fun h => absurd h ‹_›⟩

end StreamFormat

end Noflate
