import Noflate.Error
import Noflate.Strict
import Noflate.Lemmas.Codes

/-!
# The tables of the decoder

`HuffmanDecoder.fromCodeLengths` never computes a Kraft sum, and still takes exactly the code lengths whose Kraft sum is at most one;
its slots are those of the canonical codes, and its running code value stays below `2 ^ 16` (`fromCodeLengths_exact`).
-/

namespace Noflate

open BitString

namespace HuffmanDecoder

/-- The loop of `fromCodeLengths` with a shift of the running code value that fails where it would drop bits. -/
def assignCheckedLoop (maxBits : Nat) (eobSymbol : Option Nat) :
    List (Nat × Nat) → Nat → Nat → Nat → Array Nat → Exec (Array Nat × Nat)
  | [], _, _, actualSafelyPeek, table => .ok (table, actualSafelyPeek)
  | (symbol, width) :: entries, code, previousWidth, actualSafelyPeek, table =>
    if width < previousWidth ∨ 16 ≤ width - previousWidth then .panic
    else if 2 ^ 16 ≤ code <<< (width - previousWidth) then .panic
    else do
      let code := code <<< (width - previousWidth)
      let reversed := reverseBits code width
      let value := ((symbol <<< 5) % 2 ^ 16) ||| width
      let table ← fillLoop reversed width value (1 <<< (maxBits - width)) 0 table
      let actualSafelyPeek := if some symbol = eobSymbol then width else actualSafelyPeek
      if 2 ^ 16 ≤ code + 1 then .panic else assignCheckedLoop maxBits eobSymbol entries (code + 1) width actualSafelyPeek table

/-- `fromCodeLengths` with this shift. -/
def fromCodeLengthsChecked (lengths : List Nat) (safelyPeekBits eobSymbol : Option Nat) : Exec HuffmanDecoder :=
  let maxBits := lengths.foldl max 0
  if maxBits = 0 then .err (.invalidData "huffman table is empty")
  else if Noflate.maxBits < maxBits then .err (.invalidData "huffman table uses too many bits")
  else do
    let result ← assignCheckedLoop maxBits eobSymbol (sortedSymbols lengths) 0 0 (safelyPeekBits.getD maxBits)
      (Array.replicate (1 <<< maxBits) emptySlot)
    .ok { table := result.1, safelyPeekBits := min maxBits (max result.2 1), maxBits }

/-- No shift of the running code value drops bits. -/
theorem assignCheckedLoop_eq {M : Nat} (eobSymbol : Option Nat) (hM : M ≤ 15) (es rest : List (Nat × Nat))
    (code previousWidth peek : Nat) {table : Array Nat} (hentries : ∀ e ∈ es ++ rest, e.1 < 2 ^ 11 ∧ e.2 ≤ M)
    (hordered : Canonical.Ordered rest) (hprev : ∀ e ∈ rest, previousWidth ≤ e.2) (h : Assigned M es code previousWidth table) :
    assignCheckedLoop M eobSymbol rest code previousWidth peek table = assignLoop M eobSymbol rest code previousWidth peek table := by
  induction rest generalizing es code previousWidth peek table with
  | nil => rfl
  | cons e rest ih =>
    obtain ⟨s, w⟩ := e
    have hpw : previousWidth ≤ w := hprev (s, w) List.mem_cons_self
    obtain ⟨hs, hwM⟩ := hentries (s, w) (by simp)
    simp only at hs hwM
    obtain ⟨hle, hnext⟩ := h.next hM hpw hwM hs (fun e he => (hentries e (by simp [he])).2.trans hM)
    have h15 : 2 ^ w ≤ 2 ^ 15 := Nat.pow_le_pow_right (by omega) (by omega)
    have hlt : code <<< (w - previousWidth) < 2 ^ 16 := by omega
    have hguard : ¬(w < previousWidth ∨ 16 ≤ w - previousWidth) := by omega
    have hcarry : ¬2 ^ 16 ≤ code <<< (w - previousWidth) + 1 := by omega
    obtain ⟨hfirst, hordered'⟩ := List.pairwise_cons.mp hordered
    have hsplit : es ++ (s, w) :: rest = (es ++ [(s, w)]) ++ rest := by simp
    rw [assignCheckedLoop, assignLoop, if_neg hguard, if_neg hguard, if_neg (Nat.not_le.mpr hlt)]
    simp only [Nat.mod_eq_of_lt hlt]
    rcases hnext with ⟨table', h1, h2⟩ | ⟨-, h1⟩
    · rw [h1, Exec.ok_bind, Exec.ok_bind, if_neg hcarry, if_neg hcarry]
      exact ih _ _ _ _ (by rwa [← hsplit]) hordered' hfirst h2
    · rw [h1, Exec.err_bind, Exec.err_bind]

theorem fromCodeLengthsChecked_eq {lengths : List Nat} (peek eobSymbol : Option Nat) (hlen : lengths.length ≤ 2 ^ 11) :
    fromCodeLengthsChecked lengths peek eobSymbol = fromCodeLengths lengths peek eobSymbol := by
  unfold fromCodeLengthsChecked fromCodeLengths
  by_cases hpos : lengths.foldl max 0 = 0
  · simp only [if_pos hpos]
  · by_cases hM : Noflate.maxBits < lengths.foldl max 0
    · simp only [if_neg hpos, if_pos hM]
    · have hM15 : lengths.foldl max 0 ≤ 15 := by
        unfold Noflate.maxBits at hM
        omega
      have hloop := assignCheckedLoop_eq eobSymbol hM15 [] (Canonical.sorted lengths) 0 0 (peek.getD (lengths.foldl max 0))
        (sorted_bounds hlen (foldl_max_le.mp (Nat.le_refl _))) (Canonical.sorted_ordered lengths) (fun _ _ => Nat.zero_le _)
        (.start (holds_empty _))
      have hsorted : sortedSymbols lengths = Canonical.sorted lengths := rfl
      simp only [if_neg hpos, if_neg hM, hsorted, hloop]

end HuffmanDecoder

/-- The entry of a slot is the symbol whose code, reversed, is the low bits of the index of the slot. -/
theorem TableOf.locate_iff {dec : HuffmanDecoder} {lengths : List Nat} (h : TableOf dec lengths) (hfits : Fits lengths) (i s w : Nat) :
    Canonical.locate dec.maxBits (Canonical.sorted lengths) (streamOf dec.maxBits i) = some (s, w) ↔
      lengths[s]? = some w ∧ 0 < w ∧ i % 2 ^ w = reverseBits (Canonical.code lengths s) w := by
  rw [Canonical.locate_iff_code h.widths_le]
  refine and_congr_right fun hs => and_congr_right fun hw => ?_
  have hwM : w ≤ dec.maxBits := h.widths_le w (List.mem_of_getElem? hs)
  have hM := h.maxBits_le
  have hcode := hfits.code_lt (hasCode_of_getElem? hs hw)
  rw [List.getD_eq_getElem?_getD, hs, Option.getD_some] at hcode
  rw [streamOf_div hwM, reverseBits_eq _ (by omega), mod_eq_reverse_iff i hcode]

/-- For every vector of up to 288 code lengths: a table comes out exactly when some length is not zero, none is above 15 and the Kraft
sum is at most one. Each of its `2 ^ maxBits` slots then holds the symbol, and its width, whose canonical code is the low bits of the
index of the slot in reverse order, or the empty mark when there is none. No shift of the running code value drops bits, whether a table
comes out or not. -/
theorem fromCodeLengths_exact (lengths : List Nat) (peek eobSymbol : Option Nat) (hlen : lengths.length ≤ 288) :
    ((∃ dec, HuffmanDecoder.fromCodeLengths lengths peek eobSymbol = .ok dec) ↔
      (∃ w ∈ lengths, w ≠ 0) ∧ (∀ w ∈ lengths, w ≤ 15) ∧ kraftSum 15 lengths ≤ 2 ^ 15) ∧
    ((∃ dec, HuffmanDecoder.fromCodeLengths lengths peek eobSymbol = .ok dec) ∨
      ∃ e, HuffmanDecoder.fromCodeLengths lengths peek eobSymbol = .err e) ∧
    (∀ dec, HuffmanDecoder.fromCodeLengths lengths peek eobSymbol = .ok dec →
      dec.maxBits = lengths.foldl max 0 ∧ dec.table.size = 2 ^ dec.maxBits ∧
      ∀ i < 2 ^ dec.maxBits,
        (∀ s w, lengths[s]? = some w → 0 < w → i % 2 ^ w = reverseBits (Canonical.code lengths s) w →
          dec.table[i]? = some ((s <<< 5) ||| w)) ∧
        ((∀ s w, lengths[s]? = some w → 0 < w → i % 2 ^ w ≠ reverseBits (Canonical.code lengths s) w) →
          dec.table[i]? = some emptySlot)) ∧
    HuffmanDecoder.fromCodeLengthsChecked lengths peek eobSymbol = HuffmanDecoder.fromCodeLengths lengths peek eobSymbol := by
  have hlen11 : lengths.length ≤ 2 ^ 11 := by omega
  have hfits : Fits lengths ↔ (∃ w ∈ lengths, w ≠ 0) ∧ (∀ w ∈ lengths, w ≤ 15) ∧ kraftSum 15 lengths ≤ 2 ^ 15 := by
    have hkraft : kraftSum 15 lengths = Canonical.weight 15 (Canonical.sorted lengths) := (Canonical.weight_sorted 15 lengths).symm
    rw [hkraft]
    constructor
    · rintro ⟨⟨w, hw, hpos⟩, hmax, hsum⟩
      exact ⟨⟨w, hw, Nat.ne_of_gt hpos⟩, hmax, hsum⟩
    · rintro ⟨⟨w, hw, hne⟩, hmax, hsum⟩
      exact ⟨⟨w, hw, Nat.pos_of_ne_zero hne⟩, hmax, hsum⟩
  rw [← hfits]
  by_cases h : Fits lengths
  · obtain ⟨dec, hdec, htable, hmax, -⟩ := fromCodeLengths_ok peek eobSymbol hlen11 h
    refine ⟨⟨fun _ => h, fun _ => ⟨dec, hdec⟩⟩, .inl ⟨dec, hdec⟩, ?_, HuffmanDecoder.fromCodeLengthsChecked_eq peek eobSymbol hlen11⟩
    intro dec' hdec'
    obtain rfl := Exec.ok.inj (hdec.symm.trans hdec')
    refine ⟨hmax, htable.holds.1, ?_⟩
    intro i hi
    have hslot := htable.holds.2 i hi
    refine ⟨?_, ?_⟩
    · intro s w hs hw hlow
      have hbounds := sorted_bounds hlen11 h.le_max (s, w) (Canonical.mem_sorted.mpr ⟨hs, hw⟩)
      have hvalue := value_eq hbounds.1 hbounds.2
      rw [Nat.mod_eq_of_lt (by rw [Nat.shiftLeft_eq]; omega)] at hvalue
      rw [hslot, (htable.locate_iff h i s w).mpr ⟨hs, hw, hlow⟩, hvalue]
    · intro hnone
      rw [hslot]
      cases hl : Canonical.locate dec.maxBits (Canonical.sorted lengths) (streamOf dec.maxBits i) with
      | none => rfl
      | some e =>
        obtain ⟨hs, hw, hlow⟩ := (htable.locate_iff h i e.1 e.2).mp hl
        exact absurd hlow (hnone e.1 e.2 hs hw)
  · obtain ⟨e, herr⟩ := fromCodeLengths_err peek eobSymbol hlen11 h
    have hno : ∀ dec, HuffmanDecoder.fromCodeLengths lengths peek eobSymbol ≠ .ok dec := by
      intro dec hdec
      rw [herr] at hdec
      cases hdec
    refine ⟨⟨fun hok => absurd hok.choose_spec (hno _), fun hf => absurd hf h⟩, .inr ⟨e, herr⟩, ?_,
      HuffmanDecoder.fromCodeLengthsChecked_eq peek eobSymbol hlen11⟩
    intro dec hdec
    exact absurd hdec (hno dec)

/-- Lengths that do not fit. -/
theorem fromCodeLengths_exact_oversubscribed :
    ¬∃ dec, HuffmanDecoder.fromCodeLengths [1, 2, 2, 2] none none = .ok dec := by
  rw [(fromCodeLengths_exact [1, 2, 2, 2] none none (by decide)).1]
  decide

end Noflate
