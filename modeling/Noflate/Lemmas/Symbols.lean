import Noflate.Lemmas.Table

/-!
# Reading one symbol

Three ways to read a symbol meet here: the decoder's, which looks the next bits up in a table with a look-ahead; the machine's
(`HuffmanDecoder.parse`), the same on a list of bits; and the reference's, one bit at a time. `StartsWith` is what they have in
common: the list of bits starts with the canonical code of the symbol.
-/

namespace Noflate

open BitString

/-- A list of bits starts with the code of a symbol, of some width. -/
structure StartsWith (lengths : List Nat) (bits : List Bool) (s w : Nat) : Prop where
  length_eq : lengths[s]? = some w
  pos : 0 < w
  width_le : w ≤ bits.length
  code_eq : msbNat (bits.take w) = Canonical.code lengths s

/-- The stream of `M` bits that a look-ahead of `p` bits sees: the bits it has, and zeros behind them. -/
def lookAhead (M p : Nat) (bits : List Bool) : Nat := streamOf M (toNat (bits.take p))

theorem msbNat_replicate_false (n : Nat) : msbNat (List.replicate n false) = 0 := by
  induction n with
  | zero => rfl
  | succ n ih => rw [List.replicate_succ', msbNat_concat, ih]; rfl

/-- The look-ahead in numbers: the bits seen, moved up to the high end. -/
theorem lookAhead_eq {M p : Nat} (hp : p ≤ M) {bits : List Bool} (h : p ≤ bits.length) :
    lookAhead M p bits = msbNat (bits.take p) * 2 ^ (M - p) := by
  have hlen : (bits.take p).length = p := List.length_take_of_le h
  have hlt : toNat (bits.take p) < 2 ^ p := by
    have := toNat_lt (bits.take p)
    rwa [hlen] at this
  have hback : ofNat p (toNat (bits.take p)) = bits.take p := by
    have := ofNat_toNat (bits.take p)
    rwa [hlen] at this
  obtain ⟨k, rfl⟩ := Nat.exists_eq_add_of_le hp
  rw [lookAhead, streamOf, ofNat_add_of_lt k hlt, hback, msbNat_append, msbNat_replicate_false, List.length_replicate,
    Nat.add_zero, Nat.add_sub_cancel_left]

/-- Seeing more bits moves the look-ahead up, if at all. -/
theorem lookAhead_mono {M p q : Nat} (hpq : p ≤ q) (hq : q ≤ M) {bits : List Bool} (h : q ≤ bits.length) :
    lookAhead M p bits ≤ lookAhead M q bits := by
  rw [lookAhead_eq (hpq.trans hq) (hpq.trans h), lookAhead_eq hq h]
  have hsplit : bits.take q = bits.take p ++ (bits.drop p).take (q - p) := by
    rw [← List.take_add, Nat.add_sub_cancel' hpq]
  have hlen : ((bits.drop p).take (q - p)).length = q - p := by
    rw [List.length_take, List.length_drop]
    omega
  have hpow : 2 ^ (M - p) = 2 ^ (q - p) * 2 ^ (M - q) := by
    rw [← Nat.pow_add]
    congr 1
    omega
  rw [hsplit, msbNat_append, hlen, hpow, ← Nat.mul_assoc]
  exact Nat.mul_le_mul_right _ (Nat.le_add_right _ _)

/-- The high bits of the look-ahead are the first bits. -/
theorem lookAhead_div {M p w : Nat} (hw : w ≤ p) (hp : p ≤ M) {bits : List Bool} (h : p ≤ bits.length) :
    lookAhead M p bits / 2 ^ (M - w) = msbNat (bits.take w) := by
  have hlen : (bits.take w).length = w := List.length_take_of_le (hw.trans h)
  have hback := ofNat_toNat (bits.take w)
  rw [hlen, toNat_take (hw.trans h)] at hback
  rw [lookAhead, streamOf_div (hw.trans hp), streamOf]
  congr 1
  calc ofNat w (toNat (bits.take p)) = ofNat w (toNat (bits.take p) % 2 ^ w) := (ofNat_mod w _).symm
    _ = ofNat w (toNat bits % 2 ^ w) := by
        rw [toNat_take h, Nat.mod_mod_of_dvd _ (Nat.pow_dvd_pow 2 hw)]
    _ = bits.take w := hback

/-- What a look-ahead of `p` bits locates is a symbol the bits start with, if its code is no longer than that. -/
theorem locate_lookAhead_iff {M p s w : Nat} {lengths : List Nat} (hM : ∀ a ∈ lengths, a ≤ M) (hw : w ≤ p) (hp : p ≤ M)
    {bits : List Bool} (h : p ≤ bits.length) :
    Canonical.locate M (Canonical.sorted lengths) (lookAhead M p bits) = some (s, w) ↔ StartsWith lengths bits s w := by
  rw [Canonical.locate_iff_code hM, lookAhead_div hw hp h]
  constructor
  · rintro ⟨h1, h2, h3⟩
    exact ⟨h1, h2, hw.trans h, h3⟩
  · rintro ⟨h1, h2, -, h3⟩
    exact ⟨h1, h2, h3⟩

/-- The bits start with the code of one symbol at most. -/
theorem StartsWith.unique {lengths : List Nat} {bits : List Bool} {s w s' w' : Nat} (h : StartsWith lengths bits s w)
    (h' : StartsWith lengths bits s' w') : s = s' ∧ w = w' := by
  obtain ⟨M, hM⟩ : ∃ M, ∀ a ∈ lengths, a ≤ M := ⟨lengths.foldl max 0, foldl_max_le.mp le_rfl⟩
  have key : ∀ {s w s' w' : Nat}, StartsWith lengths bits s w → StartsWith lengths bits s' w' → w ≤ w' → s = s' ∧ w = w' := by
    intro s w s' w' h h' hle
    have hwM : w' ≤ M := hM w' (List.mem_of_getElem? h'.length_eq)
    have h1 := (locate_lookAhead_iff hM hle hwM h'.width_le).mpr h
    have h2 := (locate_lookAhead_iff hM le_rfl hwM h'.width_le).mpr h'
    rw [h1, Option.some.injEq, Prod.mk.injEq] at h2
    exact h2
  rcases Nat.le_total w w' with hle | hle
  · exact key h h' hle
  · obtain ⟨h1, h2⟩ := key h' h hle
    exact ⟨h1.symm, h2.symm⟩

theorem StartsWith.append {lengths : List Nat} {bits : List Bool} {s w : Nat} (h : StartsWith lengths bits s w)
    (x : List Bool) : StartsWith lengths (bits ++ x) s w :=
  ⟨h.length_eq, h.pos, by rw [List.length_append]; exact h.width_le.trans (Nat.le_add_right _ _),
    by rw [List.take_append_of_le_length h.width_le]; exact h.code_eq⟩

/-! ## The reference -/

theorem symbolWithCode_some {lengths : List Nat} {width code s : Nat}
    (h : Rfc1951.symbolWithCode lengths width code = some s) :
    lengths[s]? = some width ∧ Canonical.code lengths s = code := by
  have h' := List.find?_some h
  simpa using h'

theorem symbolWithCode_none {lengths : List Nat} {width code : Nat} (h : Rfc1951.symbolWithCode lengths width code = none)
    {s : Nat} (hs : lengths[s]? = some width) : Canonical.code lengths s ≠ code := by
  have hlt : s < lengths.length := (List.getElem?_eq_some_iff.mp hs).1
  have h' := List.find?_eq_none.mp h s (List.mem_range.mpr hlt)
  simpa [hs] using h'

/-- Reading on behind some bits that no code fits. -/
theorem readSymbolFrom_iff {lengths : List Nat} (bits pre : List Bool) (s : Nat) (rest : List Bool)
    (hpre : ∀ s w, w ≤ pre.length → ¬StartsWith lengths (pre ++ bits) s w) :
    Rfc1951.readSymbolFrom lengths pre.length (msbNat pre) bits = some (s, rest) ↔
      ∃ w, StartsWith lengths (pre ++ bits) s w ∧ rest = (pre ++ bits).drop w := by
  induction bits generalizing pre with
  | nil =>
    simp only [Rfc1951.readSymbolFrom, reduceCtorEq, false_iff]
    rintro ⟨w, h, -⟩
    have hle := h.width_le
    rw [List.append_nil] at hle
    exact hpre s w hle h
  | cons b bits ih =>
    have hassoc : pre ++ b :: bits = (pre ++ [b]) ++ bits := by simp
    have hlen : (pre ++ [b]).length = pre.length + 1 := by simp
    have htake : (pre ++ b :: bits).take (pre.length + 1) = pre ++ [b] := by
      rw [hassoc, ← hlen, List.take_left]
    rw [Rfc1951.readSymbolFrom, ← msbNat_concat]
    cases hf : Rfc1951.symbolWithCode lengths (pre.length + 1) (msbNat (pre ++ [b])) with
    | some s' =>
      obtain ⟨h1, h2⟩ := symbolWithCode_some hf
      have hstart : StartsWith lengths (pre ++ b :: bits) s' (pre.length + 1) :=
        ⟨h1, Nat.succ_pos _, by simp, by rw [htake, h2]⟩
      have hdrop : (pre ++ b :: bits).drop (pre.length + 1) = bits := by
        rw [hassoc, ← hlen, List.drop_left]
      simp only [Option.some.injEq, Prod.mk.injEq]
      constructor
      · rintro ⟨rfl, rfl⟩
        exact ⟨_, hstart, hdrop.symm⟩
      · rintro ⟨w, h, rfl⟩
        obtain ⟨rfl, rfl⟩ := hstart.unique h
        exact ⟨rfl, hdrop.symm⟩
    | none =>
      have hnone : ∀ s w, w ≤ (pre ++ [b]).length → ¬StartsWith lengths ((pre ++ [b]) ++ bits) s w := by
        intro s w hw h
        rw [← hassoc] at h
        rw [hlen] at hw
        rcases Nat.lt_or_ge w (pre.length + 1) with hlt | hge
        · exact hpre s w (by omega) h
        · obtain rfl : w = pre.length + 1 := by omega
          have hcode := h.code_eq
          rw [htake] at hcode
          exact symbolWithCode_none hf h.length_eq hcode.symm
      simp only
      rw [hassoc, ← hlen]
      exact ih (pre ++ [b]) hnone

/-- The reference reads a symbol exactly when the bits start with its code. -/
theorem readSymbol_iff {lengths : List Nat} {bits : List Bool} {s : Nat} {rest : List Bool} :
    Rfc1951.readSymbol lengths bits = some (s, rest) ↔ ∃ w, StartsWith lengths bits s w ∧ rest = bits.drop w := by
  have hnone : ∀ s w, w ≤ ([] : List Bool).length → ¬StartsWith lengths ([] ++ bits) s w := by
    intro s w hw h
    exact absurd (Nat.le_zero.mp hw) (Nat.ne_of_gt h.pos)
  have h := readSymbolFrom_iff bits [] s rest hnone
  rw [List.length_nil, msbNat_nil, List.nil_append] at h
  exact h

/-! ## The machine -/

/-- Unpacking the value of a slot. -/
theorem slotValue_and {s w : Nat} (hw : w ≤ 15) : slotValue (some (s, w)) &&& 31 = w := by
  have h : (31 : Nat) = 2 ^ 5 - 1 := rfl
  rw [slotValue, h, Nat.and_two_pow_sub_one_eq_mod]
  omega

theorem slotValue_shiftRight {s w : Nat} (hw : w ≤ 15) : slotValue (some (s, w)) >>> 5 = s := by
  rw [slotValue, Nat.shiftRight_eq_div_pow]
  omega

namespace TableOf

variable {dec : HuffmanDecoder} {lengths : List Nat}

/-- What a look-ahead of `p` bits finds in the table. -/
theorem lookup (hT : TableOf dec lengths) {p : Nat} (hp : p ≤ dec.maxBits) (bits : List Bool) :
    dec.table[toNat (bits.take p)]? =
      some (slotValue (Canonical.locate dec.maxBits (Canonical.sorted lengths) (lookAhead dec.maxBits p bits))) := by
  have hlt : toNat (bits.take p) < 2 ^ dec.maxBits := by
    have h1 := toNat_lt (bits.take p)
    have h2 : 2 ^ (bits.take p).length ≤ 2 ^ dec.maxBits :=
      Nat.pow_le_pow_right (by omega) ((List.length_take_le _ _).trans hp)
    omega
  exact hT.holds.2 _ hlt

/-- The width of a located code is positive and at most the width of the table. -/
theorem width_bounds (hT : TableOf dec lengths) {x s w : Nat}
    (h : Canonical.locate dec.maxBits (Canonical.sorted lengths) x = some (s, w)) : 0 < w ∧ w ≤ dec.maxBits ∧ w ≤ 15 := by
  obtain ⟨h1, h2⟩ := Canonical.mem_sorted.mp (Canonical.locate_mem h)
  have h3 := hT.widths_le w (List.mem_of_getElem? h1)
  exact ⟨h2, h3, h3.trans hT.maxBits_le⟩

/-- One round of parsing with a look-ahead of `p` bits: what it locates decides. -/
theorem parseLoop_succ (hT : TableOf dec lengths) (fuel : Nat) {p : Nat} (hp : p ≤ dec.maxBits) {bits : List Bool}
    (h : p ≤ bits.length) :
    dec.parseLoop (fuel + 1) p bits =
      match Canonical.locate dec.maxBits (Canonical.sorted lengths) (lookAhead dec.maxBits p bits) with
      | none => .fail
      | some (s, w) => if w ≤ p then .got s (bits.drop w) else dec.parseLoop fuel w bits := by
  rw [HuffmanDecoder.parseLoop, if_neg (by omega), hT.lookup hp]
  cases hl : Canonical.locate dec.maxBits (Canonical.sorted lengths) (lookAhead dec.maxBits p bits) with
  | none => simp [slotValue]
  | some e =>
    obtain ⟨s, w⟩ := e
    obtain ⟨-, h2, h3⟩ := hT.width_bounds hl
    have hne : slotValue (some (s, w)) ≠ emptySlot := slotValue_ne_empty h3
    simp only [slotValue_and h3, slotValue_shiftRight h3, ne_eq, hne, not_false_eq_true, and_true, or_false]
    rw [if_neg (by omega : ¬dec.maxBits < w)]

/-- What the machine reads is a symbol the bits start with. -/
theorem parseLoop_sound (hT : TableOf dec lengths) (fuel : Nat) {p : Nat} (hp : p ≤ dec.maxBits) {bits : List Bool}
    {s : Nat} {rest : List Bool} (h : dec.parseLoop fuel p bits = .got s rest) :
    ∃ w, StartsWith lengths bits s w ∧ rest = bits.drop w := by
  induction fuel generalizing p with
  | zero => cases h
  | succ fuel ih =>
    by_cases hlen : p ≤ bits.length
    · rw [hT.parseLoop_succ fuel hp hlen] at h
      cases hl : Canonical.locate dec.maxBits (Canonical.sorted lengths) (lookAhead dec.maxBits p bits) with
      | none => rw [hl] at h; cases h
      | some e =>
        obtain ⟨s', w⟩ := e
        rw [hl] at h
        simp only at h
        by_cases hw : w ≤ p
        · rw [if_pos hw, Parse.got.injEq] at h
          obtain ⟨rfl, rfl⟩ := h
          exact ⟨w, (locate_lookAhead_iff hT.widths_le hw hp hlen).mp hl, rfl⟩
        · rw [if_neg hw] at h
          exact ih (hT.width_bounds hl).2.1 h
    · rw [HuffmanDecoder.parseLoop, if_pos (by omega)] at h
      cases h

/-- A symbol the bits start with is read, once the look-ahead has its bits. -/
theorem parseLoop_complete (hT : TableOf dec lengths) (fuel : Nat) {p : Nat} (hp : p ≤ dec.maxBits)
    (hf : dec.maxBits < p + fuel) {bits : List Bool} (hlen : p ≤ bits.length) {s w : Nat} (h : StartsWith lengths bits s w) :
    dec.parseLoop fuel p bits = .got s (bits.drop w) := by
  induction fuel generalizing p with
  | zero => omega
  | succ fuel ih =>
    have hwM : w ≤ dec.maxBits := hT.widths_le w (List.mem_of_getElem? h.length_eq)
    rw [hT.parseLoop_succ fuel hp hlen]
    by_cases hw : w ≤ p
    · rw [(locate_lookAhead_iff hT.widths_le hw hp hlen).mpr h]
      exact if_pos hw
    · -- the code is longer than the look-ahead: what it locates is no wider, and decides if it is not narrower either
      have hfull := (locate_lookAhead_iff hT.widths_le le_rfl hwM h.width_le).mpr h
      have hle := lookAhead_mono (M := dec.maxBits) (Nat.le_of_not_le hw) hwM h.width_le
      cases hl : Canonical.locate dec.maxBits (Canonical.sorted lengths) (lookAhead dec.maxBits p bits) with
      | none =>
        have h1 := Canonical.locate_eq_none_iff.mp hl
        rw [Canonical.locate_eq_none_iff.mpr (h1.trans hle)] at hfull
        cases hfull
      | some e =>
        obtain ⟨s', w'⟩ := e
        have hmono : w' ≤ w := Canonical.locate_mono (Canonical.sorted_ordered lengths) hle hl hfull
        by_cases hw' : w' ≤ p
        · have h' := (locate_lookAhead_iff hT.widths_le hw' hp hlen).mp hl
          obtain ⟨-, rfl⟩ := h'.unique h
          exact absurd hw' hw
        · simp only [if_neg hw']
          exact ih (hmono.trans hwM) (by omega) (hmono.trans h.width_le)

/-- What the machine reads is what the reference reads. -/
theorem parse_sound (hT : TableOf dec lengths) {bits : List Bool} {s : Nat} {rest : List Bool}
    (h : dec.parse bits = .got s rest) : Rfc1951.readSymbol lengths bits = some (s, rest) :=
  readSymbol_iff.mpr (hT.parseLoop_sound 33 hT.peek_le h)

/-- What the reference reads is what the machine reads, if there are bits for its look-ahead. -/
theorem parse_complete (hT : TableOf dec lengths) {bits : List Bool} {s : Nat} {rest : List Bool}
    (hpeek : dec.safelyPeekBits ≤ bits.length) (h : Rfc1951.readSymbol lengths bits = some (s, rest)) :
    dec.parse bits = .got s rest := by
  obtain ⟨w, hw, rfl⟩ := readSymbol_iff.mp h
  have hM := hT.maxBits_le
  exact hT.parseLoop_complete 33 hT.peek_le (by omega) hpeek hw

end TableOf

/-- Parsing a symbol does the same with more bits behind. -/
theorem HuffmanDecoder.parseLoop_append (dec : HuffmanDecoder) (fuel p : Nat) (bits x : List Bool)
    (h : dec.parseLoop fuel p bits ≠ .more) :
    dec.parseLoop fuel p (bits ++ x) = match dec.parseLoop fuel p bits with
      | .more => .more
      | .fail => .fail
      | .got s rest => .got s (rest ++ x) := by
  induction fuel generalizing p with
  | zero => rfl
  | succ fuel ih =>
    rw [HuffmanDecoder.parseLoop] at h ⊢
    rw [HuffmanDecoder.parseLoop]
    by_cases hlen : bits.length < p
    · rw [if_pos hlen] at h
      exact absurd rfl h
    · have hlen' : ¬(bits ++ x).length < p := by
        rw [List.length_append]
        omega
      rw [if_neg hlen] at h ⊢
      rw [if_neg hlen', List.take_append_of_le_length (by omega)]
      cases hg : dec.table[toNat (bits.take p)]? with
      | none => rfl
      | some value =>
        rw [hg] at h
        simp only at h ⊢
        by_cases hw : value &&& 31 ≤ p ∧ value ≠ emptySlot
        · rw [if_pos hw, if_pos hw, List.drop_append_of_le_length (by omega)]
        · rw [if_neg hw] at h ⊢
          rw [if_neg hw]
          by_cases hM : dec.maxBits < value &&& 31 ∨ value = emptySlot
          · rw [if_pos hM, if_pos hM]
          · rw [if_neg hM] at h ⊢
            rw [if_neg hM]
            exact ih _ h

/-! ## The decoder -/

/-- Reading a symbol off a reader, against parsing it off the reader's bits. The bits left in the buffer are bounded by the
look-ahead or the code's own width, less that width. -/
theorem TableOf.decodeLoop_spec {dec : HuffmanDecoder} {lengths : List Nat} (hT : TableOf dec lengths) (fuel p₀ : Nat)
    {p : Nat} (hp : p ≤ dec.maxBits) (hf : dec.maxBits < p + fuel) {r : BitReader} (hw : r.Wf)
    (hwide : p = p₀ ∨ ∀ e, Canonical.locate dec.maxBits (Canonical.sorted lengths) (lookAhead dec.maxBits p r.bits) = some e →
      p ≤ r.bits.length → p ≤ e.2) (hp₀ : p₀ ≤ p) :
    match dec.parseLoop fuel p r.bits with
    | .more => ∃ r', dec.decodeLoop fuel p r = (.err eofError, r') ∧ r'.input = r.input
    | .fail => ∃ r', dec.decodeLoop fuel p r = (.err (.invalidData "invalid huffman coded stream"), r')
    | .got s rest => ∃ w r', dec.decodeLoop fuel p r = (.ok s, r') ∧ StartsWith lengths r.bits s w ∧ rest = r.bits.drop w ∧
        r.Consumed r' w (max r.bitCount (max p₀ w + 7) - w) := by
  induction fuel generalizing p r with
  | zero => omega
  | succ fuel ih =>
    have hM := hT.maxBits_le
    by_cases hlen : p ≤ r.bits.length
    · obtain ⟨r₁, h1, h2, h3⟩ := BitReader.peekBits_ok (by omega) hw hlen
      have hbits : r₁.bits = r.bits := by rw [h2.bits_eq, List.drop_zero]
      rw [HuffmanDecoder.decodeLoop, h1, Reading.andThen_ok, hT.lookup hp, hT.parseLoop_succ fuel hp hlen]
      cases hl : Canonical.locate dec.maxBits (Canonical.sorted lengths) (lookAhead dec.maxBits p r.bits) with
      | none => exact ⟨r₁, by simp [slotValue]⟩
      | some e =>
        obtain ⟨s, w⟩ := e
        obtain ⟨hw0, hwM, hw15⟩ := hT.width_bounds hl
        have hne : slotValue (some (s, w)) ≠ emptySlot := slotValue_ne_empty hw15
        simp only [slotValue_and hw15, slotValue_shiftRight hw15, ne_eq, hne, not_false_eq_true, and_true, or_false]
        by_cases hwp : w ≤ p
        · simp only [if_pos hwp]
          obtain ⟨r₂, h4, h5⟩ := BitReader.skipBits_buffered (by omega) h2.wf (hwp.trans h3)
          refine ⟨w, r₂, by rw [h4, Reading.andThen_ok], (locate_lookAhead_iff hT.widths_le hwp hp hlen).mp hl, rfl, ?_⟩
          have hc := h2.trans h5
          rw [Nat.zero_add] at hc
          refine hc.mono (Nat.sub_le_sub_right (h2.count_le.trans ?_) _)
          have hpw : p ≤ max p₀ w := by
            rcases hwide with rfl | hwide
            · exact le_max_left _ _
            · exact (hwide _ hl hlen).trans (le_max_right _ _)
          omega
        · simp only [if_neg hwp, if_neg (show ¬dec.maxBits < w by omega)]
          have hwide' : ∀ e, Canonical.locate dec.maxBits (Canonical.sorted lengths)
              (lookAhead dec.maxBits w r₁.bits) = some e → w ≤ r₁.bits.length → w ≤ e.2 := by
            intro e he hlen'
            rw [hbits] at he hlen'
            exact Canonical.locate_mono (Canonical.sorted_ordered lengths)
              (lookAhead_mono (Nat.le_of_not_le hwp) hwM hlen') hl he
          have hih := ih hwM (by omega) h2.wf (.inr hwide') (by omega)
          rw [hbits] at hih
          cases hparse : dec.parseLoop fuel w r.bits with
          | more =>
            rw [hparse] at hih
            obtain ⟨r', h4, h5⟩ := hih
            exact ⟨r', h4, h5.trans h2.input_eq⟩
          | fail =>
            rw [hparse] at hih
            exact hih
          | got s' rest =>
            rw [hparse] at hih
            obtain ⟨w', r', h4, h5, h6, h7⟩ := hih
            refine ⟨w', r', h4, h5, h6, ?_⟩
            have hww : w ≤ w' := by
              by_contra hlt
              have hlen' : w ≤ r.bits.length := by
                by_contra hshort
                cases fuel with
                | zero => cases hparse
                | succ fuel =>
                  rw [HuffmanDecoder.parseLoop, if_pos (by omega)] at hparse
                  cases hparse
              have hl' := (locate_lookAhead_iff hT.widths_le (Nat.le_of_not_le hlt) hwM hlen').mpr h5
              rw [← hbits] at hl' hlen'
              exact hlt (hwide' _ hl' hlen')
            have hc := h2.trans h7
            rw [Nat.zero_add] at hc
            refine hc.mono (Nat.sub_le_sub_right ?_ _)
            have := h2.count_le
            omega
    · obtain ⟨r', h1, h2⟩ := BitReader.peekBits_eof (n := p) (by omega) hw (by omega)
      rw [HuffmanDecoder.parseLoop, if_pos (by omega)]
      exact ⟨r', by rw [HuffmanDecoder.decodeLoop, h1, Reading.andThen_err], h2⟩

end Noflate
