import Noflate.Machine

/-!
# The decoder's tables

`HuffmanDecoder.fromCodeLengths` numbers the codes with a running value and writes each into the slots whose low bits are the
code, reversed. `TableOf` says what comes out: slot `i` holds the entry that the stream of bits `i`, read from its low end,
locates among the canonical codes. It never computes a Kraft sum; when the codes do not fit, the first that does not is the
value `2 ^ width`, its low bits are zero, and slot zero is taken (`fillLoop_conflict`).
-/

namespace Noflate

open BitString

/-! ## Reversing bits -/

theorem reverseBitsLoop_eq (width bits acc k : Nat) (hacc : acc < 2 ^ k) (hk : k + width ≤ 16) :
    reverseBitsLoop width bits acc = toNat (ofNat width bits).reverse + 2 ^ width * acc := by
  induction width generalizing bits acc k with
  | zero => simp [reverseBitsLoop]
  | succ width ih =>
    have hlt : acc <<< 1 < 2 ^ 16 := by
      rw [Nat.shiftLeft_eq]
      calc acc * 2 ^ 1 < 2 ^ k * 2 ^ 1 := Nat.mul_lt_mul_of_pos_right hacc (by omega)
        _ = 2 ^ (k + 1) := (Nat.pow_add 2 k 1).symm
        _ ≤ 2 ^ 16 := Nat.pow_le_pow_right (by omega) (by omega)
    have hor : ((acc <<< 1) % 2 ^ 16) ||| (bits &&& 1) = 2 * acc + bits % 2 := by
      rw [Nat.mod_eq_of_lt hlt, Nat.and_one_is_mod, ← Nat.shiftLeft_add_eq_or_of_lt (Nat.mod_lt bits Nat.two_pos),
        Nat.shiftLeft_eq]
      omega
    have hnew : 2 * acc + bits % 2 < 2 ^ (k + 1) := by
      rw [Nat.pow_succ]
      omega
    rw [reverseBitsLoop, hor, ih _ _ (k + 1) hnew (by omega), ofNat, List.reverse_cons, toNat_append, List.length_reverse,
      length_ofNat, toNat_cons, toNat_nil, toNat_mod_two, Nat.shiftRight_eq_div_pow, Nat.pow_succ]
    ring

/-- Reversing bits is reading them from the other end. -/
theorem reverseBits_eq {width : Nat} (bits : Nat) (h : width ≤ 16) :
    reverseBits bits width = toNat (ofNatMsb width bits) := by
  rw [reverseBits, reverseBitsLoop_eq width bits 0 0 (by omega) (by omega), ofNatMsb]
  omega

/-- The number of `M` bits that a slot index is, read from its low end. -/
def streamOf (M i : Nat) : Nat := msbNat (ofNat M i)

theorem streamOf_zero (M : Nat) : streamOf M 0 = 0 := by
  have h : ofNat M 0 = List.replicate M false := by
    have h := ofNat_add_of_lt (m := 0) (v := 0) M (by omega)
    rwa [Nat.zero_add, ofNat_zero_width, List.nil_append] at h
  have hz : ∀ n, toNat (List.replicate n false) = 0 := by
    intro n
    induction n with
    | zero => rfl
    | succ n ih => rw [List.replicate_succ, toNat_cons, ih]; rfl
  rw [streamOf, h, msbNat, List.reverse_replicate, hz]

theorem streamOf_lt (M i : Nat) : streamOf M i < 2 ^ M := by
  have h := msbNat_lt (ofNat M i)
  rwa [length_ofNat] at h

/-- The first bits of the stream of an index are its low bits. -/
theorem streamOf_div {M w : Nat} (h : w ≤ M) (i : Nat) : streamOf M i / 2 ^ (M - w) = streamOf w i := by
  obtain ⟨k, rfl⟩ := Nat.exists_eq_add_of_le h
  have hlt : msbNat (ofNat k (i / 2 ^ w)) < 2 ^ k := streamOf_lt k _
  rw [streamOf, ofNat_add, msbNat_append, length_ofNat, Nat.add_sub_cancel_left, Nat.mul_comm,
    Nat.mul_add_div (Nat.two_pow_pos k), Nat.div_eq_of_lt hlt, Nat.add_zero, streamOf]

/-- The low bits of an index are a reversed code exactly when its stream starts with the code. -/
theorem mod_eq_reverse_iff {w code : Nat} (i : Nat) (hc : code < 2 ^ w) :
    i % 2 ^ w = toNat (ofNatMsb w code) ↔ streamOf w i = code := by
  have hmod : toNat (ofNat w i) = i % 2 ^ w := toNat_ofNat w i
  have hcode : msbNat (ofNatMsb w code) = code := by
    rw [msbNat_ofNatMsb, Nat.mod_eq_of_lt hc]
  rw [← hmod, streamOf]
  constructor
  · intro h
    rw [toNat_injective (by simp) h, hcode]
  · intro h
    rw [← hcode] at h
    rw [msbNat_injective (by simp) h]

/-! ## Filling the slots of a code -/

/-- The value of a slot: the entry located there, or the empty mark. -/
def slotValue : Option (Nat × Nat) → Nat
  | some (symbol, width) => 32 * symbol + width
  | none => emptySlot

/-- An entry of a code in range is told from the empty mark. -/
theorem slotValue_ne_empty {s w : Nat} (hw : w ≤ 15) : slotValue (some (s, w)) ≠ emptySlot := by
  simp only [slotValue, emptySlot]
  omega

theorem padding_or {padding width reversed : Nat} (hr : reversed < 2 ^ width) (hp : padding * 2 ^ width < 2 ^ 16) :
    ((padding <<< width) % 2 ^ 16) ||| reversed = padding * 2 ^ width + reversed := by
  have hs : padding <<< width = padding * 2 ^ width := Nat.shiftLeft_eq _ _
  rw [hs, Nat.mod_eq_of_lt hp, ← hs, ← Nat.shiftLeft_add_eq_or_of_lt hr]

/-- A code whose slots are free is written into all of them, and into no other slot. -/
theorem fillLoop_ok {reversed width M : Nat} (value : Nat) (hr : reversed < 2 ^ width) (hwM : width ≤ M) (hM : M ≤ 15)
    (rounds padding : Nat) {table : Array Nat} (hsize : table.size = 2 ^ M)
    (hrounds : padding + rounds = 2 ^ (M - width))
    (hfree : ∀ i, i < 2 ^ M → i % 2 ^ width = reversed → padding ≤ i / 2 ^ width → table[i]? = some emptySlot) :
    ∃ table', HuffmanDecoder.fillLoop reversed width value rounds padding table = .ok table' ∧ table'.size = 2 ^ M ∧
      ∀ i, i < 2 ^ M → table'[i]? =
        if i % 2 ^ width = reversed ∧ padding ≤ i / 2 ^ width then some value else table[i]? := by
  have hpos : 0 < 2 ^ width := Nat.two_pow_pos width
  have hsplit : 2 ^ M = 2 ^ width * 2 ^ (M - width) := by rw [← Nat.pow_add, Nat.add_sub_cancel' hwM]
  induction rounds generalizing padding table with
  | zero =>
    refine ⟨table, rfl, hsize, fun i hi => ?_⟩
    rw [if_neg]
    rintro ⟨-, h⟩
    rw [hsplit, Nat.mul_comm] at hi
    have := Nat.div_lt_of_lt_mul (m := i) (n := 2 ^ width) (k := 2 ^ (M - width)) (by rw [Nat.mul_comm]; exact hi)
    omega
  | succ rounds ih =>
    have hlt : padding * 2 ^ width + reversed < 2 ^ M := by
      have h1 : (padding + 1) * 2 ^ width ≤ 2 ^ (M - width) * 2 ^ width := Nat.mul_le_mul_right _ (by omega)
      rw [hsplit, Nat.mul_comm (2 ^ width)]
      rw [Nat.add_mul, Nat.one_mul] at h1
      omega
    have h16 : padding * 2 ^ width < 2 ^ 16 := by
      have : 2 ^ M ≤ 2 ^ 16 := Nat.pow_le_pow_right (by omega) (by omega)
      omega
    have hmod : (padding * 2 ^ width + reversed) % 2 ^ width = reversed := by
      rw [Nat.mul_comm, Nat.mul_add_mod, Nat.mod_eq_of_lt hr]
    have hdiv : (padding * 2 ^ width + reversed) / 2 ^ width = padding := by
      rw [Nat.mul_comm, Nat.mul_add_div hpos, Nat.div_eq_of_lt hr, Nat.add_zero]
    have hslot := hfree _ hlt hmod (le_of_eq hdiv.symm)
    have hset : ∀ i, (table.setIfInBounds (padding * 2 ^ width + reversed) value)[i]? =
        if i = padding * 2 ^ width + reversed ∧ i < 2 ^ M then some value else table[i]? := by
      intro i
      rw [Array.getElem?_setIfInBounds, hsize]
      by_cases hi : padding * 2 ^ width + reversed = i
      · subst hi
        simp [hlt]
      · rw [if_neg hi, if_neg (fun h => hi h.1.symm)]
    have hfree' : ∀ i, i < 2 ^ M → i % 2 ^ width = reversed → padding + 1 ≤ i / 2 ^ width →
        (table.setIfInBounds (padding * 2 ^ width + reversed) value)[i]? = some emptySlot := by
      intro i hi hm hp
      rw [hset, if_neg]
      · exact hfree i hi hm (by omega)
      · rintro ⟨rfl, -⟩
        omega
    obtain ⟨table', h1, h2, h3⟩ := ih (padding + 1) (by rw [Array.size_setIfInBounds, hsize]) (by omega) hfree'
    refine ⟨table', ?_, h2, fun i hi => ?_⟩
    · rw [HuffmanDecoder.fillLoop]
      simp only [padding_or hr h16, hslot, ne_eq, not_true_eq_false, if_false]
      exact h1
    · rw [h3 i hi, hset]
      by_cases hm : i % 2 ^ width = reversed
      · have hi' := Nat.div_add_mod i (2 ^ width)
        rw [hm, Nat.mul_comm] at hi'
        by_cases hd : i / 2 ^ width = padding
        · rw [if_neg (by omega), if_pos ⟨by rw [← hi', hd], hi⟩, if_pos ⟨hm, by omega⟩]
        · have hne : ¬(i = padding * 2 ^ width + reversed ∧ i < 2 ^ M) := by
            rintro ⟨he, -⟩
            exact hd (by rw [he, hdiv])
          rw [if_neg hne]
          by_cases hp : padding ≤ i / 2 ^ width
          · rw [if_pos ⟨hm, by omega⟩, if_pos ⟨hm, hp⟩]
          · rw [if_neg (by omega), if_neg (by omega)]
      · have hne : ¬(i = padding * 2 ^ width + reversed ∧ i < 2 ^ M) := by
          rintro ⟨he, -⟩
          exact hm (by rw [he, hmod])
        rw [if_neg (by omega), if_neg hne, if_neg (by omega)]

/-- A code whose first slot is taken is a conflict. -/
theorem fillLoop_conflict {reversed width value rounds : Nat} {table : Array Nat} {slot : Nat} (hrounds : 0 < rounds)
    (hslot : table[reversed]? = some slot) (hne : slot ≠ emptySlot) :
    HuffmanDecoder.fillLoop reversed width value rounds 0 table = .err (.invalidData "conflicting huffman codes") := by
  obtain ⟨k, rfl⟩ : ∃ k, rounds = k + 1 := ⟨rounds - 1, by omega⟩
  have h0 : ((0 <<< width) % 2 ^ 16) ||| reversed = reversed := by simp
  rw [HuffmanDecoder.fillLoop]
  simp only [h0, hslot, ne_eq, hne, not_false_eq_true, if_true]

/-! ## Assigning the codes -/

/-- The width of the end-of-block symbol among entries, or else a default: the last one found. -/
def peekOf (eobSymbol : Option Nat) (es : List (Nat × Nat)) (default : Nat) : Nat :=
  es.foldl (fun p e => if some e.1 = eobSymbol then e.2 else p) default

/-- What a table's slots hold after some entries: slot `i` the entry its stream locates. -/
def Holds (M : Nat) (es : List (Nat × Nat)) (table : Array Nat) : Prop :=
  table.size = 2 ^ M ∧ ∀ i, i < 2 ^ M → table[i]? = some (slotValue (Canonical.locate M es (streamOf M i)))

/-- Locating among entries with one more at the end. -/
theorem locate_concat (M : Nat) (es : List (Nat × Nat)) (e : Nat × Nat) (x : Nat) :
    Canonical.locate M (es ++ [e]) x =
      if Canonical.weight M es ≤ x ∧ x < Canonical.weight M es + 2 ^ (M - e.2) then some e else Canonical.locate M es x := by
  by_cases hx : Canonical.weight M es ≤ x
  · by_cases hx' : x < Canonical.weight M es + 2 ^ (M - e.2)
    · rw [if_pos ⟨hx, hx'⟩, Canonical.locate_mid es [] hx hx']
    · rw [if_neg (fun h => hx' h.2), Canonical.locate_eq_none_iff.mpr hx, Canonical.locate_eq_none_iff,
        Canonical.weight_append, Canonical.weight_cons, Canonical.weight_nil]
      omega
  · rw [if_neg (fun h => hx h.1)]
    cases hl : Canonical.locate M es x with
    | none => exact absurd (Canonical.locate_eq_none_iff.mp hl) hx
    | some a =>
      obtain ⟨as, bs, rfl, h1, h2⟩ := Canonical.locate_some hl
      rw [List.append_assoc, List.cons_append]
      exact Canonical.locate_mid as _ h1 h2

/-- The value the tables store for an entry. -/
theorem value_eq {symbol width : Nat} (hs : symbol < 2 ^ 11) (hw : width ≤ 15) :
    ((symbol <<< 5) % 2 ^ 16) ||| width = slotValue (some (symbol, width)) := by
  have h1 : symbol <<< 5 = 32 * symbol := by rw [Nat.shiftLeft_eq]; omega
  have h2 : symbol <<< 5 < 2 ^ 16 := by rw [h1]; omega
  have h3 : width < 2 ^ 5 := by omega
  rw [Nat.mod_eq_of_lt h2, ← Nat.shiftLeft_add_eq_or_of_lt h3, h1, slotValue]

/-- Writing the next entry's code, when the entries so far leave room for it: the slots of its interval. -/
theorem fill_holds {M w s c : Nat} {es : List (Nat × Nat)} {table : Array Nat} (hM : M ≤ 15) (hw : w ≤ M)
    (hs : s < 2 ^ 11) (hc : c < 2 ^ w) (hweight : Canonical.weight M es = c * 2 ^ (M - w)) (h : Holds M es table) :
    ∃ table', HuffmanDecoder.fillLoop (reverseBits c w) w (((s <<< 5) % 2 ^ 16) ||| w) (1 <<< (M - w)) 0 table = .ok table' ∧
      Holds M (es ++ [(s, w)]) table' := by
  have hrev : reverseBits c w = toNat (ofNatMsb w c) := reverseBits_eq c (by omega)
  have hlt : toNat (ofNatMsb w c) < 2 ^ w := by
    have := toNat_lt (ofNatMsb w c)
    rwa [length_ofNatMsb] at this
  have hinterval : ∀ i, i % 2 ^ w = reverseBits c w ↔
      Canonical.weight M es ≤ streamOf M i ∧ streamOf M i < Canonical.weight M es + 2 ^ (M - w) := by
    intro i
    rw [hrev, mod_eq_reverse_iff i hc, hweight, Canonical.mem_block_iff, streamOf_div hw]
  rw [Nat.one_shiftLeft, value_eq hs (by omega)]
  obtain ⟨table', h1, h2, h3⟩ := fillLoop_ok (slotValue (some (s, w))) (hrev ▸ hlt) hw hM (2 ^ (M - w)) 0 h.1
    (Nat.zero_add _) (by
      intro i hi hm _
      rw [h.2 i hi, Canonical.locate_eq_none_iff.mpr ((hinterval i).mp hm).1, slotValue])
  refine ⟨table', h1, h2, fun i hi => ?_⟩
  rw [h3 i hi, locate_concat]
  by_cases hm : i % 2 ^ w = reverseBits c w
  · rw [if_pos ⟨hm, Nat.zero_le _⟩, if_pos ((hinterval i).mp hm)]
  · rw [if_neg (fun hh => hm hh.1), if_neg (fun hh => hm ((hinterval i).mpr hh)), h.2 i hi]

/-- Writing the next entry's code, when the entries so far fill the table: a conflict in slot zero. -/
theorem fill_conflict {M w s : Nat} {es : List (Nat × Nat)} {table : Array Nat} (hM : M ≤ 15) (hw : w ≤ M)
    (hwidths : ∀ e ∈ es, e.2 ≤ 15) (hfull : Canonical.weight M es = 2 ^ M) (h : Holds M es table) :
    HuffmanDecoder.fillLoop (reverseBits (2 ^ w) w) w (((s <<< 5) % 2 ^ 16) ||| w) (1 <<< (M - w)) 0 table =
      .err (.invalidData "conflicting huffman codes") := by
  have hrev : reverseBits (2 ^ w) w = 0 := by
    have hmod : ofNat w (2 ^ w) = ofNat w 0 := by
      rw [← ofNat_mod w (2 ^ w), Nat.mod_self]
    have hz := streamOf_zero w
    rw [streamOf, msbNat] at hz
    rw [reverseBits_eq _ (by omega), ofNatMsb, hmod, hz]
  have hslot := h.2 0 (Nat.two_pow_pos M)
  rw [streamOf_zero] at hslot
  rw [hrev]
  refine fillLoop_conflict (by rw [Nat.one_shiftLeft]; exact Nat.two_pow_pos _) hslot ?_
  cases hl : Canonical.locate M es 0 with
  | none =>
    have := Canonical.locate_eq_none_iff.mp hl
    have := Nat.two_pow_pos M
    omega
  | some e => exact slotValue_ne_empty (hwidths e (Canonical.locate_mem hl))

/-- The state of the loop when some entries have their codes: the running value is the number of intervals of the last width that
they take, they fit, and the table holds them. -/
structure Assigned (M : Nat) (es : List (Nat × Nat)) (code previousWidth : Nat) (table : Array Nat) : Prop where
  width_le : previousWidth ≤ M
  weight_eq : Canonical.weight M es = code * 2 ^ (M - previousWidth)
  room : Canonical.weight M es ≤ 2 ^ M
  holds : Holds M es table

/-- The next entry, no narrower than those before it: its code is no more than `2 ^ w`, so the running value does not leave sixteen
bits, and either the entry gets its slots or those before it fill the table. -/
theorem Assigned.next {M : Nat} {es : List (Nat × Nat)} {code previousWidth s w : Nat} {table : Array Nat}
    (h : Assigned M es code previousWidth table) (hM : M ≤ 15) (hpw : previousWidth ≤ w) (hwM : w ≤ M) (hs : s < 2 ^ 11)
    (hwidths : ∀ e ∈ es, e.2 ≤ 15) :
    code <<< (w - previousWidth) ≤ 2 ^ w ∧
      ((∃ table', HuffmanDecoder.fillLoop (reverseBits (code <<< (w - previousWidth)) w) w (((s <<< 5) % 2 ^ 16) ||| w)
          (1 <<< (M - w)) 0 table = .ok table' ∧ Assigned M (es ++ [(s, w)]) (code <<< (w - previousWidth) + 1) w table') ∨
        (Canonical.weight M es = 2 ^ M ∧
          HuffmanDecoder.fillLoop (reverseBits (code <<< (w - previousWidth)) w) w (((s <<< 5) % 2 ^ 16) ||| w)
            (1 <<< (M - w)) 0 table = .err (.invalidData "conflicting huffman codes"))) := by
  have hpowM : 2 ^ M = 2 ^ w * 2 ^ (M - w) := by rw [← Nat.pow_add, Nat.add_sub_cancel' hwM]
  have hroom := h.room
  have hweight : Canonical.weight M es = code <<< (w - previousWidth) * 2 ^ (M - w) := by
    rw [h.weight_eq, Nat.shiftLeft_eq, Nat.mul_assoc, ← Nat.pow_add]
    congr 2
    omega
  have hle : code <<< (w - previousWidth) ≤ 2 ^ w := by
    rw [hweight, hpowM] at hroom
    exact Nat.le_of_mul_le_mul_right hroom (Nat.two_pow_pos _)
  refine ⟨hle, ?_⟩
  rcases Nat.lt_or_eq_of_le hle with hc | heq
  · obtain ⟨table', h1, h2⟩ := fill_holds hM hwM hs hc hweight h.holds
    have hweight' : Canonical.weight M (es ++ [(s, w)]) = (code <<< (w - previousWidth) + 1) * 2 ^ (M - w) := by
      rw [Canonical.weight_append, Canonical.weight_cons, Canonical.weight_nil, hweight]
      ring
    have hroom' : Canonical.weight M (es ++ [(s, w)]) ≤ 2 ^ M := by
      rw [hweight', hpowM]
      exact Nat.mul_le_mul_right _ hc
    exact .inl ⟨table', h1, hwM, hweight', hroom', h2⟩
  · have hfull : Canonical.weight M es = 2 ^ M := by rw [hweight, heq, hpowM]
    rw [heq]
    exact .inr ⟨hfull, fill_conflict hM hwM hwidths hfull h.holds⟩

/-- Before the first entry. -/
theorem Assigned.start {M : Nat} {table : Array Nat} (h : Holds M [] table) : Assigned M [] 0 0 table :=
  ⟨Nat.zero_le _, by rw [Canonical.weight_nil, Nat.zero_mul], by rw [Canonical.weight_nil]; exact Nat.zero_le _, h⟩

/-- Assigning codes to the entries behind some that have theirs: they all get one exactly when they fit. -/
theorem assignLoop_spec {M : Nat} (eobSymbol : Option Nat) (hM : M ≤ 15) (es rest : List (Nat × Nat))
    (code previousWidth peek : Nat) {table : Array Nat} (hentries : ∀ e ∈ es ++ rest, e.1 < 2 ^ 11 ∧ e.2 ≤ M)
    (hordered : Canonical.Ordered rest) (hprev : ∀ e ∈ rest, previousWidth ≤ e.2) (h : Assigned M es code previousWidth table) :
    (Canonical.weight M (es ++ rest) ≤ 2 ^ M ∧ ∃ table',
        HuffmanDecoder.assignLoop M eobSymbol rest code previousWidth peek table = .ok (table', peekOf eobSymbol rest peek) ∧
        Holds M (es ++ rest) table') ∨
      (2 ^ M < Canonical.weight M (es ++ rest) ∧
        HuffmanDecoder.assignLoop M eobSymbol rest code previousWidth peek table =
          .err (.invalidData "conflicting huffman codes")) := by
  induction rest generalizing es code previousWidth peek table with
  | nil =>
    rw [List.append_nil]
    exact .inl ⟨h.room, table, rfl, h.holds⟩
  | cons e rest ih =>
    obtain ⟨s, w⟩ := e
    have hpw : previousWidth ≤ w := hprev (s, w) List.mem_cons_self
    obtain ⟨hs, hwM⟩ := hentries (s, w) (by simp)
    simp only at hs hwM
    obtain ⟨hle, hnext⟩ := h.next hM hpw hwM hs (fun e he => (hentries e (by simp [he])).2.trans hM)
    have h15 : 2 ^ w ≤ 2 ^ 15 := Nat.pow_le_pow_right (by omega) (by omega)
    have hmod : (code <<< (w - previousWidth)) % 2 ^ 16 = code <<< (w - previousWidth) := Nat.mod_eq_of_lt (by omega)
    have hguard : ¬(w < previousWidth ∨ 16 ≤ w - previousWidth) := by omega
    have hcarry : ¬2 ^ 16 ≤ code <<< (w - previousWidth) + 1 := by omega
    obtain ⟨hfirst, hordered'⟩ := List.pairwise_cons.mp hordered
    have hsplit : es ++ (s, w) :: rest = (es ++ [(s, w)]) ++ rest := by simp
    rw [HuffmanDecoder.assignLoop, if_neg hguard]
    simp only [hmod]
    rcases hnext with ⟨table', h1, h2⟩ | ⟨hfull, h1⟩
    · rw [h1, Exec.ok_bind, if_neg hcarry, hsplit]
      exact ih _ _ _ _ (by rwa [← hsplit]) hordered' hfirst h2
    · right
      refine ⟨?_, by rw [h1, Exec.err_bind]⟩
      rw [Canonical.weight_append, Canonical.weight_cons, hfull]
      have := Nat.two_pow_pos (M - w)
      simp only
      omega

/-! ## The table of a family of code lengths -/

/-- Code lengths the tables accept: some symbol has a code, no code is longer than fifteen bits, and the codes fit. -/
structure Fits (lengths : List Nat) : Prop where
  nonempty : ∃ w ∈ lengths, 0 < w
  le_max : ∀ w ∈ lengths, w ≤ 15
  kraft : Canonical.weight 15 (Canonical.sorted lengths) ≤ 2 ^ 15

/-- The decoder table of a family of code lengths. -/
structure TableOf (dec : HuffmanDecoder) (lengths : List Nat) : Prop where
  widths_le : ∀ w ∈ lengths, w ≤ dec.maxBits
  maxBits_le : dec.maxBits ≤ 15
  peek_pos : 1 ≤ dec.safelyPeekBits
  peek_le : dec.safelyPeekBits ≤ dec.maxBits
  holds : Holds dec.maxBits (Canonical.sorted lengths) dec.table

theorem foldl_max_eq_zero {lengths : List Nat} : lengths.foldl max 0 = 0 ↔ ∀ w ∈ lengths, w = 0 := by
  have hgen : ∀ (l : List Nat) (a : Nat), l.foldl max a = 0 ↔ a = 0 ∧ ∀ w ∈ l, w = 0 := by
    intro l
    induction l with
    | nil => simp
    | cons b l ih =>
      intro a
      rw [List.foldl_cons, ih, List.forall_mem_cons]
      constructor
      · rintro ⟨h1, h2⟩
        exact ⟨by omega, by omega, h2⟩
      · rintro ⟨h1, h2, h3⟩
        exact ⟨by omega, h3⟩
  rw [hgen]
  simp

theorem foldl_max_le {lengths : List Nat} {n : Nat} : lengths.foldl max 0 ≤ n ↔ ∀ w ∈ lengths, w ≤ n := by
  have hgen : ∀ (l : List Nat) (a : Nat), l.foldl max a ≤ n ↔ a ≤ n ∧ ∀ w ∈ l, w ≤ n := by
    intro l
    induction l with
    | nil => simp
    | cons b l ih =>
      intro a
      rw [List.foldl_cons, ih, List.forall_mem_cons]
      constructor
      · rintro ⟨h1, h2⟩
        exact ⟨by omega, by omega, h2⟩
      · rintro ⟨h1, h2, h3⟩
        exact ⟨by omega, h3⟩
  rw [hgen]
  simp

/-- Kraft sums in finer units. -/
theorem weight_scale {M N : Nat} (hMN : M ≤ N) {es : List (Nat × Nat)} (h : ∀ e ∈ es, e.2 ≤ M) :
    Canonical.weight N es = 2 ^ (N - M) * Canonical.weight M es := by
  induction es with
  | nil => simp
  | cons e es ih =>
    have he : e.2 ≤ M := h e List.mem_cons_self
    rw [Canonical.weight_cons, Canonical.weight_cons, ih (fun a ha => h a (List.mem_cons_of_mem _ ha)), Nat.mul_add,
      ← Nat.pow_add]
    congr 2
    omega

/-- The codes fit in fifteen bits exactly when they fit in the widest of them. -/
theorem weight_le_iff {M : Nat} (hM : M ≤ 15) {es : List (Nat × Nat)} (h : ∀ e ∈ es, e.2 ≤ M) :
    Canonical.weight 15 es ≤ 2 ^ 15 ↔ Canonical.weight M es ≤ 2 ^ M := by
  have hpow : 2 ^ 15 = 2 ^ (15 - M) * 2 ^ M := by rw [← Nat.pow_add, Nat.sub_add_cancel hM]
  rw [weight_scale hM h, hpow]
  exact Nat.mul_le_mul_left_iff (Nat.two_pow_pos _)

theorem holds_empty (M : Nat) : Holds M [] (Array.replicate (1 <<< M) emptySlot) := by
  rw [Nat.one_shiftLeft]
  refine ⟨Array.size_replicate, fun i hi => ?_⟩
  rw [Array.getElem?_replicate, if_pos hi]
  rfl

/-- The symbols and widths the tables are built from. -/
theorem sorted_bounds {lengths : List Nat} {M : Nat} (hlen : lengths.length ≤ 2 ^ 11) (h : ∀ w ∈ lengths, w ≤ M) :
    ∀ e ∈ Canonical.sorted lengths, e.1 < 2 ^ 11 ∧ e.2 ≤ M := by
  rintro ⟨s, w⟩ he
  obtain ⟨hs, -⟩ := Canonical.mem_sorted.mp he
  have hlt := (List.getElem?_eq_some_iff.mp hs).1
  exact ⟨by simp only; omega, h w (List.mem_of_getElem? hs)⟩

/-- Building a decoder: a table when the code lengths are acceptable. -/
theorem fromCodeLengths_ok {lengths : List Nat} (peek eobSymbol : Option Nat) (hlen : lengths.length ≤ 2 ^ 11)
    (h : Fits lengths) :
    ∃ dec, HuffmanDecoder.fromCodeLengths lengths peek eobSymbol = .ok dec ∧ TableOf dec lengths ∧
      dec.maxBits = lengths.foldl max 0 ∧ dec.safelyPeekBits = min (lengths.foldl max 0)
        (max (peekOf eobSymbol (Canonical.sorted lengths) (peek.getD (lengths.foldl max 0))) 1) := by
  obtain ⟨M, hMdef⟩ : ∃ M, M = lengths.foldl max 0 := ⟨_, rfl⟩
  have hpos : M ≠ 0 := by
    rw [hMdef, ne_eq, foldl_max_eq_zero]
    obtain ⟨w, hw, hw0⟩ := h.nonempty
    intro hall
    have := hall w hw
    omega
  have hM : M ≤ 15 := by rw [hMdef, foldl_max_le]; exact h.le_max
  have hwidths : ∀ w ∈ lengths, w ≤ M := foldl_max_le.mp (le_of_eq hMdef.symm)
  have hentries := sorted_bounds hlen hwidths
  have hfits := (weight_le_iff hM (fun e he => (hentries e he).2)).mp h.kraft
  rcases assignLoop_spec eobSymbol hM [] (Canonical.sorted lengths) 0 0 (peek.getD M) hentries
      (Canonical.sorted_ordered lengths) (fun _ _ => Nat.zero_le _) (.start (holds_empty M)) with ⟨-, table, h1, h2⟩ | ⟨h1, -⟩
  · have hsorted : sortedSymbols lengths = Canonical.sorted lengths := rfl
    have hguard : ¬Noflate.maxBits < M := by unfold Noflate.maxBits; omega
    refine ⟨⟨table, min M (max (peekOf eobSymbol (Canonical.sorted lengths) (peek.getD M)) 1), M⟩, ?_,
      ⟨hwidths, hM, by simp only; omega, by simp only; omega, h2⟩, hMdef, by rw [← hMdef]⟩
    rw [HuffmanDecoder.fromCodeLengths, ← hMdef, hsorted]
    simp only [if_neg hpos, if_neg hguard, h1, Exec.ok_bind]
  · rw [List.nil_append] at h1
    omega

/-- Building a decoder: an error when the code lengths are not acceptable. -/
theorem fromCodeLengths_err {lengths : List Nat} (peek eobSymbol : Option Nat) (hlen : lengths.length ≤ 2 ^ 11)
    (h : ¬Fits lengths) :
    ∃ e, HuffmanDecoder.fromCodeLengths lengths peek eobSymbol = .err e := by
  obtain ⟨M, hMdef⟩ : ∃ M, M = lengths.foldl max 0 := ⟨_, rfl⟩
  have hwidths : ∀ w ∈ lengths, w ≤ M := foldl_max_le.mp (le_of_eq hMdef.symm)
  rw [HuffmanDecoder.fromCodeLengths, ← hMdef]
  simp only
  by_cases hpos : M = 0
  · exact ⟨_, if_pos hpos⟩
  · rw [if_neg hpos]
    by_cases hM : Noflate.maxBits < M
    · exact ⟨_, if_pos hM⟩
    · rw [if_neg hM]
      have hM15 : M ≤ 15 := by unfold Noflate.maxBits at hM; omega
      have hentries := sorted_bounds hlen hwidths
      have hsorted : sortedSymbols lengths = Canonical.sorted lengths := rfl
      rcases assignLoop_spec eobSymbol hM15 [] (Canonical.sorted lengths) 0 0 (peek.getD M) hentries
          (Canonical.sorted_ordered lengths) (fun _ _ => Nat.zero_le _) (.start (holds_empty M)) with ⟨h1, -⟩ | ⟨-, h1⟩
      · exfalso
        refine h ⟨?_, fun w hw => (hwidths w hw).trans hM15, ?_⟩
        · by_contra hall
          push Not at hall
          exact hpos (by rw [hMdef, foldl_max_eq_zero]; exact fun w hw => Nat.le_zero.mp (hall w hw))
        · exact (weight_le_iff hM15 (fun e he => (hentries e he).2)).mpr (by simpa using h1)
      · exact ⟨.invalidData "conflicting huffman codes", by rw [hsorted, h1, Exec.err_bind]⟩

theorem peekOf_none (es : List (Nat × Nat)) (default : Nat) : peekOf none es default = default := by
  unfold peekOf
  induction es with
  | nil => rfl
  | cons e es ih => simp

/-- When the end-of-block symbol has a code, the look-ahead is its width. -/
theorem peekOf_sorted {lengths : List Nat} {s w : Nat} (hs : lengths[s]? = some w) (hw : 0 < w) (default : Nat) :
    peekOf (some s) (Canonical.sorted lengths) default = w := by
  have hgen : ∀ (es : List (Nat × Nat)) (d : Nat), (∀ e ∈ es, e.1 = s → e.2 = w) → (d = w ∨ (s, w) ∈ es) →
      peekOf (some s) es d = w := by
    intro es
    induction es with
    | nil =>
      intro d _ h
      simp only [List.not_mem_nil, or_false] at h
      exact h
    | cons e es ih =>
      intro d hall h
      obtain ⟨he, hall'⟩ := List.forall_mem_cons.mp hall
      have hstep : peekOf (some s) (e :: es) d = peekOf (some s) es (if some e.1 = some s then e.2 else d) := rfl
      rw [hstep]
      refine ih _ hall' ?_
      by_cases hes : e.1 = s
      · rw [if_pos (by rw [hes])]
        exact .inl (he hes)
      · rw [if_neg (by simpa using hes)]
        refine h.imp_right fun hmem => ?_
        rcases List.mem_cons.mp hmem with heq | hmem
        · exact absurd (by rw [← heq]) hes
        · exact hmem
  refine hgen _ _ ?_ (.inr (Canonical.mem_sorted.mpr ⟨hs, hw⟩))
  rintro ⟨s', w'⟩ he rfl
  rw [(Canonical.mem_sorted.mp he).1, Option.some.injEq] at hs
  exact hs

end Noflate
