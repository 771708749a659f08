import Noflate.Error
import Mathlib.Data.List.Range

/-!
# Symbol tables

The constants and tables of RFC 1951 that the encoder and the decoder share, and the two functions of the encoder that turn a
match length and a distance into a symbol and extra bits.
-/

namespace Noflate

/-- Maximum code width allowed for any DEFLATE Huffman code. -/
def maxBits : Nat := 15

/-- End-of-block symbol in the literal/length alphabet. -/
def endOfBlock : Nat := 256

/-- Maximum back-reference distance. -/
def windowSize : Nat := 32768

/-- Minimum LZ77 match length. -/
def minMatch : Nat := 3

/-- Maximum LZ77 match length. -/
def maxMatch : Nat := 258

/-- Maximum payload size of a stored block. -/
def maxStoredBlock : Nat := 0xFFFF

/-- The order in which the code-length alphabet's symbols appear when transmitted. -/
def bitwidthCodeOrder : List Nat := [16, 17, 18, 0, 8, 7, 9, 6, 10, 5, 11, 4, 12, 3, 13, 2, 14, 1, 15]

/-- Length codes: base length and extra bits of the symbols from 257 to 285. -/
def lengthTable : List (Nat × Nat) :=
  [(3, 0), (4, 0), (5, 0), (6, 0), (7, 0), (8, 0), (9, 0), (10, 0), (11, 1), (13, 1), (15, 1), (17, 1), (19, 2), (23, 2),
    (27, 2), (31, 2), (35, 3), (43, 3), (51, 3), (59, 3), (67, 4), (83, 4), (99, 4), (115, 4), (131, 5), (163, 5), (195, 5),
    (227, 5), (258, 0)]

/-- Distance codes: base distance and extra bits of the symbols from 0 to 29. -/
def distanceTable : List (Nat × Nat) :=
  [(1, 0), (2, 0), (3, 0), (4, 0), (5, 1), (7, 1), (9, 2), (13, 2), (17, 3), (25, 3), (33, 4), (49, 4), (65, 5), (97, 5),
    (129, 6), (193, 6), (257, 7), (385, 7), (513, 8), (769, 8), (1025, 9), (1537, 9), (2049, 10), (3073, 10), (4097, 11),
    (6145, 11), (8193, 12), (12289, 12), (16385, 13), (24577, 13)]

/-- A symbol for a length or a distance, with its extra bits: how many, and their value. -/
structure EncodedSymbol where
  code : Nat
  extra : Option (Nat × Nat)
  deriving DecidableEq, Repr

/-- The loop shared by `lengthToSymbol` and `distanceToSymbol`: the last entry of the table whose base is at most the value,
seen from the high end. A value below every base is an `unreachable!`. -/
def tableToSymbol (table : List (Nat × Nat)) (firstCode value : Nat) : Exec EncodedSymbol :=
  match table.zipIdx.reverse.find? (fun entry => entry.1.1 ≤ value) with
  | some ((base, extraBits), index) =>
    .ok { code := firstCode + index, extra := if 0 < extraBits then some (extraBits, value - base) else none }
  | none => .panic

/-- The symbol of a match length. -/
def lengthToSymbol (length : Nat) : Exec EncodedSymbol := tableToSymbol lengthTable 257 length

/-- The symbol of a distance. -/
def distanceToSymbol (distance : Nat) : Exec EncodedSymbol := tableToSymbol distanceTable 0 distance

/-- Fixed-block literal/length code lengths. -/
def fixedLiteralCodeLengths : List Nat :=
  (List.range 288).map fun index =>
    if index ≤ 143 then 8 else if index ≤ 255 then 9 else if index ≤ 279 then 7 else 8

/-- Fixed-block distance code lengths. -/
def fixedDistanceCodeLengths : List Nat := List.replicate 30 5

/-! ## What the symbol of a value says -/

/-- The value an entry of a table and the extra bits of a symbol stand for. -/
def EncodedSymbol.value (sym : EncodedSymbol) (base : Nat) : Nat := base + (sym.extra.map (·.2)).getD 0

/-- The symbol of a value: its entry is in the table, the extra bits are as many as the entry says and their value fits in them,
and the base and the extra bits give the value back. -/
structure SymbolOf (table : List (Nat × Nat)) (firstCode value : Nat) (sym : EncodedSymbol) (base extraBits : Nat) : Prop where
  first_le : firstCode ≤ sym.code
  entry : table[sym.code - firstCode]? = some (base, extraBits)
  none_iff : sym.extra = none ↔ extraBits = 0
  some_bits : ∀ bits extra, sym.extra = some (bits, extra) → bits = extraBits ∧ extra < 2 ^ extraBits
  value_eq : sym.value base = value

/-- Every entry of a table covers the values up to the base of the next, and the last entry those up to a limit. -/
def Covers (table : List (Nat × Nat)) (limit : Nat) : Prop :=
  ∀ i < table.length, (table[i + 1]?.map (·.1)).getD (limit + 1) ≤ (table.getD i (0, 0)).1 + 2 ^ (table.getD i (0, 0)).2

instance (table : List (Nat × Nat)) (limit : Nat) : Decidable (Covers table limit) :=
  inferInstanceAs (Decidable (∀ i < table.length, _))

theorem lengthTable_covers : Covers lengthTable 258 := by decide

theorem lengthTable_bounds : ∀ e ∈ lengthTable, e.2 ≤ 5 ∧ 3 ≤ e.1 ∧ e.1 + 2 ^ e.2 ≤ 259 := by decide

theorem distanceTable_covers : Covers distanceTable 32768 := by decide

theorem distanceTable_le : ∀ entry ∈ distanceTable, entry.2 ≤ 13 := by decide

/-- A value from the first base of a table up to its limit has a symbol. -/
theorem tableToSymbol_spec {table : List (Nat × Nat)} {limit firstCode value first : Nat} (hc : Covers table limit)
    (hfirst : table[0]?.map (·.1) = some first) (hlo : first ≤ value) (hhi : value ≤ limit) :
    ∃ sym base extraBits, tableToSymbol table firstCode value = .ok sym ∧
      SymbolOf table firstCode value sym base extraBits := by
  cases hf : table.zipIdx.reverse.find? (fun entry => entry.1.1 ≤ value) with
  | none =>
    exfalso
    rw [List.find?_eq_none] at hf
    obtain ⟨e, he, rfl⟩ := Option.map_eq_some_iff.mp hfirst
    have hmem : (e, 0) ∈ table.zipIdx.reverse := by
      rw [List.mem_reverse, List.mk_mem_zipIdx_iff_getElem?]
      exact he
    have := hf _ hmem
    simp only [decide_eq_true_eq] at this
    omega
  | some e =>
    obtain ⟨⟨base, extraBits⟩, index⟩ := e
    obtain ⟨hp, as, bs, hl, has⟩ := List.find?_eq_some_iff_append.mp hf
    simp only [decide_eq_true_eq] at hp
    have hentry : table[index]? = some (base, extraBits) := by
      rw [← List.mk_mem_zipIdx_iff_getElem?, ← List.mem_reverse, hl]
      simp
    have hlt : index < table.length := (List.getElem?_eq_some_iff.mp hentry).1
    have hcov := hc index hlt
    rw [List.getD_eq_getElem?_getD, hentry, Option.getD_some] at hcov
    -- the next entry, if there is one, was seen before this one and its base is above the value
    have hnext : value < base + 2 ^ extraBits := by
      cases hn : table[index + 1]? with
      | none =>
        rw [hn] at hcov
        simp only [Option.map_none, Option.getD_none] at hcov
        omega
      | some e' =>
        rw [hn] at hcov
        simp only [Option.map_some, Option.getD_some] at hcov
        have hmem : (e', index + 1) ∈ as := by
          have hz : table.zipIdx = bs.reverse ++ ((base, extraBits), index) :: as.reverse := by
            rw [← List.reverse_reverse table.zipIdx, hl]
            simp
          have hlen : bs.reverse.length = index := by
            have h1 : table.zipIdx[bs.reverse.length]? = some ((base, extraBits), index) := by
              rw [hz, List.getElem?_append_right le_rfl, Nat.sub_self]
              rfl
            rw [List.getElem?_zipIdx, Option.map_eq_some_iff] at h1
            obtain ⟨_, -, h2⟩ := h1
            simpa using congrArg Prod.snd h2
          have h1 : table.zipIdx[index + 1]? = some (e', index + 1) := by
            rw [List.getElem?_zipIdx, hn]
            simp
          rw [hz, List.getElem?_append_right (by omega), show index + 1 - bs.reverse.length = 0 + 1 by omega,
            List.getElem?_cons_succ] at h1
          exact List.mem_reverse.mp (List.mem_of_getElem? h1)
        have := has _ hmem
        simp only [Bool.not_eq_true', decide_eq_false_iff_not] at this
        omega
    refine ⟨_, base, extraBits, by rw [tableToSymbol, hf], ⟨Nat.le_add_right _ _, ?_, ?_, ?_, ?_⟩⟩
    · simpa using hentry
    · by_cases h0 : 0 < extraBits
      · simp [h0]
        omega
      · simp [h0]
        omega
    · intro bits extra h
      by_cases h0 : 0 < extraBits
      · simp only [if_pos h0, Option.some.injEq, Prod.mk.injEq] at h
        obtain ⟨rfl, rfl⟩ := h
        exact ⟨rfl, by omega⟩
      · simp [h0] at h
    · rw [EncodedSymbol.value]
      by_cases h0 : 0 < extraBits
      · simp only [if_pos h0, Option.map_some, Option.getD_some]
        omega
      · have : extraBits = 0 := by omega
        subst this
        simp only [Nat.lt_irrefl, if_false, Option.map_none, Option.getD_none]
        omega

/-- Every match length from 3 to 258 has a symbol. -/
theorem lengthToSymbol_spec {length : Nat} (h3 : minMatch ≤ length) (h258 : length ≤ maxMatch) :
    ∃ sym base extraBits, lengthToSymbol length = .ok sym ∧ SymbolOf lengthTable 257 length sym base extraBits :=
  tableToSymbol_spec lengthTable_covers rfl h3 h258

/-- Every distance from 1 to 32768 has a symbol. -/
theorem distanceToSymbol_spec {distance : Nat} (h1 : 1 ≤ distance) (h2 : distance ≤ windowSize) :
    ∃ sym base extraBits, distanceToSymbol distance = .ok sym ∧
      SymbolOf distanceTable 0 distance sym base extraBits :=
  tableToSymbol_spec distanceTable_covers rfl h1 h2

end Noflate
