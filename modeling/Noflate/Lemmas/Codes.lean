import Noflate.Encode
import Noflate.Lemmas.Matching
import Noflate.Lemmas.Reading

/-!
# The codes of the encoder

The encoder's table of a family of code lengths holds the canonical codes (`EncoderOf`), and what is written with it is read back by
the reference: a symbol (`readSymbol_codeBits`), a token (`writes_symbol`) and the tokens of a block (`writes_symbols`).

What a writing operation appends does not depend on the writer it is given: `Writes f bits`.
-/

namespace Noflate

open BitString

/-! ## Writing -/

/-- `w'` is `w` after writing bits. -/
structure BitWriter.Appends (w w' : BitWriter) (bits : List Bool) : Prop where
  wf : w'.Wf
  bits_eq : w'.bits = w.bits ++ bits

namespace BitWriter

theorem Appends.refl {w : BitWriter} (h : w.Wf) : Appends w w [] := ⟨h, (List.append_nil _).symm⟩

/-- Writing some bits and then some more. -/
theorem Appends.trans {w w' w'' : BitWriter} {bits bits' : List Bool} (h : Appends w w' bits) (h' : Appends w' w'' bits') :
    Appends w w'' (bits ++ bits') :=
  ⟨h'.wf, by rw [h'.bits_eq, h.bits_eq, List.append_assoc]⟩

end BitWriter

/-- An operation on writers that succeeds and appends the same bits to every writer. -/
def Writes (f : BitWriter → Exec BitWriter) (bits : List Bool) : Prop :=
  ∀ w : BitWriter, w.Wf → ∃ w', f w = .ok w' ∧ w.Appends w' bits

namespace Writes

theorem nothing : Writes .ok [] := fun w hw => ⟨w, rfl, .refl hw⟩

/-- One operation after the other. -/
theorem bind {f g : BitWriter → Exec BitWriter} {bits bits' : List Bool} (hf : Writes f bits) (hg : Writes g bits') :
    Writes (fun w => f w >>= g) (bits ++ bits') := by
  intro w hw
  obtain ⟨w₁, h1, h2⟩ := hf w hw
  obtain ⟨w₂, h3, h4⟩ := hg w₁ h2.wf
  exact ⟨w₂, by simp only [h1, Exec.ok_bind, h3], h2.trans h4⟩

/-- The same operation, written in another way. -/
theorem congr {f g : BitWriter → Exec BitWriter} {bits : List Bool} (hf : Writes f bits) (h : ∀ w, g w = f w) : Writes g bits := by
  intro w hw
  rw [h w]
  exact hf w hw

/-- A field of up to sixteen bits. -/
theorem field {n v : Nat} (hn : n ≤ 16) (hv : v < 2 ^ n) : Writes (fun w => w.writeBits n v) (ofNat n v) := by
  intro w hw
  obtain ⟨w', hok, hwf, hbits⟩ := BitWriter.writeBits_spec hw hn hv
  exact ⟨w', hok, hwf, hbits⟩

/-- A bit. -/
theorem bit (b : Bool) : Writes (fun w => w.writeBit b) [b] := by
  intro w hw
  obtain ⟨w', hok, hwf, hbits⟩ := BitWriter.writeBit_spec b hw
  exact ⟨w', hok, hwf, hbits⟩

/-- The same operation for the elements of a list, one after the other. -/
theorem foldlM {α : Type} {f : BitWriter → α → Exec BitWriter} {bits : α → List Bool} {l : List α}
    (h : ∀ a ∈ l, Writes (fun w => f w a) (bits a)) : Writes (fun w => l.foldlM f w) (l.flatMap bits) := by
  induction l with
  | nil => exact nothing
  | cons a l ih =>
    rw [List.flatMap_cons]
    refine (bind (h a List.mem_cons_self) (ih fun b hb => h b (List.mem_cons_of_mem _ hb))).congr ?_
    intro w
    exact List.foldlM_cons

/-- The bits an operation appends are determined. -/
theorem unique {f : BitWriter → Exec BitWriter} {bits bits' : List Bool} (h : Writes f bits) (h' : Writes f bits') :
    bits = bits' := by
  obtain ⟨w, h1, h2⟩ := h (BitWriter.newSeeded [] 0 0) ⟨Nat.one_pos, Nat.succ_pos 7⟩
  obtain ⟨w', h3, h4⟩ := h' (BitWriter.newSeeded [] 0 0) ⟨Nat.one_pos, Nat.succ_pos 7⟩
  obtain rfl : w = w' := Exec.ok.inj (h1.symm.trans h3)
  exact List.append_cancel_left (h2.bits_eq.symm.trans h4.bits_eq)

end Writes

/-- A field that was written is read back. -/
theorem readField_append {n v : Nat} (hv : v < 2 ^ n) (rest : List Bool) :
    Rfc1951.readField n (ofNat n v ++ rest) = some (v, rest) := by
  rw [readField_eq_some_iff]
  refine ⟨?_, ?_, ?_⟩
  · rw [List.length_append, length_ofNat]
    exact Nat.le_add_right _ _
  · rw [List.take_left' (length_ofNat n v), toNat_ofNat_of_lt hv]
  · rw [List.drop_left' (length_ofNat n v)]

/-! ## The table of the encoder -/

/-- An encoder has the canonical code of every symbol with a code, in the order in which its bits are written. -/
def Encodes (enc : HuffmanEncoder) (lengths : List Nat) : Prop :=
  ∀ s w : Nat, lengths[s]? = some w → 0 < w → enc.codes[s]? = some (Code.mk w (reverseBits (Canonical.code lengths s) w))

/-- The encoder's table of a family of code lengths. -/
structure EncoderOf (enc : HuffmanEncoder) (lengths : List Nat) : Prop where
  used : Encodes enc lengths
  unused : ∀ s : Nat, lengths[s]? = some 0 → enc.codes[s]? = some Code.empty
  length_eq : enc.codes.length = lengths.length

/-- The loop over the symbols in the order of their widths: each gets the code that follows those before it, and the other slots
stay as they are. -/
theorem assignCodes_spec (es rest : List (Nat × Nat)) (code previousWidth : Nat) {codes : List Code}
    (hentries : ∀ e ∈ rest, e.1 < codes.length ∧ e.2 ≤ 15) (hordered : Canonical.Ordered rest)
    (hnodup : (rest.map Prod.fst).Nodup) (hprev : ∀ e ∈ rest, previousWidth ≤ e.2) (hp15 : previousWidth ≤ 15)
    (hweight : Canonical.weight 15 es = code * 2 ^ (15 - previousWidth))
    (hroom : Canonical.weight 15 (es ++ rest) ≤ 2 ^ 15) :
    ∃ codes', HuffmanEncoder.assignLoop rest code previousWidth codes = .ok codes' ∧ codes'.length = codes.length ∧
      (∀ s, s ∉ rest.map Prod.fst → codes'[s]? = codes[s]?) ∧
      ∀ as s w bs, rest = as ++ (s, w) :: bs → ∃ c, Canonical.weight 15 (es ++ as) = c * 2 ^ (15 - w) ∧
        codes'[s]? = some { width := w, bits := reverseBits c w } := by
  induction rest generalizing es code previousWidth codes with
  | nil =>
    refine ⟨codes, rfl, rfl, fun s _ => rfl, ?_⟩
    intro as s w bs h
    exact absurd h.symm (by simp)
  | cons e rest ih =>
    obtain ⟨s₀, w₀⟩ := e
    have hpw : previousWidth ≤ w₀ := hprev (s₀, w₀) List.mem_cons_self
    obtain ⟨hs₀, hw15⟩ := hentries (s₀, w₀) List.mem_cons_self
    simp only at hs₀ hw15
    obtain ⟨hfirst, hordered'⟩ := List.pairwise_cons.mp hordered
    rw [List.map_cons, List.nodup_cons] at hnodup
    have hpow15 : 2 ^ 15 = 2 ^ w₀ * 2 ^ (15 - w₀) := by rw [← Nat.pow_add, Nat.add_sub_cancel' hw15]
    have hsplit : es ++ (s₀, w₀) :: rest = (es ++ [(s₀, w₀)]) ++ rest := by simp
    have hweight' : Canonical.weight 15 es = code * 2 ^ (w₀ - previousWidth) * 2 ^ (15 - w₀) := by
      rw [hweight, Nat.mul_assoc, ← Nat.pow_add]
      congr 2
      omega
    have hweight'' : Canonical.weight 15 (es ++ [(s₀, w₀)]) = (code * 2 ^ (w₀ - previousWidth) + 1) * 2 ^ (15 - w₀) := by
      rw [Canonical.weight_append, Canonical.weight_cons, Canonical.weight_nil, hweight']
      ring
    -- the code is in range because the codes fit
    have hle : code * 2 ^ (w₀ - previousWidth) + 1 ≤ 2 ^ w₀ := by
      rw [hsplit, Canonical.weight_append, hweight'', hpow15] at hroom
      exact Nat.le_of_mul_le_mul_right ((Nat.le_add_right _ _).trans hroom) (Nat.two_pow_pos _)
    have h15 : 2 ^ w₀ ≤ 2 ^ 15 := Nat.pow_le_pow_right (by omega) (by omega)
    have hmod : (code <<< (w₀ - previousWidth)) % 2 ^ 16 = code * 2 ^ (w₀ - previousWidth) := by
      rw [Nat.shiftLeft_eq, Nat.mod_eq_of_lt (by omega)]
    have hmax : ¬maxBits < w₀ := Nat.not_lt.mpr hw15
    have hguard : ¬(w₀ < previousWidth ∨ 16 ≤ w₀ - previousWidth) := by omega
    have hnext : ¬2 ^ 16 ≤ code * 2 ^ (w₀ - previousWidth) + 1 := by omega
    have hentries' : ∀ e ∈ rest, e.1 < (codes.set s₀ (Code.mk w₀ (reverseBits (code * 2 ^ (w₀ - previousWidth)) w₀))).length ∧
        e.2 ≤ 15 := by
      intro e he
      rw [List.length_set]
      exact hentries e (List.mem_cons_of_mem _ he)
    obtain ⟨codes', h1, h2, h3, h4⟩ := ih (es ++ [(s₀, w₀)]) (code * 2 ^ (w₀ - previousWidth) + 1) w₀ hentries' hordered'
      hnodup.2 hfirst hw15 hweight'' (by rwa [← hsplit])
    refine ⟨codes', ?_, by rw [h2, List.length_set], ?_, ?_⟩
    · rw [HuffmanEncoder.assignLoop, if_neg hmax, if_neg hguard]
      simp only [hmod]
      rw [Exec.assign_of_lt _ hs₀, Exec.ok_bind, if_neg hnext, h1]
    · intro s hs
      rw [List.map_cons, List.mem_cons, not_or] at hs
      rw [h3 s hs.2, List.getElem?_set_ne (Ne.symm hs.1)]
    · intro as s w bs heq
      cases as with
      | nil =>
        obtain ⟨he, rfl⟩ := List.cons.inj heq
        obtain ⟨rfl, rfl⟩ := Prod.mk.inj he
        refine ⟨_, by rw [List.append_nil]; exact hweight', ?_⟩
        rw [h3 s₀ hnodup.1, List.getElem?_set_self hs₀]
      | cons a as =>
        rw [List.cons_append] at heq
        obtain ⟨rfl, htail⟩ := List.cons.inj heq
        obtain ⟨c, h5, h6⟩ := h4 as s w bs htail
        exact ⟨c, by rwa [List.append_assoc] at h5, h6⟩

/-- Code lengths that fit have an encoder. -/
theorem encoderOf_ok {lengths : List Nat} (h : Fits lengths) :
    ∃ enc, HuffmanEncoder.fromCodeLengths lengths = .ok enc ∧ EncoderOf enc lengths := by
  have hlen : (List.replicate lengths.length Code.empty).length = lengths.length := List.length_replicate
  have hentries : ∀ e ∈ Canonical.sorted lengths, e.1 < (List.replicate lengths.length Code.empty).length ∧ e.2 ≤ 15 := by
    rintro ⟨s, w⟩ he
    have hs := (Canonical.mem_sorted.mp he).1
    rw [hlen]
    exact ⟨(List.getElem?_eq_some_iff.mp hs).1, h.le_max w (List.mem_of_getElem? hs)⟩
  obtain ⟨codes, h1, h2, h3, h4⟩ := assignCodes_spec [] (Canonical.sorted lengths) 0 0 hentries
    (Canonical.sorted_ordered lengths) (Canonical.sorted_fst_nodup lengths) (fun _ _ => Nat.zero_le _) (Nat.zero_le _)
    (by rw [Canonical.weight_nil, Nat.zero_mul]) h.kraft
  have hsorted : sortedSymbols lengths = Canonical.sorted lengths := rfl
  refine ⟨{ codes }, by rw [HuffmanEncoder.fromCodeLengths, hsorted, h1, Exec.ok_bind], ?_, ?_, by rw [h2, hlen]⟩
  · intro s w hs hw
    obtain ⟨as, bs, heq, hweight⟩ := Canonical.exists_sorted_split h.le_max hs hw
    obtain ⟨c, h5, h6⟩ := h4 as s w bs heq
    rw [List.nil_append, hweight] at h5
    rw [h6, Nat.eq_of_mul_eq_mul_right (Nat.two_pow_pos _) h5]
  · intro s hs
    have hnot : s ∉ (Canonical.sorted lengths).map Prod.fst := by
      rw [List.mem_map]
      rintro ⟨⟨s', w⟩, he, rfl : s' = s⟩
      obtain ⟨hs', hw⟩ := Canonical.mem_sorted.mp he
      rw [hs, Option.some.injEq] at hs'
      omega
    rw [h3 s hnot, List.getElem?_replicate, if_pos (List.getElem?_eq_some_iff.mp hs).1]

/-- The bits of a symbol's code, in the order in which they are written. -/
def codeBits (lengths : List Nat) (s : Nat) : List Bool := ofNatMsb (lengths.getD s 0) (Canonical.code lengths s)

/-- A symbol that has a code. -/
def HasCode (lengths : List Nat) (s : Nat) : Prop := 0 < lengths.getD s 0

theorem HasCode.getElem? {lengths : List Nat} {s : Nat} (h : HasCode lengths s) :
    lengths[s]? = some (lengths.getD s 0) := by
  unfold HasCode at h
  rw [List.getD_eq_getElem?_getD] at h ⊢
  cases hs : lengths[s]? with
  | none =>
    rw [hs] at h
    exact absurd h (Nat.lt_irrefl 0)
  | some w => rfl

theorem hasCode_of_getElem? {lengths : List Nat} {s w : Nat} (h : lengths[s]? = some w) (hw : 0 < w) : HasCode lengths s := by
  rw [HasCode, List.getD_eq_getElem?_getD, h]
  exact hw

/-- The code of a symbol is in range. -/
theorem Fits.code_lt {lengths : List Nat} (h : Fits lengths) {s : Nat} (hs : HasCode lengths s) :
    Canonical.code lengths s < 2 ^ lengths.getD s 0 := by
  have hw := h.le_max _ (List.mem_of_getElem? hs.getElem?)
  obtain ⟨as, bs, heq, hweight⟩ := Canonical.exists_sorted_split h.le_max hs.getElem? hs
  have hk := h.kraft
  have hpow : 2 ^ 15 = 2 ^ lengths.getD s 0 * 2 ^ (15 - lengths.getD s 0) := by rw [← Nat.pow_add, Nat.add_sub_cancel' hw]
  rw [heq, Canonical.weight_append, Canonical.weight_cons, hweight] at hk
  simp only at hk
  have hle : (Canonical.code lengths s + 1) * 2 ^ (15 - lengths.getD s 0) ≤
      2 ^ lengths.getD s 0 * 2 ^ (15 - lengths.getD s 0) := by
    rw [← hpow, Nat.add_mul, Nat.one_mul]
    omega
  exact Nat.le_of_mul_le_mul_right hle (Nat.two_pow_pos _)

/-- Writing a symbol appends its code. -/
theorem Encodes.writes {enc : HuffmanEncoder} {lengths : List Nat} (h : Encodes enc lengths) (hfits : Fits lengths) {s : Nat}
    (hs : HasCode lengths s) : Writes (fun w => enc.encode w s) (codeBits lengths s) := by
  have hle := hfits.le_max _ (List.mem_of_getElem? hs.getElem?)
  have hrev : reverseBits (Canonical.code lengths s) (lengths.getD s 0) =
      toNat (ofNatMsb (lengths.getD s 0) (Canonical.code lengths s)) := reverseBits_eq _ (by omega)
  have hlt := toNat_lt (ofNatMsb (lengths.getD s 0) (Canonical.code lengths s))
  have hbits := ofNat_toNat (ofNatMsb (lengths.getD s 0) (Canonical.code lengths s))
  rw [length_ofNatMsb] at hlt hbits
  have hfield := Writes.field (show lengths.getD s 0 ≤ 16 by omega) hlt
  rw [hbits] at hfield
  refine hfield.congr ?_
  intro w
  rw [HuffmanEncoder.encode, Exec.index_of_getElem? (h s _ hs.getElem? hs), Exec.ok_bind, hrev]

/-- The width of the code of a symbol. -/
theorem EncoderOf.codeWidth_eq {enc : HuffmanEncoder} {lengths : List Nat} (h : EncoderOf enc lengths) (s : Nat) :
    enc.codeWidth s = lengths.getD s 0 := by
  rw [HuffmanEncoder.codeWidth, List.getD_eq_getElem?_getD]
  cases hs : lengths[s]? with
  | none =>
    have hnone : enc.codes[s]? = none := by
      rw [List.getElem?_eq_none_iff, h.length_eq]
      exact List.getElem?_eq_none_iff.mp hs
    rw [hnone]
    rfl
  | some w =>
    rcases Nat.eq_zero_or_pos w with rfl | hw
    · rw [h.unused s hs]
      rfl
    · rw [h.used s w hs hw]
      rfl

/-- The code of a symbol is read back as the symbol. -/
theorem readSymbol_codeBits {lengths : List Nat} (hfits : Fits lengths) {s : Nat} (hs : HasCode lengths s) (rest : List Bool) :
    Rfc1951.readSymbol lengths (codeBits lengths s ++ rest) = some (s, rest) := by
  have hlen : (codeBits lengths s).length = lengths.getD s 0 := length_ofNatMsb _ _
  rw [readSymbol_iff]
  refine ⟨lengths.getD s 0, ⟨hs.getElem?, hs, ?_, ?_⟩, ?_⟩
  · rw [List.length_append, hlen]
    exact Nat.le_add_right _ _
  · rw [List.take_left' hlen, codeBits, msbNat_ofNatMsb, Nat.mod_eq_of_lt (hfits.code_lt hs)]
  · rw [List.drop_left' hlen]

/-! ## Lengths without a code at the end -/

theorem kraft_append_zeros (M k : Nat) (lengths : List Nat) :
    Canonical.weight M (Canonical.sorted (lengths ++ List.replicate k 0)) = Canonical.weight M (Canonical.sorted lengths) := by
  rw [Canonical.weight_sorted, Canonical.weight_sorted, List.filter_append, List.filter_replicate, if_neg (by simp),
    List.append_nil]

/-- The codes of symbols do not depend on lengths that are zero behind them. -/
theorem code_append_zeros {lengths : List Nat} (k : Nat) {s w : Nat} (hs : lengths[s]? = some w) :
    Canonical.code (lengths ++ List.replicate k 0) s = Canonical.code lengths s := by
  have hlt := (List.getElem?_eq_some_iff.mp hs).1
  have hgetD : (lengths ++ List.replicate k 0).getD s 0 = w := by
    rw [List.getD_eq_getElem?_getD, List.getElem?_append_left hlt, hs, Option.getD_some]
  have hgetD' : lengths.getD s 0 = w := by
    rw [List.getD_eq_getElem?_getD, hs, Option.getD_some]
  have hcount : ∀ b, 0 < b → (lengths ++ List.replicate k 0).count b = lengths.count b := by
    intro b hb
    rw [List.count_append, List.count_replicate, if_neg (by simpa using hb.ne), Nat.add_zero]
  have hnext : ∀ b, Canonical.nextCode (fun b => (lengths ++ List.replicate k 0).count b) b =
      Canonical.nextCode (fun b => lengths.count b) b := by
    intro b
    induction b with
    | zero => rfl
    | succ b ih =>
      rw [Canonical.nextCode, Canonical.nextCode, ih]
      by_cases hb : b = 0
      · rw [if_pos hb, if_pos hb]
      · rw [if_neg hb, if_neg hb, hcount b (Nat.pos_of_ne_zero hb)]
  rw [Canonical.code, Canonical.code, hgetD, hgetD', hnext, List.take_append_of_le_length hlt.le]

theorem Encodes.of_append_zeros {enc : HuffmanEncoder} {lengths : List Nat} {k : Nat}
    (h : Encodes enc (lengths ++ List.replicate k 0)) : Encodes enc lengths := by
  intro s w hs hw
  have hlt := (List.getElem?_eq_some_iff.mp hs).1
  rw [← code_append_zeros k hs]
  exact h s w (by rw [List.getElem?_append_left hlt, hs]) hw

theorem Fits.of_append_zeros {lengths : List Nat} {k : Nat} (h : Fits (lengths ++ List.replicate k 0)) : Fits lengths := by
  refine ⟨?_, fun w hw => h.le_max w (List.mem_append_left _ hw), ?_⟩
  · obtain ⟨w, hw, hpos⟩ := h.nonempty
    rcases List.mem_append.mp hw with hw | hw
    · exact ⟨w, hw, hpos⟩
    · rw [List.eq_of_mem_replicate hw] at hpos
      exact absurd hpos (Nat.lt_irrefl 0)
  · rw [← kraft_append_zeros 15 k]
    exact h.kraft

/-! ## Tokens -/

/-- The bits of a symbol's extra bits. -/
def extraField : Option (Nat × Nat) → List Bool
  | some (bits, extra) => ofNat bits extra
  | none => []

/-- What a token of the encoder is to the reference. -/
def Lz77Code.token : Lz77Code → Rfc1951.Token
  | .literal byte => .literal byte
  | .pointer length distance => .copy length distance

/-- The codes of the symbols of a token are there. -/
def Lz77Code.Coded (literal distance : List Nat) : Lz77Code → Prop
  | .literal byte => HasCode literal byte.toNat
  | .pointer length dist => (∀ sym, lengthToSymbol length = .ok sym → HasCode literal sym.code) ∧
      ∀ sym, distanceToSymbol dist = .ok sym → HasCode distance sym.code

/-- The bits of a token. -/
def Lz77Code.bits (literal distance : List Nat) : Lz77Code → List Bool
  | .literal byte => codeBits literal byte.toNat
  | .pointer length dist =>
    match lengthToSymbol length, distanceToSymbol dist with
    | .ok lenSym, .ok distSym =>
      codeBits literal lenSym.code ++ (extraField lenSym.extra ++ (codeBits distance distSym.code ++ extraField distSym.extra))
    | _, _ => []

/-- The bits of the tokens of a block and its end. -/
def tokenBits (literal distance : List Nat) (symbols : List Lz77Code) : List Bool :=
  symbols.flatMap (Lz77Code.bits literal distance) ++ codeBits literal endOfBlock

/-- The extra bits of a symbol are written. -/
theorem SymbolOf.writes {table : List (Nat × Nat)} {firstCode value base extraBits : Nat} {sym : EncodedSymbol}
    (h : SymbolOf table firstCode value sym base extraBits) (hfew : extraBits ≤ 16) :
    Writes (fun w => writeExtra sym.extra w) (extraField sym.extra) := by
  cases he : sym.extra with
  | none => exact .nothing
  | some e =>
    obtain ⟨bits, extra⟩ := e
    obtain ⟨rfl, hlt⟩ := h.some_bits bits extra he
    exact .field hfew hlt

/-- The extra bits of a symbol are read back as the entry of its table says. -/
theorem SymbolOf.reads {table : List (Nat × Nat)} {firstCode value base extraBits : Nat} {sym : EncodedSymbol}
    (h : SymbolOf table firstCode value sym base extraBits) :
    ∃ extra, value = base + extra ∧ ∀ rest, Rfc1951.readField extraBits (extraField sym.extra ++ rest) = some (extra, rest) := by
  have hvalue := h.value_eq
  unfold EncodedSymbol.value at hvalue
  cases he : sym.extra with
  | none =>
    rw [he] at hvalue
    rw [h.none_iff.mp he]
    exact ⟨0, hvalue.symm, fun rest => readField_zero rest⟩
  | some e =>
    obtain ⟨bits, extra⟩ := e
    obtain ⟨rfl, hlt⟩ := h.some_bits bits extra he
    rw [he] at hvalue
    exact ⟨extra, hvalue.symm, fun rest => readField_append hlt rest⟩

/-- The code sets of a compressed block, with the encoders for them. -/
structure Coding (literalEncoder distanceEncoder : HuffmanEncoder) (literal distance : List Nat) : Prop where
  literal_encoder : Encodes literalEncoder literal
  distance_encoder : Encodes distanceEncoder distance
  literal_fits : Fits literal
  distance_fits : Fits distance

section

variable {literalEncoder distanceEncoder : HuffmanEncoder} {literal distance : List Nat}

/-- A token is written, and read back. -/
theorem Coding.writes_symbol (h : Coding literalEncoder distanceEncoder literal distance) {sym : Lz77Code} (hrange : sym.InRange)
    (hcoded : sym.Coded literal distance) :
    Writes (fun w => writeSymbol literalEncoder distanceEncoder w sym) (sym.bits literal distance) ∧
      ∀ rest, Rfc1951.readToken literal distance (sym.bits literal distance ++ rest) = some (sym.token, rest) := by
  cases sym with
  | literal byte =>
    refine ⟨h.literal_encoder.writes h.literal_fits hcoded, ?_⟩
    intro rest
    have hread : TokenRead literal distance (codeBits literal byte.toNat ++ rest) (.literal (UInt8.ofNat byte.toNat)) rest :=
      .literal (readSymbol_codeBits h.literal_fits hcoded rest) byte.toNat_lt
    rw [UInt8.ofNat_toNat] at hread
    exact readToken_iff.mpr hread
  | pointer length dist =>
    obtain ⟨h3, h258, h1, hwindow⟩ := hrange
    obtain ⟨lenSym, lenBase, lenExtraBits, hlenSym, hlen⟩ := lengthToSymbol_spec h3 h258
    obtain ⟨distSym, distBase, distExtraBits, hdistSym, hdist⟩ := distanceToSymbol_spec h1 hwindow
    have hlenMod : length % 2 ^ 16 = length := by
      unfold maxMatch at h258
      omega
    have hdistMod : dist % 2 ^ 16 = dist := by
      unfold windowSize at hwindow
      omega
    have hlenCode := hcoded.1 _ hlenSym
    have hdistCode := hcoded.2 _ hdistSym
    have hlenFew := (lengthTable_bounds _ (List.mem_of_getElem? hlen.entry)).1
    have hdistFew := distanceTable_le _ (List.mem_of_getElem? hdist.entry)
    have hlenWrites := hlen.writes (hlenFew.trans (by decide))
    have hdistWrites := hdist.writes (hdistFew.trans (by decide))
    obtain ⟨lenExtra, hlenEq, hlenRead⟩ := hlen.reads
    obtain ⟨distExtra, hdistEq, hdistRead⟩ := hdist.reads
    have hbits : (Lz77Code.pointer length dist).bits literal distance = codeBits literal lenSym.code ++
        (extraField lenSym.extra ++ (codeBits distance distSym.code ++ extraField distSym.extra)) := by
      rw [Lz77Code.bits, hlenSym, hdistSym]
    rw [hbits]
    constructor
    · have hall := (h.literal_encoder.writes h.literal_fits hlenCode).bind
        (hlenWrites.bind ((h.distance_encoder.writes h.distance_fits hdistCode).bind hdistWrites))
      refine hall.congr ?_
      intro w
      simp only [writeSymbol, hlenMod, hdistMod, hlenSym, hdistSym, Exec.ok_bind]
    · intro rest
      have hfirst := hlen.first_le
      have hentry := hlen.entry
      have hdistEntry := hdist.entry
      rw [lengthTable_eq] at hentry
      rw [distanceTable_eq, Nat.sub_zero] at hdistEntry
      have hne : lenSym.code ≠ 256 := by omega
      rw [readToken_iff, List.append_assoc, List.append_assoc, List.append_assoc]
      have hread := TokenRead.copy (readSymbol_codeBits h.literal_fits hlenCode _) (by omega) hentry (hlenRead _)
        (readSymbol_codeBits h.distance_fits hdistCode _) hdistEntry (hdistRead rest)
      rw [← hlenEq, ← hdistEq] at hread
      exact hread

/-- Reading a token, and going on. -/
theorem readTokens_token {bits rest : List Bool} {sym : Lz77Code} (output : List UInt8)
    (h : Rfc1951.readToken literal distance (bits ++ rest) = some (sym.token, rest)) :
    Rfc1951.readTokens literal distance (bits ++ rest).length (bits ++ rest) output =
      (sym.expand output).bind fun output => Rfc1951.readTokens literal distance rest.length rest output := by
  rw [readTokens_eq, h, Option.bind_some]
  cases sym with
  | literal byte => rfl
  | pointer length dist => rfl

/-- The tokens of a block and its end are written. -/
theorem Coding.writes_symbols (h : Coding literalEncoder distanceEncoder literal distance) (hend : HasCode literal endOfBlock)
    {symbols : List Lz77Code} (hrange : ∀ sym ∈ symbols, sym.InRange) (hcoded : ∀ sym ∈ symbols, sym.Coded literal distance) :
    Writes (fun w => writeSymbols w symbols literalEncoder distanceEncoder) (tokenBits literal distance symbols) :=
  (Writes.foldlM fun sym hs => (h.writes_symbol (hrange sym hs) (hcoded sym hs)).1).bind
    (h.literal_encoder.writes h.literal_fits hend)

/-- The tokens of a block and its end are read back as what they stand for. -/
theorem Coding.reads_symbols (h : Coding literalEncoder distanceEncoder literal distance) (hend : HasCode literal endOfBlock)
    {symbols : List Lz77Code} (hrange : ∀ sym ∈ symbols, sym.InRange) (hcoded : ∀ sym ∈ symbols, sym.Coded literal distance)
    (output : List UInt8) (rest : List Bool) :
    Rfc1951.readTokens literal distance (tokenBits literal distance symbols ++ rest).length
        (tokenBits literal distance symbols ++ rest) output = (expand output symbols).map fun output => (output, rest) := by
  induction symbols generalizing output with
  | nil =>
    have hread : Rfc1951.readToken literal distance (codeBits literal endOfBlock ++ rest) = some (.endOfBlock, rest) :=
      readToken_iff.mpr (.endOfBlock (readSymbol_codeBits h.literal_fits hend rest))
    rw [readTokens_eq, tokenBits, List.flatMap_nil, List.nil_append, hread]
    rfl
  | cons sym symbols ih =>
    have hread := (h.writes_symbol (hrange sym List.mem_cons_self) (hcoded sym List.mem_cons_self)).2
      (tokenBits literal distance symbols ++ rest)
    have hsplit : tokenBits literal distance (sym :: symbols) ++ rest =
        sym.bits literal distance ++ (tokenBits literal distance symbols ++ rest) := by
      simp only [tokenBits, List.flatMap_cons, List.append_assoc]
    rw [hsplit, readTokens_token output hread, expand, List.foldlM_cons, Option.bind_eq_bind]
    cases sym.expand output with
    | none => rfl
    | some output' =>
      rw [Option.bind_some, Option.bind_some]
      exact ih (fun s hs => hrange s (List.mem_cons_of_mem _ hs)) (fun s hs => hcoded s (List.mem_cons_of_mem _ hs)) output'

end

end Noflate
