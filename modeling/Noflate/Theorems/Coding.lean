import Noflate.Lemmas.Codes
import Noflate.Lemmas.Reference

/-!
# The encoder and the decoder agree on the codes

The encoder's table holds the canonical codes, and the decoder finds a code by its table with no more look-ahead than the code and the
table's own look-ahead need, for complete and for incomplete codes (`huffman_agrees`).
-/

namespace Noflate

open BitString

/-- The error of bits that no code of a table begins. -/
def invalidCodeError : Error := .invalidData "invalid huffman coded stream"

/-- The bits that have been in the buffer of a reader: those it had, and eight for each byte pulled in since. -/
def BitReader.pulled (r r' : BitReader) : Nat := r.bitCount + 8 * (r'.byteIndex - r.byteIndex)

/-- Decode symbols, one after the other. -/
def HuffmanDecoder.decodeMany (dec : HuffmanDecoder) : Nat → BitReader → Reading (List Nat)
  | 0, r => (.ok [], r)
  | n + 1, r =>
    Reading.andThen (dec.decode r) fun symbol r =>
      Reading.andThen (decodeMany dec n r) fun symbols r => (.ok (symbol :: symbols), r)

/-- Encode symbols, one after the other. -/
def HuffmanEncoder.encodeMany (enc : HuffmanEncoder) (writer : BitWriter) (symbols : List Nat) : Exec BitWriter :=
  symbols.foldlM enc.encode writer

/-- What was pulled in is what was consumed and what is still in the buffer. -/
theorem BitReader.Consumed.pulled_le {r r' : BitReader} {n k : Nat} (h : r.Consumed r' n (k - n)) (hn : n ≤ r.bits.length)
    (hnk : n ≤ k) (hcount : r.bitCount ≤ k) : r.pulled r' ≤ k := by
  have hlength := congrArg List.length h.bits_eq
  rw [List.length_drop, length_bits, length_bits, availableBits, availableBits, h.input_eq] at hlength
  rw [length_bits, availableBits] at hn
  have hle := h.count_le
  have hindex := h.wf.index_le
  rw [h.input_eq] at hindex
  unfold pulled
  omega

/-- A parse that does not want for bits has those of the look-ahead. -/
theorem HuffmanDecoder.peek_le_of_parse {dec : HuffmanDecoder} {bits : List Bool} (h : dec.parse bits ≠ .more) :
    dec.safelyPeekBits ≤ bits.length := by
  by_contra hshort
  refine h ?_
  rw [parse, parseLoop, if_pos (Nat.lt_of_not_le hshort)]

namespace TableOf

variable {dec : HuffmanDecoder} {lengths : List Nat}

/-- A symbol whose code the bits start with is parsed, if there are bits for the look-ahead. -/
theorem parse_startsWith (hT : TableOf dec lengths) {bits : List Bool} {s w : Nat} (h : StartsWith lengths bits s w)
    (hpeek : dec.safelyPeekBits ≤ bits.length) : dec.parse bits = .got s (bits.drop w) :=
  hT.parse_complete hpeek (readSymbol_iff.mpr ⟨w, h, rfl⟩)

/-- The three ways in which decoding a symbol ends. -/
theorem decode_cases (hT : TableOf dec lengths) {r : BitReader} (hw : r.Wf) :
    (∃ s w r', dec.decode r = (.ok s, r') ∧ StartsWith lengths r.bits s w ∧ dec.safelyPeekBits ≤ r.bits.length ∧
      r.Consumed r' w (max r.bitCount (max dec.safelyPeekBits w + 7) - w)) ∨
    (∃ r', dec.decode r = (.err invalidCodeError, r') ∧ ∀ more s w, ¬StartsWith lengths (r.bits ++ more) s w) ∨
    (∃ r', dec.decode r = (.err eofError, r') ∧ ∀ s w, StartsWith lengths r.bits s w → r.bits.length < dec.safelyPeekBits) := by
  have hM := hT.maxBits_le
  have h := hT.decodeLoop_spec 33 dec.safelyPeekBits hT.peek_le (by omega) hw (.inl rfl) le_rfl
  cases hp : dec.parse r.bits with
  | more =>
    rw [HuffmanDecoder.parse] at hp
    rw [hp] at h
    obtain ⟨r', h1, -⟩ := h
    refine .inr (.inr ⟨r', h1, fun s w hs => ?_⟩)
    by_contra hpeek
    have hgot := hT.parse_startsWith hs (Nat.le_of_not_lt hpeek)
    rw [HuffmanDecoder.parse, hp] at hgot
    cases hgot
  | fail =>
    have hpeek := HuffmanDecoder.peek_le_of_parse (fun hm => nomatch hp.symm.trans hm)
    rw [HuffmanDecoder.parse] at hp
    rw [hp] at h
    obtain ⟨r', h1⟩ := h
    refine .inr (.inl ⟨r', h1, fun more s w hs => ?_⟩)
    -- with more bits behind, the machine would still fail
    have hgot := hT.parse_startsWith hs (hpeek.trans (by rw [List.length_append]; exact Nat.le_add_right _ _))
    rw [HuffmanDecoder.parse, dec.parseLoop_append 33 _ _ more (by rw [hp]; exact nofun), hp] at hgot
    cases hgot
  | got s rest =>
    have hpeek := HuffmanDecoder.peek_le_of_parse (fun hm => nomatch hp.symm.trans hm)
    rw [HuffmanDecoder.parse] at hp
    rw [hp] at h
    obtain ⟨w, r', h1, h2, -, h3⟩ := h
    exact .inl ⟨s, w, r', h1, h2, hpeek, h3⟩

/-- Decoding a symbol whose code the bits start with, where there are bits for the look-ahead. -/
theorem decode_startsWith (hT : TableOf dec lengths) {r : BitReader} (hw : r.Wf) {s w : Nat} (hs : StartsWith lengths r.bits s w)
    (hpeek : dec.safelyPeekBits ≤ r.bits.length) :
    ∃ r', dec.decode r = (.ok s, r') ∧ r.Consumed r' w (max r.bitCount (max dec.safelyPeekBits w + 7) - w) := by
  rcases hT.decode_cases hw with ⟨s', w', r', h1, h2, -, h3⟩ | ⟨r', -, hnot⟩ | ⟨r', -, hshort⟩
  · obtain ⟨rfl, rfl⟩ := h2.unique hs
    exact ⟨r', h1, h3⟩
  · exact absurd (hs.append []) (hnot [] s w)
  · exact absurd hpeek (Nat.not_le.mpr (hshort s w hs))

end TableOf

/-! ## Sequences of symbols -/

/-- Bits that start with the code of a symbol. -/
theorem startsWith_codeBits {lengths : List Nat} (hfits : Fits lengths) {s : Nat} (hs : HasCode lengths s) (rest : List Bool) :
    StartsWith lengths (codeBits lengths s ++ rest) s (lengths.getD s 0) := by
  have hlen : (codeBits lengths s).length = lengths.getD s 0 := length_ofNatMsb _ _
  refine ⟨hs.getElem?, hs, ?_, ?_⟩
  · rw [List.length_append, hlen]
    exact Nat.le_add_right _ _
  · rw [List.take_left' hlen, codeBits, msbNat_ofNatMsb, Nat.mod_eq_of_lt (hfits.code_lt hs)]

/-- The codes of symbols, one after the other, are decoded to the symbols exactly when the look-ahead has its bits at the last. -/
theorem decodeMany_iff {dec : HuffmanDecoder} {lengths : List Nat} (hT : TableOf dec lengths) (hfits : Fits lengths)
    {symbols : List Nat} (hsymbols : ∀ s ∈ symbols, HasCode lengths s) {r : BitReader} (hw : r.Wf) {rest : List Bool}
    (hbits : r.bits = symbols.flatMap (codeBits lengths) ++ rest) :
    (∃ r', dec.decodeMany symbols.length r = (.ok symbols, r') ∧ r'.bits = rest) ↔
      ∀ s ∈ symbols.getLast?, dec.safelyPeekBits ≤ lengths.getD s 0 + rest.length := by
  induction symbols generalizing r with
  | nil =>
    refine ⟨fun _ s hs => (nomatch hs), fun _ => ⟨r, rfl, ?_⟩⟩
    rw [hbits, List.flatMap_nil, List.nil_append]
  | cons s symbols ih =>
    have hs := hsymbols s List.mem_cons_self
    have hlen : (codeBits lengths s).length = lengths.getD s 0 := length_ofNatMsb _ _
    rw [List.flatMap_cons, List.append_assoc] at hbits
    have hstart := startsWith_codeBits hfits hs (symbols.flatMap (codeBits lengths) ++ rest)
    rw [← hbits] at hstart
    have hlength : r.bits.length = lengths.getD s 0 + (symbols.flatMap (codeBits lengths) ++ rest).length := by
      rw [hbits, List.length_append, hlen]
    have hdrop : r.bits.drop (lengths.getD s 0) = symbols.flatMap (codeBits lengths) ++ rest := by
      rw [hbits, List.drop_left' hlen]
    have hrest := fun s hs => hsymbols s (List.mem_cons_of_mem _ hs)
    -- a symbol decoded from here had the bits of the look-ahead
    have hdecode : dec.safelyPeekBits ≤ r.bits.length →
        ((∃ r', dec.decodeMany (s :: symbols).length r = (.ok (s :: symbols), r') ∧ r'.bits = rest) ↔
          ∀ s ∈ symbols.getLast?, dec.safelyPeekBits ≤ lengths.getD s 0 + rest.length) := by
      intro hpeek
      obtain ⟨r₁, h1, h2⟩ := hT.decode_startsWith hw hstart hpeek
      rw [← ih hrest h2.wf (h2.bits_eq.trans hdrop), List.length_cons, HuffmanDecoder.decodeMany, h1, Reading.andThen_ok]
      constructor
      · rintro ⟨r', h3, h4⟩
        cases hm : dec.decodeMany symbols.length r₁ with
        | mk result r₂ =>
          rw [hm] at h3
          cases result with
          | ok symbols' =>
            obtain ⟨h5, h6⟩ := Prod.mk.inj h3
            rw [(List.cons.inj (Exec.ok.inj h5)).2, h6]
            exact ⟨r', rfl, h4⟩
          | err e => cases h3
          | panic => cases h3
          | diverge => cases h3
      · rintro ⟨r', h3, h4⟩
        exact ⟨r', by rw [h3, Reading.andThen_ok], h4⟩
    have hfails : r.bits.length < dec.safelyPeekBits →
        ¬∃ r', dec.decodeMany (s :: symbols).length r = (.ok (s :: symbols), r') ∧ r'.bits = rest := by
      rintro hshort ⟨r', h3, -⟩
      rcases hT.decode_cases hw with ⟨s', w', r₁, -, -, hpeek, -⟩ | ⟨r₁, h1, -⟩ | ⟨r₁, h1, -⟩
      · exact absurd hpeek (Nat.not_le.mpr hshort)
      · rw [List.length_cons, HuffmanDecoder.decodeMany, h1, Reading.andThen_err] at h3
        cases congrArg Prod.fst h3
      · rw [List.length_cons, HuffmanDecoder.decodeMany, h1, Reading.andThen_err] at h3
        cases congrArg Prod.fst h3
    cases hlast : symbols.getLast? with
    | none =>
      obtain rfl := List.getLast?_eq_none_iff.mp hlast
      rw [List.flatMap_nil, List.nil_append] at hlength
      rw [List.getLast?_singleton]
      simp only [Option.mem_some_iff, forall_eq']
      rcases Nat.lt_or_ge r.bits.length dec.safelyPeekBits with hshort | hpeek
      · exact iff_of_false (hfails hshort) (by omega)
      · exact iff_of_true ((hdecode hpeek).mpr (fun s hs => nomatch hs)) (by omega)
    | some last =>
      have hmem := List.mem_of_getLast? hlast
      have hle : lengths.getD last 0 + rest.length ≤ r.bits.length := by
        have hpart : (codeBits lengths last).length ≤ (symbols.flatMap (codeBits lengths)).length := by
          rw [List.length_flatMap]
          exact List.single_le_sum (fun _ _ => Nat.zero_le _) _ (List.mem_map_of_mem hmem)
        have hlastlen : (codeBits lengths last).length = lengths.getD last 0 := length_ofNatMsb _ _
        rw [hlength, List.length_append]
        omega
      rw [List.getLast?_cons, hlast, Option.getD_some]
      simp only [hlast, Option.mem_some_iff, forall_eq'] at hdecode ⊢
      rcases Nat.lt_or_ge r.bits.length dec.safelyPeekBits with hshort | hpeek
      · exact iff_of_false (hfails hshort) (by omega)
      · exact hdecode hpeek

/-- Encoding symbols appends their codes. -/
theorem encodeMany_writes {enc : HuffmanEncoder} {lengths : List Nat} (henc : EncoderOf enc lengths) (hfits : Fits lengths)
    {symbols : List Nat} (hsymbols : ∀ s ∈ symbols, HasCode lengths s) :
    Writes (fun w => enc.encodeMany w symbols) (symbols.flatMap (codeBits lengths)) :=
  Writes.foldlM fun s hs => henc.used.writes hfits (hsymbols s hs)

/-- For all code lengths, of up to 288 symbols, that the decoder's table takes, with any look-ahead and any end-of-block symbol:

the encoder takes them and has the canonical code of each used symbol, the high bit first; decoding from a reader gives a symbol and
consumes its code when the bits start with the code and there are bits for it and for the look-ahead, and does not pull in a byte
beyond those; it reports an invalid code only where the bits, whatever follows them, start with no code, and the end of the input
otherwise. So the codes of a sequence of symbols, as they were written, are decoded to the sequence, as long as there are bits for
the look-ahead at its last symbol. -/
theorem huffman_agrees {lengths : List Nat} (hcount : lengths.length ≤ 288) {safelyPeekBits eobSymbol : Option Nat}
    {dec : HuffmanDecoder} (h : HuffmanDecoder.fromCodeLengths lengths safelyPeekBits eobSymbol = .ok dec) :
    ∃ enc, HuffmanEncoder.fromCodeLengths lengths = .ok enc ∧
      (∀ s w, lengths[s]? = some w → 0 < w →
        enc.codes[s]? = some (Code.mk w (toNat (ofNatMsb w (Canonical.code lengths s))))) ∧
      (∀ r : BitReader, r.Wf →
        (∀ s w, StartsWith lengths r.bits s w → max w dec.safelyPeekBits ≤ r.bits.length →
          ∃ r', dec.decode r = (.ok s, r') ∧ r'.bits = r.bits.drop w ∧
            r.pulled r' ≤ max r.bitCount (max w dec.safelyPeekBits + 7)) ∧
        ((dec.decode r).1 = .err invalidCodeError → ∀ more s w, ¬StartsWith lengths (r.bits ++ more) s w) ∧
        ((∀ s w, StartsWith lengths r.bits s w → r.bits.length < max w dec.safelyPeekBits) →
          (dec.decode r).1 = .err invalidCodeError ∨ (dec.decode r).1 = .err eofError)) ∧
      ∀ symbols : List Nat, (∀ s ∈ symbols, HasCode lengths s) → ∃ code,
        (∀ w : BitWriter, w.Wf → ∃ w', enc.encodeMany w symbols = .ok w' ∧ w'.bits = w.bits ++ code) ∧
        ∀ (r : BitReader) (rest : List Bool), r.Wf → r.bits = code ++ rest →
          ((∃ r', dec.decodeMany symbols.length r = (.ok symbols, r') ∧ r'.bits = rest) ↔
            ∀ s ∈ symbols.getLast?, dec.safelyPeekBits ≤ lengths.getD s 0 + rest.length) := by
  obtain ⟨hfits, hT, -⟩ := tableOf_of_ok (by omega) h
  obtain ⟨enc, henc, hE⟩ := encoderOf_ok hfits
  refine ⟨enc, henc, fun s w hs hpos => ?_, fun r hw => ⟨fun s w hs hle => ?_, fun herr => ?_, fun hnot => ?_⟩,
    fun symbols hsymbols => ⟨symbols.flatMap (codeBits lengths), fun w hw => ?_, fun r rest hw hbits => ?_⟩⟩
  · have hw15 := hfits.le_max w (List.mem_of_getElem? hs)
    rw [hE.used s w hs hpos, reverseBits_eq _ (by omega)]
  · obtain ⟨r', h1, h2⟩ := hT.decode_startsWith hw hs ((le_max_right _ _).trans hle)
    rw [max_comm dec.safelyPeekBits w] at h2
    exact ⟨r', h1, h2.bits_eq, h2.pulled_le hs.width_le (by omega) (le_max_left _ _)⟩
  · rcases hT.decode_cases hw with ⟨s, w, r', h1, -⟩ | ⟨r', -, hnone⟩ | ⟨r', h1, -⟩
    · rw [h1] at herr
      cases herr
    · exact hnone
    · rw [h1] at herr
      exact absurd (Exec.err.inj herr) (by decide)
  · rcases hT.decode_cases hw with ⟨s, w, r', -, h2, hpeek, -⟩ | ⟨r', h1, -⟩ | ⟨r', h1, -⟩
    · exact absurd (max_le h2.width_le hpeek) (Nat.not_le.mpr (hnot s w h2))
    · exact .inl (by rw [h1])
    · exact .inr (by rw [h1])
  · obtain ⟨w', h1, h2⟩ := encodeMany_writes hE hfits hsymbols w hw
    exact ⟨w', h1, h2.bits_eq⟩
  · exact decodeMany_iff hT hfits hsymbols hw hbits

/-- An incomplete code of three symbols, the second one the end of the block. -/
theorem huffman_agrees_three :
    ∃ dec enc, HuffmanDecoder.fromCodeLengths [2, 1, 0, 3] none (some 1) = .ok dec ∧
      HuffmanEncoder.fromCodeLengths [2, 1, 0, 3] = .ok enc ∧
      ∀ symbols : List Nat, (∀ s ∈ symbols, HasCode [2, 1, 0, 3] s) → ∃ code,
        (∀ w : BitWriter, w.Wf → ∃ w', enc.encodeMany w symbols = .ok w' ∧ w'.bits = w.bits ++ code) ∧
        ∀ (r : BitReader) (rest : List Bool), r.Wf → r.bits = code ++ rest →
          ((∃ r', dec.decodeMany symbols.length r = (.ok symbols, r') ∧ r'.bits = rest) ↔
            ∀ s ∈ symbols.getLast?, dec.safelyPeekBits ≤ [2, 1, 0, 3].getD s 0 + rest.length) := by
  obtain ⟨dec, hdec, -⟩ := Exec.returns_iff.mp
    (show (HuffmanDecoder.fromCodeLengths [2, 1, 0, 3] none (some 1)).returns (fun _ => true) = true by decide +kernel)
  obtain ⟨enc, henc, -, -, hmany⟩ := huffman_agrees (by decide) hdec
  exact ⟨dec, enc, hdec, henc, hmany⟩

end Noflate
