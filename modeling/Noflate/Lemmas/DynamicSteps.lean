import Noflate.Lemmas.Steps

/-!
# The code lengths of dynamic blocks

The two steps of the decoder that read the code lengths of a dynamic block, as runs of the machine: one move for each length of
the code-length code, and one for each element of the code lengths. A read that the input ends in goes back to the snapshot taken
before the element, which is where the machine waits.
-/

namespace Noflate

open BitString Resumable

/-! ## Reads that may be undone -/

/-- A reader over the same slice, at some bits, with a bound on what its buffer holds. -/
structure BitReader.At (r : BitReader) (input : List UInt8) (bits : List Bool) (k : Nat) : Prop where
  wf : r.Wf
  input_eq : r.input = input
  bits_eq : r.bits = bits
  count_le : r.bitCount ≤ k

theorem BitReader.Consumed.left {r r' : BitReader} {n k : Nat} (h : r.Consumed r' n k) : r'.At r.input (r.bits.drop n) k :=
  ⟨h.wf, h.input_eq, h.bits_eq, h.count_le⟩

section

variable (env : StepEnv) {r₀ : BitReader}

/-- Reading a field, to be undone if the input ends. -/
theorem attempt_field (back : DecodeState) {n : Nat} (hn : n ≤ 16) (hw : env.reader.Wf) (h₀ : env.reader.input = r₀.input) :
    match parseField n env.reader.bits with
    | .more => ∀ k, env.attempt r₀.snapshot back (env.reader.readBits n) k =
        (.ok .needMoreBytes, { env with reader := r₀, state := back })
    | .fail => False
    | .got v rest => ∃ r', (∀ k, env.attempt r₀.snapshot back (env.reader.readBits n) k = k v { env with reader := r' }) ∧
        r'.At env.reader.input rest (max (env.reader.bitCount - n) 7) ∧ v < 2 ^ n ∧ rest.length + n = env.reader.bits.length := by
  unfold parseField
  by_cases hlen : env.reader.bits.length < n
  · obtain ⟨r', h1, h2⟩ := BitReader.readBits_eof hn hw hlen
    rw [if_pos hlen]
    intro k
    rw [h1, StepEnv.attempt_eof env back k (h2.trans h₀)]
  · obtain ⟨r', h1, h2⟩ := BitReader.readBits_ok hn hw (Nat.le_of_not_lt hlen)
    have hv := toNat_lt (env.reader.bits.take n)
    rw [List.length_take_of_le (by omega)] at hv
    rw [if_neg hlen]
    exact ⟨r', fun k => by rw [h1, StepEnv.attempt_ok], h2.left, hv, by rw [List.length_drop]; omega⟩

/-- The extra bits of a symbol, to be undone if the input ends: a field, also when there are none. -/
theorem attemptExtra_field (back : DecodeState) {n : Nat} (hn : n ≤ 16) (hw : env.reader.Wf)
    (h₀ : env.reader.input = r₀.input) :
    match parseField n env.reader.bits with
    | .more => ∀ k, env.attemptExtra r₀.snapshot back n k =
        (.ok .needMoreBytes, { env with reader := r₀, state := back })
    | .fail => False
    | .got v rest => ∃ r', (∀ k, env.attemptExtra r₀.snapshot back n k = k v { env with reader := r' }) ∧
        r'.At env.reader.input rest (max env.reader.bitCount 7) ∧ v < 2 ^ n ∧ rest.length + n = env.reader.bits.length := by
  by_cases h0 : n = 0
  · subst h0
    exact ⟨env.reader, fun k => rfl, ⟨hw, rfl, rfl, le_max_left _ _⟩, by simp, rfl⟩
  · have hread : ∀ k, env.attemptExtra r₀.snapshot back n k = env.attempt r₀.snapshot back (env.reader.readBits n) k :=
      fun k => if_neg h0
    have h := attempt_field env back hn hw h₀
    cases hp : parseField n env.reader.bits with
    | more =>
      rw [hp] at h
      exact fun k => (hread k).trans (h k)
    | fail =>
      rw [hp] at h
      exact h
    | got v rest =>
      rw [hp] at h
      obtain ⟨r', h1, h2, h3⟩ := h
      exact ⟨r', fun k => (hread k).trans (h1 k), ⟨h2.wf, h2.input_eq, h2.bits_eq, h2.count_le.trans (by omega)⟩, h3⟩

/-- Reading a symbol, to be undone if the input ends. -/
theorem attempt_symbol {dec : HuffmanDecoder} {widths : List Nat} (hT : TableOf dec widths) (back : DecodeState)
    (hw : env.reader.Wf) (h₀ : env.reader.input = r₀.input) :
    match dec.parse env.reader.bits with
    | .more => ∀ k, env.attempt r₀.snapshot back (dec.decode env.reader) k =
        (.ok .needMoreBytes, { env with reader := r₀, state := back })
    | .fail => ∃ e r', ∀ k, env.attempt r₀.snapshot back (dec.decode env.reader) k = (.err e, { env with reader := r' })
    | .got s rest => ∃ w r',
        (∀ k, env.attempt r₀.snapshot back (dec.decode env.reader) k = k s { env with reader := r' }) ∧
        r'.At env.reader.input rest (max env.reader.bitCount (max dec.safelyPeekBits w + 7) - w) ∧
        StartsWith widths env.reader.bits s w ∧ rest.length + w = env.reader.bits.length := by
  have hM := hT.maxBits_le
  have h := hT.decodeLoop_spec 33 dec.safelyPeekBits hT.peek_le (by omega) hw (.inl rfl) le_rfl
  unfold HuffmanDecoder.parse HuffmanDecoder.decode
  cases hp : dec.parseLoop 33 dec.safelyPeekBits env.reader.bits with
  | more =>
    rw [hp] at h
    obtain ⟨r', h1, h2⟩ := h
    intro k
    rw [h1, StepEnv.attempt_eof env back k (h2.trans h₀)]
  | fail =>
    rw [hp] at h
    obtain ⟨r', h1⟩ := h
    exact ⟨_, r', fun k => by rw [h1, StepEnv.attempt_err env _ back _ r' k (by decide)]⟩
  | got s rest =>
    rw [hp] at h
    obtain ⟨w, r', h1, h2, rfl, h4⟩ := h
    refine ⟨w, r', fun k => by rw [h1, StepEnv.attempt_ok], h4.left, h2, ?_⟩
    rw [List.length_drop]
    have := h2.width_le
    omega

end

/-! ## The code-length code -/

section

variable {dropped : List UInt8} {drained : Nat}

/-- The end of the code-length code: its table is built. -/
theorem bitwidthTableLoop_done (isFinal : Bool) {hlit hdist hclen : Nat} (hlit_le : hlit ≤ 288) (hdist_le : hdist ≤ 30)
    (fuel : Nat) {orderIdx : Nat} {codeLengths : List Nat} {env : StepEnv} (hw : env.reader.Wf)
    (hc : env.reader.bitCount ≤ 7) (ht : env.state = .transient) (hlen : codeLengths.length = 19)
    (hdone : ¬orderIdx < hclen) :
    StepSpec dropped drained
      ((.dynamicBitwidthTable isFinal hlit hdist hclen orderIdx codeLengths, dropped ++ env.output), env.reader.bits) env
      (bitwidthTableLoop isFinal hlit hdist hclen fuel orderIdx codeLengths env) := by
  have hitem : itemStep (.dynamicBitwidthTable isFinal hlit hdist hclen orderIdx codeLengths, dropped ++ env.output)
      env.reader.bits = (HuffmanDecoder.fromCodeLengths codeLengths (some 1) none).toNext fun bitwidthDecoder =>
        .next (.dynamicCodeLengths isFinal hlit hdist bitwidthDecoder [] (hlit + hdist), dropped ++ env.output)
          env.reader.bits := by
    simp only [itemStep, if_neg hdone]
  unfold bitwidthTableLoop
  simp only [if_neg hdone]
  by_cases hfits : Fits codeLengths
  · obtain ⟨dec, h1, h2, h3, h4⟩ := fromCodeLengths_ok (some 1) none (by omega) hfits
    have hpeek : dec.safelyPeekBits = 1 := by
      rw [peekOf_none, Option.getD_some] at h4
      have := h2.peek_pos
      omega
    rw [h1, Exec.toNext_ok] at hitem
    rw [h1, StepEnv.calling_ok]
    refine stepSpec_progress hitem ⟨hw, ⟨hlit_le, hdist_le, rfl, Nat.zero_le _, hpeek, _, h2⟩, hc⟩ rfl le_rfl ?_ trivial
    simp only [rank, StepEnv.item, DecodeState.rank]
    omega
  · obtain ⟨e, h1⟩ := fromCodeLengths_err (some 1) none (by omega) hfits
    rw [h1, Exec.toNext_err] at hitem
    rw [h1, StepEnv.calling_err]
    exact stepSpec_err ht hitem trivial

theorem bitwidthTableLoop_spec (isFinal : Bool) {hlit hdist hclen : Nat} (hlit_le : hlit ≤ 288) (hdist_le : hdist ≤ 30)
    (hclen_le : hclen ≤ 19) (fuel orderIdx : Nat) (codeLengths : List Nat) (env : StepEnv) (hw : env.reader.Wf)
    (hc : env.reader.bitCount ≤ 7) (ht : env.state = .transient) (hlen : codeLengths.length = 19)
    (hf : hclen ≤ orderIdx + fuel) :
    StepSpec dropped drained
      ((.dynamicBitwidthTable isFinal hlit hdist hclen orderIdx codeLengths, dropped ++ env.output), env.reader.bits) env
      (bitwidthTableLoop isFinal hlit hdist hclen fuel orderIdx codeLengths env) := by
  induction fuel generalizing orderIdx codeLengths env with
  | zero => exact bitwidthTableLoop_done isFinal hlit_le hdist_le 0 hw hc ht hlen (by omega)
  | succ fuel ih =>
    by_cases hlt : orderIdx < hclen
    · have hbits := BitReader.length_bits env.reader
      unfold bitwidthTableLoop
      simp only [if_pos hlt, StepEnv.available_ok hw.index_le]
      by_cases h3 : env.reader.availableBits < 3
      · simp only [if_pos h3, BitReader.restore_snapshot rfl]
        refine stepSpec_needMore hw ⟨hlit_le, hdist_le, hclen_le, hlen⟩ hc ?_
        simp only [itemStep, if_pos hlt, parseField]
        rw [if_pos (by omega), Parse.toNext_more]
      · obtain ⟨r', h1, hcons⟩ := BitReader.readBits_ok (n := 3) (by omega) hw (by omega)
        have hidx : orderIdx < bitwidthCodeOrder.length := by
          have h19 : bitwidthCodeOrder.length = 19 := rfl
          omega
        have hall : ∀ slot ∈ bitwidthCodeOrder, slot < 19 := by decide
        have hslot := hall _ (List.getElem_mem hidx)
        have hitem : itemStep (.dynamicBitwidthTable isFinal hlit hdist hclen orderIdx codeLengths, dropped ++ env.output)
            env.reader.bits = .next (.dynamicBitwidthTable isFinal hlit hdist hclen (orderIdx + 1)
              (codeLengths.set bitwidthCodeOrder[orderIdx] (toNat (env.reader.bits.take 3))), dropped ++ env.output)
              r'.bits := by
          simp only [itemStep, if_pos hlt, parseField]
          rw [if_neg (by omega), Parse.toNext_got, Exec.index_of_lt hidx, Exec.toNext_ok, hcons.bits_eq]
        have hcount : r'.bitCount ≤ 7 := hcons.count_le.trans (by omega)
        have hlen' : r'.bits.length = env.reader.bits.length - 3 := by rw [hcons.bits_eq, List.length_drop]
        have hassign := Exec.assign_of_lt (toNat (env.reader.bits.take 3))
          (show bitwidthCodeOrder[orderIdx] < codeLengths.length by omega)
        rw [if_neg h3, h1, StepEnv.reading_ok, Exec.index_of_lt hidx, StepEnv.calling_ok, hassign, StepEnv.calling_ok]
        have hrest := ih (orderIdx + 1) (codeLengths.set bitwidthCodeOrder[orderIdx] (toNat (env.reader.bits.take 3)))
          { env with reader := r' } hcons.wf hcount ht (by rw [List.length_set, hlen]) (by omega)
        refine StepSpec.after hrest (Machine.RunsWithin.single trivial (moves_of_next hitem)) hcons.input_eq le_rfl (.inr ?_)
        simp only [rank, DecodeState.rank]
        omega
    · exact bitwidthTableLoop_done isFinal hlit_le hdist_le _ hw hc ht hlen hlt

/-! ## The code lengths -/

/-- The end of the code lengths: the two tables are built. -/
theorem codeLengthsLoop_done (isFinal : Bool) {hlit hdist : Nat} {bitwidthDecoder : HuffmanDecoder}
    (hlit_le : hlit ≤ 288) (hdist_le : hdist ≤ 30) (fuel : Nat) {lengths : List Nat} {env : StepEnv}
    (hw : env.reader.Wf) (hc : env.reader.bitCount ≤ 7) (ht : env.state = .transient) (hdone : ¬lengths.length < hlit + hdist) :
    StepSpec dropped drained
      ((.dynamicCodeLengths isFinal hlit hdist bitwidthDecoder lengths (hlit + hdist), dropped ++ env.output), env.reader.bits) env
      (codeLengthsLoop isFinal hlit hdist bitwidthDecoder (hlit + hdist) fuel lengths env) := by
  have hitem : itemStep (.dynamicCodeLengths isFinal hlit hdist bitwidthDecoder lengths (hlit + hdist), dropped ++ env.output)
      env.reader.bits =
        (HuffmanDecoder.fromCodeLengths (lengths.take hlit) none (some endOfBlock)).toNext fun literal =>
        (HuffmanDecoder.fromCodeLengths ((lengths.drop hlit).take hdist) (some literal.safelyPeekBits) none).toNext
          fun distance => .next (.symbolLoop isFinal literal distance, dropped ++ env.output) env.reader.bits := by
    simp only [itemStep, if_neg hdone]
  have hcount : (lengths.take hlit).length ≤ 288 := (List.length_take_le _ _).trans hlit_le
  have hcount' : ((lengths.drop hlit).take hdist).length ≤ 2 ^ 11 := by
    have := List.length_take_le hdist (lengths.drop hlit)
    omega
  unfold codeLengthsLoop
  simp only [if_neg hdone]
  by_cases hfl : Fits (lengths.take hlit)
  · by_cases hfd : Fits ((lengths.drop hlit).take hdist)
    · obtain ⟨literal, h1, h2⟩ := build_tables hfl hfd hcount hcount'
      obtain ⟨distance, h3, h4⟩ := h2 literal.safelyPeekBits le_rfl
      rw [h1, Exec.toNext_ok, h3, Exec.toNext_ok] at hitem
      rw [h1, StepEnv.calling_ok, h3, StepEnv.calling_ok]
      have hok : StepEnv.Ok { env with state := .symbolLoop isFinal literal distance } :=
        ⟨hw, ⟨_, _, h4⟩, by simp only [DecodeState.buffered]; omega⟩
      refine stepSpec_progress hitem hok rfl le_rfl ?_ trivial
      simp only [rank, StepEnv.item, DecodeState.rank]
      omega
    · obtain ⟨literal, h1, -⟩ := fromCodeLengths_ok none (some endOfBlock) (by omega) hfl
      obtain ⟨e, h3⟩ := fromCodeLengths_err (some literal.safelyPeekBits) none hcount' hfd
      rw [h1, Exec.toNext_ok, h3, Exec.toNext_err] at hitem
      rw [h1, StepEnv.calling_ok, h3, StepEnv.calling_err]
      exact stepSpec_err ht hitem trivial
  · obtain ⟨e, h1⟩ := fromCodeLengths_err none (some endOfBlock) (by omega) hfl
    rw [h1, Exec.toNext_err] at hitem
    rw [h1, StepEnv.calling_err]
    exact stepSpec_err ht hitem trivial

/-- The loop over the code lengths in front of an element: the decoder of the code, and a reader whose buffer holds at most seven bits. -/
structure AtElement (hlit hdist : Nat) (bitwidthDecoder : HuffmanDecoder) (widths lengths : List Nat) (env : StepEnv) : Prop where
  table : TableOf bitwidthDecoder widths
  peek_eq : bitwidthDecoder.safelyPeekBits = 1
  hlit_le : hlit ≤ 288
  hdist_le : hdist ≤ 30
  wf : env.reader.Wf
  count_le : env.reader.bitCount ≤ 7
  state_eq : env.state = .transient
  lengths_lt : lengths.length < hlit + hdist

/-- What the loop does behind an element, with the code lengths that there are then. -/
def continueWith (isFinal : Bool) (hlit hdist : Nat) (bitwidthDecoder : HuffmanDecoder) (fuel : Nat) (lengths : List Nat)
    (env : StepEnv) : Stepping :=
  if hlit + hdist < lengths.length then
    (.err (.invalidData "dynamic huffman code lengths exceed the announced table size"), env)
  else codeLengthsLoop isFinal hlit hdist bitwidthDecoder (hlit + hdist) fuel lengths env

/-- What a rest of the loop is to do, from where the loop stands. -/
def LengthsSpec (dropped : List UInt8) (drained : Nat) (isFinal : Bool) (hlit hdist : Nat) (bitwidthDecoder : HuffmanDecoder)
    (lengths : List Nat) (env : StepEnv) (r : Stepping) : Prop :=
  StepSpec dropped drained
    ((.dynamicCodeLengths isFinal hlit hdist bitwidthDecoder lengths (hlit + hdist), dropped ++ env.output), env.reader.bits) env r

section

variable {isFinal : Bool} {hlit hdist : Nat} {bitwidthDecoder : HuffmanDecoder} {widths lengths : List Nat} {env : StepEnv}

/-- An element read: the machine reads it too, and the loop goes on behind it. -/
theorem AtElement.got (h : AtElement hlit hdist bitwidthDecoder widths lengths env) {fuel : Nat}
    (hf : hlit + hdist ≤ lengths.length + (fuel + 1))
    (hloop : ∀ lengths env', env'.reader.Wf → env'.reader.bitCount ≤ 7 → env'.state = .transient → lengths.length ≤ hlit + hdist →
      hlit + hdist ≤ lengths.length + fuel → LengthsSpec dropped drained isFinal hlit hdist bitwidthDecoder lengths env'
        (codeLengthsLoop isFinal hlit hdist bitwidthDecoder (hlit + hdist) fuel lengths env'))
    {added : List Nat} {r : BitReader} (hne : added ≠ []) (hat : r.At env.reader.input r.bits 7)
    (hshort : r.bits.length < env.reader.bits.length)
    (hparse : parseCodeLength bitwidthDecoder lengths env.reader.bits = .got added r.bits) :
    LengthsSpec dropped drained isFinal hlit hdist bitwidthDecoder lengths env
      (continueWith isFinal hlit hdist bitwidthDecoder fuel (lengths ++ added) { env with reader := r }) := by
  have hitem : itemStep (.dynamicCodeLengths isFinal hlit hdist bitwidthDecoder lengths (hlit + hdist),
      dropped ++ env.output) env.reader.bits = if hlit + hdist < (lengths ++ added).length then .fail else
      .next (.dynamicCodeLengths isFinal hlit hdist bitwidthDecoder (lengths ++ added) (hlit + hdist),
        dropped ++ env.output) r.bits := by
    simp only [itemStep, if_pos h.lengths_lt, hparse, Parse.toNext_got]
  unfold continueWith
  by_cases hover : hlit + hdist < (lengths ++ added).length
  · rw [if_pos hover] at hitem ⊢
    exact stepSpec_err h.state_eq hitem trivial
  · rw [if_neg hover] at hitem ⊢
    have hpos : 0 < added.length := List.length_pos_iff.mpr hne
    have hlen : (lengths ++ added).length = lengths.length + added.length := List.length_append
    have hrest := hloop (lengths ++ added) { env with reader := r } hat.wf hat.count_le h.state_eq (by omega) (by omega)
    refine StepSpec.after hrest (Machine.RunsWithin.single trivial (moves_of_next hitem)) hat.input_eq le_rfl (.inr ?_)
    simp only [rank, DecodeState.rank]
    omega

/-- Too few bits for an element: the loop goes back in front of it. -/
theorem AtElement.wait (h : AtElement hlit hdist bitwidthDecoder widths lengths env)
    (hparse : parseCodeLength bitwidthDecoder lengths env.reader.bits = .more) :
    LengthsSpec dropped drained isFinal hlit hdist bitwidthDecoder lengths env (.ok .needMoreBytes, { env with
      state := .dynamicCodeLengths isFinal hlit hdist bitwidthDecoder lengths (hlit + hdist) }) := by
  refine stepSpec_needMore h.wf ⟨h.hlit_le, h.hdist_le, rfl, h.lengths_lt.le, h.peek_eq, _, h.table⟩ h.count_le ?_
  simp only [itemStep, if_pos h.lengths_lt, hparse, Parse.toNext_more]

/-- A bad element. -/
theorem AtElement.fail (h : AtElement hlit hdist bitwidthDecoder widths lengths env)
    (hparse : parseCodeLength bitwidthDecoder lengths env.reader.bits = .fail) (e : Error) (r : BitReader) :
    LengthsSpec dropped drained isFinal hlit hdist bitwidthDecoder lengths env (.err e, { env with reader := r }) := by
  refine stepSpec_err h.state_eq ?_ trivial
  simp only [itemStep, if_pos h.lengths_lt, hparse, Parse.toNext_fail]

/-- The field of a repeat code, which says how often, and what is done with it. -/
theorem AtElement.field (h : AtElement hlit hdist bitwidthDecoder widths lengths env) {n base : Nat} {r : BitReader}
    {next : Nat → List Bool → Parse (List Nat)} {rest : Nat → StepEnv → Stepping} (hn : n ≤ 16) (hsum : 2 ^ n + base ≤ 2 ^ 16)
    (hat : r.At env.reader.input r.bits 7) (hshort : r.bits.length < env.reader.bits.length)
    (hparse : parseCodeLength bitwidthDecoder lengths env.reader.bits = (parseField n r.bits).andThen next)
    (hnext : ∀ v r', r'.At env.reader.input r'.bits 7 → r'.bits.length < env.reader.bits.length →
      parseCodeLength bitwidthDecoder lengths env.reader.bits = next v r'.bits →
      LengthsSpec dropped drained isFinal hlit hdist bitwidthDecoder lengths env (rest (v + base) { env with reader := r' })) :
    LengthsSpec dropped drained isFinal hlit hdist bitwidthDecoder lengths env
      (StepEnv.attempt { env with reader := r } env.reader.snapshot
        (.dynamicCodeLengths isFinal hlit hdist bitwidthDecoder lengths (hlit + hdist)) (r.readBits n) fun v env' =>
        env'.calling (Exec.checkedAdd 16 v base) fun times => rest times env') := by
  have hfield := attempt_field { env with reader := r }
    (.dynamicCodeLengths isFinal hlit hdist bitwidthDecoder lengths (hlit + hdist)) hn hat.wf hat.input_eq
  cases hp : parseField n r.bits with
  | more =>
    rw [hp] at hparse
    simp only [hp] at hfield
    rw [hfield]
    exact h.wait hparse
  | fail => simp only [hp] at hfield
  | got v bits =>
    rw [hp, Parse.andThen_got] at hparse
    simp only [hp] at hfield
    obtain ⟨r', h1, hat', hv, hlen⟩ := hfield
    have hcount : r'.bitCount ≤ max (r.bitCount - n) 7 := hat'.count_le
    have hcount' := hat.count_le
    rw [h1, Exec.checkedAdd_of_lt (by omega), StepEnv.calling_ok]
    refine hnext v r' ⟨hat'.wf, hat'.input_eq.trans hat.input_eq, rfl, by omega⟩ ?_ (by rw [hparse, hat'.bits_eq])
    rw [hat'.bits_eq]
    omega

end

theorem codeLengthsLoop_spec (isFinal : Bool) {hlit hdist : Nat} {bitwidthDecoder : HuffmanDecoder} {widths : List Nat}
    (hT : TableOf bitwidthDecoder widths) (hpeek : bitwidthDecoder.safelyPeekBits = 1) (hlit_le : hlit ≤ 288)
    (hdist_le : hdist ≤ 30) (fuel : Nat) (lengths : List Nat) (env : StepEnv) (hw : env.reader.Wf)
    (hc : env.reader.bitCount ≤ 7) (ht : env.state = .transient) (hle : lengths.length ≤ hlit + hdist)
    (hf : hlit + hdist ≤ lengths.length + fuel) :
    LengthsSpec dropped drained isFinal hlit hdist bitwidthDecoder lengths env
      (codeLengthsLoop isFinal hlit hdist bitwidthDecoder (hlit + hdist) fuel lengths env) := by
  induction fuel generalizing lengths env with
  | zero => exact codeLengthsLoop_done isFinal hlit_le hdist_le 0 hw hc ht (by omega)
  | succ fuel ih =>
    by_cases hlt : lengths.length < hlit + hdist
    · have hat : AtElement hlit hdist bitwidthDecoder widths lengths env := ⟨hT, hpeek, hlit_le, hdist_le, hw, hc, ht, hlt⟩
      have hsym := attempt_symbol env hT (.dynamicCodeLengths isFinal hlit hdist bitwidthDecoder lengths (hlit + hdist)) hw
        (rfl : env.reader.input = env.reader.input)
      unfold codeLengthsLoop
      simp only [if_pos hlt]
      cases hp : bitwidthDecoder.parse env.reader.bits with
      | more =>
        rw [hp] at hsym
        rw [hsym]
        exact hat.wait (by rw [parseCodeLength, hp, Parse.andThen_more])
      | fail =>
        rw [hp] at hsym
        obtain ⟨e, r', h1⟩ := hsym
        rw [h1]
        exact hat.fail (by rw [parseCodeLength, hp, Parse.andThen_fail]) e r'
      | got code rest =>
        rw [hp] at hsym
        obtain ⟨w, r₁, h1, hr₁, hstart, hlen⟩ := hsym
        have hw0 := hstart.pos
        have hat₁ : r₁.At env.reader.input r₁.bits 7 := ⟨hr₁.wf, hr₁.input_eq, rfl, hr₁.count_le.trans (by omega)⟩
        have hshort : r₁.bits.length < env.reader.bits.length := by
          rw [hr₁.bits_eq]
          omega
        rw [← hr₁.bits_eq] at hp
        rw [h1]
        -- a repeat code with something to repeat
        have hrepeat : ∀ (n base x : Nat), n ≤ 16 → 0 < base → 2 ^ n + base ≤ 2 ^ 16 →
            parseCodeLength bitwidthDecoder lengths env.reader.bits =
              ((parseField n r₁.bits).andThen fun v bits => .got (List.replicate (v + base) x) bits) →
            LengthsSpec dropped drained isFinal hlit hdist bitwidthDecoder lengths env
              (StepEnv.attempt { env with reader := r₁ } env.reader.snapshot
                (.dynamicCodeLengths isFinal hlit hdist bitwidthDecoder lengths (hlit + hdist)) (r₁.readBits n) fun v env' =>
                env'.calling (Exec.checkedAdd 16 v base) fun times =>
                continueWith isFinal hlit hdist bitwidthDecoder fuel (lengths ++ List.replicate times x) env') := by
          intro n base x hn hbase hsum hparse
          refine hat.field hn hsum hat₁ hshort hparse fun v r' hr' hshort' hparse' => ?_
          refine hat.got hf ih (fun hnil => ?_) hr' hshort' hparse'
          rw [List.replicate_eq_nil_iff] at hnil
          omega
        by_cases h15 : code ≤ 15
        · rw [if_pos h15]
          exact hat.got hf ih (List.cons_ne_nil code []) hat₁ hshort (by rw [parseCodeLength, hp, Parse.andThen_got, if_pos h15])
        · rw [if_neg h15]
          by_cases h16 : code = 16
          · rw [if_pos h16]
            cases hlast : lengths.getLast? with
            | some last =>
              exact hrepeat 2 3 last (by omega) (by omega) (by decide) (by
                rw [parseCodeLength, hp, Parse.andThen_got, if_neg h15, if_pos h16, hlast])
            | none =>
              have hparse : parseCodeLength bitwidthDecoder lengths env.reader.bits =
                  (parseField 2 r₁.bits).andThen fun _ _ => .fail := by
                rw [parseCodeLength, hp, Parse.andThen_got, if_neg h15, if_pos h16, hlast]
              exact hat.field (by omega) (by decide) hat₁ hshort hparse fun v r' _ _ hfail => hat.fail hfail _ r'
          · rw [if_neg h16]
            by_cases h17 : code = 17
            · rw [if_pos h17]
              exact hrepeat 3 3 0 (by omega) (by omega) (by decide) (by
                rw [parseCodeLength, hp, Parse.andThen_got, if_neg h15, if_neg h16, if_pos h17])
            · rw [if_neg h17]
              by_cases h18 : code = 18
              · rw [if_pos h18]
                exact hrepeat 7 11 0 (by omega) (by omega) (by decide) (by
                  rw [parseCodeLength, hp, Parse.andThen_got, if_neg h15, if_neg h16, if_neg h17, if_pos h18])
              · rw [if_neg h18]
                exact hat.fail (by
                  rw [parseCodeLength, hp, Parse.andThen_got, if_neg h15, if_neg h16, if_neg h17, if_neg h18]) _ r₁
    · exact codeLengthsLoop_done isFinal hlit_le hdist_le _ hw hc ht hlt

end

end Noflate
