import Noflate.Lemmas.Items
import Noflate.Lemmas.Copying

/-!
# The steps of the decoder and the moves of the machine

`StepSpec` says what a step of the decoder is to the machine: a run from where the step began to where it ended, and what holds
there. A step never panics and never loops. Carried along are the invariants of the decoder's state (`DecodeState.Sound`) and the
bound on the bits held in the buffer (`DecodeState.buffered`): seven outside of compressed data, none in a stored body, and seven
more than the look-ahead of the literal table among symbols.
-/

namespace Noflate

open BitString Resumable

/-- The tables of a compressed block, for the code lengths of the two alphabets. The look-ahead of the literal table is the
width of the end-of-block symbol, and that of the distance table is no wider. -/
structure Tables (literal distance : HuffmanDecoder) (literalWidths distanceWidths : List Nat) : Prop where
  literal_table : TableOf literal literalWidths
  distance_table : TableOf distance distanceWidths
  literal_count : literalWidths.length ≤ 288
  peek_le : distance.safelyPeekBits ≤ literal.safelyPeekBits
  endOfBlock_width : ∀ w, literalWidths[endOfBlock]? = some w → 0 < w → literal.safelyPeekBits = w

/-- What a state carries is what the steps rely on; the placeholder is no state to go on from. -/
def DecodeState.Sound : DecodeState → Prop
  | .dynamicBitwidthTable _ hlit hdist hclen _ codeLengths =>
    hlit ≤ 288 ∧ hdist ≤ 30 ∧ hclen ≤ 19 ∧ codeLengths.length = 19
  | .dynamicCodeLengths _ hlit hdist bitwidthDecoder lengths targetLen =>
    hlit ≤ 288 ∧ hdist ≤ 30 ∧ targetLen = hlit + hdist ∧ lengths.length ≤ targetLen ∧
      bitwidthDecoder.safelyPeekBits = 1 ∧ ∃ widths, TableOf bitwidthDecoder widths
  | .symbolLoop _ literal distance => ∃ literalWidths distanceWidths, Tables literal distance literalWidths distanceWidths
  | .transient => False
  | _ => True

/-- The number of bits the buffer may hold in a state, between steps. -/
def DecodeState.buffered : DecodeState → Nat
  | .storedBody _ _ => 0
  | .symbolLoop _ literal _ => literal.safelyPeekBits + 7
  | _ => 7

/-- A rank that falls with the steps that read nothing. -/
def DecodeState.rank : DecodeState → Nat
  | .dynamicBitwidthTable .. => 3
  | .dynamicCodeLengths .. => 2
  | .symbolLoop .. => 1
  | .storedBody .. => 1
  | _ => 0

/-- A measure that falls with every step that makes progress. -/
def rank (c : ItemState × List Bool) : Nat := 8 * c.2.length + c.1.1.rank

namespace StepEnv

/-- The variables of the decoder as a state of the machine, behind output that was dropped from the window. -/
def item (dropped : List UInt8) (env : StepEnv) : ItemState × List Bool :=
  ((env.state, dropped ++ env.output), env.reader.bits)

/-- The invariant of the variables between steps. -/
structure Ok (env : StepEnv) : Prop where
  wf : env.reader.Wf
  sound : env.state.Sound
  buffered : env.reader.bitCount ≤ env.state.buffered

@[simp] theorem reading_ok {α : Type} (env : StepEnv) (a : α) (r : BitReader) (k : α → StepEnv → Stepping) :
    env.reading (.ok a, r) k = k a { env with reader := r } := rfl

@[simp] theorem calling_ok {α : Type} (env : StepEnv) (a : α) (k : α → Stepping) : env.calling (.ok a) k = k a := rfl

@[simp] theorem calling_err {α : Type} (env : StepEnv) (e : Error) (k : α → Stepping) :
    env.calling (.err e) k = (.err e, env) := rfl

theorem available_ok {env : StepEnv} (h : env.reader.byteIndex ≤ env.reader.input.length) (k : Nat → Stepping) :
    env.available k = k env.reader.availableBits := if_neg (Nat.not_lt.mpr h)

@[simp] theorem attempt_ok {α : Type} (env : StepEnv) (snap : BitReaderState) (back : DecodeState) (a : α) (r : BitReader)
    (k : α → StepEnv → Stepping) : env.attempt snap back (.ok a, r) k = k a { env with reader := r } := rfl

/-- An attempt that the input ends in goes back to where the snapshot was taken. -/
theorem attempt_eof {α : Type} (env : StepEnv) {r r' : BitReader} (back : DecodeState) (k : α → StepEnv → Stepping)
    (h : r'.input = r.input) :
    env.attempt r.snapshot back (.err eofError, r') k = (.ok .needMoreBytes, { env with reader := r, state := back }) := by
  have heof : isEofError eofError = true := by decide
  rw [attempt]
  simp only [heof, if_true, BitReader.restore_snapshot h]

/-- An attempt that ends in another error. -/
theorem attempt_err {α : Type} (env : StepEnv) (snap : BitReaderState) (back : DecodeState) (e : Error) (r : BitReader)
    (k : α → StepEnv → Stepping) (h : isEofError e = false) :
    env.attempt snap back (.err e, r) k = (.err e, { env with reader := r }) := by
  rw [attempt]
  simp only [h, Bool.false_eq_true, if_false]

end StepEnv

/-! ## What a step is to the machine -/

/-- Among symbols, the output is shorter than a limit. -/
def Below (limit : Nat) : ItemState × List Bool → Prop
  | ((.symbolLoop _ _ _, output), _) => output.length < limit
  | _ => True

/-- The output at which the decoder yields: as long as what the caller has consumed and the cap. -/
def capLimit (dropped : List UInt8) (drained : Nat) : Nat := dropped.length + drained + maxInternalBuffer

/-- The decoder went on from `env`, which stands at `c`, to `env'`: over the same slice, with output behind the output there
was, by a run of the machine below the cap. -/
structure Lands (dropped : List UInt8) (drained : Nat) (c : ItemState × List Bool) (env env' : StepEnv) : Prop where
  ok : env'.Ok
  input_eq : env'.reader.input = env.reader.input
  output_le : env.output.length ≤ env'.output.length
  runs : itemMachine.RunsWithin (Below (capLimit dropped drained)) c (env'.item dropped)
  rank_lt : (env'.item dropped = c ∧ env'.reader = env.reader) ∨ rank (env'.item dropped) < rank c

/-- What a step is to the machine. -/
def StepSpec (dropped : List UInt8) (drained : Nat) (c : ItemState × List Bool) (env : StepEnv) : Stepping → Prop
  | (.ok .progress, env') => Lands dropped drained c env env' ∧ rank (env'.item dropped) < rank c
  | (.ok .needMoreBytes, env') => Lands dropped drained c env env' ∧ itemMachine.Stops (env'.item dropped) .waiting
  | (.ok .yield, env') => Lands dropped drained c env env' ∧ maxInternalBuffer ≤ env'.output.length - drained ∧
      ∃ isFinal literal distance, env'.state = .symbolLoop isFinal literal distance
  | (.ok .finished, env') => Lands dropped drained c env env' ∧ env'.state = .finished
  | (.err _, env') => env'.state = .transient ∧ env.output.length ≤ env'.output.length ∧
      ∃ c', itemMachine.RunsWithin (Below (capLimit dropped drained)) c c' ∧ c'.1.2 = dropped ++ env'.output ∧
        itemMachine.Stops c' .failed ∧ Below (capLimit dropped drained) c'
  | _ => False

theorem moves_of_next {s s' : ItemState} {bits bits' : List Bool} (h : itemStep s bits = .next s' bits') :
    itemMachine.Moves (s, bits) (s', bits') := h

theorem stops_waiting {s : ItemState} {bits : List Bool} (h : itemStep s bits = .more) :
    itemMachine.Stops (s, bits) .waiting := by
  unfold Machine.Stops itemMachine
  simp only [h, Next.verdict]

theorem stops_failed {s : ItemState} {bits : List Bool} (h : itemStep s bits = .fail) :
    itemMachine.Stops (s, bits) .failed := by
  unfold Machine.Stops itemMachine
  simp only [h, Next.verdict]

/-- Behind the final block the machine halts. -/
theorem stops_halted {output : List UInt8} {bits : List Bool} : itemMachine.Stops ((.finished, output), bits) .halted := by
  unfold Machine.Stops itemMachine
  simp only [itemStep, Next.verdict]

/-- A step that goes on from where a run has led. -/
theorem StepSpec.after {dropped : List UInt8} {drained : Nat} {c c' : ItemState × List Bool} {env env' : StepEnv}
    {x : Stepping} (h : StepSpec dropped drained c' env' x)
    (hr : itemMachine.RunsWithin (Below (capLimit dropped drained)) c c') (hi : env'.reader.input = env.reader.input)
    (ho : env.output.length ≤ env'.output.length) (hrank : (c' = c ∧ env'.reader = env.reader) ∨ rank c' < rank c) :
    StepSpec dropped drained c env x := by
  have hle : rank c' ≤ rank c := hrank.elim (fun h => le_of_eq (by rw [h.1])) le_of_lt
  have hlands : ∀ {env''}, Lands dropped drained c' env' env'' → Lands dropped drained c env env'' := by
    intro env'' hl
    refine ⟨hl.ok, hl.input_eq.trans hi, ho.trans hl.output_le, hr.trans hl.runs, ?_⟩
    rcases hl.rank_lt with ⟨heq, hreader⟩ | hlt
    · rw [heq, hreader]
      exact hrank
    · exact .inr (hlt.trans_le hle)
  obtain ⟨e, env''⟩ := x
  cases e with
  | ok outcome =>
    cases outcome with
    | progress => exact ⟨hlands h.1, h.2.trans_le hle⟩
    | needMoreBytes => exact ⟨hlands h.1, h.2⟩
    | yield => exact ⟨hlands h.1, h.2⟩
    | finished => exact ⟨hlands h.1, h.2⟩
  | err e =>
    obtain ⟨h1, h2, c'', h3, h4⟩ := h
    exact ⟨h1, ho.trans h2, c'', hr.trans h3, h4⟩
  | panic => exact h
  | diverge => exact h

section

variable {dropped : List UInt8} {drained : Nat} {env : StepEnv}

/-- A step that stays where it is for want of input. -/
theorem stepSpec_needMore {state : DecodeState} (hw : env.reader.Wf) (hs : state.Sound)
    (hc : env.reader.bitCount ≤ state.buffered) (h : itemStep (state, dropped ++ env.output) env.reader.bits = .more) :
    StepSpec dropped drained ((state, dropped ++ env.output), env.reader.bits) env
      (.ok .needMoreBytes, { env with state := state }) :=
  ⟨⟨⟨hw, hs, hc⟩, rfl, le_rfl, Machine.RunsWithin.refl _, .inl ⟨rfl, rfl⟩⟩, stops_waiting h⟩

/-- A step that makes one move of the machine. -/
theorem stepSpec_progress {state : DecodeState} {env' : StepEnv}
    (h : itemStep (state, dropped ++ env.output) env.reader.bits = .next (env'.state, dropped ++ env'.output) env'.reader.bits)
    (hok : env'.Ok) (hi : env'.reader.input = env.reader.input) (ho : env.output.length ≤ env'.output.length)
    (hrank : rank (env'.item dropped) < rank ((state, dropped ++ env.output), env.reader.bits))
    (hb : Below (capLimit dropped drained) ((state, dropped ++ env.output), env.reader.bits)) :
    StepSpec dropped drained ((state, dropped ++ env.output), env.reader.bits) env (.ok .progress, env') :=
  ⟨⟨hok, hi, ho, Machine.RunsWithin.single hb (moves_of_next h), .inr hrank⟩, hrank⟩

/-- A step that fails where the machine fails. -/
theorem stepSpec_err {state : DecodeState} {e : Error} {r : BitReader} (ht : env.state = .transient)
    (h : itemStep (state, dropped ++ env.output) env.reader.bits = .fail)
    (hb : Below (capLimit dropped drained) ((state, dropped ++ env.output), env.reader.bits)) :
    StepSpec dropped drained ((state, dropped ++ env.output), env.reader.bits) env (.err e, { env with reader := r }) :=
  ⟨ht, le_rfl, _, Machine.RunsWithin.refl _, rfl, stops_failed h, hb⟩

end

/-! ## Block headers -/

theorem fixedLiteral_fits : Fits fixedLiteralCodeLengths :=
  ⟨⟨8, by decide +kernel, by decide⟩, by decide +kernel, by decide +kernel⟩

theorem fixedDistance_fits : Fits fixedDistanceCodeLengths :=
  ⟨⟨5, by decide, by decide⟩, by decide, by decide +kernel⟩

/-- The tables of a literal and a distance alphabet, built one after the other as the decoder does. -/
theorem build_tables {literalWidths distanceWidths : List Nat} (hl : Fits literalWidths) (hd : Fits distanceWidths)
    (hcount : literalWidths.length ≤ 288) (hcount' : distanceWidths.length ≤ 2 ^ 11) :
    ∃ literal, HuffmanDecoder.fromCodeLengths literalWidths none (some endOfBlock) = .ok literal ∧
      ∀ peek ≤ literal.safelyPeekBits, ∃ distance,
        HuffmanDecoder.fromCodeLengths distanceWidths (some peek) none = .ok distance ∧
        Tables literal distance literalWidths distanceWidths := by
  obtain ⟨literal, h1, h2, h3, h4⟩ := fromCodeLengths_ok none (some endOfBlock) (by omega) hl
  refine ⟨literal, h1, fun peek hpeek => ?_⟩
  obtain ⟨distance, h5, h6, h7, h8⟩ := fromCodeLengths_ok (some peek) none hcount' hd
  refine ⟨distance, h5, ⟨h2, h6, hcount, ?_, ?_⟩⟩
  · rw [h8, peekOf_none, Option.getD_some]
    have := h2.peek_pos
    omega
  · intro w hw hw0
    have hle : w ≤ literalWidths.foldl max 0 := foldl_max_le.mp le_rfl w (List.mem_of_getElem? hw)
    rw [h4, peekOf_sorted hw hw0]
    omega

/-- The tables of a fixed block. -/
structure FixedTables (literal distance : HuffmanDecoder) : Prop where
  literal_eq : HuffmanDecoder.fromCodeLengths fixedLiteralCodeLengths none (some endOfBlock) = .ok literal
  distance_eq : HuffmanDecoder.fromCodeLengths fixedDistanceCodeLengths (some 7) none = .ok distance
  tables : Tables literal distance fixedLiteralCodeLengths fixedDistanceCodeLengths

theorem exists_fixedTables : ∃ literal distance, FixedTables literal distance := by
  obtain ⟨literal, h1, h2⟩ := build_tables fixedLiteral_fits fixedDistance_fits (by decide +kernel) (by decide +kernel)
  obtain ⟨distance, h3, h4⟩ := h2 literal.safelyPeekBits le_rfl
  have h7 : literal.safelyPeekBits = 7 := h4.endOfBlock_width 7 (by decide +kernel) (by decide)
  rw [h7] at h3
  exact ⟨literal, distance, ⟨h1, h3, h4⟩⟩

section

variable {dropped : List UInt8} {drained : Nat} {env : StepEnv}

theorem stepBlockHeader_spec (hw : env.reader.Wf) (hc : env.reader.bitCount ≤ 7) (ht : env.state = .transient) :
    StepSpec dropped drained ((.blockHeader, dropped ++ env.output), env.reader.bits) env (stepBlockHeader env) := by
  have hlen := BitReader.length_bits env.reader
  obtain ⟨literal, distance, hfixed⟩ := exists_fixedTables
  unfold stepBlockHeader
  rw [StepEnv.available_ok hw.index_le]
  by_cases h3 : env.reader.availableBits < 3
  · simp only [if_pos h3, BitReader.restore_snapshot rfl]
    refine stepSpec_needMore hw trivial hc ?_
    simp only [itemStep]
    rw [if_pos (by omega)]
  · obtain ⟨r₁, h1, hc1⟩ := BitReader.readBit_ok hw (by omega)
    have hlen1 : r₁.bits.length = env.reader.bits.length - 1 := by rw [hc1.bits_eq, List.length_drop]
    obtain ⟨r₂, h2, hc2⟩ := BitReader.readBits_ok (n := 2) (by omega) hc1.wf (by omega)
    have hcons := hc1.trans hc2
    have hbits2 : r₂.bits = env.reader.bits.drop 3 := hcons.bits_eq
    have hcount : r₂.bitCount ≤ 7 := by
      have h4 := hc1.count_le
      have h5 := hc2.count_le
      omega
    have hlen2 : r₂.bits.length = env.reader.bits.length - 3 := by rw [hbits2, List.length_drop]
    obtain ⟨isFinal, hfin⟩ : ∃ b, b = (toNat (env.reader.bits.take 1) != 0) := ⟨_, rfl⟩
    obtain ⟨t, htype⟩ : ∃ t, t = toNat ((env.reader.bits.drop 1).take 2) := ⟨_, rfl⟩
    have hguard : ¬env.reader.bits.length < 3 := by omega
    simp only [if_neg h3, h1, StepEnv.reading_ok, h2, hc1.bits_eq, ← htype, ← hfin]
    rcases t with _ | _ | _ | t
    · refine stepSpec_progress ?_ ⟨hcons.wf, trivial, hcount⟩ hcons.input_eq le_rfl ?_ trivial
      · simp only [itemStep, if_neg hguard, ← htype, ← hfin, hbits2]
      · simp only [rank, StepEnv.item, DecodeState.rank]
        omega
    · simp only [Nat.zero_add, hfixed.literal_eq, hfixed.distance_eq, StepEnv.calling_ok]
      have hsound : (DecodeState.symbolLoop isFinal literal distance).Sound := ⟨_, _, hfixed.tables⟩
      have hok : StepEnv.Ok { env with reader := r₂, state := .symbolLoop isFinal literal distance } := by
        refine ⟨hcons.wf, hsound, ?_⟩
        simp only [DecodeState.buffered]
        omega
      refine stepSpec_progress ?_ hok hcons.input_eq le_rfl ?_ trivial
      · simp only [itemStep, if_neg hguard, ← htype, ← hfin, hbits2, Nat.zero_add, hfixed.literal_eq, hfixed.distance_eq,
          Exec.toNext_ok]
      · simp only [rank, StepEnv.item, DecodeState.rank]
        omega
    · refine stepSpec_progress ?_ ⟨hcons.wf, trivial, hcount⟩ hcons.input_eq le_rfl ?_ trivial
      · simp only [itemStep, if_neg hguard, ← htype, ← hfin, hbits2]
      · simp only [rank, StepEnv.item, DecodeState.rank]
        omega
    · refine stepSpec_err ht ?_ trivial
      simp only [itemStep, if_neg hguard, ← htype]

/-! ## Stored blocks -/

/-- The value of two bytes, the low one first. -/
theorem toNat_two_bytes (a b : UInt8) : toNat (ofBytes [a, b]) = a.toNat + 256 * b.toNat := by
  rw [ofBytes_cons, ofBytes_cons, ofBytes_nil, List.append_nil, toNat_append, toNat_ofNat_byte, toNat_ofNat_byte, length_ofNat]
  rfl

/-- The header of a stored block, whose length and complement are in four bytes. -/
theorem parseStoredHeader_bytes {bits : List Bool} {b0 b1 b2 b3 : UInt8}
    (hlen : bits.length % 8 + 32 ≤ bits.length)
    (h : ofBytes [b0, b1, b2, b3] = (bits.drop (bits.length % 8)).take 32) :
    parseStoredHeader bits =
      if 0xFFFF - (b0.toNat + 256 * b1.toNat) ≠ b2.toNat + 256 * b3.toNat then .fail
      else .got (b0.toNat + 256 * b1.toNat) (bits.drop (bits.length % 8 + 32)) := by
  have hl : (bits.drop (bits.length % 8)).length = bits.length - bits.length % 8 := List.length_drop
  have h1 : (bits.drop (bits.length % 8)).take 16 = ofBytes [b0, b1] := by
    have := congrArg (List.take (8 * 2)) h
    rw [take_ofBytes, List.take_take] at this
    exact this.symm
  have h2 : ((bits.drop (bits.length % 8)).drop 16).take 16 = ofBytes [b2, b3] := by
    have := congrArg (List.drop (8 * 2)) h
    rw [drop_ofBytes, List.drop_take] at this
    exact this.symm
  have hdrop : ((bits.drop (bits.length % 8)).drop 16).drop 16 = bits.drop (bits.length % 8 + 32) := by
    rw [List.drop_drop, List.drop_drop]
  rw [parseStoredHeader, if_neg (by omega), parseField, if_neg (by omega), Parse.andThen_got, parseField,
    if_neg (by rw [List.length_drop]; omega), Parse.andThen_got, h1, h2, hdrop, toNat_two_bytes, toNat_two_bytes]

theorem stepStoredAlignAndLen_spec (hw : env.reader.Wf) (hc : env.reader.bitCount ≤ 7) (ht : env.state = .transient)
    (isFinal : Bool) :
    StepSpec dropped drained ((.storedAlignAndLen isFinal, dropped ++ env.output), env.reader.bits) env
      (stepStoredAlignAndLen env isFinal) := by
  have hlen := BitReader.length_bits env.reader
  have hmod : env.reader.bits.length % 8 = env.reader.bitCount % 8 := by
    rw [hlen, BitReader.availableBits]
    omega
  unfold stepStoredAlignAndLen
  rw [StepEnv.available_ok hw.index_le]
  by_cases h3 : env.reader.availableBits < env.reader.bitCount % 8 + 32
  · rw [if_pos h3, BitReader.restore_snapshot rfl]
    refine stepSpec_needMore hw trivial hc ?_
    simp only [itemStep, parseStoredHeader]
    rw [if_pos (by omega), Parse.toNext_more]
  · have hcons := BitReader.alignToByte_consumed hw
    have hcount : env.reader.alignToByte.bitCount = 0 := by
      have := hcons.count_le
      omega
    have hlen1 : env.reader.alignToByte.bits.length = env.reader.bits.length - env.reader.bits.length % 8 := by
      rw [hcons.bits_eq, List.length_drop]
    obtain ⟨bytes, r₂, h1, hc2, h2, h4⟩ := BitReader.readBytes_ok 4 hcons.wf hcount (by omega)
    obtain ⟨b0, b1, b2, b3, rfl⟩ := List.length_eq_four.mp h2
    rw [hcons.bits_eq] at h4
    have hparse := parseStoredHeader_bytes (by omega) h4
    have hcons2 := hcons.trans hc2
    have hlen2 : r₂.bits.length = env.reader.bits.length - (env.reader.bits.length % 8 + 8 * 4) := by
      rw [hcons2.bits_eq, List.length_drop]
    simp only [if_neg h3, h1]
    by_cases hn : 0xFFFF - (b0.toNat + 256 * b1.toNat) ≠ b2.toNat + 256 * b3.toNat
    · rw [if_pos hn]
      refine stepSpec_err ht ?_ trivial
      simp only [itemStep, hparse, if_pos hn, Parse.toNext_fail]
    · rw [if_neg hn]
      refine stepSpec_progress ?_ ⟨hcons2.wf, trivial, hc2.count_le⟩ hcons2.input_eq le_rfl ?_ trivial
      · simp only [itemStep, hparse, if_neg hn, Parse.toNext_got, hcons2.bits_eq]
      · simp only [rank, StepEnv.item, DecodeState.rank]
        omega

/-- The moves of the machine through a piece of a stored body. -/
theorem runs_storedBody (limit : Nat) (isFinal : Bool) (bytes : List UInt8) (remaining : Nat) (output : List UInt8) {bits : List Bool}
    (hle : bytes.length ≤ remaining) (h : ofBytes bytes = bits.take (8 * bytes.length)) :
    itemMachine.RunsWithin (Below limit) ((.storedBody remaining isFinal, output), bits)
      ((.storedBody (remaining - bytes.length) isFinal, output ++ bytes), bits.drop (8 * bytes.length)) := by
  induction bytes generalizing remaining output bits with
  | nil =>
    rw [List.length_nil, Nat.sub_zero, List.append_nil, Nat.mul_zero, List.drop_zero]
    exact Machine.RunsWithin.refl _
  | cons b bytes ih =>
    rw [List.length_cons] at hle h ⊢
    have hlen : 8 ≤ bits.length := by
      have := congrArg List.length h
      rw [length_ofBytes, List.length_take, List.length_cons] at this
      omega
    have h1 : bits.take 8 = ofNat 8 b.toNat := by
      have := congrArg (List.take 8) h
      rw [ofBytes_cons, List.take_left' (length_ofNat _ _), List.take_take, Nat.min_eq_left (by omega)] at this
      exact this.symm
    have h2 : ofBytes bytes = (bits.drop 8).take (8 * bytes.length) := by
      have := congrArg (List.drop 8) h
      rw [ofBytes_cons, List.drop_left' (length_ofNat _ _), List.drop_take,
        show 8 * (bytes.length + 1) - 8 = 8 * bytes.length by omega] at this
      exact this
    have hstep : itemStep (.storedBody remaining isFinal, output) bits =
        .next (.storedBody (remaining - 1) isFinal, output ++ [b]) (bits.drop 8) := by
      simp only [itemStep, parseField]
      rw [if_neg (by omega), if_neg (by omega), Parse.toNext_got, h1, toNat_ofNat_byte, UInt8.ofNat_toNat]
    have hrest := ih (remaining - 1) (output ++ [b]) (show bytes.length ≤ remaining - 1 by omega) h2
    rw [List.append_assoc, List.singleton_append, List.drop_drop, show remaining - 1 - bytes.length =
      remaining - (bytes.length + 1) by omega, show 8 + 8 * bytes.length = 8 * (bytes.length + 1) by omega] at hrest
    exact Machine.RunsWithin.head trivial (moves_of_next hstep) hrest

theorem stepStoredBody_spec (hw : env.reader.Wf) (hc : env.reader.bitCount = 0) (remaining : Nat) (isFinal : Bool) :
    StepSpec dropped drained ((.storedBody remaining isFinal, dropped ++ env.output), env.reader.bits) env
      (stepStoredBody env remaining isFinal) := by
  have hlen := BitReader.length_bits env.reader
  unfold stepStoredBody
  by_cases h0 : remaining = 0
  · subst h0
    have hnext : ∀ output bits, itemStep (.storedBody 0 isFinal, output) bits =
        .next (if isFinal then .finished else .blockHeader, output) bits := fun _ _ => rfl
    rw [if_pos rfl]
    cases isFinal with
    | true =>
      refine ⟨⟨⟨hw, trivial, ?_⟩, rfl, le_rfl, Machine.RunsWithin.single trivial (moves_of_next (hnext _ _)), .inr ?_⟩, rfl⟩
      · simp only [DecodeState.buffered]
        omega
      · simp only [rank, StepEnv.item, DecodeState.rank]
        omega
    | false =>
      refine stepSpec_progress (hnext _ _) ⟨hw, trivial, ?_⟩ rfl le_rfl ?_ trivial
      · simp only [DecodeState.buffered]
        omega
      · simp only [rank, StepEnv.item, DecodeState.rank]
        omega
  · rw [if_neg h0, StepEnv.available_ok hw.index_le]
    by_cases ha : env.reader.availableBits / 8 = 0
    · simp only [ha, if_true]
      refine stepSpec_needMore hw trivial (le_of_eq hc) ?_
      simp only [itemStep, parseField]
      rw [if_neg h0, if_pos (by omega), Parse.toNext_more]
    · obtain ⟨bytes, r', h1, hcons, h2, h3⟩ :=
        BitReader.readBytes_ok (min (env.reader.availableBits / 8) remaining) hw hc (by omega)
      simp only [if_neg ha, h1, StepEnv.reading_ok]
      have hrun := runs_storedBody (capLimit dropped drained) isFinal bytes remaining (dropped ++ env.output) (by omega)
        (by rw [h2]; exact h3)
      have hlen' : r'.bits.length = env.reader.bits.length - 8 * min (env.reader.availableBits / 8) remaining := by
        rw [hcons.bits_eq, List.length_drop]
      have hrank : rank (StepEnv.item dropped { env with
          reader := r', output := env.output ++ bytes
          state := .storedBody (remaining - min (env.reader.availableBits / 8) remaining) isFinal }) <
          rank ((.storedBody remaining isFinal, dropped ++ env.output), env.reader.bits) := by
        simp only [rank, StepEnv.item, DecodeState.rank]
        omega
      refine ⟨⟨⟨hcons.wf, trivial, hcons.count_le⟩, hcons.input_eq, by simp, ?_, .inr hrank⟩, hrank⟩
      simp only [StepEnv.item]
      rw [hcons.bits_eq, ← h2, ← List.append_assoc]
      exact hrun

/-! ## The headers of dynamic blocks -/

theorem stepDynamicHeader_spec (hw : env.reader.Wf) (hc : env.reader.bitCount ≤ 7) (ht : env.state = .transient)
    (isFinal : Bool) :
    StepSpec dropped drained ((.dynamicHeader isFinal, dropped ++ env.output), env.reader.bits) env
      (stepDynamicHeader env isFinal) := by
  have hlen := BitReader.length_bits env.reader
  unfold stepDynamicHeader
  rw [StepEnv.available_ok hw.index_le]
  by_cases h14 : env.reader.availableBits < 14
  · simp only [if_pos h14, BitReader.restore_snapshot rfl]
    refine stepSpec_needMore hw trivial hc ?_
    simp only [itemStep]
    rw [if_pos (by omega)]
  · obtain ⟨r₁, h1, hc1⟩ := BitReader.readBits_ok (n := 5) (by omega) hw (by omega)
    have hlen1 : r₁.bits.length = env.reader.bits.length - 5 := by rw [hc1.bits_eq, List.length_drop]
    obtain ⟨r₂, h2, hc2⟩ := BitReader.readBits_ok (n := 5) (by omega) hc1.wf (by omega)
    have hlen2 : r₂.bits.length = r₁.bits.length - 5 := by rw [hc2.bits_eq, List.length_drop]
    obtain ⟨r₃, h3, hc3⟩ := BitReader.readBits_ok (n := 4) (by omega) hc2.wf (by omega)
    have hlen3 : r₃.bits.length = r₂.bits.length - 4 := by rw [hc3.bits_eq, List.length_drop]
    have hcons := (hc1.trans hc2).trans hc3
    have hcount : r₃.bitCount ≤ 7 := by
      have h4 := hc1.count_le
      have h5 := hc2.count_le
      have h6 := hc3.count_le
      omega
    have hhlit : toNat (env.reader.bits.take 5) < 2 ^ 5 := by
      have := toNat_lt (env.reader.bits.take 5)
      rwa [List.length_take_of_le (by omega)] at this
    have hhdist : toNat (r₁.bits.take 5) < 2 ^ 5 := by
      have := toNat_lt (r₁.bits.take 5)
      rwa [List.length_take_of_le (by omega)] at this
    have hhclen : toNat (r₂.bits.take 4) < 2 ^ 4 := by
      have := toNat_lt (r₂.bits.take 4)
      rwa [List.length_take_of_le (by omega)] at this
    have hitem : itemStep (.dynamicHeader isFinal, dropped ++ env.output) env.reader.bits =
        if distanceTable.length < toNat (r₁.bits.take 5) + 1 then .fail
        else .next (.dynamicBitwidthTable isFinal (toNat (env.reader.bits.take 5) + 257) (toNat (r₁.bits.take 5) + 1)
          (toNat (r₂.bits.take 4) + 4) 0 (List.replicate 19 0), dropped ++ env.output) r₃.bits := by
      simp only [itemStep, parseField]
      rw [if_neg (by omega), if_neg (by omega), Parse.toNext_got, ← hc1.bits_eq, if_neg (by omega), Parse.toNext_got,
        ← hc2.bits_eq, if_neg (by omega), Parse.toNext_got, ← hc3.bits_eq]
    have hadd1 := Exec.checkedAdd_of_lt (show toNat (env.reader.bits.take 5) + 257 < 2 ^ 16 by omega)
    have hadd2 := Exec.checkedAdd_of_lt (show toNat (r₁.bits.take 5) + 1 < 2 ^ 16 by omega)
    have hadd3 := Exec.checkedAdd_of_lt (show toNat (r₂.bits.take 4) + 4 < 2 ^ 8 by omega)
    simp only [if_neg h14, h1, h2, h3, StepEnv.reading_ok, hadd1, hadd2, hadd3, StepEnv.calling_ok]
    by_cases hd : distanceTable.length < toNat (r₁.bits.take 5) + 1
    · rw [if_pos hd]
      rw [if_pos hd] at hitem
      exact stepSpec_err ht hitem trivial
    · rw [if_neg hd]
      rw [if_neg hd] at hitem
      have hdist : distanceTable.length = 30 := rfl
      refine stepSpec_progress hitem ⟨hcons.wf, ⟨by omega, by omega, by omega, by simp⟩, hcount⟩ hcons.input_eq le_rfl ?_ trivial
      simp only [rank, StepEnv.item, DecodeState.rank]
      omega

end

end Noflate
