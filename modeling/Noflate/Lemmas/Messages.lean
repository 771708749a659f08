import Noflate.Deflate

/-!
# The error of a truncated stream

`decompress` reports a stream that ended before its final block with an error of its own: no error of a step of the decoder is that
one (`Decoder.feed_untruncated`).
-/

namespace Noflate

/-- The error of a stream that ended before its final block. -/
def truncatedError : Error := .invalidData "deflate stream ended before the final block"

/-- A call does not end in the error of a truncated stream. -/
def Exec.Untruncated {α : Type} (x : Exec α) : Prop := x ≠ .err truncatedError

section

variable {α β : Type}

@[simp] theorem Exec.untruncated_ok (a : α) : (Exec.ok a).Untruncated := nofun

@[simp] theorem Exec.untruncated_panic : (Exec.panic : Exec α).Untruncated := nofun

@[simp] theorem Exec.untruncated_diverge : (Exec.diverge : Exec α).Untruncated := nofun

@[simp] theorem Exec.untruncated_err {e : Error} : (Exec.err e : Exec α).Untruncated ↔ e ≠ truncatedError :=
  ⟨fun h he => h (he ▸ rfl), fun h he => h (Exec.err.inj he)⟩

/-- A message that starts with another letter. -/
def OtherStart (message : String) : Prop := ∃ c, message.toList.head? = some c ∧ c ≠ 'd'

theorem OtherStart.append {message : String} (h : OtherStart message) (rest : String) : OtherStart (message ++ rest) := by
  obtain ⟨c, hc, hne⟩ := h
  refine ⟨c, ?_, hne⟩
  have hnil : message.toList ≠ [] := by
    intro hn
    rw [hn] at hc
    cases hc
  rw [String.toList_append, List.head?_append_of_ne_nil _ hnil, hc]

theorem OtherStart.ne {message : String} (h : OtherStart message) : Error.invalidData message ≠ truncatedError := by
  obtain ⟨c, hc, hne⟩ := h
  intro he
  rw [Error.invalidData.inj he] at hc
  exact hne (Option.some.inj (hc.symm.trans (by decide)))

theorem Exec.Untruncated.bind {x : Exec α} {f : α → Exec β} (hx : x.Untruncated) (hf : ∀ a, (f a).Untruncated) :
    (x >>= f).Untruncated := by
  cases x with
  | ok a => exact hf a
  | err e => exact Exec.untruncated_err.mpr (Exec.untruncated_err.mp hx)
  | panic => exact Exec.untruncated_panic
  | diverge => exact Exec.untruncated_diverge

theorem Reading.untruncated_andThen {x : Reading α} {f : α → BitReader → Reading β} (hx : x.1.Untruncated)
    (hf : ∀ a r, (f a r).1.Untruncated) : (Reading.andThen x f).1.Untruncated := by
  obtain ⟨x, r⟩ := x
  cases x with
  | ok a => exact hf a r
  | err e => exact Exec.untruncated_err.mpr (Exec.untruncated_err.mp hx)
  | panic => exact Exec.untruncated_panic
  | diverge => exact Exec.untruncated_diverge

end

theorem eofError_ne_truncated : eofError ≠ truncatedError := by decide

/-! ## Reads -/

namespace BitReader

theorem peekLoop_untruncated (n fuel : Nat) (r : BitReader) : (peekLoop n fuel r).1.Untruncated := by
  induction fuel generalizing r with
  | zero => exact Exec.untruncated_ok _
  | succ fuel ih =>
    rw [peekLoop]
    split
    · split
      · exact Exec.untruncated_err.mpr eofError_ne_truncated
      · split
        · exact Exec.untruncated_panic
        · exact ih _
    · exact Exec.untruncated_ok _

theorem peekBits_untruncated (n : Nat) (r : BitReader) : (peekBits n r).1.Untruncated := by
  refine Reading.untruncated_andThen (peekLoop_untruncated n n r) fun _ r => ?_
  split
  · exact Exec.untruncated_panic
  · exact Exec.untruncated_ok _

theorem skipBits_untruncated (n : Nat) (r : BitReader) : (skipBits n r).1.Untruncated := by
  refine Reading.untruncated_andThen ?_ fun _ r => ?_
  · split
    · exact peekBits_untruncated n r
    · exact Exec.untruncated_ok _
  · split
    · exact Exec.untruncated_panic
    · exact Exec.untruncated_ok _

theorem readBits_untruncated (n : Nat) (r : BitReader) : (readBits n r).1.Untruncated :=
  Reading.untruncated_andThen (peekBits_untruncated n r) fun _ r =>
    Reading.untruncated_andThen (skipBits_untruncated n r) fun _ _ => Exec.untruncated_ok _

theorem readBit_untruncated (r : BitReader) : (readBit r).1.Untruncated :=
  Reading.untruncated_andThen (readBits_untruncated 1 r) fun _ _ => Exec.untruncated_ok _

theorem readBytes_untruncated (len : Nat) (r : BitReader) : (readBytes len r).1.Untruncated := by
  unfold readBytes
  simp only
  split
  · exact Exec.untruncated_panic
  · split
    · exact Exec.untruncated_ok _
    · exact Exec.untruncated_err.mpr eofError_ne_truncated

end BitReader

/-! ## Tables -/

namespace HuffmanDecoder

theorem fillLoop_untruncated (reversed width value rounds padding : Nat) (table : Array Nat) :
    (fillLoop reversed width value rounds padding table).Untruncated := by
  induction rounds generalizing padding table with
  | zero => exact Exec.untruncated_ok _
  | succ rounds ih =>
    rw [fillLoop]
    split
    · exact Exec.untruncated_panic
    · split
      · exact Exec.untruncated_err.mpr (by decide)
      · exact ih _ _

theorem assignLoop_untruncated (maxBits : Nat) (eobSymbol : Option Nat) (entries : List (Nat × Nat))
    (code previousWidth actualSafelyPeek : Nat) (table : Array Nat) :
    (assignLoop maxBits eobSymbol entries code previousWidth actualSafelyPeek table).Untruncated := by
  induction entries generalizing code previousWidth actualSafelyPeek table with
  | nil => exact Exec.untruncated_ok _
  | cons entry entries ih =>
    rw [assignLoop]
    split
    · exact Exec.untruncated_panic
    · refine Exec.Untruncated.bind (fillLoop_untruncated _ _ _ _ _ _) fun table => ?_
      simp only
      split
      · exact Exec.untruncated_panic
      · exact ih _ _ _ _

theorem fromCodeLengths_untruncated (lengths : List Nat) (safelyPeekBits eobSymbol : Option Nat) :
    (fromCodeLengths lengths safelyPeekBits eobSymbol).Untruncated := by
  unfold fromCodeLengths
  simp only
  split
  · exact Exec.untruncated_err.mpr (by decide)
  · split
    · exact Exec.untruncated_err.mpr (by decide)
    · exact Exec.Untruncated.bind (assignLoop_untruncated _ _ _ _ _ _ _) fun _ => Exec.untruncated_ok _

theorem decode_untruncated (dec : HuffmanDecoder) (r : BitReader) : (dec.decode r).1.Untruncated := by
  have hloop : ∀ fuel peekBits r, (decodeLoop dec fuel peekBits r).1.Untruncated := by
    intro fuel
    induction fuel with
    | zero => exact fun _ _ => Exec.untruncated_diverge
    | succ fuel ih =>
      intro peekBits r
      rw [decodeLoop]
      refine Reading.untruncated_andThen (BitReader.peekBits_untruncated _ r) fun bits r => ?_
      split
      · exact Exec.untruncated_panic
      · simp only
        split
        · exact Reading.untruncated_andThen (BitReader.skipBits_untruncated _ r) fun _ _ => Exec.untruncated_ok _
        · split
          · exact Exec.untruncated_err.mpr (by decide)
          · exact ih _ _
  exact hloop 33 dec.safelyPeekBits r

end HuffmanDecoder

/-! ## Steps -/

section

variable {α : Type} {env : StepEnv}

namespace StepEnv

theorem untruncated_calling {x : Exec α} {k : α → Stepping} (hx : x.Untruncated) (hk : ∀ a, (k a).1.Untruncated) :
    (env.calling x k).1.Untruncated := by
  cases x with
  | ok a => exact hk a
  | err e => exact Exec.untruncated_err.mpr (Exec.untruncated_err.mp hx)
  | panic => exact Exec.untruncated_panic
  | diverge => exact Exec.untruncated_diverge

theorem untruncated_reading {x : Reading α} {k : α → StepEnv → Stepping} (hx : x.1.Untruncated)
    (hk : ∀ a env, (k a env).1.Untruncated) : (env.reading x k).1.Untruncated := by
  obtain ⟨x, r⟩ := x
  cases x with
  | ok a => exact hk a _
  | err e => exact Exec.untruncated_err.mpr (Exec.untruncated_err.mp hx)
  | panic => exact Exec.untruncated_panic
  | diverge => exact Exec.untruncated_diverge

theorem untruncated_attempt {x : Reading α} {k : α → StepEnv → Stepping} {snap : BitReaderState} {back : DecodeState}
    (hx : x.1.Untruncated) (hk : ∀ a env, (k a env).1.Untruncated) : (env.attempt snap back x k).1.Untruncated := by
  obtain ⟨x, r⟩ := x
  cases x with
  | ok a => exact hk a _
  | err e =>
    rw [attempt]
    split
    · exact Exec.untruncated_ok _
    · exact Exec.untruncated_err.mpr (Exec.untruncated_err.mp hx)
  | panic => exact Exec.untruncated_panic
  | diverge => exact Exec.untruncated_diverge

theorem untruncated_attemptExtra {k : Nat → StepEnv → Stepping} {snap : BitReaderState} {back : DecodeState} {extraBits : Nat}
    (hk : ∀ a env, (k a env).1.Untruncated) : (env.attemptExtra snap back extraBits k).1.Untruncated := by
  unfold attemptExtra
  split
  · exact hk _ _
  · exact untruncated_attempt (BitReader.readBits_untruncated _ _) hk

theorem untruncated_ite {c : Prop} [Decidable c] {a b : Stepping} (ha : a.1.Untruncated) (hb : b.1.Untruncated) :
    (if c then a else b).1.Untruncated := by
  split
  · exact ha
  · exact hb

theorem untruncated_available {k : Nat → Stepping} (hk : ∀ n, (k n).1.Untruncated) : (env.available k).1.Untruncated := by
  unfold available
  split
  · exact Exec.untruncated_panic
  · exact hk _

end StepEnv

theorem Exec.index_untruncated (xs : List α) (i : Nat) : (Exec.index xs i).Untruncated := by
  unfold Exec.index
  split
  · exact Exec.untruncated_ok _
  · exact Exec.untruncated_panic

theorem Exec.assign_untruncated (xs : List α) (i : Nat) (a : α) : (Exec.assign xs i a).Untruncated := by
  unfold Exec.assign
  split
  · exact Exec.untruncated_ok _
  · exact Exec.untruncated_panic

theorem Exec.checkedAdd_untruncated (bits a b : Nat) : (Exec.checkedAdd bits a b).Untruncated := by
  unfold Exec.checkedAdd
  split
  · exact Exec.untruncated_ok _
  · exact Exec.untruncated_panic

theorem stepBlockHeader_untruncated (env : StepEnv) : (stepBlockHeader env).1.Untruncated := by
  refine StepEnv.untruncated_available fun n => ?_
  split
  · exact Exec.untruncated_ok _
  · refine StepEnv.untruncated_reading (BitReader.readBit_untruncated _) fun isFinal env => ?_
    refine StepEnv.untruncated_reading (BitReader.readBits_untruncated _ _) fun blockType env => ?_
    split
    · exact Exec.untruncated_ok _
    · exact StepEnv.untruncated_calling (HuffmanDecoder.fromCodeLengths_untruncated _ _ _) fun _ =>
        StepEnv.untruncated_calling (HuffmanDecoder.fromCodeLengths_untruncated _ _ _) fun _ => Exec.untruncated_ok _
    · exact Exec.untruncated_ok _
    · exact Exec.untruncated_err.mpr (by decide)

theorem stepStoredAlignAndLen_untruncated (env : StepEnv) (isFinal : Bool) :
    (stepStoredAlignAndLen env isFinal).1.Untruncated := by
  refine StepEnv.untruncated_available fun n => ?_
  split
  · exact Exec.untruncated_ok _
  · generalize env.reader.alignToByte.readBytes 4 = reading
    obtain ⟨result, r⟩ := reading
    cases result with
    | ok bytes =>
      -- four bytes, or as many as the code cannot have read
      rcases bytes with _ | ⟨b0, _ | ⟨b1, _ | ⟨b2, _ | ⟨b3, _ | ⟨b4, more⟩⟩⟩⟩⟩
      · exact Exec.untruncated_panic
      · exact Exec.untruncated_panic
      · exact Exec.untruncated_panic
      · exact Exec.untruncated_panic
      · have hstart : OtherStart "LEN=" := ⟨'L', by decide, by decide⟩
        exact StepEnv.untruncated_ite (Exec.untruncated_err.mpr (((hstart.append _).append _).append _).ne) (Exec.untruncated_ok _)
      · exact Exec.untruncated_panic
    | err e => exact Exec.untruncated_ok _
    | panic => exact Exec.untruncated_panic
    | diverge => exact Exec.untruncated_diverge

theorem stepStoredBody_untruncated (env : StepEnv) (remaining : Nat) (isFinal : Bool) :
    (stepStoredBody env remaining isFinal).1.Untruncated := by
  unfold stepStoredBody
  split
  · split
    · exact Exec.untruncated_ok _
    · exact Exec.untruncated_ok _
  · refine StepEnv.untruncated_available fun n => ?_
    simp only
    split
    · exact Exec.untruncated_ok _
    · exact StepEnv.untruncated_reading (BitReader.readBytes_untruncated _ _) fun _ _ => Exec.untruncated_ok _

theorem stepDynamicHeader_untruncated (env : StepEnv) (isFinal : Bool) : (stepDynamicHeader env isFinal).1.Untruncated := by
  refine StepEnv.untruncated_available fun n => ?_
  split
  · exact Exec.untruncated_ok _
  · refine StepEnv.untruncated_reading (BitReader.readBits_untruncated _ _) fun hlit env => ?_
    refine StepEnv.untruncated_calling (Exec.checkedAdd_untruncated _ _ _) fun hlit => ?_
    refine StepEnv.untruncated_reading (BitReader.readBits_untruncated _ _) fun hdist env => ?_
    refine StepEnv.untruncated_calling (Exec.checkedAdd_untruncated _ _ _) fun hdist => ?_
    refine StepEnv.untruncated_reading (BitReader.readBits_untruncated _ _) fun hclen env => ?_
    refine StepEnv.untruncated_calling (Exec.checkedAdd_untruncated _ _ _) fun hclen => ?_
    split
    · have hstart : OtherStart "HDIST is too large: " := ⟨'H', by decide, by decide⟩
      exact Exec.untruncated_err.mpr (hstart.append _).ne
    · exact Exec.untruncated_ok _

theorem bitwidthTableLoop_untruncated (isFinal : Bool) (hlit hdist hclen fuel orderIdx : Nat) (codeLengths : List Nat)
    (env : StepEnv) : (bitwidthTableLoop isFinal hlit hdist hclen fuel orderIdx codeLengths env).1.Untruncated := by
  have hdone : ∀ (codeLengths : List Nat) (env : StepEnv),
      (env.calling (HuffmanDecoder.fromCodeLengths codeLengths (some 1) none) fun bitwidthDecoder =>
        (.ok .progress, { env with state := .dynamicCodeLengths isFinal hlit hdist bitwidthDecoder [] (hlit + hdist) })).1.Untruncated :=
    fun _ _ => StepEnv.untruncated_calling (HuffmanDecoder.fromCodeLengths_untruncated _ _ _) fun _ => Exec.untruncated_ok _
  induction fuel generalizing orderIdx codeLengths env with
  | zero =>
    unfold bitwidthTableLoop
    split
    · exact Exec.untruncated_diverge
    · exact hdone _ _
  | succ fuel ih =>
    unfold bitwidthTableLoop
    split
    · refine StepEnv.untruncated_available fun n => ?_
      split
      · exact Exec.untruncated_ok _
      · refine StepEnv.untruncated_reading (BitReader.readBits_untruncated _ _) fun width env => ?_
        refine StepEnv.untruncated_calling (Exec.index_untruncated _ _) fun slot => ?_
        exact StepEnv.untruncated_calling (Exec.assign_untruncated _ _ _) fun _ => ih _ _ _
    · exact hdone _ _

theorem codeLengthsLoop_untruncated (isFinal : Bool) (hlit hdist : Nat) (bitwidthDecoder : HuffmanDecoder) (targetLen fuel : Nat)
    (allCodeLengths : List Nat) (env : StepEnv) :
    (codeLengthsLoop isFinal hlit hdist bitwidthDecoder targetLen fuel allCodeLengths env).1.Untruncated := by
  have hdone : ∀ (fuel : Nat) (lengths : List Nat) (env : StepEnv), ¬lengths.length < targetLen →
      (codeLengthsLoop isFinal hlit hdist bitwidthDecoder targetLen fuel lengths env).1.Untruncated := by
    intro fuel lengths env hnot
    unfold codeLengthsLoop
    rw [if_neg hnot]
    split
    · exact Exec.untruncated_panic
    · exact StepEnv.untruncated_calling (HuffmanDecoder.fromCodeLengths_untruncated _ _ _) fun _ =>
        StepEnv.untruncated_calling (HuffmanDecoder.fromCodeLengths_untruncated _ _ _) fun _ => Exec.untruncated_ok _
  induction fuel generalizing allCodeLengths env with
  | zero =>
    by_cases hlt : allCodeLengths.length < targetLen
    · unfold codeLengthsLoop
      rw [if_pos hlt]
      exact Exec.untruncated_diverge
    · exact hdone 0 _ env hlt
  | succ fuel ih =>
    by_cases hlt : allCodeLengths.length < targetLen
    · have hnext : ∀ (lengths : List Nat) (env : StepEnv), (if targetLen < lengths.length then
          (.err (.invalidData "dynamic huffman code lengths exceed the announced table size"), env)
          else codeLengthsLoop isFinal hlit hdist bitwidthDecoder targetLen fuel lengths env : Stepping).1.Untruncated := by
        intro lengths env
        split
        · exact Exec.untruncated_err.mpr (by decide)
        · exact ih lengths env
      unfold codeLengthsLoop
      rw [if_pos hlt]
      refine StepEnv.untruncated_attempt (HuffmanDecoder.decode_untruncated _ _) fun code env => ?_
      split
      · exact hnext _ env
      · split
        · refine StepEnv.untruncated_attempt (BitReader.readBits_untruncated _ _) fun v env => ?_
          refine StepEnv.untruncated_calling (Exec.checkedAdd_untruncated _ _ _) fun times => ?_
          split
          · exact Exec.untruncated_err.mpr (by decide)
          · exact hnext _ env
        · split
          · refine StepEnv.untruncated_attempt (BitReader.readBits_untruncated _ _) fun v env => ?_
            exact StepEnv.untruncated_calling (Exec.checkedAdd_untruncated _ _ _) fun times => hnext _ env
          · split
            · refine StepEnv.untruncated_attempt (BitReader.readBits_untruncated _ _) fun v env => ?_
              exact StepEnv.untruncated_calling (Exec.checkedAdd_untruncated _ _ _) fun times => hnext _ env
            · have hstart : OtherStart "invalid code length symbol: " := ⟨'i', by decide, by decide⟩
              exact Exec.untruncated_err.mpr (hstart.append _).ne
    · exact hdone _ _ env hlt

theorem copyFromDistance_untruncated (output : List UInt8) (distance length : Nat) :
    (copyFromDistance output distance length).Untruncated := by
  have hloop : ∀ (fuel emitted : Nat) (output : List UInt8), (copyLoop distance length fuel emitted output).Untruncated := by
    intro fuel
    induction fuel with
    | zero =>
      intro emitted output
      unfold copyLoop
      split
      · exact Exec.untruncated_diverge
      · exact Exec.untruncated_ok _
    | succ fuel ih =>
      intro emitted output
      unfold copyLoop
      split
      · simp only
        split
        · exact Exec.untruncated_panic
        · exact ih _ _
      · exact Exec.untruncated_ok _
  unfold copyFromDistance
  split
  · have hstart : OtherStart "too long backward reference: output_len=" := ⟨'t', by decide, by decide⟩
    exact Exec.untruncated_err.mpr (((hstart.append _).append _).append _).ne
  · simp only
    split
    · split
      · exact Exec.untruncated_panic
      · exact Exec.untruncated_ok _
    · exact hloop _ _ _

theorem symbolsLoop_untruncated (isFinal : Bool) (literal distance : HuffmanDecoder) (drained fuel : Nat) (env : StepEnv) :
    (symbolsLoop isFinal literal distance drained fuel env).1.Untruncated := by
  induction fuel generalizing env with
  | zero =>
    unfold symbolsLoop
    split
    · exact Exec.untruncated_panic
    · split
      · exact Exec.untruncated_ok _
      · exact Exec.untruncated_diverge
  | succ fuel ih =>
    unfold symbolsLoop
    split
    · exact Exec.untruncated_panic
    · split
      · exact Exec.untruncated_ok _
      · refine StepEnv.untruncated_available fun n => ?_
        split
        · exact Exec.untruncated_ok _
        · refine StepEnv.untruncated_attempt (HuffmanDecoder.decode_untruncated _ _) fun symbol env => ?_
          split
          · exact ih _
          · split
            · split
              · exact Exec.untruncated_ok _
              · exact Exec.untruncated_ok _
            · split
              · refine StepEnv.untruncated_calling (Exec.index_untruncated _ _) fun entry => ?_
                refine StepEnv.untruncated_attemptExtra fun lengthExtra env => ?_
                split
                · exact Exec.untruncated_panic
                · refine StepEnv.untruncated_attempt (HuffmanDecoder.decode_untruncated _ _) fun distanceSymbol env => ?_
                  split
                  · have hstart : OtherStart "invalid distance symbol: " := ⟨'i', by decide, by decide⟩
                    exact Exec.untruncated_err.mpr (hstart.append _).ne
                  · refine StepEnv.untruncated_attemptExtra fun distExtra env => ?_
                    split
                    · exact Exec.untruncated_panic
                    · exact StepEnv.untruncated_calling (copyFromDistance_untruncated _ _ _) fun _ => ih _
              · split
                · have hstart : OtherStart "literal/length symbol " := ⟨'l', by decide, by decide⟩
                  exact Exec.untruncated_err.mpr ((hstart.append _).append _).ne
                · exact Exec.untruncated_panic

theorem step_untruncated (env : StepEnv) (drained : Nat) : (step env drained).1.Untruncated := by
  unfold step
  simp only
  split
  · exact stepBlockHeader_untruncated _
  · exact stepStoredAlignAndLen_untruncated _ _
  · exact stepStoredBody_untruncated _ _ _
  · exact stepDynamicHeader_untruncated _ _
  · exact bitwidthTableLoop_untruncated _ _ _ _ _ _ _ _
  · exact codeLengthsLoop_untruncated _ _ _ _ _ _ _ _
  · exact symbolsLoop_untruncated _ _ _ _ _ _
  · exact Exec.untruncated_ok _
  · exact Exec.untruncated_panic

theorem driveLoop_untruncated (drained fuel : Nat) (env : StepEnv) : (driveLoop drained fuel env).1.Untruncated := by
  induction fuel generalizing env with
  | zero => exact Exec.untruncated_diverge
  | succ fuel ih =>
    have hstep := step_untruncated env drained
    rw [driveLoop]
    generalize step env drained = result at hstep ⊢
    obtain ⟨outcome, env'⟩ := result
    cases outcome with
    | ok outcome =>
      cases outcome with
      | progress => exact ih env'
      | needMoreBytes => exact Exec.untruncated_ok _
      | yield => exact Exec.untruncated_ok _
      | finished => exact Exec.untruncated_ok _
    | err e => exact Exec.untruncated_err.mpr (Exec.untruncated_err.mp hstep)
    | panic => exact Exec.untruncated_panic
    | diverge => exact Exec.untruncated_diverge

/-- No error of a decoder is that of a truncated stream. -/
theorem Decoder.feed_untruncated (d : Decoder) (data : List UInt8) : (d.feed data).1.Untruncated := by
  unfold Decoder.feed
  split
  · exact Exec.untruncated_err.mpr (by decide)
  · unfold Decoder.drive
    have hloop := driveLoop_untruncated ({ d with input := d.input.feed data } : Decoder).drained
      ({ d with input := d.input.feed data } : Decoder).driveFuel ({ d with input := d.input.feed data } : Decoder).env
    generalize driveLoop _ _ _ = result at hloop ⊢
    obtain ⟨outcome, env'⟩ := result
    cases outcome with
    | ok finished =>
      simp only
      split
      · exact Exec.untruncated_ok _
      · exact Exec.untruncated_panic
    | err e => exact Exec.untruncated_err.mpr (Exec.untruncated_err.mp hloop)
    | panic => exact Exec.untruncated_panic
    | diverge => exact Exec.untruncated_diverge

end

end Noflate
