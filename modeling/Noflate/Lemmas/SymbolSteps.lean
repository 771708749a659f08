import Noflate.Lemmas.DynamicSteps

/-!
# The symbols of compressed blocks

A round of the symbol loop reads one literal, match or end-of-block symbol, which is one move of the machine. The look-ahead of
the literal table is the width of the end-of-block code: that code takes back every bit the look-ahead held beyond seven.
-/

namespace Noflate

open BitString Resumable

theorem distanceTable_bounds : ∀ e ∈ distanceTable, e.2 ≤ 13 ∧ 1 ≤ e.1 ∧ e.1 + 2 ^ e.2 ≤ windowSize + 1 := by decide

/-- The part of a round that reads a distance. -/
def StepEnv.attemptDistance (env : StepEnv) (snap : BitReaderState) (back : DecodeState) (distance : HuffmanDecoder)
    (k : Nat → StepEnv → Stepping) : Stepping :=
  env.attempt snap back (distance.decode env.reader) fun distanceSymbol env =>
    match distanceTable[distanceSymbol]? with
    | none => (.err (.invalidData ("invalid distance symbol: " ++ toString distanceSymbol)), env)
    | some (baseDistance, distExtraBits) =>
      env.attemptExtra snap back distExtraBits fun distExtra env =>
        if 2 ^ 16 ≤ baseDistance + distExtra then (.panic, env) else k (baseDistance + distExtra) env

/-- What a round does with an element it has read. -/
def afterToken (isFinal : Bool) (literal distance : HuffmanDecoder) (drained fuel : Nat) (token : Rfc1951.Token)
    (env : StepEnv) : Stepping :=
  match token with
  | .literal byte => symbolsLoop isFinal literal distance drained fuel { env with output := env.output ++ [byte] }
  | .endOfBlock =>
    if isFinal then (.ok .finished, { env with state := .finished }) else (.ok .progress, { env with state := .blockHeader })
  | .copy length dist =>
    env.calling (copyFromDistance env.output dist length) fun output =>
      symbolsLoop isFinal literal distance drained fuel { env with output }

section

variable {r₀ : BitReader} {distance : HuffmanDecoder} {distanceWidths : List Nat}

/-- Reading a distance, to be undone if the input ends. -/
theorem attemptDistance_spec (env : StepEnv) (hT : TableOf distance distanceWidths) (back : DecodeState) (hw : env.reader.Wf)
    (h₀ : env.reader.input = r₀.input) :
    match parseDistance distance env.reader.bits with
    | .more => ∀ k, env.attemptDistance r₀.snapshot back distance k =
        (.ok .needMoreBytes, { env with reader := r₀, state := back })
    | .fail => ∃ e r', ∀ k, env.attemptDistance r₀.snapshot back distance k = (.err e, { env with reader := r' })
    | .got dist rest => ∃ r',
        (∀ k, env.attemptDistance r₀.snapshot back distance k = k dist { env with reader := r' }) ∧
        r'.At env.reader.input rest (max env.reader.bitCount (distance.safelyPeekBits + 7)) ∧ 0 < dist ∧ dist ≤ windowSize ∧
        rest.length ≤ env.reader.bits.length := by
  have hsym := attempt_symbol env hT back hw h₀
  unfold parseDistance StepEnv.attemptDistance
  cases hp : distance.parse env.reader.bits with
  | more =>
    rw [hp] at hsym
    exact fun k => hsym _
  | fail =>
    rw [hp] at hsym
    obtain ⟨e, r', h1⟩ := hsym
    exact ⟨e, r', fun k => h1 _⟩
  | got sym rest =>
    rw [hp] at hsym
    obtain ⟨w, r₁, h1, hat, hstart, hlen⟩ := hsym
    have hw0 := hstart.pos
    have hat_le := hat.count_le
    simp only [Parse.andThen_got]
    cases he : distanceTable[sym]? with
    | none => exact ⟨.invalidData ("invalid distance symbol: " ++ toString sym), r₁, fun k => by rw [h1, he]⟩
    | some e =>
      obtain ⟨base, extraBits⟩ := e
      obtain ⟨hb1, hb2, hb3⟩ := distanceTable_bounds _ (List.mem_of_getElem? he)
      simp only at hb1 hb2 hb3
      have hextra := attemptExtra_field { env with reader := r₁ } back (n := extraBits) (by omega) hat.wf
        (hat.input_eq.trans h₀)
      have hbits : ({ env with reader := r₁ } : StepEnv).reader.bits = rest := hat.bits_eq
      rw [hbits] at hextra
      simp only
      cases hp2 : parseField extraBits rest with
      | more =>
        rw [hp2] at hextra
        intro k
        rw [h1, he]
        exact hextra _
      | fail =>
        rw [hp2] at hextra
        exact hextra.elim
      | got extra rest' =>
        rw [hp2] at hextra
        obtain ⟨r₂, h2, hat2, hv, hlen2⟩ := hextra
        have hat2_le : r₂.bitCount ≤ max r₁.bitCount 7 := hat2.count_le
        have hwin : windowSize = 32768 := rfl
        refine ⟨r₂, fun k => ?_, ⟨hat2.wf, hat2.input_eq.trans hat.input_eq, hat2.bits_eq, by omega⟩, by omega, by omega,
          by omega⟩
        rw [h1, he]
        simp only [h2]
        rw [if_neg (by omega)]

end

section

variable {literal distance : HuffmanDecoder} {literalWidths distanceWidths : List Nat}

/-- The part of `parseToken` that reads a match, behind its length symbol. -/
def parseMatch (distance : HuffmanDecoder) (entry : Nat × Nat) (bits : List Bool) : Parse Rfc1951.Token :=
  (parseField entry.2 bits).andThen fun extra bits =>
  (parseDistance distance bits).andThen fun dist bits => .got (.copy (entry.1 + extra) dist) bits

theorem parseToken_got {bits rest : List Bool} {sym : Nat} (hlen : ¬bits.length < literal.safelyPeekBits)
    (hp : literal.parse bits = .got sym rest) :
    parseToken literal distance bits =
      if sym ≤ 255 then .got (.literal (UInt8.ofNat sym)) rest
      else if sym = endOfBlock then .got .endOfBlock rest
      else
        match lengthTable[sym - 257]? with
        | none => .fail
        | some entry => parseMatch distance entry rest := by
  rw [parseToken, if_neg hlen, hp, Parse.andThen_got]
  generalize lengthTable[sym - 257]? = entry
  cases entry <;> rfl

/-- A round of the symbol loop, below the cap. -/
theorem symbolsLoop_succ (isFinal : Bool) (literal distance : HuffmanDecoder) {drained : Nat} (fuel : Nat) {env : StepEnv}
    (hindex : env.reader.byteIndex ≤ env.reader.input.length) (hdrained : drained ≤ env.output.length)
    (hcap : env.output.length - drained < maxInternalBuffer) :
    symbolsLoop isFinal literal distance drained (fuel + 1) env =
      if env.reader.availableBits < literal.safelyPeekBits then
        (.ok .needMoreBytes, { env with state := .symbolLoop isFinal literal distance })
      else
        env.attempt env.reader.snapshot (.symbolLoop isFinal literal distance) (literal.decode env.reader) fun symbol env' =>
          if symbol ≤ 255 then afterToken isFinal literal distance drained fuel (.literal (UInt8.ofNat symbol)) env'
          else if symbol = endOfBlock then afterToken isFinal literal distance drained fuel .endOfBlock env'
          else if symbol ≤ 285 then
            env'.calling (Exec.index lengthTable (symbol - 257)) fun entry =>
            env'.attemptExtra env.reader.snapshot (.symbolLoop isFinal literal distance) entry.2 fun lengthExtra env' =>
            if 2 ^ 16 ≤ entry.1 + lengthExtra then (.panic, env')
            else
              env'.attemptDistance env.reader.snapshot (.symbolLoop isFinal literal distance) distance fun dist env' =>
                afterToken isFinal literal distance drained fuel (.copy (entry.1 + lengthExtra) dist) env'
          else if symbol ≤ 287 then
            (.err (.invalidData ("literal/length symbol " ++ toString symbol ++ " must not appear in compressed data")), env')
          else (.panic, env') := by
  rw [symbolsLoop.eq_def]
  exact (if_neg (Nat.not_lt_of_le hdrained)).trans ((if_neg (Nat.not_le_of_lt hcap)).trans (StepEnv.available_ok hindex _))

/-- The part of a round that reads a match, behind its length symbol. -/
theorem attemptMatch_spec (env : StepEnv) {r₀ : BitReader} (hT : TableOf distance distanceWidths) (back : DecodeState)
    (hw : env.reader.Wf) (h₀ : env.reader.input = r₀.input) {entry : Nat × Nat} (he : entry ∈ lengthTable) :
    match parseMatch distance entry env.reader.bits with
    | .more => ∀ k : Rfc1951.Token → StepEnv → Stepping,
        (env.attemptExtra r₀.snapshot back entry.2 fun lengthExtra env' =>
          if 2 ^ 16 ≤ entry.1 + lengthExtra then (.panic, env')
          else env'.attemptDistance r₀.snapshot back distance fun dist env' => k (.copy (entry.1 + lengthExtra) dist) env') =
        (.ok .needMoreBytes, { env with reader := r₀, state := back })
    | .fail => ∃ e r', ∀ k : Rfc1951.Token → StepEnv → Stepping,
        (env.attemptExtra r₀.snapshot back entry.2 fun lengthExtra env' =>
          if 2 ^ 16 ≤ entry.1 + lengthExtra then (.panic, env')
          else env'.attemptDistance r₀.snapshot back distance fun dist env' => k (.copy (entry.1 + lengthExtra) dist) env') =
        (.err e, { env with reader := r' })
    | .got token rest => ∃ r' length dist, token = .copy length dist ∧ (∀ k : Rfc1951.Token → StepEnv → Stepping,
        (env.attemptExtra r₀.snapshot back entry.2 fun lengthExtra env' =>
          if 2 ^ 16 ≤ entry.1 + lengthExtra then (.panic, env')
          else env'.attemptDistance r₀.snapshot back distance fun dist env' => k (.copy (entry.1 + lengthExtra) dist) env') =
        k token { env with reader := r' }) ∧
        r'.At env.reader.input rest (max env.reader.bitCount (distance.safelyPeekBits + 7)) ∧
        0 < length ∧ 0 < dist ∧ dist ≤ windowSize ∧ rest.length ≤ env.reader.bits.length := by
  obtain ⟨hb1, hb2, hb3⟩ := lengthTable_bounds _ he
  have hextra := attemptExtra_field env back (n := entry.2) (by omega) hw h₀
  unfold parseMatch
  cases hp : parseField entry.2 env.reader.bits with
  | more =>
    rw [hp] at hextra
    exact fun k => hextra _
  | fail =>
    rw [hp] at hextra
    exact hextra.elim
  | got extra rest =>
    rw [hp] at hextra
    obtain ⟨r₁, h1, hat, hv, hlen⟩ := hextra
    have hsmall : ¬2 ^ 16 ≤ entry.1 + extra := by omega
    have hdist := attemptDistance_spec { env with reader := r₁ } hT back hat.wf (hat.input_eq.trans h₀)
    have hbits : ({ env with reader := r₁ } : StepEnv).reader.bits = rest := hat.bits_eq
    rw [hbits] at hdist
    rw [Parse.andThen_got]
    cases hp2 : parseDistance distance rest with
    | more =>
      rw [hp2] at hdist
      intro k
      rw [h1, if_neg hsmall]
      exact hdist _
    | fail =>
      rw [hp2] at hdist
      obtain ⟨e, r', h2⟩ := hdist
      exact ⟨e, r', fun k => by rw [h1, if_neg hsmall, h2]⟩
    | got dist rest' =>
      rw [hp2] at hdist
      obtain ⟨r₂, h2, hat2, hd0, hd1, hlen2⟩ := hdist
      have hle1 := hat.count_le
      have hle2 : r₂.bitCount ≤ max r₁.bitCount (distance.safelyPeekBits + 7) := hat2.count_le
      refine ⟨r₂, _, _, rfl, fun k => by rw [h1, if_neg hsmall, h2],
        ⟨hat2.wf, hat2.input_eq.trans hat.input_eq, hat2.bits_eq, by omega⟩, by omega, hd0, hd1, by omega⟩

/-- One round of the symbol loop, against one element parsed. -/
theorem symbolsLoop_round (isFinal : Bool) (hT : Tables literal distance literalWidths distanceWidths) {drained : Nat}
    (fuel : Nat) {env : StepEnv} (hw : env.reader.Wf) (hc : env.reader.bitCount ≤ literal.safelyPeekBits + 7)
    (hdrained : drained ≤ env.output.length) (hcap : env.output.length - drained < maxInternalBuffer) :
    match parseToken literal distance env.reader.bits with
    | .more => symbolsLoop isFinal literal distance drained (fuel + 1) env =
        (.ok .needMoreBytes, { env with state := .symbolLoop isFinal literal distance })
    | .fail => ∃ e r', symbolsLoop isFinal literal distance drained (fuel + 1) env = (.err e, { env with reader := r' })
    | .got token rest => ∃ r', symbolsLoop isFinal literal distance drained (fuel + 1) env =
          afterToken isFinal literal distance drained fuel token { env with reader := r' } ∧
        r'.At env.reader.input rest (literal.safelyPeekBits + 7) ∧ rest.length < env.reader.bits.length ∧
        (token = .endOfBlock → r'.bitCount ≤ 7) ∧
        ∀ length dist, token = .copy length dist → 0 < length ∧ 0 < dist ∧ dist ≤ windowSize := by
  have hbits := BitReader.length_bits env.reader
  have hpeek := hT.literal_table.peek_pos
  have hsym := attempt_symbol env hT.literal_table (.symbolLoop isFinal literal distance) hw
    (rfl : env.reader.input = env.reader.input)
  rw [symbolsLoop_succ isFinal literal distance fuel hw.index_le hdrained hcap]
  by_cases hshort : env.reader.availableBits < literal.safelyPeekBits
  · rw [if_pos hshort, parseToken, if_pos (by omega)]
  · rw [if_neg hshort]
    have hlen : ¬env.reader.bits.length < literal.safelyPeekBits := by omega
    cases hp : literal.parse env.reader.bits with
    | more =>
      rw [hp] at hsym
      rw [hsym, parseToken, if_neg hlen, hp, Parse.andThen_more]
    | fail =>
      rw [hp] at hsym
      obtain ⟨e, r', h1⟩ := hsym
      rw [parseToken, if_neg hlen, hp, Parse.andThen_fail]
      exact ⟨e, r', h1 _⟩
    | got sym rest =>
      rw [hp] at hsym
      obtain ⟨w, r₁, h1, hat, hstart, hrest⟩ := hsym
      have hw0 := hstart.pos
      have hat_le := hat.count_le
      have hat1 : r₁.At env.reader.input rest (literal.safelyPeekBits + 7) :=
        ⟨hat.wf, hat.input_eq, hat.bits_eq, by omega⟩
      rw [h1, parseToken_got hlen hp]
      by_cases h255 : sym ≤ 255
      · rw [if_pos h255, if_pos h255]
        exact ⟨r₁, rfl, hat1, by omega, by simp, by simp⟩
      · rw [if_neg h255, if_neg h255]
        by_cases heob : sym = endOfBlock
        · -- the look-ahead was the width of this very code
          have hwidth : literal.safelyPeekBits = w := hT.endOfBlock_width w (by rw [← heob]; exact hstart.length_eq) hw0
          rw [if_pos heob, if_pos heob]
          exact ⟨r₁, rfl, hat1, by omega, fun _ => by omega, by simp⟩
        · rw [if_neg heob, if_neg heob]
          have hsym_lt : sym < literalWidths.length := (List.getElem?_eq_some_iff.mp hstart.length_eq).1
          have hcount := hT.literal_count
          have htab : lengthTable.length = 29 := rfl
          have heob' : sym ≠ 256 := heob
          generalize hi : sym - 257 = i
          by_cases h285 : sym ≤ 285
          · have hidx : i < lengthTable.length := by omega
            have hmatch := attemptMatch_spec { env with reader := r₁ } hT.distance_table
              (.symbolLoop isFinal literal distance) hat.wf hat.input_eq (List.getElem_mem hidx)
            have hbits1 : ({ env with reader := r₁ } : StepEnv).reader.bits = rest := hat.bits_eq
            have hpeek_le := hT.peek_le
            rw [hbits1] at hmatch
            rw [if_pos h285, Exec.index_of_lt hidx, StepEnv.calling_ok, List.getElem?_eq_getElem hidx]
            generalize lengthTable[i] = entry at hmatch ⊢
            cases hp2 : parseMatch distance entry rest with
            | more =>
              simp only [hp2] at hmatch ⊢
              exact hmatch (afterToken isFinal literal distance drained fuel)
            | fail =>
              simp only [hp2] at hmatch ⊢
              obtain ⟨e, r', h2⟩ := hmatch
              exact ⟨e, r', h2 (afterToken isFinal literal distance drained fuel)⟩
            | got token rest' =>
              simp only [hp2] at hmatch ⊢
              obtain ⟨r₂, length, dist, rfl, h2, hat2, hl0, hd0, hd1, hlen2⟩ := hmatch
              have hat2_le : r₂.bitCount ≤ max r₁.bitCount (distance.safelyPeekBits + 7) := hat2.count_le
              refine ⟨r₂, h2 (afterToken isFinal literal distance drained fuel),
                ⟨hat2.wf, hat2.input_eq.trans hat.input_eq, hat2.bits_eq, by omega⟩, by omega, by simp, ?_⟩
              intro l d h
              obtain ⟨rfl, rfl⟩ := Rfc1951.Token.copy.inj h
              exact ⟨hl0, hd0, hd1⟩
          · have hnone : lengthTable[i]? = none := List.getElem?_eq_none (by omega)
            rw [if_neg h285, if_pos (by omega), hnone]
            exact ⟨_, r₁, rfl⟩

/-- The symbol loop at the cap: it yields. -/
theorem symbolsLoop_cap (isFinal : Bool) (hT : Tables literal distance literalWidths distanceWidths) {dropped : List UInt8}
    {drained : Nat} (fuel : Nat) {env : StepEnv} (hw : env.reader.Wf)
    (hc : env.reader.bitCount ≤ literal.safelyPeekBits + 7) (hdrained : drained ≤ env.output.length)
    (hcap : maxInternalBuffer ≤ env.output.length - drained) :
    StepSpec dropped drained ((.symbolLoop isFinal literal distance, dropped ++ env.output), env.reader.bits) env
      (symbolsLoop isFinal literal distance drained fuel env) := by
  have hloop : symbolsLoop isFinal literal distance drained fuel env =
      (.ok .yield, { env with state := .symbolLoop isFinal literal distance }) := by
    rw [symbolsLoop.eq_def]
    exact (if_neg (Nat.not_lt_of_le hdrained)).trans (if_pos hcap)
  rw [hloop]
  exact ⟨⟨⟨hw, ⟨_, _, hT⟩, hc⟩, rfl, le_rfl, Machine.RunsWithin.refl _, .inl ⟨rfl, rfl⟩⟩, hcap, isFinal, literal, distance, rfl⟩

/-- The move of the machine over a token, with the output so far. -/
def tokenMove (isFinal : Bool) (literal distance : HuffmanDecoder) (output : List UInt8) (token : Rfc1951.Token) (rest : List Bool) :
    Next ItemState Bool :=
  match token with
  | .literal byte => .next (.symbolLoop isFinal literal distance, output ++ [byte]) rest
  | .endOfBlock => .next (if isFinal then .finished else .blockHeader, output) rest
  | .copy length dist =>
    match Rfc1951.copyBytes dist length output with
    | none => .fail
    | some output => .next (.symbolLoop isFinal literal distance, output) rest

theorem symbolsLoop_spec (isFinal : Bool) (hT : Tables literal distance literalWidths distanceWidths) {dropped : List UInt8}
    {drained : Nat} (fuel : Nat) (env : StepEnv) (hw : env.reader.Wf)
    (hc : env.reader.bitCount ≤ literal.safelyPeekBits + 7) (ht : env.state = .transient) (hwin : Window dropped env.output)
    (hdrained : drained ≤ env.output.length) (hf : maxInternalBuffer ≤ env.output.length - drained + fuel) :
    StepSpec dropped drained ((.symbolLoop isFinal literal distance, dropped ++ env.output), env.reader.bits) env
      (symbolsLoop isFinal literal distance drained fuel env) := by
  induction fuel generalizing env with
  | zero => exact symbolsLoop_cap isFinal hT 0 hw hc hdrained (by omega)
  | succ fuel ih =>
    by_cases hcap : maxInternalBuffer ≤ env.output.length - drained
    · exact symbolsLoop_cap isFinal hT (fuel + 1) hw hc hdrained hcap
    · have hround := symbolsLoop_round isFinal hT fuel hw hc hdrained (by omega)
      have hbelow : Below (capLimit dropped drained)
          ((.symbolLoop isFinal literal distance, dropped ++ env.output), env.reader.bits) := by
        simp only [Below, capLimit, List.length_append]
        omega
      have hitem : itemStep (.symbolLoop isFinal literal distance, dropped ++ env.output) env.reader.bits =
          (parseToken literal distance env.reader.bits).toNext (tokenMove isFinal literal distance (dropped ++ env.output)) := rfl
      -- the rest of the loop, behind a move that appended output
      have hnext : ∀ (r' : BitReader) (output : List UInt8), r'.At env.reader.input r'.bits (literal.safelyPeekBits + 7) →
          r'.bits.length < env.reader.bits.length → env.output.length < output.length → Window dropped output →
          itemStep (.symbolLoop isFinal literal distance, dropped ++ env.output) env.reader.bits =
            .next (.symbolLoop isFinal literal distance, dropped ++ output) r'.bits →
          StepSpec dropped drained ((.symbolLoop isFinal literal distance, dropped ++ env.output), env.reader.bits) env
            (symbolsLoop isFinal literal distance drained fuel { env with reader := r', output }) := by
        intro r' output hat hshort hgrow hwin' hmove
        have hrest := ih { env with reader := r', output } hat.wf hat.count_le ht hwin' (by simp only; omega)
          (by simp only; omega)
        refine StepSpec.after hrest (Machine.RunsWithin.single hbelow (moves_of_next hmove)) hat.input_eq hgrow.le (.inr ?_)
        simp only [rank, DecodeState.rank]
        omega
      cases hp : parseToken literal distance env.reader.bits with
      | more =>
        rw [hp] at hround hitem
        rw [hround]
        exact stepSpec_needMore hw ⟨_, _, hT⟩ hc hitem
      | fail =>
        rw [hp] at hround hitem
        obtain ⟨e, r', h1⟩ := hround
        rw [h1]
        exact stepSpec_err ht hitem hbelow
      | got token rest =>
        rw [hp, Parse.toNext_got] at hitem
        rw [hp] at hround
        obtain ⟨r', h1, hat, hshort, heob, hcopy⟩ := hround
        rw [← hat.bits_eq] at hitem hshort
        have hat' : r'.At env.reader.input r'.bits (literal.safelyPeekBits + 7) := ⟨hat.wf, hat.input_eq, rfl, hat.count_le⟩
        rw [h1]
        cases token with
        | literal byte =>
          simp only [tokenMove, List.append_assoc] at hitem
          refine hnext r' (env.output ++ [byte]) hat' hshort (by simp) ?_ hitem
          exact hwin.imp_right fun h => h.trans (by simp)
        | endOfBlock =>
          have hcount := heob rfl
          unfold afterToken
          cases isFinal with
          | true =>
            refine ⟨⟨⟨hat.wf, trivial, hcount⟩, hat.input_eq, le_rfl, Machine.RunsWithin.single hbelow (moves_of_next hitem),
              .inr ?_⟩, rfl⟩
            simp only [rank, StepEnv.item, DecodeState.rank]
            omega
          | false =>
            refine stepSpec_progress hitem ⟨hat.wf, trivial, hcount⟩ hat.input_eq le_rfl ?_ hbelow
            simp only [rank, StepEnv.item, DecodeState.rank]
            omega
        | copy length dist =>
          obtain ⟨hl0, hd0, hd1⟩ := hcopy length dist rfl
          have hwindow := copyFromDistance_window hwin hl0 hd1
          unfold afterToken
          cases hcb : Rfc1951.copyBytes dist length (dropped ++ env.output) with
          | none =>
            simp only [hcb, tokenMove] at hwindow hitem
            obtain ⟨e, he⟩ := hwindow
            simp only [he, StepEnv.calling_err]
            exact stepSpec_err ht hitem hbelow
          | some history =>
            simp only [hcb, tokenMove] at hwindow hitem
            obtain ⟨output, he, rfl, hlen⟩ := hwindow
            simp only [he, StepEnv.calling_ok]
            exact hnext r' output hat' hshort (by omega) (hwin.imp_right fun h => h.trans (by omega)) hitem

end

/-! ## Any step -/

/-- A step of the decoder, from any state but the placeholder. -/
theorem step_spec {dropped : List UInt8} {drained : Nat} {env : StepEnv} (hok : env.Ok) (hwin : Window dropped env.output)
    (hdrained : drained ≤ env.output.length) :
    StepSpec dropped drained (env.item dropped) env (step env drained) := by
  obtain ⟨reader, state, output⟩ := env
  obtain ⟨hw, hsound, hbuf⟩ := hok
  -- the step begins by putting the placeholder in place
  have hstart : ∀ {x}, StepSpec dropped drained ((state, dropped ++ output), reader.bits) ⟨reader, .transient, output⟩ x →
      StepSpec dropped drained ((state, dropped ++ output), reader.bits) ⟨reader, state, output⟩ x :=
    fun h => StepSpec.after h (Machine.RunsWithin.refl _) rfl le_rfl (.inl ⟨rfl, rfl⟩)
  refine hstart ?_
  have hw' : (⟨reader, .transient, output⟩ : StepEnv).reader.Wf := hw
  unfold step
  cases state with
  | blockHeader => exact stepBlockHeader_spec hw' hbuf rfl
  | storedAlignAndLen isFinal => exact stepStoredAlignAndLen_spec hw' hbuf rfl isFinal
  | storedBody remaining isFinal => exact stepStoredBody_spec hw' (Nat.le_zero.mp hbuf) remaining isFinal
  | dynamicHeader isFinal => exact stepDynamicHeader_spec hw' hbuf rfl isFinal
  | dynamicBitwidthTable isFinal hlit hdist hclen orderIdx codeLengths =>
    obtain ⟨h1, h2, h3, h4⟩ := hsound
    exact bitwidthTableLoop_spec isFinal h1 h2 h3 _ orderIdx codeLengths _ hw' hbuf rfl h4 (by omega)
  | dynamicCodeLengths isFinal hlit hdist bitwidthDecoder lengths targetLen =>
    obtain ⟨h1, h2, rfl, h4, h5, widths, h6⟩ := hsound
    exact codeLengthsLoop_spec isFinal h6 h5 h1 h2 _ lengths _ hw' hbuf rfl h4 (by omega)
  | symbolLoop isFinal literal distance =>
    obtain ⟨literalWidths, distanceWidths, hT⟩ := hsound
    refine symbolsLoop_spec isFinal hT _ _ hw' hbuf rfl hwin hdrained ?_
    simp only
    omega
  | finished => exact ⟨⟨⟨hw, trivial, hbuf⟩, rfl, le_rfl, Machine.RunsWithin.refl _, .inl ⟨rfl, rfl⟩⟩, rfl⟩
  | transient => exact hsound.elim

end Noflate
