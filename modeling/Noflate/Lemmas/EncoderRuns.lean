import Noflate.Lemmas.Emission

/-!
# The encoder does what it is for

`Refines`: an encoder in use stands for an emission. What is emitted goes behind the bits made available before, whatever of them
was consumed (`emits_bits`); every call in range succeeds or is refused as the emission says (`Refines.call`), and so a run is the run
of the emission (`run_refines`).
-/

namespace Noflate

open BitString

/-! ## Bits behind those there were -/

/-- Whole bytes and fewer than eight bits, twice the same: more bits behind the first make more bytes. -/
theorem bytes_of_bits_append {bytes bytes' : List UInt8} {kept kept' more : List Bool} (hkept : kept'.length < 8)
    (h : ofBytes bytes' ++ kept' = ofBytes bytes ++ kept ++ more) :
    ∃ new, bytes' = bytes ++ new ∧ ofBytes new ++ kept' = kept ++ more := by
  have hlen := congrArg List.length h
  rw [List.length_append, List.length_append, List.length_append, length_ofBytes, length_ofBytes] at hlen
  have hle : bytes.length ≤ bytes'.length := by omega
  have htake := congrArg (List.take (8 * bytes.length)) h
  rw [List.append_assoc, List.take_left' (length_ofBytes bytes), List.take_append_of_le_length (by
    rw [length_ofBytes]
    omega), take_ofBytes] at htake
  have hpre := ofBytes_injective htake
  refine ⟨bytes'.drop bytes.length, ?_, ?_⟩
  · conv_lhs => rw [← List.take_append_drop bytes.length bytes', hpre]
  · rw [← List.take_append_drop bytes.length bytes', hpre, ofBytes_append, List.append_assoc, List.append_assoc] at h
    exact List.append_cancel_left h

/-- Whole bytes and fewer than eight bits are so in one way. -/
theorem bytes_unique {bytes bytes' : List UInt8} {kept kept' : List Bool} (hkept : kept.length < 8) (hkept' : kept'.length < 8)
    (h : ofBytes bytes ++ kept = ofBytes bytes' ++ kept') : bytes = bytes' ∧ kept = kept' := by
  rw [← List.append_nil (ofBytes bytes' ++ kept')] at h
  obtain ⟨new, h1, h2⟩ := bytes_of_bits_append hkept h
  have hlen := congrArg List.length h2
  rw [List.append_nil, List.length_append, length_ofBytes] at hlen
  have hnew : new = [] := List.length_eq_zero_iff.mp (by omega)
  subst hnew
  rw [List.append_nil] at h1 h2
  exact ⟨h1, h2⟩

/-- What is filled up depends on the bit a stream ends at within a byte. -/
theorem Encoder.closing_mod (isFinal : Bool) {bits bits' : List Bool} (h : bits.length % 8 = bits'.length % 8) :
    Encoder.closing isFinal bits = Encoder.closing isFinal bits' := by
  unfold Encoder.closing pad
  rw [h]

namespace EncoderSession

variable {s : EncoderSession}

/-- What an encoder emits goes behind the bits made available before. -/
theorem emits_bits (hdrained : s.encoder.drained ≤ s.encoder.output.length) {enc' : Encoder} {bits : List Bool}
    (h : s.encoder.Emits enc' bits) :
    enc'.drained ≤ enc'.output.length ∧ EncoderSession.bits { s with encoder := enc' } = s.bits ++ bits := by
  have hkept : (ofNat enc'.bitCount enc'.bitBuffer).length < 8 := by
    rw [length_ofNat]
    exact h.wf.writer_wf.count_lt
  obtain ⟨new, hout, hnew⟩ := bytes_of_bits_append hkept h.bits_eq
  have hunread : enc'.unread = s.encoder.unread ++ new := by
    have hout' : enc'.output = s.encoder.output ++ new := hout
    unfold Encoder.unread
    rw [hout', h.drained_eq, List.drop_append_of_le_length hdrained]
  refine ⟨?_, ?_⟩
  · have hout' : enc'.output = s.encoder.output ++ new := hout
    rw [h.drained_eq, hout', List.length_append]
    omega
  · have hnew' : ofBytes new ++ ofNat enc'.bitCount enc'.bitBuffer = ofNat s.encoder.bitCount s.encoder.bitBuffer ++ bits := hnew
    simp only [EncoderSession.bits, EncoderSession.output, hunread, ofBytes_append, List.append_assoc, hnew']

/-- The bit a stream ends at within a byte is that of what the encoder holds. -/
theorem length_bits_mod (s : EncoderSession) : s.encoder.bits.length % 8 = s.bits.length % 8 := by
  have hbits : s.encoder.bits = ofBytes s.encoder.output ++ ofNat s.encoder.bitCount s.encoder.bitBuffer := rfl
  rw [hbits, EncoderSession.bits, List.length_append, List.length_append, length_ofBytes, length_ofBytes]
  omega

end EncoderSession

/-! ## Refinement -/

/-- An encoder in use stands for an emission. -/
structure Refines (s : EncoderSession) (e : Emission) : Prop where
  wf : s.encoder.Wf
  drained_le : s.encoder.drained ≤ s.encoder.output.length
  options_eq : s.encoder.options = e.options
  input_eq : s.encoder.input = e.pending
  finishing_eq : s.encoder.finishing = e.finishing
  failed_eq : s.failed = e.failed
  bits_eq : s.bits = e.bits

namespace Refines

variable {s : EncoderSession} {e : Emission}

theorem start (options : EncodeOptions) : Refines (EncoderSession.start options) (Emission.start options) :=
  ⟨⟨⟨Nat.one_pos, Nat.succ_pos 7⟩, MatchFinder.new_wf⟩, le_rfl, rfl, rfl, rfl, rfl, rfl⟩

/-- Blocks that an encoder emits are those of the emission. -/
theorem emitted (h : Refines s e) (hf : e.finishing = false) {pending chunk : List UInt8} {isFinal : Bool} {kind : BlockKind}
    {enc' : Encoder}
    (hemits : Encoder.Emits { s.encoder with input := pending, finishing := isFinal } enc'
      (blockBits (chunkBlocks kind chunk isFinal s.encoder.bits.length) ++
        Encoder.closing isFinal (s.encoder.bits ++ blockBits (chunkBlocks kind chunk isFinal s.encoder.bits.length)))) :
    Refines { s with encoder := enc' }
      { Emission.emitAs { e with pending } kind chunk isFinal with finishing := isFinal } := by
  have hbits : s.bits = blockBits e.blocks := h.bits_eq.trans (Emission.bits_open hf)
  have hmod : s.encoder.bits.length % 8 = (blockBits e.blocks).length % 8 := by rw [s.length_bits_mod, hbits]
  obtain ⟨h1, h2⟩ := EncoderSession.emits_bits
    (s := { s with encoder := { s.encoder with input := pending, finishing := isFinal } }) h.drained_le hemits
  refine ⟨hemits.wf, h1, hemits.options_eq.trans h.options_eq, hemits.input_eq, hemits.finishing_eq, h.failed_eq, ?_⟩
  refine h2.trans ?_
  have hsame : EncoderSession.bits { s with encoder := { s.encoder with input := pending, finishing := isFinal } } = s.bits := rfl
  rw [hsame, hbits, chunkBlocks_mod kind chunk isFinal hmod]
  unfold Emission.bits Emission.emitAs
  simp only
  rw [blockBits_append, List.append_assoc]
  congr 2
  refine Encoder.closing_mod isFinal ?_
  rw [List.length_append, List.length_append]
  omega

/-- A chunk is emitted. -/
theorem emit (h : Refines s e) (hf : e.finishing = false) (pending chunk : List UInt8) (isFinal : Bool) :
    ∃ enc', Encoder.emitBlockChunk { s.encoder with input := pending, finishing := isFinal } chunk isFinal = .ok enc' ∧
      Refines { s with encoder := enc' } { Emission.emit { e with pending } chunk isFinal with finishing := isFinal } := by
  have hwf : Encoder.Wf { s.encoder with input := pending, finishing := isFinal } := ⟨h.wf.writer_wf, h.wf.matcher_wf⟩
  obtain ⟨enc', h1, h2⟩ := Encoder.emitBlockChunk_spec hwf chunk isFinal
  have hkind : s.encoder.options.blockKind = e.options.blockKind := by rw [h.options_eq]
  have h3 := h.emitted hf h2
  simp only [hkind] at h3
  exact ⟨enc', h1, h3⟩

/-- The part of an encoder that `emit` leaves alone. -/
theorem set_finishing (h : Refines s e) (hf : e.finishing = false) (pending : List UInt8) :
    { s.encoder with input := pending } = { s.encoder with input := pending, finishing := false } := by
  rw [← hf, ← h.finishing_eq]

/-- The same with the emission's flag as it is. -/
theorem emit_open (h : Refines s e) (hf : e.finishing = false) (pending chunk : List UInt8) :
    ∃ enc', Encoder.emitBlockChunk { s.encoder with input := pending } chunk false = .ok enc' ∧
      Refines { s with encoder := enc' } (Emission.emit { e with pending } chunk false) := by
  rw [h.set_finishing hf]
  obtain ⟨enc', h1, h2⟩ := h.emit hf pending chunk false
  refine ⟨enc', h1, ?_⟩
  have hsame : { Emission.emit { e with pending } chunk false with finishing := false } =
      Emission.emit { e with pending } chunk false := by
    unfold Emission.emit Emission.emitAs
    simp only [hf]
  rwa [hsame] at h2

/-- The marker behind a flush. -/
theorem marker (h : Refines s e) (hf : e.finishing = false) :
    ∃ enc', s.encoder.emitStoredChunk [] false = .ok enc' ∧ Refines { s with encoder := enc' } (e.emitAs .stored [] false) := by
  obtain ⟨enc', h1, h2⟩ := Encoder.emitStoredChunk_spec h.wf [] false
  refine ⟨enc', h1, ?_⟩
  have henc : s.encoder = { s.encoder with input := e.pending, finishing := false } := by
    rw [← h.input_eq, ← hf, ← h.finishing_eq]
  rw [henc, ← List.append_nil (blockBits _)] at h2
  have h3 := h.emitted hf h2
  have hsame : { Emission.emitAs { e with pending := e.pending } .stored [] false with finishing := false } =
      e.emitAs .stored [] false := by
    unfold Emission.emitAs
    simp only [hf]
  rwa [hsame] at h3

/-- The loop of `feed` emits what is full. -/
theorem feedLoop (h : Refines s e) (hf : e.finishing = false) {limit : Nat} (hlimit : 0 < limit) (fuel : Nat)
    (hfuel : e.pending.length < fuel) :
    ∃ enc', Encoder.feedLoop limit fuel s.encoder = .ok enc' ∧ Refines { s with encoder := enc' } (e.cut limit) := by
  induction fuel generalizing s e with
  | zero => exact absurd hfuel (Nat.not_lt_zero _)
  | succ fuel ih =>
    rw [Encoder.feedLoop, Emission.cut, h.input_eq]
    by_cases hc : limit ≤ e.pending.length
    · obtain ⟨enc₁, h1, h2⟩ := h.emit_open hf (e.pending.drop limit) (e.pending.take limit)
      have hlt : (Emission.emit { e with pending := e.pending.drop limit } (e.pending.take limit) false).pending.length < fuel := by
        show (e.pending.drop limit).length < fuel
        rw [List.length_drop]
        omega
      rw [if_pos hc, if_pos ⟨hlimit, hc⟩]
      simp only
      rw [h1, Exec.ok_bind]
      exact ih h2 hf hlt
    · rw [if_neg hc, if_neg fun h0 => hc h0.2]
      exact ⟨s.encoder, rfl, h⟩

/-- A call that reports an error. -/
theorem refused (h : Refines s e) : Refines { s with failed := true } { e with failed := true } :=
  ⟨h.wf, h.drained_le, h.options_eq, h.input_eq, h.finishing_eq, rfl, h.bits_eq⟩

theorem call_feed (h : Refines s e) (data : List UInt8) :
    ∃ s', s.call (.feed data) = .ok s' ∧ Refines s' (e.call (.feed data)) := by
  rw [EncoderSession.call, Encoder.feed, Emission.call]
  by_cases ht : e.finishing = true
  · rw [if_pos ht, if_pos (h.finishing_eq.trans ht)]
    exact ⟨_, rfl, h.refused⟩
  · have hf : e.finishing = false := Bool.eq_false_iff.mpr ht
    have ht' : ¬s.encoder.finishing = true := fun h0 => ht (h.finishing_eq.symm.trans h0)
    have hs : Refines { s with encoder := { s.encoder with input := s.encoder.input ++ data } } { e with pending := e.pending ++ data } :=
      ⟨⟨h.wf.writer_wf, h.wf.matcher_wf⟩, h.drained_le, h.options_eq, by rw [← h.input_eq], h.finishing_eq, h.failed_eq, h.bits_eq⟩
    have hoptions : s.encoder.options.maxBlockInputBytes = e.options.maxBlockInputBytes := by rw [h.options_eq]
    rw [if_neg ht, if_neg ht']
    simp only [Emission.cutAll, hoptions]
    cases hmax : e.options.maxBlockInputBytes with
    | none => exact ⟨_, rfl, hs⟩
    | some limit =>
      have hlt : (e.pending ++ data).length < (s.encoder.input ++ data).length + 1 := by
        rw [h.input_eq]
        exact Nat.lt_succ_self _
      obtain ⟨enc', h1, h2⟩ := hs.feedLoop hf (e.options.positive limit (by rw [hmax]; rfl)) _ hlt
      simp only at h1 ⊢
      rw [h1]
      exact ⟨_, rfl, h2⟩

theorem call_syncFlush (h : Refines s e) : ∃ s', s.call .syncFlush = .ok s' ∧ Refines s' (e.call .syncFlush) := by
  rw [EncoderSession.call, Encoder.syncFlush, Emission.call]
  by_cases ht : e.finishing = true
  · rw [if_pos ht, if_pos (h.finishing_eq.trans ht)]
    exact ⟨_, rfl, h.refused⟩
  · have hf : e.finishing = false := Bool.eq_false_iff.mpr ht
    have ht' : ¬s.encoder.finishing = true := fun h0 => ht (h.finishing_eq.symm.trans h0)
    rw [if_neg ht, if_neg ht', Emission.flush, h.input_eq]
    by_cases hp : e.pending = []
    · obtain ⟨enc', h1, h2⟩ := h.marker hf
      rw [if_pos hp, if_pos (List.isEmpty_iff.mpr hp), h1]
      exact ⟨_, rfl, h2⟩
    · obtain ⟨enc₁, h1, h2⟩ := h.emit_open hf [] e.pending
      obtain ⟨enc', h3, h4⟩ := h2.marker hf
      have henc : Encoder.emitStoredChunk enc₁ [] false = .ok enc' := h3
      rw [if_neg hp, if_neg fun h0 => hp (List.isEmpty_iff.mp h0)]
      simp only
      rw [h1, Exec.ok_bind, henc]
      exact ⟨_, rfl, h4⟩

theorem call_finish (h : Refines s e) : ∃ s', s.call .finish = .ok s' ∧ Refines s' (e.call .finish) := by
  rw [EncoderSession.call, Encoder.finish, Emission.call]
  by_cases ht : e.finishing = true
  · rw [if_pos ht, if_pos (h.finishing_eq.trans ht)]
    exact ⟨s, rfl, h⟩
  · have hf : e.finishing = false := Bool.eq_false_iff.mpr ht
    have ht' : ¬s.encoder.finishing = true := fun h0 => ht (h.finishing_eq.symm.trans h0)
    obtain ⟨enc', h1, h2⟩ := h.emit hf [] e.pending true
    rw [if_neg ht, if_neg ht', h.input_eq]
    simp only
    rw [h1]
    exact ⟨_, rfl, h2⟩

theorem call_advance (h : Refines s e) {n : Nat} (hn : n ≤ s.encoder.unread.length) :
    ∃ s', s.call (.advance n) = .ok s' ∧ Refines s' (e.call (.advance n)) := by
  have hlen : s.encoder.unread.length = s.encoder.output.length - s.encoder.drained := List.length_drop
  have hle := h.drained_le
  have hnot : ¬(s.encoder.output.length < s.encoder.drained ∨ s.encoder.output.length - s.encoder.drained < n) := by omega
  have hrest : ∀ enc' : Encoder, enc'.unread = s.encoder.unread.drop n → enc'.bitCount = s.encoder.bitCount →
      enc'.bitBuffer = s.encoder.bitBuffer →
      EncoderSession.bits { s with encoder := enc', taken := s.taken ++ s.encoder.unread.take n } = s.bits := by
    intro enc' hunread hcount hbuffer
    simp only [EncoderSession.bits, EncoderSession.output, hunread, hcount, hbuffer, List.append_assoc, List.take_append_drop]
  have hdrop : s.encoder.output.drop (s.encoder.drained + n) = s.encoder.unread.drop n := by
    rw [Encoder.unread, List.drop_drop]
  rw [EncoderSession.call, Encoder.advance, if_neg hnot]
  by_cases hc : Encoder.compactThreshold ≤ s.encoder.drained + n
  · simp only [if_pos hc, Exec.ok_bind]
    refine ⟨_, rfl, ⟨⟨h.wf.writer_wf.1, h.wf.writer_wf.2⟩, h.wf.matcher_wf⟩, Nat.zero_le _, h.options_eq, h.input_eq, h.finishing_eq,
      h.failed_eq, ?_⟩
    exact (hrest { s.encoder with output := s.encoder.output.drop (s.encoder.drained + n), drained := 0 } hdrop rfl rfl).trans
      h.bits_eq
  · simp only [if_neg hc, Exec.ok_bind]
    refine ⟨_, rfl, ⟨h.wf.writer_wf, h.wf.matcher_wf⟩, ?_, h.options_eq, h.input_eq, h.finishing_eq, h.failed_eq, ?_⟩
    · show s.encoder.drained + n ≤ s.encoder.output.length
      omega
    · exact (hrest { s.encoder with drained := s.encoder.drained + n } hdrop rfl rfl).trans h.bits_eq

/-- Encoders that have emitted the same bits have made the same bytes available. -/
theorem output_eq {s' : EncoderSession} {e' : Emission} (h : Refines s e) (h' : Refines s' e') {front : List UInt8}
    (hbits : e.bits = ofBytes front ++ e'.bits) : s.output = front ++ s'.output := by
  have hlt : ∀ {s : EncoderSession} {e : Emission}, Refines s e → (ofNat s.encoder.bitCount s.encoder.bitBuffer).length < 8 := by
    intro s e h
    rw [length_ofNat]
    exact h.wf.writer_wf.count_lt
  rw [← h.bits_eq, ← h'.bits_eq, EncoderSession.bits, EncoderSession.bits, ← List.append_assoc, ← ofBytes_append] at hbits
  exact (bytes_unique (hlt h) (hlt h') hbits).1

/-- What an encoder has put out stays, whatever it emits behind it. -/
theorem output_grows {s' : EncoderSession} {e' : Emission} (h : Refines s e) (h' : Refines s' e')
    (hmore : ∃ more, e'.bits = e.bits ++ more) : s.output <+: s'.output := by
  obtain ⟨bits, hbits⟩ := hmore
  have hkept : (ofNat s'.encoder.bitCount s'.encoder.bitBuffer).length < 8 := by
    rw [length_ofNat]
    exact h'.wf.writer_wf.count_lt
  have hall : s'.bits = s.bits ++ bits := by
    rw [h'.bits_eq, h.bits_eq, hbits]
  obtain ⟨new, hnew, -⟩ := bytes_of_bits_append hkept hall
  exact ⟨new, hnew.symm⟩

/-- The bits of an emission in whole bytes are those of the output, and none is kept back. -/
theorem output_bits (h : Refines s e) (hmod : e.bits.length % 8 = 0) : ofBytes s.output = e.bits ∧ s.encoder.bitCount = 0 := by
  have hlt : s.encoder.bitCount < 8 := h.wf.writer_wf.count_lt
  have hlen := congrArg List.length h.bits_eq
  rw [EncoderSession.bits, List.length_append, length_ofBytes, length_ofNat] at hlen
  have h0 : s.encoder.bitCount = 0 := by omega
  refine ⟨?_, h0⟩
  rw [← h.bits_eq, EncoderSession.bits, h0, ofNat_zero_width, List.append_nil]

/-- The machine halts on the output of a finished encoder, with all the bytes fed. -/
theorem runs_finished (h : Refines s e) (hs : e.Sound) (hf : e.finishing = true) :
    itemMachine.Runs (startItem s.output) ((.finished, e.payload), pad (blockBits e.blocks)) := by
  obtain ⟨⟨front, b, hblocks, hopen, hb⟩, hpending⟩ := hs.ended hf
  have hbits : e.bits = blockBits e.blocks ++ pad (blockBits e.blocks) := by
    rw [Emission.bits, hf, Encoder.closing, if_pos rfl]
  have hwhole : (blockBits e.blocks ++ pad (blockBits e.blocks)).length % 8 = 0 := length_append_pad _
  have hsound := hs.blocks_sound
  have hout := (h.output_bits (by rw [hbits]; exact hwhole)).1
  unfold startItem
  rw [hout, hbits, Emission.payload, hpending, List.append_nil]
  rw [List.length_append] at hwhole
  rw [hblocks] at hsound hwhole ⊢
  exact runs_closed hsound hopen hb hwhole

/-- Every call in range is the call on the emission. -/
theorem call (h : Refines s e) {c : Command} (hc : s.ConsumesInRange c) : ∃ s', s.call c = .ok s' ∧ Refines s' (e.call c) := by
  cases c with
  | feed data => exact h.call_feed data
  | syncFlush => exact h.call_syncFlush
  | resetHistory =>
    exact ⟨_, rfl, ⟨h.wf.writer_wf, MatchFinder.new_wf⟩, h.drained_le, h.options_eq, h.input_eq, h.finishing_eq, h.failed_eq, h.bits_eq⟩
  | finish => exact h.call_finish
  | advance n => exact h.call_advance hc

end Refines

/-- A run of calls in range is the run of the emission. -/
theorem run_refines {commands : List Command} {s : EncoderSession} {e : Emission} (h : Refines s e)
    (hrange : s.InRange commands) :
    ∃ s', EncoderSession.run commands s = .ok s' ∧ Refines s' (e.run commands) := by
  induction commands generalizing s e with
  | nil => exact ⟨s, rfl, h⟩
  | cons c commands ih =>
    obtain ⟨hc, hrest⟩ := EncoderSession.along_cons.mp hrange
    obtain ⟨s₁, h1, h2⟩ := h.call hc
    obtain ⟨s', h3, h4⟩ := ih h2 (hrest s₁ h1)
    exact ⟨s', by rw [EncoderSession.run_cons, h1, Exec.ok_bind, h3], h4⟩

end Noflate
