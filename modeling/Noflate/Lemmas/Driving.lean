import Noflate.Lemmas.SymbolSteps

/-!
# Calls of the decoder

What a call of `feed` and of `advance` does, in terms of the machine on bits. A decoder that has seen no error stands somewhere
on the run of the machine over all the bytes it was fed (`Decoder.Live`); one that has reported an error of the stream is left in
the placeholder, with the output the machine has where it fails (`Decoder.Dead`).
-/

namespace Noflate

open BitString Resumable

/-- What the loop of `drive` is to the machine. -/
def DriveSpec (dropped : List UInt8) (drained : Nat) (c : ItemState × List Bool) (env : StepEnv) :
    Exec Bool × StepEnv → Prop
  | (.ok finished, env') => Lands dropped drained c env env' ∧ (finished = true ↔ env'.state = .finished) ∧
      (finished = true ∨ itemMachine.Stops (env'.item dropped) .waiting ∨
        (maxInternalBuffer ≤ env'.output.length - drained ∧ ∃ isFinal literal distance,
          env'.state = .symbolLoop isFinal literal distance))
  | (.err _, env') => env'.state = .transient ∧ env.output.length ≤ env'.output.length ∧
      ∃ c', itemMachine.RunsWithin (Below (capLimit dropped drained)) c c' ∧ c'.1.2 = dropped ++ env'.output ∧
        itemMachine.Stops c' .failed ∧ Below (capLimit dropped drained) c'
  | _ => False

theorem not_waiting_of_finished {output : List UInt8} {bits : List Bool} :
    ¬itemMachine.Stops ((.finished, output), bits) .waiting := by
  rw [not_waiting_iff]
  exact fun h => nomatch h

/-- The loop of `drive` ends, without a panic, where the machine has gone. -/
theorem driveLoop_spec {dropped : List UInt8} {drained : Nat} (fuel : Nat) {env : StepEnv} (hok : env.Ok)
    (hwin : Window dropped env.output) (hdrained : drained ≤ env.output.length) (hf : rank (env.item dropped) < fuel) :
    DriveSpec dropped drained (env.item dropped) env (driveLoop drained fuel env) := by
  induction fuel generalizing env with
  | zero => omega
  | succ fuel ih =>
    have hstep := step_spec hok hwin hdrained
    unfold driveLoop
    cases hs : step env drained with
    | mk e env' =>
      rw [hs] at hstep
      cases e with
      | ok outcome =>
        cases outcome with
        | progress =>
          obtain ⟨hl, hrank⟩ := hstep
          have hrest := ih hl.ok (hwin.imp_right fun h => h.trans hl.output_le) (hdrained.trans hl.output_le) (by omega)
          simp only
          cases hd : driveLoop drained fuel env' with
          | mk e' env'' =>
            rw [hd] at hrest
            cases e' with
            | ok finished =>
              obtain ⟨hl', h⟩ := hrest
              refine ⟨⟨hl'.ok, hl'.input_eq.trans hl.input_eq, hl.output_le.trans hl'.output_le, hl.runs.trans hl'.runs,
                .inr ?_⟩, h⟩
              rcases hl'.rank_lt with ⟨heq, -⟩ | hlt
              · rw [heq]
                exact hrank
              · exact hlt.trans hrank
            | err e =>
              obtain ⟨h1, h2, c', h3, h4⟩ := hrest
              exact ⟨h1, hl.output_le.trans h2, c', hl.runs.trans h3, h4⟩
            | panic => exact hrest
            | diverge => exact hrest
        | needMoreBytes =>
          obtain ⟨hl, hwait⟩ := hstep
          refine ⟨hl, ⟨fun h => (nomatch h), fun h => ?_⟩, .inr (.inl hwait)⟩
          unfold StepEnv.item at hwait
          rw [h] at hwait
          exact absurd hwait not_waiting_of_finished
        | yield =>
          obtain ⟨hl, hcap, isFinal, literal, distance, hstate⟩ := hstep
          refine ⟨hl, ⟨fun h => (nomatch h), fun h => ?_⟩, .inr (.inr ⟨hcap, isFinal, literal, distance, hstate⟩)⟩
          rw [h] at hstate
          cases hstate
        | finished => exact ⟨hstep.1, ⟨fun _ => hstep.2, fun _ => rfl⟩, .inl rfl⟩
      | err e => exact hstep
      | panic => exact hstep
      | diverge => exact hstep

/-! ## A decoder on the run of the machine -/

/-- Where the machine starts, with some bytes to read. -/
def startItem (fed : List UInt8) : ItemState × List Bool := ((.blockHeader, []), ofBytes fed)


theorem admissible_ofBytes (bytes : List UInt8) : (ofBytes bytes).length % 8 = 0 := by
  rw [length_ofBytes, Nat.mul_mod_right]

theorem startItem_append (bytes more : List UInt8) :
    startItem (bytes ++ more) = ((startItem bytes).1, (startItem bytes).2 ++ ofBytes more) := by
  unfold startItem
  rw [ofBytes_append]

namespace Decoder

/-- The whole output of a decoder, behind what was dropped from its window. -/
def history (dropped : List UInt8) (d : Decoder) : List UInt8 := dropped ++ d.output

/-- Where a decoder stands: its state, its whole output and the bits it has not consumed. -/
def item (dropped : List UInt8) (d : Decoder) : ItemState × List Bool := d.env.item dropped

/-- More input at hand is more bits to read. -/
theorem item_feed (dropped : List UInt8) (d : Decoder) (data : List UInt8) :
    item dropped { d with input := d.input.feed data } = ((d.item dropped).1, (d.item dropped).2 ++ ofBytes data) := by
  simp only [item, env, StepEnv.item, BitReader.newSeeded, BitReader.bits, List.drop_zero, Buf.get_feed, ofBytes_append,
    List.append_assoc]

/-- The window of a decoder and what the caller has consumed of it. -/
structure Windowed (dropped : List UInt8) (d : Decoder) : Prop where
  window : Window dropped d.output
  drained_le : d.drained ≤ d.output.length

/-- A decoder that was fed some bytes and has met no error of the stream: it stands on the run of the machine. -/
structure Live (fed dropped : List UInt8) (d : Decoder) : Prop where
  windowed : d.Windowed dropped
  ok : d.env.Ok
  runs : itemMachine.Runs (startItem fed) (d.item dropped)
  finished_iff : d.finished = true ↔ d.state = .finished

/-- A decoder that was fed some bytes and has reported an error of the stream: it is left in the placeholder, with the output the
machine has where it fails. -/
structure Dead (fed dropped : List UInt8) (d : Decoder) : Prop where
  windowed : d.Windowed dropped
  state_eq : d.state = .transient
  finished_eq : d.finished = false
  failed : ∃ c, itemMachine.Runs (startItem fed) c ∧ c.1.2 = d.history dropped ∧ itemMachine.Stops c .failed

/-- Why a call of `feed` came back: the final block is decoded, the machine waits for input, or the output reached the cap. -/
structure Paused (dropped : List UInt8) (d : Decoder) : Prop where
  paused : d.finished = true ∨ itemMachine.Stops (d.item dropped) .waiting ∨
    (maxInternalBuffer ≤ d.unread.length ∧ ∃ isFinal literal distance, d.state = .symbolLoop isFinal literal distance)

theorem new_live : Live [] [] new := by
  refine ⟨⟨.inl rfl, le_rfl⟩, ⟨⟨?_, le_rfl, ?_⟩, trivial, ?_⟩, Machine.Runs.refl _, ?_⟩
  · exact Nat.two_pow_pos _
  · exact Nat.zero_le _
  · exact Nat.zero_le _
  · exact ⟨fun h => (nomatch h), fun h => (nomatch h)⟩

/-- More input: the decoder stands on the run over all of it. -/
theorem runs_feed {fed dropped : List UInt8} {d : Decoder} (h : itemMachine.Runs (startItem fed) (d.item dropped))
    (data : List UInt8) :
    itemMachine.Runs (startItem (fed ++ data)) (item dropped { d with input := d.input.feed data }) := by
  have hx : (ofBytes data).length % 8 = 0 := by rw [length_ofBytes, Nat.mul_mod_right]
  have happ := Machine.Runs.append itemMachine_mono h hx
  have hstart : startItem (fed ++ data) = ((startItem fed).1, (startItem fed).2 ++ ofBytes data) := by
    unfold startItem
    rw [ofBytes_append]
  have hitem : item dropped { d with input := d.input.feed data } =
      ((d.item dropped).1, (d.item dropped).2 ++ ofBytes data) := by
    simp only [item, env, StepEnv.item, BitReader.newSeeded, BitReader.bits, List.drop_zero, Buf.get_feed, ofBytes_append,
      List.append_assoc]
  rw [hstart, hitem]
  exact happ

/-- The rounds allowed to the loop of `drive` are enough. -/
theorem rank_lt_driveFuel (dropped : List UInt8) (d : Decoder) : rank (d.item dropped) < d.driveFuel := by
  have hlen := BitReader.length_bits d.env.reader
  have hrank : d.env.state.rank ≤ 3 := by
    cases d.env.state <;> simp [DecodeState.rank]
  unfold rank driveFuel item StepEnv.item
  simp only
  omega

/-- A reader seeded with what another left over has the same bits to give. -/
theorem newSeeded_bits (r : BitReader) :
    (BitReader.newSeeded (r.input.drop r.byteIndex) r.bitBuffer r.bitCount).bits = r.bits := by
  simp only [BitReader.newSeeded, BitReader.bits, List.drop_zero]

theorem halts_of_finished (dropped : List UInt8) {d : Decoder} (h : d.state = .finished) :
    itemMachine.Stops (d.item dropped) .halted := by
  have hitem : d.item dropped = ((.finished, dropped ++ d.output), d.env.reader.bits) := by
    unfold item StepEnv.item
    rw [← h]
    rfl
  rw [hitem]
  exact stops_halted

/-- The machine fails from a place, below a limit of the output. -/
def Fails (limit : Nat) (c : ItemState × List Bool) : Prop :=
  ∃ c', itemMachine.RunsWithin (Below limit) c c' ∧ itemMachine.Stops c' .failed ∧ Below limit c'

/-- A machine that stops otherwise, or reaches the limit, does not fail below it. -/
theorem not_fails {limit : Nat} {c c' : ItemState × List Bool} (hr : itemMachine.RunsWithin (Below limit) c c')
    (h : itemMachine.Stops c' .halted ∨ itemMachine.Stops c' .waiting ∨ ¬Below limit c') : ¬Fails limit c := by
  rintro ⟨c'', hr', hstop, hb⟩
  have hblocked : Below limit c' → ∃ v, itemMachine.Stops c' v := by
    intro hb'
    rcases h with h | h | h
    · exact ⟨_, h⟩
    · exact ⟨_, h⟩
    · exact absurd hb' h
  have heq := Machine.RunsWithin.end_unique hr hblocked hr' (fun _ => ⟨_, hstop⟩)
  subst heq
  rcases h with h | h | h
  · cases (Machine.stop_unique (Machine.Runs.refl _) h (Machine.Runs.refl _) hstop).2
  · cases (Machine.stop_unique (Machine.Runs.refl _) h (Machine.Runs.refl _) hstop).2
  · exact h hb

/-- A paused decoder does not go on: the machine halts there or waits for input, or the output is at the limit. -/
theorem Paused.blocked {dropped : List UInt8} {d : Decoder} (h : d.Paused dropped) (hle : d.drained ≤ d.output.length)
    (hfin : d.finished = true → d.state = .finished) :
    itemMachine.Stops (d.item dropped) .halted ∨ itemMachine.Stops (d.item dropped) .waiting ∨
      ¬Below (capLimit dropped d.drained) (d.item dropped) := by
  rcases h.paused with hf | hwait | ⟨hcap, isFinal, literal, distance, hs⟩
  · exact .inl (halts_of_finished dropped (hfin hf))
  · exact .inr (.inl hwait)
  · right
    right
    have hitem : d.item dropped = ((.symbolLoop isFinal literal distance, dropped ++ d.output), d.env.reader.bits) := by
      rw [← hs]
      rfl
    rw [hitem]
    simp only [Below, capLimit, List.length_append, unread, List.length_drop] at hcap ⊢
    omega

/-- A run of the state machine that came back: where the decoder is then, and that no failure was in reach. -/
structure Drives (fed dropped : List UInt8) (d d' : Decoder) : Prop where
  live : d'.Live fed dropped
  paused : d'.Paused dropped
  drained_eq : d'.drained = d.drained
  runs : itemMachine.RunsWithin (Below (capLimit dropped d.drained)) (d.item dropped) (d'.item dropped)
  rank_lt : (d'.item dropped = d.item dropped ∧ d'.remainingInput = d.remainingInput) ∨
    rank (d'.item dropped) < rank (d.item dropped)
  not_fails : ¬Fails (capLimit dropped d.drained) (d.item dropped)

/-- Where a run of the state machine came back, below the limit, the machine stops. -/
theorem Drives.stops {fed dropped : List UInt8} {d d' : Decoder} (h : Drives fed dropped d d')
    (hbelow : Below (capLimit dropped d.drained) (d'.item dropped)) : ∃ v, itemMachine.Stops (d'.item dropped) v := by
  rcases h.paused.blocked h.live.windowed.drained_le h.live.finished_iff.mp with hhalt | hwait | hfull
  · exact ⟨_, hhalt⟩
  · exact ⟨_, hwait⟩
  · rw [h.drained_eq] at hfull
    exact absurd hbelow hfull

/-- Running the state machine, from anywhere on the run of the machine on bits. -/
theorem drive_spec {fed dropped : List UInt8} {d : Decoder} (h : d.Live fed dropped) :
    (∃ d', d.drive = (.ok (), d') ∧ Drives fed dropped d d') ∨
      (∃ e d', d.drive = (.err e, d') ∧ d'.Dead fed dropped ∧ d'.drained = d.drained ∧
        d.history dropped <+: d'.history dropped ∧ Fails (capLimit dropped d.drained) (d.item dropped)) := by
  have hloop := driveLoop_spec d.driveFuel h.ok h.windowed.window h.windowed.drained_le (rank_lt_driveFuel dropped d)
  have hstays : d.state = .finished → ∀ c, itemMachine.Runs (d.item dropped) c → c = d.item dropped := by
    intro hs c hr
    exact (halts_of_finished dropped hs).runs_eq hr
  unfold drive
  cases hd : driveLoop d.drained d.driveFuel d.env with
  | mk e env =>
    rw [hd] at hloop
    cases e with
    | ok finished =>
      obtain ⟨hl, hfin, hpause⟩ := hloop
      have hinput : env.reader.input = d.input.get := hl.input_eq
      obtain ⟨input, h1, h2⟩ := Buf.advance_ok (b := d.input) (n := env.reader.byteIndex) (by
        rw [← hinput]
        exact hl.ok.wf.index_le)
      obtain ⟨d', hd'⟩ : ∃ d' : Decoder, d' = { d with
          input, output := env.output, state := env.state, pendingBitBuffer := env.reader.bitBuffer
          pendingBitCount := env.reader.bitCount, finished := d.finished || finished } := ⟨_, rfl⟩
      have hitem : d'.item dropped = env.item dropped := by
        rw [hd']
        simp only [item, StepEnv.item, Decoder.env]
        rw [h2, ← hinput, newSeeded_bits]
      have hdone : d'.finished = true ↔ d'.state = .finished := by
        rw [hd']
        simp only [Bool.or_eq_true]
        refine ⟨fun hor => ?_, fun hs => .inr (hfin.mpr hs)⟩
        rcases hor with hd | hf
        · have hs := h.finished_iff.mp hd
          have heq := congrArg (fun c => c.1.1) (hstays hs _ hl.runs.runs)
          exact heq.trans hs
        · exact hfin.mp hf
      have hpaused : d'.Paused dropped := by
        constructor
        rw [hitem]
        have hunread : d'.unread.length = env.output.length - d.drained := by
          rw [hd', unread, List.length_drop]
        rw [hunread, hd']
        exact hpause.imp_left fun hf => by rw [hf, Bool.or_true]
      refine .inl ⟨d', by rw [hd']; simp only [h1], ⟨⟨?_, ?_⟩, ?_, ?_, hdone⟩, hpaused, by rw [hd'], ?_, ?_, ?_⟩
      · rw [hd']
        exact h.windowed.window.imp_right fun hw => hw.trans hl.output_le
      · rw [hd']
        exact h.windowed.drained_le.trans hl.output_le
      · rw [hd']
        exact ⟨⟨hl.ok.wf.buffer_lt, Nat.zero_le _, hl.ok.wf.count_le⟩, hl.ok.sound, hl.ok.buffered⟩
      · rw [hitem]
        exact h.runs.trans hl.runs.runs
      · rw [hitem]
        exact hl.runs
      · rw [hitem]
        refine hl.rank_lt.imp_left fun hsame => ⟨hsame.1, ?_⟩
        have hindex : env.reader.byteIndex = 0 := by
          rw [hsame.2]
          rfl
        rw [hd', remainingInput, remainingInput, h2, hindex, List.drop_zero]
      · refine not_fails hl.runs ?_
        have hdr : d'.drained = d.drained := by rw [hd']
        have hle : d'.drained ≤ d'.output.length := by
          rw [hd']
          exact h.windowed.drained_le.trans hl.output_le
        rw [← hitem, ← hdr]
        exact hpaused.blocked hle hdone.mp
    | err e =>
      obtain ⟨hs, hle, c, hr, hout, hstop, hbelow⟩ := hloop
      refine .inr ⟨e, { d with output := env.output, state := env.state }, rfl,
        ⟨⟨?_, ?_⟩, hs, ?_, ⟨c, h.runs.trans hr.runs, hout, hstop⟩⟩, rfl, ?_, ⟨c, hr, hstop, hbelow⟩⟩
      · exact h.windowed.window.imp_right fun hw => hw.trans hle
      · exact h.windowed.drained_le.trans hle
      · by_contra hfin
        have hd := h.finished_iff.mp (by simpa using hfin)
        exact not_fails (Machine.RunsWithin.refl _) (.inl (halts_of_finished dropped hd)) ⟨c, hr, hstop, hbelow⟩
      · have hgrows := runs_output hr.runs
        rwa [hout] at hgrows
    | panic => exact hloop.elim
    | diverge => exact hloop.elim

/-- Feeding bytes to a decoder that has not finished, or none to one that has. -/
theorem feed_spec {fed dropped : List UInt8} {d : Decoder} (h : d.Live fed dropped) (data : List UInt8)
    (hok : d.finished = true → data = []) :
    (∃ d', d.feed data = (.ok (), d') ∧ Drives (fed ++ data) dropped { d with input := d.input.feed data } d') ∨
      (∃ e d', d.feed data = (.err e, d') ∧ d'.Dead (fed ++ data) dropped ∧ d'.drained = d.drained ∧
        d.history dropped <+: d'.history dropped ∧
        Fails (capLimit dropped d.drained) (item dropped { d with input := d.input.feed data })) := by
  have hguard : ¬(d.finished = true ∧ data ≠ []) := fun hc => hc.2 (hok hc.1)
  have hlive : Live (fed ++ data) dropped { d with input := d.input.feed data } :=
    ⟨⟨h.windowed.window, h.windowed.drained_le⟩,
      ⟨⟨h.ok.wf.buffer_lt, Nat.zero_le _, h.ok.wf.count_le⟩, h.ok.sound, h.ok.buffered⟩,
      runs_feed h.runs data, h.finished_iff⟩
  rw [feed, if_neg hguard]
  exact drive_spec hlive

/-- Bytes behind the end of the stream are an error, and change nothing. -/
theorem feed_after_end {d : Decoder} {data : List UInt8} (hf : d.finished = true) (hdata : data ≠ []) :
    d.feed data = (.err (.invalidData "bytes fed after deflate stream end"), d) := by
  rw [feed, if_pos ⟨hf, hdata⟩]

/-- A decoder that has reported an error of the stream panics when it is fed again. -/
theorem feed_dead {fed dropped : List UInt8} {d : Decoder} (h : d.Dead fed dropped) (data : List UInt8) :
    (d.feed data).1 = .panic := by
  have hguard : ¬(d.finished = true ∧ data ≠ []) := by
    rw [h.finished_eq]
    exact fun hc => nomatch hc.1
  obtain ⟨n, hn⟩ : ∃ n, driveFuel { d with input := d.input.feed data } = n + 1 := ⟨_, rfl⟩
  have hstep : step (env { d with input := d.input.feed data }) d.drained =
      (.panic, { env { d with input := d.input.feed data } with state := .transient }) := by
    unfold step Decoder.env
    simp only [h.state_eq]
  rw [feed, if_neg hguard, drive, hn, driveLoop, hstep]

/-! ## Consuming output -/

/-- Two decoders that differ in their output buffers only. -/
structure SameBut (d d' : Decoder) : Prop where
  input_eq : d'.input = d.input
  state_eq : d'.state = d.state
  buffer_eq : d'.pendingBitBuffer = d.pendingBitBuffer
  count_eq : d'.pendingBitCount = d.pendingBitCount
  finished_eq : d'.finished = d.finished

/-- Consuming output that is there: the window may shrink, what was produced stays the same. -/
theorem advance_spec {dropped : List UInt8} {d : Decoder} (h : d.Windowed dropped) {n : Nat} (hn : n ≤ d.unread.length) :
    ∃ dropped' d', d.advance n = .ok d' ∧ d'.Windowed dropped' ∧ SameBut d d' ∧ d'.history dropped' = d.history dropped ∧
      dropped'.length + d'.drained = dropped.length + d.drained + n := by
  have hlen : n ≤ d.output.length - d.drained := by rwa [unread, List.length_drop] at hn
  have hle := h.drained_le
  have hguard : ¬(d.output.length < d.drained ∨ d.output.length - d.drained < n) := by omega
  rw [advance, if_neg hguard]
  unfold maybeCompact
  by_cases hsmall : d.output.length < compactThreshold
  · rw [if_pos hsmall]
    exact ⟨dropped, _, rfl, ⟨h.window, by simp only; omega⟩, ⟨rfl, rfl, rfl, rfl, rfl⟩, rfl, by simp only; omega⟩
  · rw [if_neg hsmall]
    simp only
    by_cases hkeep : min (d.drained + n) (d.output.length - windowSize) = 0
    · rw [if_pos hkeep]
      exact ⟨dropped, _, rfl, ⟨h.window, by simp only; omega⟩, ⟨rfl, rfl, rfl, rfl, rfl⟩, rfl, by simp only; omega⟩
    · rw [if_neg hkeep]
      have hbig : compactThreshold ≤ d.output.length := Nat.le_of_not_lt hsmall
      have hthr : compactThreshold = 1024 * 1024 := rfl
      have hwin : windowSize = 32768 := rfl
      refine ⟨dropped ++ d.output.take (min (d.drained + n) (d.output.length - windowSize)), _, rfl, ⟨.inr ?_, ?_⟩,
        ⟨rfl, rfl, rfl, rfl, rfl⟩, ?_, ?_⟩
      · rw [List.length_drop]
        omega
      · simp only [List.length_drop]
        omega
      · simp only [history]
        rw [List.append_assoc, List.take_append_drop]
      · rw [List.length_append, List.length_take]
        simp only
        omega

end Decoder

end Noflate
