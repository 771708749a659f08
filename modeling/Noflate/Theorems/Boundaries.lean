import Noflate.Theorems.Decoding

/-!
# Block boundaries

At a block boundary the decoder holds fewer than eight bits, whatever the code tables of the block were: so behind the final block
nothing that was fed after the stream is lost.
-/

namespace Noflate

open BitString Resumable

/-- The decoder is between two blocks: it stands at a block header, behind the last byte of a stored block, or behind the final
block. -/
def DecodeState.AtBoundary : DecodeState → Prop
  | .blockHeader => True
  | .storedBody 0 _ => True
  | .finished => True
  | _ => False

/-- A step of the state machine that comes back. -/
def StepsTo (drained : Nat) (env env' : StepEnv) : Prop := ∃ outcome, step env drained = (.ok outcome, env')

/-- The invariant of the variables is kept by a step. -/
theorem StepsTo.ok {dropped : List UInt8} {drained : Nat} {env env' : StepEnv} (h : StepsTo drained env env') (hok : env.Ok)
    (hwin : Window dropped env.output) (hdrained : drained ≤ env.output.length) :
    env'.Ok ∧ Window dropped env'.output ∧ drained ≤ env'.output.length := by
  obtain ⟨outcome, h⟩ := h
  have hspec := step_spec hok hwin hdrained
  rw [h] at hspec
  have hl : Lands dropped drained (env.item dropped) env env' := by
    cases outcome with
    | progress => exact hspec.1
    | needMoreBytes => exact hspec.1
    | yield => exact hspec.1
    | finished => exact hspec.1
  exact ⟨hl.ok, hwin.imp_right fun hw => hw.trans hl.output_le, hdrained.trans hl.output_le⟩

theorem stepsTo_ok {dropped : List UInt8} {drained : Nat} {env env' : StepEnv}
    (h : Relation.ReflTransGen (StepsTo drained) env env') (hok : env.Ok) (hwin : Window dropped env.output)
    (hdrained : drained ≤ env.output.length) : env'.Ok := by
  have hinv : env'.Ok ∧ Window dropped env'.output ∧ drained ≤ env'.output.length := by
    induction h with
    | refl => exact ⟨hok, hwin, hdrained⟩
    | tail _ hstep ih => exact hstep.ok ih.1 ih.2.1 ih.2.2
  exact hinv.1

/-- Fewer than eight bits are held at a boundary. -/
theorem StepEnv.Ok.boundary {env : StepEnv} (h : env.Ok) (hb : env.state.AtBoundary) : env.reader.bitCount < 8 := by
  have hc := h.buffered
  cases hs : env.state with
  | blockHeader => rw [hs] at hc; exact Nat.lt_succ_of_le hc
  | storedBody remaining isFinal => rw [hs] at hc; exact Nat.lt_of_le_of_lt hc (Nat.succ_pos _)
  | finished => rw [hs] at hc; exact Nat.lt_succ_of_le hc
  | storedAlignAndLen isFinal => rw [hs] at hb; exact hb.elim
  | dynamicHeader isFinal => rw [hs] at hb; exact hb.elim
  | dynamicBitwidthTable isFinal hlit hdist hclen orderIdx codeLengths => rw [hs] at hb; exact hb.elim
  | dynamicCodeLengths isFinal hlit hdist bitwidthDecoder codeLengths targetLen => rw [hs] at hb; exact hb.elim
  | symbolLoop isFinal literal distance => rw [hs] at hb; exact hb.elim
  | transient => rw [hs] at hb; exact hb.elim

/-- What is left of a byte string behind the bits that were read, and the whole bytes behind them, fewer than eight bits being
held on either side: the whole bytes are the same. -/
theorem whole_bytes_eq {held held' : List Bool} {a b : List UInt8} (h : held.length < 8) (h' : held'.length < 8)
    (heq : held ++ ofBytes a = held' ++ ofBytes b) : a = b := by
  have hlen := congrArg List.length heq
  rw [List.length_append, List.length_append, length_ofBytes, length_ofBytes] at hlen
  exact ofBytes_injective (List.append_inj heq (by omega)).2

/-- The last byte of a stream is in the last piece that is fed: no later call feeds any byte. -/
def LastPiece (stream : List UInt8) (calls : List Call) : Prop :=
  ∃ pre data post, calls = pre ++ .feed data :: post ∧ (fedBytes pre).length < stream.length ∧ fedBytes post = []

/-- A decoder whose input is the beginning of a stream, without its last byte, is not finished: it has taken all of it. -/
theorem Session.Reached.live_of_short {fed stream : List UInt8} {s : Session} (h : s.Reached fed) (hpre : fed <+: stream)
    (hlt : fed.length < stream.length) {output : List UInt8} {rest : List Bool} (hrest : rest.length < 8)
    (hstream : itemMachine.Runs (startItem stream) ((.finished, output), rest)) :
    s.decoder.finished = false ∧ ((∃ dropped, s.Live fed dropped) ∨ ∃ accepted dropped, s.Dead accepted dropped) := by
  have hnot : s.decoder.finished = false := by
    by_contra hf
    obtain ⟨accepted, more, dropped, rfl, -, hr⟩ := h.finished (by simpa using hf)
    obtain ⟨behind, rfl⟩ := hpre
    rw [List.append_assoc] at hstream hlt
    obtain ⟨codeSets, hm, -⟩ := inflate_of_halted_append (more ++ behind) hr
    obtain ⟨codeSets', hm', -⟩ := inflate_of_halted hstream
    have heq := congrArg (fun m => m.rest.length) (Option.some.inj (hm.symm.trans hm'))
    simp only [List.length_append, length_ofBytes] at heq hlt
    omega
  refine ⟨hnot, ?_⟩
  rcases h with ⟨accepted, dropped, hlive, rfl | ⟨hf, -⟩⟩ | ⟨accepted, dropped, hdead⟩
  · exact .inl ⟨dropped, hlive⟩
  · cases hnot.symm.trans hf
  · exact .inr ⟨accepted, dropped, hdead⟩

/-- A decoder that has taken a stream and bytes behind it, and is finished: what remains is the bytes behind. -/
theorem Session.Live.remaining_eq {stream behind dropped : List UInt8} {s : Session} (h : s.Live (stream ++ behind) dropped)
    (hfin : s.decoder.finished = true) {output : List UInt8} {rest : List Bool} (hrest : rest.length < 8)
    (hstream : itemMachine.Runs (startItem stream) ((.finished, output), rest)) : s.decoder.remainingInput = behind := by
  have hx : (ofBytes behind).length % 8 = 0 := by rw [length_ofBytes, Nat.mul_mod_right]
  have happ := hstream.append itemMachine_mono hx
  have hstart : startItem (stream ++ behind) = ((startItem stream).1, (startItem stream).2 ++ ofBytes behind) := by
    unfold startItem
    rw [ofBytes_append]
  rw [← hstart] at happ
  have hstate := h.decoder.finished_iff.mp hfin
  have heq := (Machine.stop_unique happ stops_halted h.decoder.runs (Decoder.halts_of_finished dropped hstate)).1
  have hbits : rest ++ ofBytes behind = ofNat s.decoder.pendingBitCount s.decoder.pendingBitBuffer ++
      ofBytes s.decoder.remainingInput := congrArg Prod.snd heq
  have hheld : s.decoder.pendingBitCount < 8 := by
    refine h.decoder.ok.boundary ?_
    simp only [Decoder.env, hstate, DecodeState.AtBoundary]
  exact (whole_bytes_eq hrest (by rw [length_ofNat]; exact hheld) hbits).symm

/-- No byte behind a stream is swallowed. In a run of calls, once the decoder is finished on a stream whose final block ends in
its last byte, and on bytes behind it, the last byte of the stream in the last piece fed, what remains is the bytes behind. And
in every state that steps from the run reach, fewer than eight bits are held at a block boundary. -/
theorem remaining_input {calls : List Call} {s : Session} (h : Session.run calls Session.start = .ok s) :
    (∀ stream behind output meaning, Deflate.decompress stream = .ok output →
      Rfc1951.inflate (ofBytes stream) = some meaning → meaning.rest.length < 8 → fedBytes calls = stream ++ behind →
      LastPiece stream calls → s.decoder.finished = true → s.decoder.remainingInput = behind) ∧
    ∀ data env, Relation.ReflTransGen (StepsTo s.decoder.drained)
        (Decoder.env { s.decoder with input := s.decoder.input.feed data }) env →
      env.state.AtBoundary → env.reader.bitCount < 8 := by
  constructor
  · intro stream behind output meaning hok hm hrest hfed ⟨pre, data, post, hcalls, hlt, hquiet⟩ hfin
    obtain ⟨verdict, ⟨⟨state, out⟩, rest⟩, hstream, -, ⟨-, hs, -⟩ | ⟨-, he⟩ | ⟨-, e, -, he⟩⟩ := decompress_spec stream
    · obtain rfl : state = .finished := hs
      obtain ⟨codeSets, hm', -⟩ := inflate_of_halted hstream
      obtain rfl := Option.some.inj (hm.symm.trans hm')
      rw [hcalls, Session.run_append] at h
      obtain ⟨s₁, hpre, hrun⟩ := Exec.bind_eq_ok.mp h
      obtain ⟨s₂, hfeed, hpost⟩ := Session.run_cons_ok hrun
      have hreached := Session.run_reached pre (.live [] [] Session.start_live (.inl rfl)) hpre
      rw [List.nil_append] at hreached
      rw [hcalls, fedBytes_append, fedBytes_feed, hquiet, List.append_nil] at hfed
      have hprefix : fedBytes pre <+: stream :=
        List.prefix_of_prefix_length_le (hfed ▸ List.prefix_append _ _) (List.prefix_append _ _) hlt.le
      have hdead : ∀ {accepted dropped}, ¬s.Dead accepted dropped :=
        fun hd => nomatch hfin.symm.trans hd.decoder.finished_eq
      obtain ⟨hnot, ⟨dropped, hlive⟩ | ⟨accepted, dropped, hd⟩⟩ := hreached.live_of_short hprefix hlt hrest hstream
      · -- the decoder takes the last piece, and then no byte more
        have htakes : s₁.decoder.finished = true → fedBytes [.feed data] = [] := fun hf => nomatch hnot.symm.trans hf
        rcases Session.call_live hlive htakes hfeed with ⟨dropped', h', -⟩ | ⟨dropped', h'⟩
        · rw [fedBytes_feed, fedBytes_nil, List.append_nil, hfed] at h'
          rcases Session.run_quiet post h' hquiet hpost with ⟨dropped'', hlast⟩ | ⟨dropped'', hlast⟩
          · exact hlast.remaining_eq hfin hrest hstream
          · exact absurd hlast hdead
        · obtain ⟨dropped'', hlast⟩ := Session.run_dead post h' hpost
          exact absurd hlast hdead
      · obtain ⟨dropped'', hlast⟩ := Session.run_dead _ hd hrun
        exact absurd hlast hdead
    · cases hok.symm.trans he
    · cases hok.symm.trans he
  · intro data env hsteps hb
    have hreached := Session.run_reached calls (.live [] [] Session.start_live (.inl rfl)) h
    rcases hreached with ⟨accepted, dropped, hlive, -⟩ | ⟨accepted, dropped, hdead⟩
    · have hok := hlive.decoder.ok
      refine (stepsTo_ok hsteps ⟨⟨hok.wf.buffer_lt, Nat.zero_le _, hok.wf.count_le⟩, hok.sound, hok.buffered⟩
        hlive.decoder.windowed.window hlive.decoder.windowed.drained_le).boundary hb
    · -- the placeholder: no step comes back
      rcases Relation.ReflTransGen.cases_head hsteps with rfl | ⟨env', ⟨outcome, hstep⟩, -⟩
      · have hstate : (Decoder.env { s.decoder with input := s.decoder.input.feed data }).state = .transient :=
          hdead.decoder.state_eq
        rw [hstate] at hb
        exact hb.elim
      · unfold step Decoder.env at hstep
        simp only [hdead.decoder.state_eq] at hstep
        cases hstep

/-- A stored block and a byte behind it, fed in two pieces. -/
theorem remaining_input_stored :
    ∃ s, Session.run [.feed [1, 1, 0], .feed [254, 255, 65, 7]] Session.start = .ok s ∧ s.decoder.remainingInput = [7] := by
  obtain ⟨s, hs, hfin⟩ := Exec.returns_iff.mp
    (show (Session.run [.feed [1, 1, 0], .feed [254, 255, 65, 7]] Session.start).returns (fun s => s.decoder.finished) = true
      by decide +kernel)
  have hmeaning : Rfc1951.inflate (ofBytes [1, 1, 0, 254, 255, 65]) = some { output := [65], codeSets := [], rest := [] } := by
    decide +kernel
  refine ⟨s, hs, (remaining_input hs).1 [1, 1, 0, 254, 255, 65] [7] [65] _ ?_ hmeaning ?_ rfl ?_ hfin⟩
  · decide +kernel
  · exact Nat.succ_pos 7
  · exact ⟨[.feed [1, 1, 0]], [254, 255, 65, 7], [], rfl, by decide, rfl⟩

end Noflate
