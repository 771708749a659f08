import Noflate.Session
import Noflate.Lemmas.Driving

/-!
# Runs of calls on the decoder

Each call keeps a session on the run of the machine over the bytes fed so far (`Session.Live`), or leaves it where the machine
fails (`Session.Dead`); so does a run of calls. Settling a session takes it to where the machine stops.
-/

namespace Noflate

open BitString Resumable

namespace Session

/-- What the caller has consumed is the beginning of the whole output. -/
structure Tracks (dropped : List UInt8) (s : Session) : Prop where
  windowed : s.decoder.Windowed dropped
  taken_eq : s.taken = (s.decoder.history dropped).take (dropped.length + s.decoder.drained)

/-- A session without an error: its decoder is on the run of the machine. -/
structure Live (fed dropped : List UInt8) (s : Session) : Prop where
  decoder : s.decoder.Live fed dropped
  tracks : s.Tracks dropped

/-- A session with an error of the stream. -/
structure Dead (fed dropped : List UInt8) (s : Session) : Prop where
  decoder : s.decoder.Dead fed dropped
  tracks : s.Tracks dropped

/-- Where the session stands. -/
def item (s : Session) : ItemState × List Bool := ((s.decoder.state, s.output), s.decoder.env.reader.bits)

/-- What was made available is the whole output. -/
theorem Tracks.output_eq {dropped : List UInt8} {s : Session} (h : s.Tracks dropped) :
    s.output = s.decoder.history dropped := by
  have hunread : s.decoder.unread = (s.decoder.history dropped).drop (dropped.length + s.decoder.drained) := by
    rw [Decoder.history, Decoder.unread, List.drop_length_add_append]
  rw [output, h.taken_eq, hunread, List.take_append_drop]

/-- What the caller has consumed, in a session that keeps track of it. -/
theorem Tracks.taken_length {dropped : List UInt8} {s : Session} (h : s.Tracks dropped) :
    s.taken.length = dropped.length + s.decoder.drained := by
  rw [h.taken_eq, List.length_take, Decoder.history, List.length_append]
  exact Nat.min_eq_left (Nat.add_le_add_left h.windowed.drained_le _)

theorem Tracks.item_eq {dropped : List UInt8} {s : Session} (h : s.Tracks dropped) : s.item = s.decoder.item dropped := by
  unfold item
  rw [h.output_eq]
  rfl

theorem start_live : start.Live [] [] := ⟨Decoder.new_live, ⟨Decoder.new_live.windowed, rfl⟩⟩

/-- Feeding keeps track of what was consumed. -/
theorem Tracks.feed {dropped : List UInt8} {s : Session} {d : Decoder} (h : s.Tracks dropped) (hw : d.Windowed dropped)
    (hdrained : d.drained = s.decoder.drained) (hgrows : s.decoder.history dropped <+: d.history dropped) (failed : Bool) :
    Tracks dropped { decoder := d, taken := s.taken, failed } := by
  have hle : dropped.length + s.decoder.drained ≤ (s.decoder.history dropped).length := by
    rw [Decoder.history, List.length_append]
    exact Nat.add_le_add_left h.windowed.drained_le _
  obtain ⟨more, hmore⟩ := hgrows
  refine ⟨hw, ?_⟩
  simp only
  rw [h.taken_eq, hdrained, ← hmore, List.take_append_of_le_length hle]

/-- Feeding a session without an error: it goes on, or meets an error of the stream that was in reach. -/
theorem feed_live {fed dropped : List UInt8} {s : Session} (h : s.Live fed dropped) (data : List UInt8)
    (hok : s.decoder.finished = true → data = []) :
    (∃ d, s.call (.feed data) = .ok { s with decoder := d } ∧
        Live (fed ++ data) dropped { s with decoder := d } ∧
        Decoder.Drives (fed ++ data) dropped { s.decoder with input := s.decoder.input.feed data } d) ∨
      (∃ d, s.call (.feed data) = .ok { s with decoder := d, failed := true } ∧
        Dead (fed ++ data) dropped { s with decoder := d, failed := true } ∧
        Decoder.Fails (capLimit dropped s.decoder.drained)
          (Decoder.item dropped { s.decoder with input := s.decoder.input.feed data })) := by
  rcases Decoder.feed_spec h.decoder data hok with ⟨d, h1, h2⟩ | ⟨e, d, h1, h2, h3, h4, h5⟩
  · refine .inl ⟨d, by simp only [call, h1], ⟨h2.live, ?_⟩, h2⟩
    exact h.tracks.feed h2.live.windowed h2.drained_eq (runs_output h2.runs.runs) s.failed
  · exact .inr ⟨d, by simp only [call, h1], ⟨h2, h.tracks.feed h2.windowed h3 h4 true⟩, h5⟩

/-- Feeding bytes behind the end of the stream: an error, and nothing else changes. -/
theorem feed_finished {s : Session} {data : List UInt8} (hf : s.decoder.finished = true) (hdata : data ≠ []) :
    s.call (.feed data) = .ok { s with failed := true } := by
  simp only [call, Decoder.feed_after_end hf hdata]

/-- Feeding a session with an error of the stream: a panic. -/
theorem feed_dead {fed dropped : List UInt8} {s : Session} (h : s.Dead fed dropped) (data : List UInt8) :
    s.call (.feed data) = .panic := by
  have hpanic := Decoder.feed_dead h.decoder data
  cases hf : s.decoder.feed data with
  | mk e d =>
    rw [hf] at hpanic
    simp only at hpanic
    subst hpanic
    simp only [call, hf]

/-- Consuming output that is there keeps track, behind a window that may have shrunk. -/
theorem advance_tracks {dropped : List UInt8} {s : Session} (h : s.Tracks dropped) {n : Nat}
    (hn : n ≤ s.decoder.unread.length) :
    ∃ dropped' d, s.call (.advance n) = .ok { s with decoder := d, taken := s.taken ++ s.decoder.unread.take n } ∧
      Tracks dropped' { s with decoder := d, taken := s.taken ++ s.decoder.unread.take n } ∧
      Decoder.SameBut s.decoder d ∧ d.history dropped' = s.decoder.history dropped ∧
      dropped'.length + d.drained = dropped.length + s.decoder.drained + n := by
  obtain ⟨dropped', d, h1, h2, h3, h4, h5⟩ := Decoder.advance_spec h.windowed hn
  have hunread : s.decoder.unread = (s.decoder.history dropped).drop (dropped.length + s.decoder.drained) := by
    rw [Decoder.history, Decoder.unread, List.drop_length_add_append]
  refine ⟨dropped', d, by simp only [call, h1, Exec.ok_bind], ⟨h2, ?_⟩, h3, h4, h5⟩
  simp only
  rw [h4, h5, h.taken_eq, hunread, ← List.take_add]

/-- The reader of a decoder does not depend on its output buffer. -/
theorem env_reader_eq {d d' : Decoder} (h : Decoder.SameBut d d') : d'.env.reader = d.env.reader := by
  unfold Decoder.env
  simp only [h.input_eq, h.buffer_eq, h.count_eq]

/-- A decoder that differs in its output buffer only stands where the other does. -/
theorem item_sameBut {dropped dropped' : List UInt8} {d d' : Decoder} (h : Decoder.SameBut d d')
    (hhist : d'.history dropped' = d.history dropped) : d'.item dropped' = d.item dropped := by
  unfold Decoder.item StepEnv.item
  rw [env_reader_eq h]
  unfold Decoder.history at hhist
  simp only [Decoder.env, h.state_eq, hhist]

theorem advance_live {fed dropped : List UInt8} {s : Session} (h : s.Live fed dropped) {n : Nat}
    (hn : n ≤ s.decoder.unread.length) :
    ∃ dropped' d, s.call (.advance n) = .ok { s with decoder := d, taken := s.taken ++ s.decoder.unread.take n } ∧
      Live fed dropped' { s with decoder := d, taken := s.taken ++ s.decoder.unread.take n } ∧
      Decoder.SameBut s.decoder d ∧ d.item dropped' = s.decoder.item dropped ∧
      dropped'.length + d.drained = dropped.length + s.decoder.drained + n := by
  obtain ⟨dropped', d, h1, h2, h3, h4, h5⟩ := advance_tracks h.tracks hn
  have hitem := item_sameBut h3 h4
  have hreader := env_reader_eq h3
  have hok := h.decoder.ok
  refine ⟨dropped', d, h1, ⟨⟨h2.windowed, ⟨?_, ?_, ?_⟩, ?_, ?_⟩, h2⟩, h3, hitem, h5⟩
  · rw [hreader]
    exact hok.wf
  · simp only [Decoder.env, h3.state_eq]
    exact hok.sound
  · rw [hreader]
    simp only [Decoder.env, h3.state_eq]
    exact hok.buffered
  · simp only [hitem]
    exact h.decoder.runs
  · simp only [h3.finished_eq, h3.state_eq]
    exact h.decoder.finished_iff

theorem advance_dead {fed dropped : List UInt8} {s : Session} (h : s.Dead fed dropped) {n : Nat}
    (hn : n ≤ s.decoder.unread.length) :
    ∃ dropped' d, s.call (.advance n) = .ok { s with decoder := d, taken := s.taken ++ s.decoder.unread.take n } ∧
      Dead fed dropped' { s with decoder := d, taken := s.taken ++ s.decoder.unread.take n } := by
  obtain ⟨dropped', d, h1, h2, h3, h4, -⟩ := advance_tracks h.tracks hn
  refine ⟨dropped', d, h1, ⟨⟨h2.windowed, ?_, ?_, ?_⟩, h2⟩⟩
  · rw [h3.state_eq, h.decoder.state_eq]
  · rw [h3.finished_eq, h.decoder.finished_eq]
  · simp only [h4]
    exact h.decoder.failed

/-! ## Runs of calls -/

/-- Permitted calls all come back, and say that they failed exactly when an error of the stream was met. -/
theorem run_permitted (calls : List Call) {fed : List UInt8} {s : Session} (hp : Permitted s calls)
    (hs : (s.failed = false ∧ ∃ dropped, s.Live fed dropped) ∨ (s.failed = true ∧ ∃ dropped, s.Dead fed dropped)) :
    ∃ s', run calls s = .ok s' ∧
      ((s'.failed = false ∧ ∃ dropped, s'.Live (fed ++ fedBytes calls) dropped) ∨
        (s'.failed = true ∧ ∃ dropped, s'.Dead (fed ++ fedBytes calls) dropped)) := by
  induction calls generalizing fed s with
  | nil =>
    rw [fedBytes_nil, List.append_nil]
    exact ⟨s, rfl, hs⟩
  | cons c calls ih =>
    obtain ⟨hc, hrest⟩ := along_cons.mp hp
    rw [run_cons]
    cases c with
    | feed data =>
      obtain ⟨hfailed, hok⟩ := hc
      rcases hs with ⟨-, dropped, hlive⟩ | ⟨hf, -⟩
      · rw [fedBytes_feed, ← List.append_assoc]
        rcases feed_live hlive data hok with ⟨d, h1, h2, -⟩ | ⟨d, h1, h2, -⟩
        · rw [h1, Exec.ok_bind]
          exact ih (hrest _ h1) (.inl ⟨hfailed, dropped, h2⟩)
        · rw [h1, Exec.ok_bind]
          exact ih (hrest _ h1) (.inr ⟨rfl, dropped, h2⟩)
      · rw [hfailed] at hf
        cases hf
    | advance n =>
      rw [fedBytes_advance]
      rcases hs with ⟨hf, dropped, hlive⟩ | ⟨hf, dropped, hdead⟩
      · obtain ⟨dropped', d, h1, h2, -⟩ := advance_live hlive hc
        rw [h1, Exec.ok_bind]
        exact ih (hrest _ h1) (.inl ⟨hf, dropped', h2⟩)
      · obtain ⟨dropped', d, h1, h2⟩ := advance_dead hdead hc
        rw [h1, Exec.ok_bind]
        exact ih (hrest _ h1) (.inr ⟨hf, dropped', h2⟩)

/-- A session after any calls that came back: its decoder is on the run of the machine over the bytes it took, which are all
the bytes fed unless the stream had ended; or it has reported an error of the stream. -/
inductive Reached (fed : List UInt8) (s : Session) : Prop where
  | live (accepted dropped : List UInt8) (h : s.Live accepted dropped)
      (hfed : accepted = fed ∨ (s.decoder.finished = true ∧ accepted <+: fed))
  | dead (accepted dropped : List UInt8) (h : s.Dead accepted dropped)

/-- A call of `advance` that comes back is in range. -/
theorem advance_in_range {s s' : Session} {n : Nat} (h : s.call (.advance n) = .ok s') : n ≤ s.decoder.unread.length := by
  simp only [call, Decoder.advance] at h
  by_cases hg : s.decoder.output.length < s.decoder.drained ∨ s.decoder.output.length - s.decoder.drained < n
  · rw [if_pos hg] at h
    cases h
  · rw [Decoder.unread, List.length_drop]
    omega

/-- A call on a session on the run of the machine, with the bytes it takes. -/
theorem call_live {fed dropped : List UInt8} {s s' : Session} {c : Call} (h : s.Live fed dropped)
    (hok : s.decoder.finished = true → fedBytes [c] = []) (hcall : s.call c = .ok s') :
    (∃ dropped', s'.Live (fed ++ fedBytes [c]) dropped' ∧ (s.decoder.finished = true → s'.decoder.finished = true)) ∨
      ∃ dropped', s'.Dead (fed ++ fedBytes [c]) dropped' := by
  cases c with
  | feed data =>
    rw [fedBytes_feed, fedBytes_nil, List.append_nil] at hok ⊢
    rcases feed_live h data hok with ⟨d, h1, h2, h3⟩ | ⟨d, h1, h2, -⟩
    · obtain rfl := Exec.ok.inj (h1.symm.trans hcall)
      refine .inl ⟨dropped, h2, fun hf => h2.decoder.finished_iff.mpr ?_⟩
      -- the machine has halted: the call has not moved it
      have hs := h.decoder.finished_iff.mp hf
      have hitem := (Decoder.halts_of_finished dropped (d := { s.decoder with input := s.decoder.input.feed data }) hs).runs_eq
        h3.runs.runs
      exact (congrArg (fun c => c.1.1) hitem).trans hs
    · obtain rfl := Exec.ok.inj (h1.symm.trans hcall)
      exact .inr ⟨dropped, h2⟩
  | advance n =>
    rw [fedBytes_advance, fedBytes_nil, List.append_nil]
    obtain ⟨dropped', d, h1, h2, h3, -⟩ := advance_live h (advance_in_range hcall)
    obtain rfl := Exec.ok.inj (h1.symm.trans hcall)
    exact .inl ⟨dropped', h2, fun hf => h3.finished_eq.trans hf⟩

/-- A call on a session that has reported an error of the stream: only `advance` comes back. -/
theorem call_dead {fed dropped : List UInt8} {s s' : Session} {c : Call} (h : s.Dead fed dropped) (hcall : s.call c = .ok s') :
    ∃ dropped', s'.Dead fed dropped' := by
  cases c with
  | feed data =>
    rw [feed_dead h data] at hcall
    cases hcall
  | advance n =>
    obtain ⟨dropped', d, h1, h2⟩ := advance_dead h (advance_in_range hcall)
    obtain rfl := Exec.ok.inj (h1.symm.trans hcall)
    exact ⟨dropped', h2⟩

/-- A run of calls is its first call and the rest. -/
theorem run_cons_ok {c : Call} {calls : List Call} {s s' : Session} (h : run (c :: calls) s = .ok s') :
    ∃ s₁, s.call c = .ok s₁ ∧ run calls s₁ = .ok s' := by
  rw [run_cons] at h
  exact Exec.bind_eq_ok.mp h

/-- Calls on a session that has reported an error of the stream. -/
theorem run_dead (calls : List Call) {fed dropped : List UInt8} {s s' : Session} (hs : s.Dead fed dropped)
    (h : run calls s = .ok s') : ∃ dropped', s'.Dead fed dropped' := by
  induction calls generalizing s dropped with
  | nil =>
    obtain rfl := Exec.ok.inj h
    exact ⟨dropped, hs⟩
  | cons c calls ih =>
    obtain ⟨s₁, hc, hrun⟩ := run_cons_ok h
    obtain ⟨dropped', h'⟩ := call_dead hs hc
    exact ih h' hrun

/-- Calls that feed no bytes. -/
theorem run_quiet (calls : List Call) {fed dropped : List UInt8} {s s' : Session} (hs : s.Live fed dropped)
    (hquiet : fedBytes calls = []) (h : run calls s = .ok s') :
    (∃ dropped', s'.Live fed dropped') ∨ ∃ dropped', s'.Dead fed dropped' := by
  induction calls generalizing s dropped with
  | nil =>
    obtain rfl := Exec.ok.inj h
    exact .inl ⟨dropped, hs⟩
  | cons c calls ih =>
    obtain ⟨s₁, hc, hrun⟩ := run_cons_ok h
    have hsplit : fedBytes (c :: calls) = fedBytes [c] ++ fedBytes calls := by
      simp [fedBytes]
    rw [hsplit, List.append_eq_nil_iff] at hquiet
    rcases call_live hs (fun _ => hquiet.1) hc with ⟨dropped', h', -⟩ | ⟨dropped', h'⟩
    · rw [hquiet.1, List.append_nil] at h'
      exact ih h' hquiet.2 hrun
    · rw [hquiet.1, List.append_nil] at h'
      exact .inr (run_dead calls h' hrun)

/-- Any calls that come back. -/
theorem run_reached (calls : List Call) {fed : List UInt8} {s s' : Session} (hs : s.Reached fed)
    (h : run calls s = .ok s') : s'.Reached (fed ++ fedBytes calls) := by
  induction calls generalizing fed s with
  | nil =>
    obtain rfl := Exec.ok.inj h
    rwa [fedBytes_nil, List.append_nil]
  | cons c calls ih =>
    obtain ⟨s₁, hc, hrun⟩ := run_cons_ok h
    have hsplit : fedBytes (c :: calls) = fedBytes [c] ++ fedBytes calls := by
      simp [fedBytes]
    rw [hsplit, ← List.append_assoc]
    refine ih ?_ hrun
    rcases hs with ⟨accepted, dropped, hlive, hfed⟩ | ⟨accepted, dropped, hdead⟩
    · by_cases hrejected : s.decoder.finished = true ∧ fedBytes [c] ≠ []
      · -- bytes behind the end of the stream: nothing changes but the report
        obtain ⟨hfin, hne⟩ := hrejected
        cases c with
        | feed data =>
          rw [fedBytes_feed, fedBytes_nil, List.append_nil] at hne
          obtain rfl := Exec.ok.inj ((feed_finished hfin hne).symm.trans hc)
          refine .live accepted dropped ⟨hlive.decoder, ⟨hlive.tracks.windowed, hlive.tracks.taken_eq⟩⟩ (.inr ⟨hfin, ?_⟩)
          rcases hfed with rfl | ⟨-, hpre⟩
          · exact List.prefix_append _ _
          · exact hpre.trans (List.prefix_append _ _)
        | advance n => exact absurd rfl hne
      · have hok : s.decoder.finished = true → fedBytes [c] = [] := fun hf => by
          by_contra hne
          exact hrejected ⟨hf, hne⟩
        rcases call_live hlive hok hc with ⟨dropped', h', hstays⟩ | ⟨dropped', h'⟩
        · refine .live _ dropped' h' ?_
          rcases hfed with rfl | ⟨hfin, hpre⟩
          · exact .inl rfl
          · rw [hok hfin, List.append_nil, List.append_nil]
            exact .inr ⟨hstays hfin, hpre⟩
        · exact .dead _ dropped' h'
    · obtain ⟨dropped', h'⟩ := call_dead hdead hc
      exact .dead _ dropped' h'

/-! ## Settling -/

/-- Where settling ends: the machine stops there, with that verdict and that output. -/
structure Settled (fed : List UInt8) (verdict : Verdict) (s : Session) : Prop where
  stopped : ∃ c, itemMachine.Runs (startItem fed) c ∧ itemMachine.Stops c verdict ∧ c.1.2 = s.output ∧
    (verdict ≠ .failed → c = s.item ∧ ∃ dropped, s.Live fed dropped)
  finished_iff : s.decoder.finished = true ↔ verdict = .halted
  failed_iff : s.failed = true ↔ verdict = .failed

/-- Draining a session leaves nothing unread. -/
theorem unread_eq_nil {dropped dropped' : List UInt8} {d d' : Decoder}
    (hhist : d'.history dropped' = d.history dropped)
    (hlen : dropped'.length + d'.drained = dropped.length + d.drained + d.unread.length) (hle : d.drained ≤ d.output.length) :
    d'.unread = [] := by
  have hlength := congrArg List.length hhist
  rw [Decoder.history, Decoder.history, List.length_append, List.length_append] at hlength
  rw [Decoder.unread, List.length_drop] at hlen
  rw [Decoder.unread, List.drop_eq_nil_iff]
  omega

/-- Feeding nothing leaves a decoder where it stands. -/
theorem item_feed_nil (dropped : List UInt8) (d : Decoder) :
    Decoder.item dropped { d with input := d.input.feed [] } = d.item dropped := by
  simp only [Decoder.item, Decoder.env, Buf.get_feed, List.append_nil]

theorem settleLoop_dead (fuel : Nat) {fed dropped : List UInt8} {s : Session} (h : s.Dead fed dropped)
    (hf : s.failed = true) : ∃ s', settleLoop (fuel + 1) s = .ok (.failed, s') ∧ Settled fed .failed s' := by
  obtain ⟨dropped', d, h1, h2⟩ := advance_dead h le_rfl
  have hloop : settleLoop (fuel + 1) s = .ok (.failed, { s with
      decoder := d, taken := s.taken ++ s.decoder.unread.take s.decoder.unread.length }) := by
    rw [settleLoop, h1, Exec.ok_bind]
    simp only [hf, if_true]
  obtain ⟨c, hr, hout, hstop⟩ := h2.decoder.failed
  refine ⟨_, hloop, ⟨⟨c, hr, hstop, hout.trans h2.tracks.output_eq.symm, fun hne => absurd rfl hne⟩, ?_, ?_⟩⟩
  · rw [h2.decoder.finished_eq]
    exact ⟨fun h => (nomatch h), fun h => (nomatch h)⟩
  · exact ⟨fun _ => rfl, fun _ => hf⟩

theorem settleLoop_live (fuel : Nat) {fed dropped : List UInt8} {s : Session} (h : s.Live fed dropped)
    (hf : s.failed = false) (hfuel : rank (s.decoder.item dropped) + 1 < fuel) :
    ∃ verdict s', settleLoop fuel s = .ok (verdict, s') ∧ Settled fed verdict s' := by
  induction fuel generalizing s dropped with
  | zero => omega
  | succ fuel ih =>
    obtain ⟨d₀, taken, failed⟩ := s
    obtain rfl : failed = false := hf
    obtain ⟨dropped₁, d₁, h1, hlive₁, hsame, hitem, hlen⟩ := advance_live h le_rfl
    have hhist : d₁.history dropped₁ = d₀.history dropped := congrArg (fun c => c.1.2) hitem
    have hunread : d₁.unread = [] := unread_eq_nil hhist hlen h.decoder.windowed.drained_le
    rw [settleLoop, h1, Exec.ok_bind]
    simp only [Bool.false_eq_true, if_false]
    by_cases hfin : d₁.finished = true
    · rw [if_pos hfin]
      refine ⟨_, _, rfl, ⟨⟨_, hlive₁.decoder.runs, ?_, ?_, fun _ => ⟨?_, dropped₁, hlive₁⟩⟩, ?_, ?_⟩⟩
      · exact Decoder.halts_of_finished dropped₁ (hlive₁.decoder.finished_iff.mp hfin)
      · exact hlive₁.tracks.output_eq.symm
      · exact hlive₁.tracks.item_eq.symm
      · exact ⟨fun _ => rfl, fun _ => hfin⟩
      · exact ⟨fun h => (nomatch h), fun h => (nomatch h)⟩
    · rw [if_neg hfin]
      rcases feed_live hlive₁ [] (fun _ => rfl) with ⟨d₂, h3, h4, h5⟩ | ⟨d₂, h3, h4, -⟩
      · rw [List.append_nil] at h4 h5
        rw [h3, Exec.ok_bind]
        by_cases hstall : (!false && d₂.unread.isEmpty && d₂.remainingInput.length == d₁.remainingInput.length &&
            !d₂.finished) = true
        · rw [if_pos hstall]
          simp only [Bool.not_false, Bool.true_and, Bool.and_eq_true, List.isEmpty_iff, beq_iff_eq,
            Bool.not_eq_true'] at hstall
          obtain ⟨⟨hempty, -⟩, hnot⟩ := hstall
          refine ⟨_, _, rfl, ⟨⟨_, h4.decoder.runs, ?_, ?_, fun _ => ⟨?_, dropped₁, h4⟩⟩, ?_, ?_⟩⟩
          · rcases h5.paused.paused with hd | hwait | ⟨hcap, -⟩
            · rw [hnot] at hd
              cases hd
            · exact hwait
            · rw [hempty] at hcap
              exact absurd hcap (by decide)
          · exact h4.tracks.output_eq.symm
          · exact h4.tracks.item_eq.symm
          · rw [hnot]
            exact ⟨fun h => (nomatch h), fun h => (nomatch h)⟩
          · exact ⟨fun h => (nomatch h), fun h => (nomatch h)⟩
        · rw [if_neg hstall]
          refine ih h4 rfl ?_
          have hrank := h5.rank_lt
          rw [item_feed_nil] at hrank
          have heq₁ : rank (d₁.item dropped₁) = rank (d₀.item dropped) := by rw [hitem]
          rcases hrank with ⟨hsame₂, hremaining⟩ | hlt
          · -- nothing has moved: then the loop would have stopped
            exfalso
            refine hstall ?_
            have hhist₂ : d₂.history dropped₁ = d₁.history dropped₁ := congrArg (fun c => c.1.2) hsame₂
            have hunread₂ : d₂.unread = d₁.unread := by
              have hout : d₂.output = d₁.output := List.append_cancel_left hhist₂
              rw [Decoder.unread, Decoder.unread, hout, h5.drained_eq]
            have hstate : d₂.state = d₁.state := congrArg (fun c => c.1.1) hsame₂
            have hfin₂ : ¬d₂.finished = true := by
              rw [h5.live.finished_iff, hstate, ← hlive₁.decoder.finished_iff]
              exact hfin
            have hrem : d₂.remainingInput = d₁.remainingInput := by
              rw [hremaining]
              simp only [Decoder.remainingInput, Buf.get_feed, List.append_nil]
            rw [hunread₂, hunread, hrem]
            simpa using hfin₂
          · have hlt' : rank (d₂.item dropped₁) < rank (d₁.item dropped₁) := hlt
            have hfuel' : rank (d₀.item dropped) + 1 < fuel + 1 := hfuel
            change rank (d₂.item dropped₁) + 1 < fuel
            omega
      · rw [List.append_nil] at h4
        rw [h3, Exec.ok_bind]
        simp only [Bool.not_true, Bool.false_and, Bool.false_eq_true, if_false]
        obtain ⟨n, rfl⟩ : ∃ n, fuel = n + 1 := ⟨fuel - 1, by omega⟩
        obtain ⟨s', h6, h7⟩ := settleLoop_dead n h4 rfl
        exact ⟨_, s', h6, h7⟩

/-- Settling a session ends where the machine stops. -/
theorem settle_spec {fed : List UInt8} {s : Session}
    (h : (s.failed = false ∧ ∃ dropped, s.Live fed dropped) ∨ (s.failed = true ∧ ∃ dropped, s.Dead fed dropped)) :
    ∃ verdict s', s.settle = .ok (verdict, s') ∧ Settled fed verdict s' := by
  rcases h with ⟨hf, dropped, hlive⟩ | ⟨hf, dropped, hdead⟩
  · have hrank := Decoder.rank_lt_driveFuel dropped s.decoder
    exact settleLoop_live _ hlive hf (by omega)
  · obtain ⟨s', h1, h2⟩ := settleLoop_dead (s.decoder.driveFuel + 1) hdead hf
    exact ⟨_, s', h1, h2⟩

/-- Permitted calls on a fresh decoder, settled: the verdict and the output are where the machine stops on the bytes fed. -/
theorem outcome_spec {calls : List Call} (hp : Permitted start calls) :
    ∃ verdict output c, outcome calls = .ok (verdict, output) ∧ itemMachine.Runs (startItem (fedBytes calls)) c ∧
      itemMachine.Stops c verdict ∧ c.1.2 = output := by
  obtain ⟨s, h1, h2⟩ := run_permitted calls hp (.inl ⟨rfl, [], start_live⟩)
  rw [List.nil_append] at h2
  obtain ⟨verdict, s', h3, h4⟩ := settle_spec h2
  obtain ⟨c, hr, hstop, hout, -⟩ := h4.stopped
  exact ⟨verdict, s'.output, c, by rw [outcome, h1, Exec.ok_bind, h3, Exec.ok_bind], hr, hstop, hout⟩

end Session

/-! ## Input that is not all there -/

/-- The machine from its start, over more bytes: a run that did not end for want of input is a run over all of them. -/
theorem stops_of_prefix {fed bytes : List UInt8} {c : ItemState × List Bool} {verdict : Verdict} (h : fed <+: bytes)
    (hr : itemMachine.Runs (startItem fed) c) (hstop : itemMachine.Stops c verdict) (hv : verdict ≠ .waiting) :
    ∃ rest, itemMachine.Runs (startItem bytes) (c.1, c.2 ++ ofBytes rest) ∧
      itemMachine.Stops (c.1, c.2 ++ ofBytes rest) verdict ∧ bytes = fed ++ rest := by
  obtain ⟨rest, rfl⟩ := h
  have hx : (ofBytes rest).length % 8 = 0 := by rw [length_ofBytes, Nat.mul_mod_right]
  have happ := hr.append itemMachine_mono hx
  refine ⟨rest, ?_, hstop.append itemMachine_mono hv hx, rfl⟩
  unfold startItem at happ ⊢
  rwa [ofBytes_append]

/-- The machine waits for input behind a byte string: it has neither failed nor halted on any beginning of it. -/
theorem waiting_of_prefix {fed bytes : List UInt8} {c c' : ItemState × List Bool} {verdict : Verdict} (h : fed <+: bytes)
    (hr : itemMachine.Runs (startItem bytes) c) (hstop : itemMachine.Stops c .waiting)
    (hr' : itemMachine.Runs (startItem fed) c') (hstop' : itemMachine.Stops c' verdict) : verdict = .waiting := by
  by_contra hne
  obtain ⟨rest, h1, h2, -⟩ := stops_of_prefix h hr' hstop' hne
  exact hne (Machine.stop_unique h1 h2 hr hstop).2

namespace Session

/-- Calls in range that feed the beginning of a byte string behind which the machine waits for input: none of them fails. -/
theorem run_waiting {bytes : List UInt8} {c : ItemState × List Bool} (hr : itemMachine.Runs (startItem bytes) c)
    (hstop : itemMachine.Stops c .waiting) (calls : List Call) {fed dropped : List UInt8} {s : Session} (hs : s.Live fed dropped)
    (hf : s.failed = false) (hrange : InRange s calls) (hfed : fed ++ fedBytes calls <+: bytes) :
    ∃ s' dropped', run calls s = .ok s' ∧ s'.failed = false ∧ s'.Live (fed ++ fedBytes calls) dropped' := by
  induction calls generalizing fed dropped s with
  | nil =>
    rw [fedBytes_nil, List.append_nil]
    exact ⟨s, dropped, rfl, hf, hs⟩
  | cons c' calls ih =>
    obtain ⟨hc, hrest⟩ := along_cons.mp hrange
    rw [run_cons]
    cases c' with
    | feed data =>
      rw [fedBytes_feed, ← List.append_assoc] at hfed ⊢
      have hpre : fed ++ data <+: bytes := (List.prefix_append _ _).trans hfed
      have hnot : ¬s.decoder.finished = true := by
        intro hfin
        have hhalt := Decoder.halts_of_finished dropped (hs.decoder.finished_iff.mp hfin)
        cases waiting_of_prefix ((List.prefix_append _ _).trans hpre) hr hstop hs.decoder.runs hhalt
      rcases feed_live hs data fun hfin => absurd hfin hnot with ⟨d, h1, h2, -⟩ | ⟨d, h1, h2, -⟩
      · rw [h1, Exec.ok_bind]
        exact ih h2 hf (hrest _ h1) hfed
      · obtain ⟨c'', hr', -, hstop'⟩ := h2.decoder.failed
        cases waiting_of_prefix hpre hr hstop hr' hstop'
    | advance n =>
      obtain ⟨dropped', d, h1, h2, -⟩ := advance_live hs hc
      rw [h1, Exec.ok_bind]
      exact ih h2 hf (hrest _ h1) hfed

end Session

end Noflate
