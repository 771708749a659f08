import Noflate.Lemmas.Completeness
import Noflate.Lemmas.Decompress

/-!
# When is a stream truncated?

`decompress` comes back on every byte string. It reports a truncated stream exactly when what can be decoded of the bytes holds no
error of the stream and does not complete the final block. The test of its loop holds only where further empty feeds change
nothing (`truncation_verdict`).
-/

namespace Noflate

open BitString Resumable

/-- The test of the loop of `decompress`: an empty feed has left no output and as much input as there was before it, and the
stream is not finished. -/
structure Stalled (before after : Decoder) : Prop where
  unread_eq : after.unread = []
  remaining_eq : after.remainingInput.length = before.remainingInput.length
  not_finished : after.finished = false

/-- Two decoders that differ at most in how much of its consumed prefix their input buffer keeps. -/
structure Decoder.Unchanged (d d' : Decoder) : Prop where
  remaining_eq : d'.remainingInput = d.remainingInput
  same : d' = { d with input := d'.input }

namespace Decoder

theorem Unchanged.refl (d : Decoder) : d.Unchanged d := ⟨rfl, rfl⟩

theorem Unchanged.trans {d d' d'' : Decoder} (h : d.Unchanged d') (h' : d'.Unchanged d'') : d.Unchanged d'' := by
  refine ⟨h'.remaining_eq.trans h.remaining_eq, ?_⟩
  rw [h'.same, h.same]

/-- An empty feed of a decoder that waits for input changes nothing. -/
theorem feed_nil_waiting {fed dropped : List UInt8} {d : Decoder} (h : d.Live fed dropped)
    (hwait : itemMachine.Stops (d.item dropped) .waiting) :
    ∃ d', d.feed [] = (.ok (), d') ∧ d.Unchanged d' ∧ d'.Live fed dropped ∧ itemMachine.Stops (d'.item dropped) .waiting := by
  have hstart : item dropped { d with input := d.input.feed [] } = d.item dropped := Session.item_feed_nil dropped d
  rcases feed_spec h [] fun _ => rfl with ⟨d', h1, h2⟩ | ⟨e, d', -, h2, -, -, c, hr, hstop, -⟩
  · rw [List.append_nil] at h2
    have hruns := h2.runs.runs
    rw [hstart] at hruns
    have hitem : d'.item dropped = d.item dropped := hwait.runs_eq hruns
    have hremaining : d'.remainingInput = d.remainingInput := by
      rcases h2.rank_lt with ⟨-, hrem⟩ | hlt
      · rw [hrem]
        simp only [remainingInput, Buf.get_feed, List.append_nil]
      · rw [hstart, hitem] at hlt
        exact absurd hlt (Nat.lt_irrefl _)
    have hstate : d'.state = d.state := congrArg (fun c => c.1.1) hitem
    have houtput : d'.output = d.output := List.append_cancel_left (congrArg (fun c => c.1.2) hitem)
    have hbits : ofNat d'.pendingBitCount d'.pendingBitBuffer ++ ofBytes d'.remainingInput =
        ofNat d.pendingBitCount d.pendingBitBuffer ++ ofBytes d.remainingInput := congrArg Prod.snd hitem
    rw [hremaining] at hbits
    have hheld := List.append_cancel_right hbits
    have hcount : d'.pendingBitCount = d.pendingBitCount := by
      have hlength := congrArg List.length hheld
      rwa [length_ofNat, length_ofNat] at hlength
    have hbuffer : d'.pendingBitBuffer = d.pendingBitBuffer := by
      have hlt : d.pendingBitBuffer < 2 ^ d.pendingBitCount := h.ok.wf.buffer_lt
      have hlt' : d'.pendingBitBuffer < 2 ^ d'.pendingBitCount := h2.live.ok.wf.buffer_lt
      have hvalue := congrArg toNat hheld
      rwa [toNat_ofNat_of_lt hlt, toNat_ofNat_of_lt hlt'] at hvalue
    have hfinished : d'.finished = d.finished := by
      rw [Bool.eq_iff_iff, h2.live.finished_iff, h.finished_iff, hstate]
    refine ⟨d', h1, ⟨hremaining, ?_⟩, h2.live, by rwa [hitem]⟩
    have hdrained : d'.drained = d.drained := h2.drained_eq
    cases d'
    simp only at hstate houtput hcount hbuffer hfinished hdrained
    rw [hstate, houtput, hcount, hbuffer, hfinished, hdrained]
  · have hruns := hr.runs
    rw [hstart] at hruns
    obtain rfl := hwait.runs_eq hruns
    cases (Machine.stop_unique (Machine.Runs.refl _) hwait (Machine.Runs.refl _) hstop).2

end Decoder

namespace Session

/-- Empty feeds of a session whose decoder waits for input change nothing. -/
theorem run_empty_feeds (n : Nat) {fed dropped : List UInt8} {s : Session} (h : s.decoder.Live fed dropped)
    (hwait : itemMachine.Stops (s.decoder.item dropped) .waiting) :
    ∃ d, run (List.replicate n (.feed [])) s = .ok { s with decoder := d } ∧ s.decoder.Unchanged d := by
  induction n generalizing s with
  | zero => exact ⟨s.decoder, rfl, Decoder.Unchanged.refl _⟩
  | succ n ih =>
    obtain ⟨d, h1, h2, h3, h4⟩ := Decoder.feed_nil_waiting h hwait
    have hcall : s.call (.feed []) = .ok { s with decoder := d } := by simp only [call, h1]
    obtain ⟨d', h5, h6⟩ := @ih { s with decoder := d } h3 h4
    refine ⟨d', ?_, h2.trans h6⟩
    rw [List.replicate_succ, run_cons, hcall, Exec.ok_bind]
    exact h5

/-- Where an empty feed stalls, the decoder waits for input. -/
theorem waiting_of_stalled {calls : List Call} {s : Session} {d : Decoder} (h : run calls start = .ok s)
    (hfeed : s.decoder.feed [] = (.ok (), d)) (hstall : Stalled s.decoder d) :
    ∃ fed dropped, d.Live fed dropped ∧ itemMachine.Stops (d.item dropped) .waiting := by
  have hreached := run_reached calls (.live [] [] start_live (.inl rfl)) h
  rw [List.nil_append] at hreached
  rcases hreached with ⟨accepted, dropped, hlive, -⟩ | ⟨accepted, dropped, hdead⟩
  · rcases Decoder.feed_spec hlive.decoder [] fun _ => rfl with ⟨d', h1, h2⟩ | ⟨e, d', h1, -⟩
    · obtain rfl : d' = d := congrArg Prod.snd (h1.symm.trans hfeed)
      refine ⟨_, dropped, h2.live, ?_⟩
      rcases h2.paused.paused with hfin | hwait | ⟨hcap, -⟩
      · cases hstall.not_finished.symm.trans hfin
      · exact hwait
      · rw [hstall.unread_eq] at hcap
        exact absurd hcap (by decide)
    · cases congrArg Prod.fst (h1.symm.trans hfeed)
  · have hpanic := Decoder.feed_dead hdead.decoder []
    rw [hfeed] at hpanic
    cases hpanic

end Session

/-- `decompress` and truncated streams. It comes back on every byte string, with an output or an error. The error is that of a
truncated stream exactly when the machine neither fails on the bytes nor halts: there is no error of the stream in what can be
decoded and the final block is not complete. What the machine fails on is what the decoder refuses, which is not the format to the
letter: code lengths of distances that are all zero are an error, and 287 or 288 code lengths of literals are none. The error is never
that of a truncated stream on a complete one, and nothing decoded is lost. And in a run of calls, when an empty feed stalls, any number
of further empty feeds comes back and changes nothing. -/
theorem truncation_verdict :
    (∀ data, ((∃ output, Deflate.decompress data = .ok output) ∨ ∃ e, Deflate.decompress data = .err e) ∧
      (Deflate.decompress data = .err truncatedError ↔ ∀ c, itemMachine.Runs (startItem data) c →
        ¬itemMachine.Stops c .failed ∧ ¬itemMachine.Stops c .halted) ∧
      (∀ meaning, Rfc1951.inflate (ofBytes data) = some meaning → Deflate.decompress data ≠ .err truncatedError) ∧
      ∀ c, itemMachine.Runs (startItem data) c → itemMachine.Stops c .halted → Deflate.decompress data = .ok c.1.2) ∧
    ∀ calls s d, Session.run calls Session.start = .ok s → s.decoder.feed [] = (.ok (), d) → Stalled s.decoder d →
      ∀ n, ∃ d', Session.run (List.replicate n (.feed [])) { s with decoder := d } = .ok { s with decoder := d' } ∧
        d.Unchanged d' := by
  refine ⟨fun data => ?_, fun calls s d h hfeed hstall n => ?_⟩
  · obtain ⟨verdict, c, hr, hstop, hres⟩ := decompress_spec data
    have hunique : ∀ c' v, itemMachine.Runs (startItem data) c' → itemMachine.Stops c' v → c' = c ∧ v = verdict :=
      fun c' v hr' hstop' => Machine.stop_unique hr' hstop' hr hstop
    refine ⟨?_, ⟨fun he c' hr' => ?_, fun hnot => ?_⟩, fun meaning hm he => ?_, fun c' hr' hhalt => ?_⟩
    · rcases hres with ⟨-, -, hok⟩ | ⟨-, he⟩ | ⟨-, e, -, he⟩
      · exact .inl ⟨_, hok⟩
      · exact .inr ⟨_, he⟩
      · exact .inr ⟨e, he⟩
    · rcases hres with ⟨-, -, hok⟩ | ⟨rfl, -⟩ | ⟨-, e, hne, he'⟩
      · cases he.symm.trans hok
      · exact ⟨fun hs => (nomatch (hunique c' _ hr' hs).2), fun hs => (nomatch (hunique c' _ hr' hs).2)⟩
      · exact absurd (Exec.err.inj (he'.symm.trans he)) hne
    · rcases hres with ⟨rfl, -, -⟩ | ⟨-, he⟩ | ⟨rfl, -⟩
      · exact absurd hstop (hnot c hr).2
      · exact he
      · exact absurd hstop (hnot c hr).1
    · have hwait := not_waiting_of_inflate hm hr
      rcases hres with ⟨-, -, hok⟩ | ⟨rfl, -⟩ | ⟨-, e, hne, he'⟩
      · cases he.symm.trans hok
      · exact hwait hstop
      · exact hne (Exec.err.inj (he'.symm.trans he))
    · obtain ⟨rfl, rfl⟩ := hunique c' _ hr' hhalt
      rcases hres with ⟨-, -, hok⟩ | ⟨hne, -⟩ | ⟨hne, -⟩
      · exact hok
      · cases hne
      · cases hne
  · obtain ⟨fed, dropped, hlive, hwait⟩ := Session.waiting_of_stalled h hfeed hstall
    exact @Session.run_empty_feeds n _ _ { s with decoder := d } hlive hwait

/-- The header of a stored block and half of its length: an empty feed stalls. -/
theorem truncation_verdict_stored :
    Deflate.decompress [1, 1, 0] = .err truncatedError ∧
      ∃ s d, Session.run [.feed [1, 1, 0]] Session.start = .ok s ∧ s.decoder.feed [] = (.ok (), d) ∧ Stalled s.decoder d ∧
        ∀ n, ∃ d', Session.run (List.replicate n (.feed [])) { s with decoder := d } = .ok { s with decoder := d' } ∧
          d.Unchanged d' := by
  refine ⟨by decide +kernel, ?_⟩
  have hfeed : (Decoder.new.feed [1, 1, 0]).1 = .ok () := by decide +kernel
  have hagain : ((Decoder.new.feed [1, 1, 0]).2.feed []).1 = .ok () := by decide +kernel
  have hrun : Session.run [.feed [1, 1, 0]] Session.start =
      .ok { decoder := (Decoder.new.feed [1, 1, 0]).2, taken := [], failed := false } := by
    rw [Session.run_cons, Session.call, show Session.start.decoder.feed [1, 1, 0] = (.ok (), (Decoder.new.feed [1, 1, 0]).2) from
      Prod.ext hfeed rfl]
    rfl
  have hstall : Stalled (Decoder.new.feed [1, 1, 0]).2 ((Decoder.new.feed [1, 1, 0]).2.feed []).2 :=
    ⟨by decide +kernel, by decide +kernel, by decide +kernel⟩
  exact ⟨_, _, hrun, Prod.ext hagain rfl, hstall, truncation_verdict.2 _ _ _ hrun (Prod.ext hagain rfl) hstall⟩

end Noflate
