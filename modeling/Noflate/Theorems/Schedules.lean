import Noflate.Lemmas.Sessions

/-!
# Schedule independence

However a byte string is cut into pieces and whenever its output is consumed, the decoder gives the same output and the same
verdict.
-/

namespace Noflate

open BitString Resumable

/-- A schedule for a byte string: permitted calls on a fresh decoder that feed all of it, or its beginning up to where an error
was reported or the stream ended. -/
structure Schedule (bytes : List UInt8) (calls : List Call) : Prop where
  permitted : Session.Permitted Session.start calls
  feeds : fedBytes calls = bytes ∨ (fedBytes calls <+: bytes ∧
    ∃ s, Session.run calls Session.start = .ok s ∧ (s.failed = true ∨ s.decoder.finished = true))

/-- A schedule for a byte string ends where the machine stops on the whole string. -/
theorem Schedule.stops {bytes : List UInt8} {calls : List Call} (h : Schedule bytes calls) :
    ∃ verdict output c, Session.outcome calls = .ok (verdict, output) ∧ itemMachine.Runs (startItem bytes) c ∧
      itemMachine.Stops c verdict ∧ c.1.2 = output := by
  obtain ⟨verdict, output, c, h1, hr, hstop, hout⟩ := Session.outcome_spec h.permitted
  rcases h.feeds with rfl | ⟨hpre, s, hrun, hend⟩
  · exact ⟨verdict, output, c, h1, hr, hstop, hout⟩
  · -- the calls ended early: the machine has failed or halted there
    obtain ⟨s', hrun', hs⟩ := Session.run_permitted calls h.permitted (.inl ⟨rfl, [], Session.start_live⟩)
    rw [List.nil_append] at hs
    obtain rfl : s = s' := Exec.ok.inj (hrun.symm.trans hrun')
    have hv : verdict ≠ .waiting := by
      rintro rfl
      rcases hs with ⟨hf, dropped, hlive⟩ | ⟨-, dropped, hdead⟩
      · rcases hend with hfail | hfin
        · cases hf.symm.trans hfail
        · have hhalt := Decoder.halts_of_finished dropped (hlive.decoder.finished_iff.mp hfin)
          cases (Machine.stop_unique hr hstop hlive.decoder.runs hhalt).2
      · obtain ⟨c', hr', -, hstop'⟩ := hdead.decoder.failed
        cases (Machine.stop_unique hr hstop hr' hstop').2
    obtain ⟨rest, hr', hstop', -⟩ := stops_of_prefix hpre hr hstop hv
    exact ⟨verdict, output, _, h1, hr', hstop', hout⟩

/-- Two schedules for one byte string give the same verdict and the same output. -/
theorem schedule_independence {bytes : List UInt8} {calls calls' : List Call} (h : Schedule bytes calls)
    (h' : Schedule bytes calls') :
    ∃ verdict output, Session.outcome calls = .ok (verdict, output) ∧ Session.outcome calls' = .ok (verdict, output) := by
  obtain ⟨verdict, output, c, h1, hr, hstop, hout⟩ := h.stops
  obtain ⟨verdict', output', c', h1', hr', hstop', hout'⟩ := h'.stops
  obtain ⟨rfl, rfl⟩ := Machine.stop_unique hr hstop hr' hstop'
  exact ⟨verdict, output, h1, by rw [h1', ← hout', hout]⟩

/-- A stored block fed at once, and fed in two pieces with its output consumed at the end. -/
theorem schedule_independence_stored :
    ∃ verdict output, Session.outcome [.feed [1, 1, 0, 254, 255, 65]] = .ok (verdict, output) ∧
      Session.outcome [.feed [1, 1, 0], .feed [254, 255, 65], .advance 1] = .ok (verdict, output) :=
  have h : Schedule [1, 1, 0, 254, 255, 65] [.feed [1, 1, 0, 254, 255, 65]] := ⟨by decide +kernel, .inl rfl⟩
  have h' : Schedule [1, 1, 0, 254, 255, 65] [.feed [1, 1, 0], .feed [254, 255, 65], .advance 1] :=
    ⟨by decide +kernel, .inl rfl⟩
  schedule_independence h h'

end Noflate
