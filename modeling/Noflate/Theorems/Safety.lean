import Noflate.Lemmas.Sessions

/-!
# No panic before the first error

Up to the first call of `feed` that reports an error, and with it, calls on a fresh decoder come back, whatever bytes are fed and
however they are cut (`no_panic_before_error`): a result of the model is a panic wherever an index, a shift, a sum, a difference or
an assertion of the source would be one.
-/

namespace Noflate

namespace Session

/-- A call before any error was reported, that consumes no more output than there is. -/
def BeforeError (s : Session) (c : Call) : Prop := s.failed = false ∧ s.ConsumesInRange c

instance (s : Session) (c : Call) : Decidable (s.BeforeError c) := inferInstanceAs (Decidable (_ ∧ _))

instance (s : Session) (calls : List Call) : Decidable (Along BeforeError s calls) :=
  decidableAlong (fun _ _ => inferInstance) s calls

/-- A session that has reported no error is on the run of the machine. -/
def Sane (s : Session) : Prop := s.failed = false → ∃ fed dropped, s.Live fed dropped

/-- A call before the first error comes back. -/
theorem call_sane {s : Session} {c : Call} (h : s.Sane) (hc : s.BeforeError c) : ∃ s', s.call c = .ok s' ∧ s'.Sane := by
  obtain ⟨hf, hrange⟩ := hc
  obtain ⟨fed, dropped, hlive⟩ := h hf
  cases c with
  | feed data =>
    by_cases hend : s.decoder.finished = true ∧ data ≠ []
    · -- bytes behind the end of the stream are the first error
      exact ⟨_, feed_finished hend.1 hend.2, fun hf' => nomatch hf'⟩
    · have hok : s.decoder.finished = true → data = [] := fun hfin => by
        by_contra hne
        exact hend ⟨hfin, hne⟩
      rcases feed_live hlive data hok with ⟨d, h1, h2, -⟩ | ⟨d, h1, -⟩
      · exact ⟨_, h1, fun _ => ⟨_, _, h2⟩⟩
      · exact ⟨_, h1, fun hf' => nomatch hf'⟩
  | advance n =>
    obtain ⟨dropped', d, h1, h2, -⟩ := advance_live hlive hrange
    exact ⟨_, h1, fun _ => ⟨_, _, h2⟩⟩

/-- Calls before the first error come back. -/
theorem run_sane (calls : List Call) {s : Session} (h : s.Sane) (hc : Along BeforeError s calls) :
    ∃ s', run calls s = .ok s' := by
  induction calls generalizing s with
  | nil => exact ⟨s, rfl⟩
  | cons c calls ih =>
    obtain ⟨hfirst, hrest⟩ := along_cons.mp hc
    obtain ⟨s₁, h1, h2⟩ := call_sane h hfirst
    obtain ⟨s', h3⟩ := ih h2 (hrest s₁ h1)
    refine ⟨s', ?_⟩
    rw [run_cons, h1, Exec.ok_bind]
    exact h3

end Session

/-- Calls of `feed` with any bytes and calls of `advance` in range, on a fresh decoder and none of them behind a reported error:
they all come back, the one that reports the first error included. No panic is reached. -/
theorem no_panic_before_error {calls : List Call} (h : Session.Along Session.BeforeError Session.start calls) :
    ∃ s, Session.run calls Session.start = .ok s :=
  Session.run_sane calls (fun _ => ⟨[], [], Session.start_live⟩) h

/-- A stored block whose lengths do not match, the first error, behind a block with a byte that is consumed. -/
theorem no_panic_before_error_stored :
    ∃ s, Session.run [.feed [0, 1, 0, 254, 255, 65], .advance 1, .feed [], .feed [1, 0, 0, 0, 0]] Session.start = .ok s :=
  no_panic_before_error (by decide +kernel)

end Noflate
