import Noflate.Lemmas.Sessions

/-!
# The placeholder between calls

A step takes the state out of the decoder and leaves the placeholder in its place; an error of the stream leaves it there for
good, and the next call of `feed` panics. So the placeholder stays out of sight exactly in the runs in which no call of `feed`
meets an error of the stream (`never_placeholder_iff`), which can be told from the bytes fed and the number of bytes consumed
before the call: the machine on bits fails on those bytes before it has put out what lets the decoder yield.
-/

namespace Noflate

open BitString Resumable

/-- The number of bytes that calls consume. -/
def consumedBytes : List Call → Nat
  | [] => 0
  | .feed _ :: calls => consumedBytes calls
  | .advance n :: calls => n + consumedBytes calls

/-- Bytes fed that are malformed within reach: the machine fails on them, with less output than the bytes consumed and the cap. It fails
on a block of the reserved type, a stored block whose lengths do not match, more than 30 code lengths of distances, code lengths that
make no table (all of them zero, or over-subscribed) or run past their number, a repetition of none, bits that are no code, a symbol that
means nothing, and a distance beyond the output; on nothing else, so 287 and 288 code lengths of literals pass. -/
def Malformed (fed : List UInt8) (consumed : Nat) : Prop := Decoder.Fails (consumed + maxInternalBuffer) (startItem fed)

theorem Below.mono {limit limit' : Nat} (hle : limit ≤ limit') (c : ItemState × List Bool) (h : Below limit c) :
    Below limit' c := by
  obtain ⟨⟨s, output⟩, bits⟩ := c
  cases s with
  | symbolLoop isFinal literal distance => exact lt_of_lt_of_le h hle
  | _ => trivial

theorem Below.append {limit : Nat} (x : List Bool) (c : ItemState × List Bool) (h : Below limit c) :
    Below limit (c.1, c.2 ++ x) := by
  obtain ⟨⟨s, output⟩, bits⟩ := c
  cases s with
  | symbolLoop isFinal literal distance => exact h
  | _ => trivial

/-- Where a run below a limit has got to, the machine fails below it exactly when it does from the start. -/
theorem fails_iff_of_runs {limit : Nat} {c c' : ItemState × List Bool} (h : itemMachine.RunsWithin (Below limit) c c') :
    Decoder.Fails limit c ↔ Decoder.Fails limit c' := by
  constructor
  · rintro ⟨c'', hr, hstop, hb⟩
    exact ⟨c'', h.to_stop hr hstop, hstop, hb⟩
  · rintro ⟨c'', hr, hstop, hb⟩
    exact ⟨c'', h.trans hr, hstop, hb⟩

namespace Session

/-- A session without an error of the stream: what its decoder has taken of the bytes fed is all of them unless the stream has
ended, and the machine has got there below the cap. -/
structure Sound (fed : List UInt8) (s : Session) : Prop where
  exists_live : ∃ accepted dropped, s.Live accepted dropped ∧
    itemMachine.RunsWithin (Below (s.taken.length + maxInternalBuffer)) (startItem accepted) s.item ∧
    (accepted = fed ∨ (s.decoder.finished = true ∧ accepted <+: fed))

theorem start_sound : start.Sound [] :=
  ⟨[], [], start_live, Machine.RunsWithin.refl _, .inl rfl⟩

theorem Sound.not_transient {fed : List UInt8} {s : Session} (h : s.Sound fed) : s.decoder.state ≠ .transient := by
  obtain ⟨accepted, dropped, hlive, -⟩ := h.exists_live
  intro hs
  have hsound := hlive.decoder.ok.sound
  have hstate : s.decoder.env.state = .transient := hs
  rw [hstate] at hsound
  exact hsound

/-- A call of `advance` keeps a session without an error. -/
theorem Sound.advance {fed : List UInt8} {s : Session} (h : s.Sound fed) {n : Nat} (hn : n ≤ s.decoder.unread.length) :
    ∃ s', s.call (.advance n) = .ok s' ∧ s'.Sound fed ∧ s'.taken.length = s.taken.length + n := by
  obtain ⟨accepted, dropped, hlive, hr, hfed⟩ := h.exists_live
  obtain ⟨dropped', d, h1, h2, h3, h4, h5⟩ := advance_live hlive hn
  have htaken : (s.taken ++ s.decoder.unread.take n).length = s.taken.length + n := by
    rw [List.length_append, List.length_take_of_le hn]
  refine ⟨_, h1, ⟨accepted, dropped', h2, ?_, hfed.imp_right fun hf => ⟨h3.finished_eq.trans hf.1, hf.2⟩⟩, htaken⟩
  rw [h2.tracks.item_eq]
  simp only [h4, htaken]
  rw [← hlive.tracks.item_eq]
  exact hr.mono (Below.mono (by omega))

/-- A call of `feed` on a session without an error: it keeps it so where the bytes fed are not malformed within reach; where they
are, it leaves the placeholder. -/
theorem Sound.feed {fed : List UInt8} {s : Session} (h : s.Sound fed) (data : List UInt8) :
    ∃ s', s.call (.feed data) = .ok s' ∧ s'.taken = s.taken ∧
      ((¬Malformed (fed ++ data) s.taken.length ∧ s'.Sound (fed ++ data)) ∨
        (Malformed (fed ++ data) s.taken.length ∧ s'.decoder.state = .transient)) := by
  obtain ⟨accepted, dropped, hlive, hr, hfed⟩ := h.exists_live
  have happ : ∀ bytes, itemMachine.RunsWithin (Below (s.taken.length + maxInternalBuffer)) (startItem (accepted ++ bytes))
      (s.item.1, s.item.2 ++ ofBytes bytes) := by
    intro bytes
    have h' := hr.append itemMachine_mono (admissible_ofBytes bytes) (Below.append _)
    rwa [← startItem_append] at h'
  have hstays : ∀ bytes, (s.item.1, s.item.2 ++ ofBytes bytes) =
      Decoder.item dropped { s.decoder with input := s.decoder.input.feed bytes } := by
    intro bytes
    rw [hlive.tracks.item_eq, Decoder.item_feed]
  have hlimit : capLimit dropped s.decoder.drained = s.taken.length + maxInternalBuffer := by
    rw [capLimit, hlive.tracks.taken_length]
  by_cases hfin : s.decoder.finished = true
  · -- the machine has halted: nothing behind the stream is malformed, and the decoder stays where it is
    have hhalt := Decoder.halts_of_finished dropped (hlive.decoder.finished_iff.mp hfin)
    rw [← hlive.tracks.item_eq] at hhalt
    have hpre : accepted <+: fed := hfed.elim (fun h => h ▸ List.prefix_refl _) And.right
    have hnot : ¬Malformed (fed ++ data) s.taken.length := by
      obtain ⟨more, rfl⟩ := hpre
      rw [List.append_assoc]
      exact Decoder.not_fails (happ (more ++ data)) (.inl (hhalt.append itemMachine_mono (by decide) (admissible_ofBytes _)))
    have hpre' : accepted <+: fed ++ data := hpre.trans (List.prefix_append _ _)
    by_cases hdata : data = []
    · subst hdata
      rcases feed_live hlive [] (fun _ => rfl) with ⟨d, h1, h2, h3⟩ | ⟨d, -, -, h3⟩
      · have hitem : d.item dropped = s.item := by
          have hsame := h3.runs.runs
          rw [← hstays, ofBytes_nil, List.append_nil] at hsame
          exact hhalt.runs_eq hsame
        rw [List.append_nil] at h2
        refine ⟨_, h1, rfl, .inl ⟨hnot, ⟨accepted, dropped, h2, ?_, .inr ⟨?_, hpre'⟩⟩⟩⟩
        · rw [h2.tracks.item_eq]
          simp only [hitem]
          exact hr
        · refine h2.decoder.finished_iff.mpr ?_
          exact (congrArg (fun c => c.1.1) hitem).trans (hlive.decoder.finished_iff.mp hfin)
      · rw [← hstays, ofBytes_nil, List.append_nil] at h3
        exact absurd h3 (Decoder.not_fails (Machine.RunsWithin.refl _) (.inl hhalt))
    · refine ⟨_, feed_finished hfin hdata, rfl, .inl ⟨hnot, ⟨accepted, dropped, ?_, hr, .inr ⟨hfin, hpre'⟩⟩⟩⟩
      exact ⟨hlive.decoder, ⟨hlive.tracks.windowed, hlive.tracks.taken_eq⟩⟩
  · obtain rfl : accepted = fed := hfed.resolve_right fun hf => hfin hf.1
    have hrun := happ data
    rw [hstays] at hrun
    have hmalformed : Malformed (accepted ++ data) s.taken.length ↔ Decoder.Fails (capLimit dropped s.decoder.drained)
        (Decoder.item dropped { s.decoder with input := s.decoder.input.feed data }) := by
      rw [hlimit]
      exact fails_iff_of_runs hrun
    rcases feed_live hlive data (fun hf => absurd hf hfin) with ⟨d, h1, h2, h3⟩ | ⟨d, h1, h2, h3⟩
    · refine ⟨_, h1, rfl, .inl ⟨fun hm => h3.not_fails (hmalformed.mp hm), ⟨_, dropped, h2, ?_, .inl rfl⟩⟩⟩
      have hruns := h3.runs
      rw [hlimit] at hruns
      rw [h2.tracks.item_eq]
      exact hrun.trans hruns
    · exact ⟨_, h1, rfl, .inr ⟨hmalformed.mpr h3, h2.decoder.state_eq⟩⟩

/-- The property, from a session without an error of the stream. -/
theorem Sound.run_iff (calls : List Call) {fed : List UInt8} {s : Session} (h : s.Sound fed)
    (hrange : InRange s calls) :
    (∀ pre, pre <+: calls → ∃ s', run pre s = .ok s' ∧ s'.decoder.state ≠ .transient) ↔
      ∀ pre data, pre ++ [.feed data] <+: calls →
        ¬Malformed (fed ++ fedBytes pre ++ data) (s.taken.length + consumedBytes pre) := by
  induction calls generalizing fed s with
  | nil =>
    constructor
    · intro _ pre data hpre
      exact absurd (List.prefix_nil.mp hpre) (List.append_ne_nil_of_right_ne_nil _ (List.cons_ne_nil _ _))
    · intro _ pre hpre
      obtain rfl := List.prefix_nil.mp hpre
      exact ⟨s, rfl, h.not_transient⟩
  | cons c calls ih =>
    obtain ⟨hc, hrest⟩ := along_cons.mp hrange
    -- a call that keeps the session without an error: the rest of the calls decide
    have hgoes : ∀ {fed' s₁}, s.call c = .ok s₁ → s₁.Sound fed' →
        (∀ pre data, c :: pre ++ [.feed data] <+: c :: calls →
          (Malformed (fed ++ fedBytes (c :: pre) ++ data) (s.taken.length + consumedBytes (c :: pre)) ↔
            Malformed (fed' ++ fedBytes pre ++ data) (s₁.taken.length + consumedBytes pre))) →
        (∀ data, c = .feed data → ¬Malformed (fed ++ data) s.taken.length) →
        ((∀ pre, pre <+: c :: calls → ∃ s', run pre s = .ok s' ∧ s'.decoder.state ≠ .transient) ↔
          ∀ pre data, pre ++ [.feed data] <+: c :: calls →
            ¬Malformed (fed ++ fedBytes pre ++ data) (s.taken.length + consumedBytes pre)) := by
      intro fed' s₁ hcall hs₁ hsame hfirst
      have hih := ih hs₁ (hrest _ hcall)
      constructor
      · intro hall pre data hpre
        cases pre with
        | nil =>
          rw [List.nil_append, List.cons_prefix_cons] at hpre
          rw [fedBytes_nil, List.append_nil]
          exact hfirst data hpre.1.symm
        | cons c' pre =>
          obtain ⟨rfl, hpre'⟩ := List.cons_prefix_cons.mp hpre
          rw [hsame pre data hpre]
          refine hih.mp (fun pre' hp => ?_) pre data hpre'
          obtain ⟨s', hrun, hs'⟩ := hall (c' :: pre') (List.cons_prefix_cons.mpr ⟨rfl, hp⟩)
          rw [run_cons, hcall, Exec.ok_bind] at hrun
          exact ⟨s', hrun, hs'⟩
      · intro hall pre hpre
        cases pre with
        | nil => exact ⟨s, rfl, h.not_transient⟩
        | cons c' pre =>
          obtain ⟨rfl, hpre'⟩ := List.cons_prefix_cons.mp hpre
          rw [run_cons, hcall, Exec.ok_bind]
          refine hih.mpr (fun pre' data hp => ?_) pre hpre'
          have hp' : c' :: pre' ++ [.feed data] <+: c' :: calls := List.cons_prefix_cons.mpr ⟨rfl, hp⟩
          rw [← hsame pre' data hp']
          exact hall (c' :: pre') data hp'
    cases c with
    | advance n =>
      obtain ⟨s₁, hcall, hs₁, htaken⟩ := h.advance hc
      refine hgoes hcall hs₁ (fun pre data _ => ?_) (fun data hd => nomatch hd)
      rw [fedBytes_advance, consumedBytes, htaken, Nat.add_assoc]
    | feed data =>
      obtain ⟨s₁, hcall, htaken, ⟨hnot, hs₁⟩ | ⟨hmal, hs₁⟩⟩ := h.feed data
      · refine hgoes hcall hs₁ (fun pre data' _ => ?_) (fun data' hd => ?_)
        · rw [fedBytes_feed, consumedBytes, htaken, List.append_assoc fed data]
        · obtain rfl := Call.feed.inj hd
          exact hnot
      · -- the placeholder is left: both sides fail at this call
        constructor
        · intro hall
          obtain ⟨s', hrun, hs'⟩ := hall [.feed data] (List.cons_prefix_cons.mpr ⟨rfl, List.nil_prefix⟩)
          rw [run_cons, hcall, Exec.ok_bind, run_nil] at hrun
          obtain rfl := Exec.ok.inj hrun
          exact absurd hs₁ hs'
        · intro hall
          refine absurd hmal ?_
          have hfirst := hall [] data (List.cons_prefix_cons.mpr ⟨rfl, List.nil_prefix⟩)
          rwa [fedBytes_nil, List.append_nil, consumedBytes, Nat.add_zero] at hfirst

end Session

/-- In a run of calls that consume only what there is, all calls come back and leave no placeholder, exactly when no call of `feed`
makes the bytes fed malformed within reach. -/
theorem never_placeholder_iff {calls : List Call} (h : Session.InRange Session.start calls) :
    (∀ pre, pre <+: calls → ∃ s, Session.run pre Session.start = .ok s ∧ s.decoder.state ≠ .transient) ↔
      ∀ pre data, pre ++ [.feed data] <+: calls → ¬Malformed (fedBytes pre ++ data) (consumedBytes pre) := by
  have hiff := Session.start_sound.run_iff calls h
  simpa only [List.nil_append, Session.start, List.length_nil, Nat.zero_add] using hiff

/-- A stored block, its output consumed. -/
theorem never_placeholder_iff_stored :
    (∀ pre, pre <+: [.feed [1, 1, 0, 254, 255, 65], .advance 1] →
        ∃ s, Session.run pre Session.start = .ok s ∧ s.decoder.state ≠ .transient) ↔
      ∀ pre data, pre ++ [.feed data] <+: [.feed [1, 1, 0, 254, 255, 65], .advance 1] →
        ¬Malformed (fedBytes pre ++ data) (consumedBytes pre) :=
  never_placeholder_iff (by decide +kernel)

/-- A reserved block type, and a feed behind the error. -/
theorem placeholder_left :
    ¬∀ calls, Session.InRange Session.start calls →
      ∀ pre, pre <+: calls → ∃ s, Session.run pre Session.start = .ok s ∧ s.decoder.state ≠ .transient := by
  intro h
  obtain ⟨s, hs, -⟩ := h [.feed [7], .feed []] (by decide +kernel) _ (List.prefix_refl _)
  have hpanic : (Session.run [.feed [7], .feed []] Session.start).returns (fun _ => true) = false := by decide +kernel
  rw [hs] at hpanic
  cases hpanic

end Noflate
