import Noflate.Lemmas.GzipSteps

/-!
# Does the gzip decoder come back?

`feed` comes back in every state that calls of `feed` lead to, but for one: behind a trailer whose checksum or size did not match,
its loop goes round for ever (`feed_ends_iff`).
-/

namespace Noflate.Gzip

open Framing

/-- The states of a decoder that calls lead to: `feed` has come back, with or without an error, and `advance` was in range. -/
inductive Reachable : Decoder → Prop
  | new : Reachable Decoder.new
  | feed {d d' : Decoder} {fuel : Nat} {data : List UInt8} {result : Exec Unit} (h : Reachable d)
      (hfeed : d.feedLoop fuel data = (result, d')) (hresult : result = .ok () ∨ ∃ e, result = .err e) : Reachable d'
  | advance {d d' : Decoder} {n : Nat} (h : Reachable d) (hadvance : d.advance n = .ok d') : Reachable d'

/-- The loop of `feed` ends: for some number of rounds it has come back. -/
def Ends (d : Decoder) (data : List UInt8) : Prop := ∃ fuel, (Decoder.feedLoop fuel d data).1 ≠ .diverge

/-- `feed` returns a result: success or an error. -/
def Returns (d : Decoder) (data : List UInt8) : Prop :=
  ∃ fuel, (Decoder.feedLoop fuel d data).1 = .ok () ∨ ∃ e, (Decoder.feedLoop fuel d data).1 = .err e

/-- All eight bytes of the trailer are filled, and the decoder is still in its trailer. -/
def TrailerStuck (d : Decoder) : Prop := d.state = .trailer ∧ d.trailerFilled = 8

/-- More rounds make no difference once the loop has come back. -/
theorem feedLoop_mono {fuel : Nat} {d : Decoder} {data : List UInt8} (h : (Decoder.feedLoop fuel d data).1 ≠ .diverge) (k : Nat) :
    Decoder.feedLoop (fuel + k) d data = Decoder.feedLoop fuel d data := by
  induction fuel generalizing d data with
  | zero =>
    cases data with
    | nil => cases k <;> rfl
    | cons b rest => exact absurd rfl h
  | succ fuel ih =>
    cases data with
    | nil => rw [Nat.succ_add]; rfl
    | cons b rest =>
      rw [Nat.succ_add, Decoder.feedLoop, Decoder.feedLoop]
      rw [Decoder.feedLoop] at h
      cases hs : d.feedStep (b :: rest) with
      | mk e d' =>
        rw [hs] at h
        cases e with
        | ok rest' => exact ih h
        | err e => rfl
        | panic => rfl
        | diverge => rfl

/-! ## Behind an error -/

/-- A round of a decoder whose trailer did not match changes nothing. -/
theorem feedStep_stuck {d : Decoder} (h : TrailerStuck d) (data : List UInt8) : d.feedStep data = (.ok data, d) := by
  unfold Decoder.feedStep
  rw [h.1]
  cases data with
  | nil => rfl
  | cons b rest =>
    refine if_neg ?_
    rw [h.2]
    exact Nat.lt_irrefl 8

/-- A loop whose round changes nothing goes round for ever. -/
theorem feedLoop_fixed {d : Decoder} {data : List UInt8} (h : d.feedStep data = (.ok data, d)) (hdata : data ≠ []) (fuel : Nat) :
    (Decoder.feedLoop fuel d data).1 = .diverge := by
  obtain ⟨b, rest, rfl⟩ := List.exists_cons_of_ne_nil hdata
  induction fuel with
  | zero => rfl
  | succ fuel ih =>
    rw [Decoder.feedLoop, h]
    exact ih

/-- A decoder with a bad header reports it again, whatever it is fed. -/
theorem feedStep_header {d : Decoder} (hstate : d.state = .fixedHeader) (hfilled : d.headerFilled = 10) {e : Error}
    (he : d.parseFixedHeader = .err e) (data : List UInt8) : d.feedStep data = (.err e, d) := by
  have hcopy : copyFromSlice d.headerBytes 10 [] = d.headerBytes := by
    rw [copyFromSlice, List.append_nil]
    exact List.take_append_drop 10 _
  have hsame : { d with state := .fixedHeader, headerBytes := d.headerBytes, headerFilled := 10 } = d := by
    rw [← hstate, ← hfilled]
  unfold Decoder.feedStep
  simp only [hstate, hfilled, Nat.lt_irrefl, if_false, Nat.sub_self, Nat.zero_min, List.take_zero, List.drop_zero, Nat.add_zero,
    if_true, hcopy, hsame, he]

/-- A decoder that has failed, fed more bytes. -/
theorem Failed.feedLoop {d : Decoder} (h : Failed d) {data : List UInt8} (hdata : data ≠ []) (fuel : Nat) :
    (Decoder.feedLoop (fuel + 1) d data).1 = .diverge ∧ TrailerStuck d ∨
      ((Decoder.feedLoop (fuel + 1) d data).1 = .panic ∧ BodyFailed d) ∨
      ((∃ e, Decoder.feedLoop (fuel + 1) d data = (.err e, d)) ∧ ¬TrailerStuck d ∧ ¬BodyFailed d) := by
  obtain ⟨b, rest, rfl⟩ := List.exists_cons_of_ne_nil hdata
  cases h with
  | header hstate hfilled hlength herr =>
    obtain ⟨e, he⟩ := herr
    refine .inr (.inr ⟨⟨e, ?_⟩, ?_, ?_⟩)
    · rw [Decoder.feedLoop, feedStep_header hstate hfilled he]
    · intro hs
      cases hstate.symm.trans hs.1
    · intro hb
      cases hstate.symm.trans hb.1
  | body hstate hdead =>
    refine .inr (.inl ⟨?_, hstate, hdead.state_eq⟩)
    have hstep : d.feedStep (b :: rest) = d.feedBody (b :: rest) := by
      unfold Decoder.feedStep
      rw [hstate]
    have hpanic := Noflate.Decoder.feedAndDrain_dead Decoder.collect hdead d (b :: rest)
    have hround : (d.feedBody (b :: rest)).1 = .panic := by
      unfold Decoder.feedBody
      generalize feedAndDrain Decoder.collect d d.deflate (b :: rest) = r at hpanic
      obtain ⟨r, x, deflate⟩ := r
      obtain rfl : r = .panic := hpanic
      rfl
    rw [Decoder.feedLoop, hstep]
    generalize d.feedBody (b :: rest) = r at hround
    obtain ⟨r, d'⟩ := r
    obtain rfl : r = .panic := hround
    rfl
  | trailer hstate hfilled => exact .inl ⟨feedLoop_fixed (feedStep_stuck ⟨hstate, hfilled⟩ _) (List.cons_ne_nil b rest) _,
      hstate, hfilled⟩
  | done hstate =>
    have hstep : d.feedStep (b :: rest) = (.err (.invalidData "bytes fed after gzip stream end"), d) := by
      unfold Decoder.feedStep
      rw [hstate]
    refine .inr (.inr ⟨⟨.invalidData "bytes fed after gzip stream end", ?_⟩, ?_, ?_⟩)
    · rw [Decoder.feedLoop, hstep]
    · intro hs
      cases hstate.symm.trans hs.1
    · intro hb
      cases hstate.symm.trans hb.1

/-- A decoder that stands somewhere in a member is in neither of the two bad states. -/
theorem Stands.not_bad {gone : List UInt8} {d : Decoder} {p : Phase UInt8 HeaderState (List UInt8)} (h : Stands gone d p) :
    ¬TrailerStuck d ∧ ¬BodyFailed d := by
  have hother : ∀ {s}, d.state = s → s ≠ .trailer → s ≠ .body → ¬TrailerStuck d ∧ ¬BodyFailed d :=
    fun hs h1 h2 => ⟨fun ht => h1 (hs.symm.trans ht.1), fun hb => h2 (hs.symm.trans hb.1)⟩
  cases h with
  | fixed _ _ hstate => exact hother hstate nofun nofun
  | extraLength _ _ hstate => exact hother hstate nofun nofun
  | extra _ _ hstate => exact hother hstate nofun nofun
  | extraEnd _ _ hstate => exact hother hstate nofun nofun
  | name _ _ hstate => exact hother hstate nofun nofun
  | comment _ _ hstate => exact hother hstate nofun nofun
  | headerCrc _ _ hstate => exact hother hstate nofun nofun
  | body hd hwaits =>
    refine ⟨fun ht => (nomatch hd.state_eq.symm.trans ht.1), fun hb => hwaits.not_transient hb.2⟩
  | trailer hd =>
    refine ⟨fun ht => ?_, fun hb => (nomatch hd.state_eq.symm.trans hb.1)⟩
    have hlt := hd.filled_lt
    rw [← hd.trailerFilled_eq, ht.2] at hlt
    exact Nat.lt_irrefl 8 hlt
  | done _ hstate => exact hother hstate nofun nofun

/-! ## Every reachable state -/

/-- Consuming output leaves a decoder where it stands. -/
theorem Stands.advance {gone : List UInt8} {d d' : Decoder} {n : Nat} {p : Phase UInt8 HeaderState (List UInt8)}
    (h : Stands gone d p) (hadvance : d.advance n = .ok d') : ∃ gone', Stands gone' d' p := by
  obtain ⟨output, hb, hd'⟩ := Exec.bind_eq_ok.mp hadvance
  obtain rfl := Exec.ok.inj hd'
  obtain ⟨-, hget⟩ := Buf.le_of_advance hb
  have hun : Unstarted d → Unstarted { d with output } := by
    intro hd
    have hnil : output.get = [] := by rw [hget, hd.output_eq, List.drop_nil]
    exact ⟨hd.1, hd.2, hd.3, hd.4, hnil, hd.6, hd.7, hd.8⟩
  have hcollected : ∀ {taken}, Collected gone taken d → Collected (gone ++ d.output.get.take n) taken { d with output } := by
    intro taken hd
    refine ⟨hd.crc_of, hd.size_eq, ?_⟩
    simp only [hget]
    rw [List.append_assoc, List.take_append_drop]
    exact hd.output_eq
  cases h with
  | fixed hd hgone h1 h2 h3 h4 h5 => exact ⟨[], .fixed (hun hd) rfl h1 h2 h3 h4 h5⟩
  | extraLength hd hgone h1 h2 h3 h4 => exact ⟨[], .extraLength (hun hd) rfl h1 h2 h3 h4⟩
  | extra hd hgone h1 h2 h3 => exact ⟨[], .extra (hun hd) rfl h1 h2 h3⟩
  | extraEnd hd hgone h1 h2 h3 => exact ⟨[], .extraEnd (hun hd) rfl h1 h2 h3⟩
  | name hd hgone h1 => exact ⟨[], .name (hun hd) rfl h1⟩
  | comment hd hgone h1 => exact ⟨[], .comment (hun hd) rfl h1⟩
  | headerCrc hd hgone h1 h2 h3 => exact ⟨[], .headerCrc (hun hd) rfl h1 h2 h3⟩
  | body hd hwaits => exact ⟨_, .body ⟨hcollected hd.collected, hd.2, hd.3, hd.4, hd.5⟩ hwaits⟩
  | trailer hd => exact ⟨_, .trailer ⟨hcollected hd.collected, hd.2, hd.3, hd.4, hd.5, hd.6, hd.7⟩⟩
  | done hd h1 h2 h3 => exact ⟨_, .done (hcollected hd) h1 h2 h3⟩

/-- Consuming output of a decoder that has failed. -/
theorem Failed.advance {d d' : Decoder} {n : Nat} (h : Failed d) (hadvance : d.advance n = .ok d') : Failed d' := by
  obtain ⟨output, -, hd'⟩ := Exec.bind_eq_ok.mp hadvance
  obtain rfl := Exec.ok.inj hd'
  cases h with
  | header hstate hfilled hlength herr =>
    refine .header hstate hfilled hlength ?_
    obtain ⟨e, he⟩ := herr
    -- the check looks at the fixed bytes only
    rcases parseFixedHeader_spec hlength with ⟨-, hok⟩ | ⟨hnone, -⟩
    · cases he.symm.trans hok
    · have hlength' : ({ d with output } : Decoder).headerBytes.length = 10 := hlength
      rcases parseFixedHeader_spec hlength' with ⟨hsome, -⟩ | ⟨-, herr⟩
      · cases hnone.symm.trans hsome
      · exact herr
  | body hstate hdead => exact .body hstate hdead
  | trailer hstate hfilled => exact .trailer hstate hfilled
  | done hstate => exact .done hstate

/-- A reachable decoder stands somewhere in a member, or has failed. -/
theorem Reachable.stands_or_failed {d : Decoder} (h : Reachable d) : (∃ gone p, Stands gone d p) ∨ Failed d := by
  induction h with
  | new => exact .inl ⟨[], _, new_stands⟩
  | @feed d d' fuel data result h hfeed hresult ih =>
    have hback : (Decoder.feedLoop fuel d data).1 ≠ .diverge := by
      rw [hfeed]
      rintro rfl
      rcases hresult with hr | ⟨e, hr⟩ <;> cases hr
    rcases ih with ⟨gone, p, hstands⟩ | hfailed
    · have hmono := feedLoop_mono hback (data.length + d.state.rank)
      have hspec := feedLoop_spec (fuel + (data.length + d.state.rank)) hstands (Nat.le_add_left _ _)
      rw [hmono, hfeed] at hspec
      cases hspec with
      | ok _ hstands' => exact .inl ⟨gone, _, hstands'⟩
      | err _ hfailed => exact .inr hfailed
    · by_cases hdata : data = []
      · subst hdata
        have hnil : Decoder.feedLoop fuel d [] = (.ok (), d) := by cases fuel <;> rfl
        obtain ⟨-, rfl⟩ := Prod.mk.inj (hfeed.symm.trans hnil)
        exact .inr hfailed
      · cases fuel with
        | zero =>
          obtain ⟨b, rest, rfl⟩ := List.exists_cons_of_ne_nil hdata
          exact absurd rfl hback
        | succ fuel =>
          rcases hfailed.feedLoop hdata fuel with ⟨hdiverge, -⟩ | ⟨hpanic, -⟩ | ⟨⟨e, he⟩, -⟩
          · exact absurd hdiverge hback
          · rw [hfeed] at hpanic
            rcases hresult with hr | ⟨e, hr⟩ <;> cases hr.symm.trans hpanic
          · obtain ⟨-, rfl⟩ := Prod.mk.inj (hfeed.symm.trans he)
            exact .inr hfailed
  | advance h hadvance ih =>
    rcases ih with ⟨gone, p, hstands⟩ | hfailed
    · obtain ⟨gone', hstands'⟩ := hstands.advance hadvance
      exact .inl ⟨gone', p, hstands'⟩
    · exact .inr (hfailed.advance hadvance)

/-- What the loop of a reachable decoder does: it goes round for ever, panics, or returns a result. -/
theorem Reachable.feedLoop_cases {d : Decoder} (h : Reachable d) {data : List UInt8} (hdata : data ≠ []) :
    (TrailerStuck d ∧ ∀ fuel, (Decoder.feedLoop fuel d data).1 = .diverge) ∨
      (BodyFailed d ∧ ¬TrailerStuck d ∧ ∀ fuel, (Decoder.feedLoop (fuel + 1) d data).1 = .panic) ∨
      (¬TrailerStuck d ∧ ¬BodyFailed d ∧ Returns d data) := by
  rcases h.stands_or_failed with ⟨gone, p, hstands⟩ | hfailed
  · refine .inr (.inr ⟨hstands.not_bad.1, hstands.not_bad.2, data.length + d.state.rank, ?_⟩)
    have hspec := feedLoop_spec (data.length + d.state.rank) hstands le_rfl
    generalize Decoder.feedLoop (data.length + d.state.rank) d data = r at hspec
    cases hspec with
    | ok => exact .inl rfl
    | err => exact .inr ⟨_, rfl⟩
  · rcases hfailed.feedLoop hdata 0 with ⟨-, hstuck⟩ | ⟨-, hbody⟩ | ⟨⟨e, he⟩, hnot⟩
    · exact .inl ⟨hstuck, fun fuel => feedLoop_fixed (feedStep_stuck hstuck data) hdata fuel⟩
    · have hnot : ¬TrailerStuck d := fun hs => nomatch hbody.1.symm.trans hs.1
      refine .inr (.inl ⟨hbody, hnot, fun fuel => ?_⟩)
      rcases hfailed.feedLoop hdata fuel with ⟨-, hstuck⟩ | ⟨hpanic, -⟩ | ⟨-, -, hnb⟩
      · exact absurd hstuck hnot
      · exact hpanic
      · exact absurd hbody hnb
    · exact .inr (.inr ⟨hnot.1, hnot.2, 1, .inr ⟨e, by rw [he]⟩⟩)

/-- In every reachable state and for every slice, the loop of `feed` ends exactly when the decoder is not stuck behind a trailer
that did not match, or the slice is empty; it returns a result exactly when besides the body has not failed before; and a round
leaves the position and the decoder as they are exactly in the stuck state. -/
theorem feed_ends_iff {d : Decoder} (h : Reachable d) (data : List UInt8) :
    (Ends d data ↔ ¬(TrailerStuck d ∧ data ≠ [])) ∧
    (Returns d data ↔ ¬(TrailerStuck d ∧ data ≠ []) ∧ ¬(BodyFailed d ∧ data ≠ [])) ∧
    (data ≠ [] → (d.feedStep data = (.ok data, d) ↔ TrailerStuck d)) := by
  have hends : Returns d data → Ends d data := by
    rintro ⟨fuel, hok | ⟨e, he⟩⟩
    · exact ⟨fuel, by rw [hok]; exact nofun⟩
    · exact ⟨fuel, by rw [he]; exact nofun⟩
  by_cases hdata : data = []
  · have hreturns : Returns d data := ⟨0, .inl (by rw [hdata]; rfl)⟩
    have hnot : ∀ {P : Prop}, ¬(P ∧ data ≠ []) := fun hp => hp.2 hdata
    exact ⟨⟨fun _ => hnot, fun _ => hends hreturns⟩, ⟨fun _ => ⟨hnot, hnot⟩, fun _ => hreturns⟩, fun hne => absurd hdata hne⟩
  · rcases h.feedLoop_cases hdata with ⟨hstuck, hloop⟩ | ⟨hbody, hnot, hloop⟩ | ⟨hnot, hnotBody, hreturns⟩
    · have hnotEnds : ¬Ends d data := fun ⟨fuel, hne⟩ => hne (hloop fuel)
      exact ⟨⟨fun he => absurd he hnotEnds, fun hn => absurd ⟨hstuck, hdata⟩ hn⟩,
        ⟨fun hr => absurd (hends hr) hnotEnds, fun hn => absurd ⟨hstuck, hdata⟩ hn.1⟩,
        fun _ => ⟨fun _ => hstuck, fun _ => feedStep_stuck hstuck data⟩⟩
    · have he : Ends d data := ⟨1, by rw [hloop 0]; exact nofun⟩
      have hnotReturns : ¬Returns d data := by
        rintro ⟨fuel, hr⟩
        cases fuel with
        | zero =>
          obtain ⟨b, rest, rfl⟩ := List.exists_cons_of_ne_nil hdata
          rcases hr with hr | ⟨e, hr⟩ <;> cases hr
        | succ fuel =>
          rw [hloop fuel] at hr
          rcases hr with hr | ⟨e, hr⟩ <;> cases hr
      refine ⟨⟨fun _ hs => hnot hs.1, fun _ => he⟩, ⟨fun hr => absurd hr hnotReturns, fun hn => absurd ⟨hbody, hdata⟩ hn.2⟩,
        fun _ => ⟨fun hfixed => ?_, fun hs => absurd hs hnot⟩⟩
      cases (hloop 0).symm.trans (feedLoop_fixed hfixed hdata 1)
    · refine ⟨⟨fun _ hs => hnot hs.1, fun _ => hends hreturns⟩,
        ⟨fun _ => ⟨fun hs => hnot hs.1, fun hb => hnotBody hb.1⟩, fun _ => hreturns⟩,
        fun _ => ⟨fun hfixed => ?_, fun hs => absurd hs hnot⟩⟩
      obtain ⟨fuel, hne⟩ := hends hreturns
      exact absurd (feedLoop_fixed hfixed hdata fuel) hne

/-- A decoder that has read three bytes of the trailer of an empty member, fed the rest of a trailer that does not match: the loop ends.
Fed a byte behind that, it does not. -/
theorem feed_ends_trailer : ∃ d d', Reachable d ∧ Reachable d' ∧ d.state = .trailer ∧ d.trailerFilled = 3 ∧
    Decoder.feedLoop 2 d [1, 0, 0, 0, 0] = (.err (.invalidData "crc-32 checksum mismatch in gzip trailer"), d') ∧
    Ends d [1, 0, 0, 0, 0] ∧ ¬Ends d' [0] := by
  obtain ⟨stream, hstream⟩ : ∃ stream : List UInt8, stream =
      [0x1F, 0x8B, 8, 0, 0, 0, 0, 0, 0, 255, 1, 0, 0, 255, 255, 0, 0, 0] := ⟨_, rfl⟩
  obtain ⟨d, hd⟩ : ∃ d, d = (Decoder.feedLoop 32 Decoder.new stream).2 := ⟨_, rfl⟩
  obtain ⟨d', hd'⟩ : ∃ d', d' = (Decoder.feedLoop 2 d [1, 0, 0, 0, 0]).2 := ⟨_, rfl⟩
  have hok : (Decoder.feedLoop 32 Decoder.new stream).1 = .ok () := by
    rw [hstream]
    decide +kernel
  have hfilled : d.state = .trailer ∧ d.trailerFilled = 3 := by
    rw [hd, hstream]
    decide +kernel
  have herr : (Decoder.feedLoop 2 d [1, 0, 0, 0, 0]).1 = .err (.invalidData "crc-32 checksum mismatch in gzip trailer") := by
    rw [hd, hstream]
    decide +kernel
  have hfeed : Decoder.feedLoop 2 d [1, 0, 0, 0, 0] = (.err (.invalidData "crc-32 checksum mismatch in gzip trailer"), d') :=
    Prod.ext herr hd'.symm
  have hstuck : TrailerStuck d' := by
    have h : d'.state = .trailer ∧ d'.trailerFilled = 8 := by
      rw [hd', hd, hstream]
      decide +kernel
    exact h
  have hreach : Reachable d := .feed .new (Prod.ext hok hd.symm) (.inl rfl)
  have hreach' : Reachable d' := .feed hreach hfeed (.inr ⟨_, rfl⟩)
  refine ⟨d, d', hreach, hreach', hfilled.1, hfilled.2, hfeed, ?_, ?_⟩
  · refine (feed_ends_iff hreach _).1.mpr fun h => ?_
    rw [TrailerStuck, hfilled.2] at h
    exact absurd h.1.2 (by decide)
  · exact fun h => (feed_ends_iff hreach' _).1.mp h ⟨hstuck, List.cons_ne_nil 0 []⟩

/-- A member of no bytes whose trailer has a wrong checksum: the next byte fed is never come back from. -/
theorem feed_diverges : ¬∀ d, Reachable d → ∀ data, Ends d data := by
  intro h
  obtain ⟨stream, hstream⟩ : ∃ stream : List UInt8, stream =
      [0x1F, 0x8B, 8, 0, 0, 0, 0, 0, 0, 255, 1, 0, 0, 255, 255, 1, 0, 0, 0, 0, 0, 0, 0] := ⟨_, rfl⟩
  have herr : (Decoder.feedLoop 32 Decoder.new stream).1 = .err (.invalidData "crc-32 checksum mismatch in gzip trailer") := by
    rw [hstream]
    decide +kernel
  have hstuck : (Decoder.feedLoop 32 Decoder.new stream).2.state = .trailer ∧
      (Decoder.feedLoop 32 Decoder.new stream).2.trailerFilled = 8 := by
    rw [hstream]
    decide +kernel
  have hreach : Reachable (Decoder.feedLoop 32 Decoder.new stream).2 :=
    .feed .new (Prod.ext herr rfl) (.inr ⟨_, rfl⟩)
  obtain ⟨fuel, hne⟩ := h _ hreach [0]
  exact hne (feedLoop_fixed (feedStep_stuck hstuck [0]) (List.cons_ne_nil 0 []) fuel)

end Noflate.Gzip
