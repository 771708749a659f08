import Noflate.Lemmas.Sessions
import Noflate.Lemmas.Takings

/-!
# How much output a feed leaves unread

The symbol loop looks at the cap before each symbol, so compressed blocks leave no more than the cap and one match unread. The
bytes of stored blocks are copied without a look at it. `unread_bounded_iff` says when a call of `feed` keeps the bound: each byte of
a stored block that it comes to is met with the unread output short of the bound. A caller finds that out by going through the input
(`Session.Live.storedFits_iff_tests`), need not where the stored blocks it feeds are empty (`unread_bounded_of_storedEmpty`), and has
no more unread than the bytes at hand add to the bound in any case (`unread_le_input`).
-/

namespace Noflate

open BitString Resumable

/-! ## The machine below a bound -/

/-- From a place on, as long as symbols are read below a limit, the machine meets each byte of a stored block with output shorter
than a bound. -/
def StoredBelow (limit bound : Nat) (c : ItemState × List Bool) : Prop :=
  ∀ remaining isFinal output bits,
    itemMachine.RunsWithin (Below limit) c ((.storedBody remaining isFinal, output), bits) → 0 < remaining → 8 ≤ bits.length →
      output.length < bound

/-- A move that reads a byte of a stored block has its bits. -/
theorem storedByte_length {remaining : Nat} {isFinal : Bool} {output : List UInt8} {bits : List Bool} {c : ItemState × List Bool}
    (hpos : 0 < remaining) (h : itemMachine.Moves ((.storedBody remaining isFinal, output), bits) c) : 8 ≤ bits.length := by
  have hstep : itemStep (.storedBody remaining isFinal, output) bits = .next c.1 c.2 := h
  simp only [itemStep] at hstep
  rw [if_neg hpos.ne'] at hstep
  obtain ⟨byte, rest, hfield, -⟩ := Parse.toNext_eq_next hstep
  unfold parseField at hfield
  split at hfield
  · cases hfield
  · omega

/-- A byte of a stored block whose bits are there is put out. -/
theorem storedByte_moves {remaining : Nat} {bits : List Bool} (isFinal : Bool) (output : List UInt8) (hpos : 0 < remaining)
    (hbits : 8 ≤ bits.length) :
    ∃ b, itemMachine.Moves ((.storedBody remaining isFinal, output), bits)
      ((.storedBody (remaining - 1) isFinal, output ++ [b]), bits.drop 8) := by
  refine ⟨UInt8.ofNat (toNat (bits.take 8)), moves_of_next ?_⟩
  simp only [itemStep, parseField]
  rw [if_neg hpos.ne', if_neg (Nat.not_lt.mpr hbits), Parse.toNext_got]

/-- A move keeps the bound: a symbol is read below the limit and adds one match at most, a stored byte is met below the bound. -/
theorem output_le_step {limit bound : Nat} {c b b' : ItemState × List Bool} (hstored : StoredBelow limit bound c)
    (hlimit : limit + maxMatch ≤ bound) (hr : itemMachine.RunsWithin (Below limit) c b) (hb : Below limit b)
    (hmove : itemMachine.Moves b b') (hle : b.1.2.length ≤ bound) : b'.1.2.length ≤ bound := by
  obtain ⟨-, hgrowth⟩ := itemStep_output hmove
  obtain ⟨⟨state, output⟩, bits⟩ := b
  cases state with
  | symbolLoop isFinal literal distance =>
    have hlt : output.length < limit := hb
    simp only [DecodeState.growth] at hgrowth
    omega
  | storedBody remaining isFinal =>
    simp only [DecodeState.growth] at hgrowth hle
    rcases Nat.eq_zero_or_pos remaining with rfl | hpos
    · omega
    · have hlt := hstored remaining isFinal output bits hr hpos (storedByte_length hpos hmove)
      omega
  | _ => exact hgrowth.trans hle

/-- A run keeps the bound. -/
theorem output_le_run {limit bound : Nat} {c c' : ItemState × List Bool} (hstored : StoredBelow limit bound c)
    (hlimit : limit + maxMatch ≤ bound) (hstart : c.1.2.length ≤ bound) (hr : itemMachine.RunsWithin (Below limit) c c') :
    c'.1.2.length ≤ bound := by
  induction hr with
  | refl => exact hstart
  | tail hr hmove ih => exact output_le_step hstored hlimit hr hmove.1 hmove.2 ih

/-- Where a run ends the output is within the bound exactly when no stored byte was met at it. -/
theorem output_le_iff {limit bound : Nat} {c c' : ItemState × List Bool} (hlimit : limit + maxMatch ≤ bound)
    (hstart : c.1.2.length ≤ bound) (hr : itemMachine.RunsWithin (Below limit) c c')
    (hend : Below limit c' → ∃ v, itemMachine.Stops c' v) : c'.1.2.length ≤ bound ↔ StoredBelow limit bound c := by
  refine ⟨fun hle remaining isFinal output bits hreach hpos hbits => ?_, fun hstored => output_le_run hstored hlimit hstart hr⟩
  -- the byte is put out, and the output at the end is no shorter
  obtain ⟨b, hmove⟩ := storedByte_moves isFinal output hpos hbits
  have hrest := (hreach.trans (Machine.RunsWithin.single trivial hmove)).to_end hr hend
  have hgrows := (runs_output hrest.runs).length_le
  rw [List.length_append, List.length_singleton] at hgrows
  omega

/-! ## The decoder -/

/-- The most output that is left unread behind compressed data: the cap and one match. -/
def unreadCap : Nat := maxInternalBuffer + maxMatch

namespace Session

/-- Where a session stands when its decoder is given more input. -/
def itemFed (s : Session) (data : List UInt8) : ItemState × List Bool :=
  item { s with decoder := { s.decoder with input := s.decoder.input.feed data } }

/-- The input at hand, of which some is fed now, has the decoder meet each byte of a stored block with less unread output than
there was before or than the cap and one match. -/
def StoredFits (s : Session) (data : List UInt8) : Prop :=
  StoredBelow (s.taken.length + maxInternalBuffer) (s.taken.length + max s.decoder.unread.length unreadCap) (s.itemFed data)

/-- A call that, if it feeds bytes, keeps stored blocks within the bound. -/
def FeedsFit (s : Session) : Call → Prop
  | .feed data => s.StoredFits data
  | .advance _ => True

/-- A feed that came back, as a run of the machine over the input at hand: from where the session stood to where the machine stops or
the cap is reached. -/
structure FeedRun (s : Session) (data : List UInt8) (d : Decoder) (c : ItemState × List Bool) : Prop where
  runs : itemMachine.RunsWithin (Below (s.taken.length + maxInternalBuffer)) (s.itemFed data) c
  stops : Below (s.taken.length + maxInternalBuffer) c → ∃ v, itemMachine.Stops c v
  before_length : (s.itemFed data).1.2.length = s.taken.length + s.decoder.unread.length
  output_length : c.1.2.length = s.taken.length + d.unread.length

/-- The input at hand, where a session stands that has reported no error. -/
theorem Live.itemFed_eq {fed dropped : List UInt8} {s : Session} (h : s.Live fed dropped) (data : List UInt8) :
    s.itemFed data = ((s.decoder.item dropped).1, (s.decoder.item dropped).2 ++ ofBytes data) := by
  have htracks : Tracks dropped { s with decoder := { s.decoder with input := s.decoder.input.feed data } } :=
    ⟨⟨h.tracks.windowed.window, h.tracks.windowed.drained_le⟩, h.tracks.taken_eq⟩
  exact htracks.item_eq.trans (Decoder.item_feed dropped s.decoder data)

theorem Live.reaches_itemFed {fed dropped : List UInt8} {s : Session} (h : s.Live fed dropped) (data : List UInt8) :
    itemMachine.Runs (startItem (fed ++ data)) (s.itemFed data) := by
  rw [h.itemFed_eq, startItem_append]
  exact h.decoder.runs.append itemMachine_mono (admissible_ofBytes data)

theorem Live.feedRun {fed dropped : List UInt8} {s : Session} (h : s.Live fed dropped) {data : List UInt8} {d : Decoder}
    (hfeed : s.decoder.feed data = (.ok (), d)) : s.FeedRun data d (d.item dropped) := by
  have hok : s.decoder.finished = true → data = [] := by
    intro hfin
    by_contra hne
    cases congrArg Prod.fst ((Decoder.feed_after_end hfin hne).symm.trans hfeed)
  rcases Decoder.feed_spec h.decoder data hok with ⟨d', h1, h2⟩ | ⟨e, d', h1, -⟩
  · obtain rfl : d' = d := congrArg Prod.snd (h1.symm.trans hfeed)
    have hitem : s.itemFed data = Decoder.item dropped { s.decoder with input := s.decoder.input.feed data } :=
      (h.itemFed_eq data).trans (Decoder.item_feed dropped s.decoder data).symm
    have hlimit : capLimit dropped s.decoder.drained = s.taken.length + maxInternalBuffer := by
      rw [capLimit, h.tracks.taken_length]
    refine ⟨?_, hlimit ▸ h2.stops, ?_, ?_⟩
    · have hruns := h2.runs
      rwa [← hitem, hlimit] at hruns
    · have hlength : (s.itemFed data).1.2.length = dropped.length + s.decoder.output.length := by
        rw [hitem]
        exact List.length_append
      have hle := h.decoder.windowed.drained_le
      have htaken := h.tracks.taken_length
      rw [hlength, Decoder.unread, List.length_drop]
      omega
    · have hlength : (d'.item dropped).1.2.length = dropped.length + d'.output.length := List.length_append
      have hdrained : d'.drained = s.decoder.drained := h2.drained_eq
      have hwindow := h2.live.windowed.drained_le
      have htaken := h.tracks.taken_length
      rw [hlength, Decoder.unread, List.length_drop]
      omega
  · cases congrArg Prod.fst (h1.symm.trans hfeed)

/-- A feed that comes back keeps the bound exactly when the stored bytes it meets do. -/
theorem Live.unread_le_iff {fed dropped : List UInt8} {s : Session} (h : s.Live fed dropped) {data : List UInt8} {d : Decoder}
    (hfeed : s.decoder.feed data = (.ok (), d)) :
    d.unread.length ≤ max s.decoder.unread.length unreadCap ↔ s.StoredFits data := by
  have hrun := h.feedRun hfeed
  have hbound : s.taken.length + maxInternalBuffer + maxMatch ≤ s.taken.length + max s.decoder.unread.length unreadCap := by
    rw [Nat.add_assoc]
    exact Nat.add_le_add_left (le_max_right _ _) _
  have hiff := output_le_iff hbound (hrun.before_length.trans_le (Nat.add_le_add_left (le_max_left _ _) _)) hrun.runs hrun.stops
  rw [hrun.output_length, Nat.add_le_add_iff_left] at hiff
  exact hiff

/-- A session that, if it has reported no error, is on the run of the machine over the bytes fed, with the unread output within the
bound. -/
def Bounded (fed : List UInt8) (s : Session) : Prop :=
  s.failed = false → (∃ dropped, s.Live fed dropped) ∧ s.decoder.unread.length ≤ unreadCap

theorem start_bounded : start.Bounded [] := fun _ => ⟨⟨[], start_live⟩, Nat.zero_le _⟩

/-- A call that came back keeps a session within the bound, if a feed keeps stored blocks within it. -/
theorem Bounded.call {fed : List UInt8} {s s' : Session} {c : Call} (hinv : s.Bounded fed)
    (hfits : ∀ dropped, s.Live fed dropped → s.FeedsFit c) (hcall : s.call c = .ok s') : s'.Bounded (fed ++ fedBytes [c]) := by
  intro hf
  cases c with
  | advance n =>
    obtain ⟨d, hadvance, rfl⟩ : ∃ d, s.decoder.advance n = .ok d ∧
        s' = { s with decoder := d, taken := s.taken ++ s.decoder.unread.take n } := by
      simp only [Session.call] at hcall
      obtain ⟨d, h1, h2⟩ := Exec.bind_eq_ok.mp hcall
      exact ⟨d, h1, (Exec.ok.inj h2).symm⟩
    obtain ⟨⟨dropped, hlive⟩, hle⟩ := hinv hf
    obtain ⟨dropped', d', h1, h2, -, h3, h4⟩ := advance_live hlive (advance_in_range hcall)
    obtain rfl := congrArg Session.decoder (Exec.ok.inj (hcall.symm.trans h1))
    refine ⟨⟨dropped', by rwa [fedBytes_advance, fedBytes_nil, List.append_nil]⟩, ?_⟩
    have hhistory : dropped'.length + d.output.length = dropped.length + s.decoder.output.length := by
      have hlength := congrArg (fun c => c.1.2.length) h3
      rwa [show (d.item dropped').1.2.length = dropped'.length + d.output.length from List.length_append,
        show (s.decoder.item dropped).1.2.length = dropped.length + s.decoder.output.length from List.length_append] at hlength
    rw [Decoder.unread, List.length_drop] at hle ⊢
    simp only at h4 ⊢
    omega
  | feed data =>
    simp only [Session.call] at hcall
    cases hfeed : s.decoder.feed data with
    | mk e d =>
      rw [hfeed] at hcall
      cases e with
      | ok u =>
        obtain rfl := Exec.ok.inj hcall
        obtain ⟨⟨dropped, hlive⟩, hle⟩ := hinv hf
        have hok : s.decoder.finished = true → data = [] := by
          intro hfin
          by_contra hne
          cases congrArg Prod.fst ((Decoder.feed_after_end hfin hne).symm.trans hfeed)
        have hbound := (hlive.unread_le_iff hfeed).mpr (hfits dropped hlive)
        rw [max_eq_right hle] at hbound
        refine ⟨?_, hbound⟩
        rcases feed_live hlive data hok with ⟨d', h1, h2, -⟩ | ⟨d', h1, -⟩
        · simp only [Session.call, hfeed] at h1
          obtain rfl := congrArg Session.decoder (Exec.ok.inj h1)
          exact ⟨dropped, by rwa [fedBytes_feed, fedBytes_nil, List.append_nil]⟩
        · simp only [Session.call, hfeed] at h1
          cases hf.symm.trans (congrArg Session.failed (Exec.ok.inj h1))
      | err e =>
        obtain rfl := Exec.ok.inj hcall
        cases hf
      | panic => cases hcall
      | diverge => cases hcall

/-- Calls that came back keep a session within the bound, if the feeds keep stored blocks within it. -/
theorem Bounded.run (calls : List Call) {fed : List UInt8} {s s' : Session} (hinv : s.Bounded fed)
    (hfits : Along FeedsFit s calls) (hrun : run calls s = .ok s') : s'.Bounded (fed ++ fedBytes calls) := by
  induction calls generalizing fed s with
  | nil =>
    obtain rfl := Exec.ok.inj hrun
    rwa [fedBytes_nil, List.append_nil]
  | cons c calls ih =>
    obtain ⟨s₁, hcall, hrest⟩ := run_cons_ok hrun
    obtain ⟨hfirst, hfits⟩ := along_cons.mp hfits
    rw [← List.singleton_append, fedBytes_append, ← List.append_assoc]
    exact ih (hinv.call (fun _ _ => hfirst) hcall) (hfits s₁ hcall) hrest

end Session

/-- What a call of `feed` leaves unread, in a run of calls. A feed that comes back leaves no more unread than there was before it, or
than the cap and one match, exactly when the decoder meets each byte of a stored block on the way with less unread output than
that. So in a run whose feeds all meet that condition and report no error, never more than the cap and one match is unread. -/
theorem unread_bounded_iff {calls : List Call} {s : Session} (h : Session.run calls Session.start = .ok s) :
    (∀ data d, s.decoder.feed data = (.ok (), d) →
      (d.unread.length ≤ max s.decoder.unread.length unreadCap ↔ s.StoredFits data)) ∧
    (Session.Along Session.FeedsFit Session.start calls → s.failed = false → s.decoder.unread.length ≤ unreadCap) := by
  refine ⟨fun data d hfeed => ?_, fun hfits hf => ?_⟩
  · have hreached := Session.run_reached calls (.live [] [] Session.start_live (.inl rfl)) h
    rcases hreached with ⟨accepted, dropped, hlive, -⟩ | ⟨accepted, dropped, hdead⟩
    · exact hlive.unread_le_iff hfeed
    · have hpanic := Decoder.feed_dead hdead.decoder data
      rw [hfeed] at hpanic
      cases hpanic
  · exact (Session.start_bounded.run calls hfits h hf).2

/-- A stored block of one byte. -/
theorem unread_bounded_iff_stored :
    Session.start.StoredFits [1, 1, 0, 254, 255, 65] ∧
      ∃ s, Session.run [.feed [1, 1, 0, 254, 255, 65]] Session.start = .ok s ∧ s.decoder.unread.length ≤ unreadCap := by
  have hfeed : (Decoder.new.feed [1, 1, 0, 254, 255, 65]).1 = .ok () := by decide +kernel
  have hfits : Session.start.StoredFits [1, 1, 0, 254, 255, 65] :=
    ((unread_bounded_iff (Session.run_nil Session.start)).1 [1, 1, 0, 254, 255, 65] _ (Prod.ext hfeed rfl)).mp (by decide +kernel)
  obtain ⟨s, hs, hf⟩ := Exec.returns_iff.mp
    (show (Session.run [.feed [1, 1, 0, 254, 255, 65]] Session.start).returns (fun s => !s.failed) = true by decide +kernel)
  have halong : Session.Along Session.FeedsFit Session.start [.feed [1, 1, 0, 254, 255, 65]] :=
    Session.along_cons.mpr ⟨hfits, fun _ _ => trivial⟩
  exact ⟨hfits, s, hs, (unread_bounded_iff hs).2 halong (by simpa using hf)⟩

/-! ## What a caller can tell -/

/-- Where a byte of a stored block is met, the output is shorter than a bound. -/
def MeetsBelow (bound : Nat) : ItemState × List Bool → Prop
  | ((.storedBody remaining _, output), bits) => 0 < remaining → 8 ≤ bits.length → output.length < bound
  | _ => True

instance (bound : Nat) : DecidablePred (MeetsBelow bound)
  | ((.storedBody remaining _, output), bits) => inferInstanceAs (Decidable (0 < remaining → 8 ≤ bits.length → output.length < bound))
  | ((.blockHeader, _), _) => .isTrue trivial
  | ((.storedAlignAndLen _, _), _) => .isTrue trivial
  | ((.dynamicHeader _, _), _) => .isTrue trivial
  | ((.dynamicBitwidthTable .., _), _) => .isTrue trivial
  | ((.dynamicCodeLengths .., _), _) => .isTrue trivial
  | ((.symbolLoop .., _), _) => .isTrue trivial
  | ((.finished, _), _) => .isTrue trivial
  | ((.transient, _), _) => .isTrue trivial

instance (limit : Nat) : DecidablePred (Below limit)
  | ((.symbolLoop .., output), _) => inferInstanceAs (Decidable (output.length < limit))
  | ((.blockHeader, _), _) => .isTrue trivial
  | ((.storedAlignAndLen _, _), _) => .isTrue trivial
  | ((.storedBody .., _), _) => .isTrue trivial
  | ((.dynamicHeader _, _), _) => .isTrue trivial
  | ((.dynamicBitwidthTable .., _), _) => .isTrue trivial
  | ((.dynamicCodeLengths .., _), _) => .isTrue trivial
  | ((.finished, _), _) => .isTrue trivial
  | ((.transient, _), _) => .isTrue trivial

theorem storedBelow_iff {limit bound : Nat} {c : ItemState × List Bool} :
    StoredBelow limit bound c ↔ ∀ c', itemMachine.RunsWithin (Below limit) c c' → MeetsBelow bound c' := by
  constructor
  · rintro h ⟨⟨state, output⟩, bits⟩ hr
    cases state with
    | storedBody remaining isFinal => exact h remaining isFinal output bits hr
    | _ => trivial
  · exact fun h remaining isFinal output bits hr => h _ hr

/-- Go through the input at hand item by item, and test whether the bytes of stored blocks are met short of the bound. -/
def Session.storedFitsTests (s : Session) (data : List UInt8) (fuel : Nat) : Bool :=
  itemMachine.tests (Below (s.taken.length + maxInternalBuffer))
    (MeetsBelow (s.taken.length + max s.decoder.unread.length unreadCap)) fuel (s.itemFed data)

/-- The condition on a feed that comes back can be tested. -/
theorem Session.Live.storedFits_iff_tests {fed dropped : List UInt8} {s : Session} (h : s.Live fed dropped) {data : List UInt8}
    {d : Decoder} (hfeed : s.decoder.feed data = (.ok (), d)) : s.StoredFits data ↔ ∃ fuel, s.storedFitsTests data fuel = true := by
  unfold Session.StoredFits Session.storedFitsTests
  rw [storedBelow_iff]
  constructor
  · have hrun := h.feedRun hfeed
    exact Machine.tests_of_holds hrun.runs hrun.stops
  · rintro ⟨fuel, hfuel⟩ c' hr
    exact Machine.holds_of_tests hfuel hr

/-- The stored block of a byte passes the test in six moves. -/
example : Session.start.storedFitsTests [1, 1, 0, 254, 255, 65] 6 = true := by decide +kernel

/-- Bytes whose stored blocks are all empty, as those of a flush are. -/
def StoredEmpty (fed : List UInt8) : Prop :=
  ∀ remaining isFinal output bits,
    itemMachine.Runs (startItem fed) ((.storedBody remaining isFinal, output), bits) → remaining = 0

theorem StoredEmpty.of_append {fed more : List UInt8} (h : StoredEmpty (fed ++ more)) : StoredEmpty fed := by
  intro remaining isFinal output bits hr
  have hr' := hr.append itemMachine_mono (admissible_ofBytes more)
  rw [← startItem_append] at hr'
  exact h _ _ _ _ hr'

namespace Session

/-- Where stored blocks are empty, a feed meets no byte of one. -/
theorem Live.feedsFit {fed dropped : List UInt8} {s : Session} (h : s.Live fed dropped) {c : Call}
    (hempty : StoredEmpty (fed ++ fedBytes [c])) : s.FeedsFit c := by
  cases c with
  | advance n => trivial
  | feed data =>
    rw [fedBytes_feed, fedBytes_nil, List.append_nil] at hempty
    intro remaining isFinal output bits hr hpos
    exact absurd (hempty _ _ _ _ ((h.reaches_itemFed data).trans hr.runs)) hpos.ne'

/-- Calls that came back and fed bytes whose stored blocks are empty keep a session within the bound. -/
theorem Bounded.run_of_storedEmpty (calls : List Call) {fed : List UInt8} {s s' : Session} (hinv : s.Bounded fed)
    (hempty : StoredEmpty (fed ++ fedBytes calls)) (hrun : Session.run calls s = .ok s') : s'.Bounded (fed ++ fedBytes calls) := by
  induction calls generalizing fed s with
  | nil =>
    obtain rfl := Exec.ok.inj hrun
    rwa [fedBytes_nil, List.append_nil]
  | cons c calls ih =>
    obtain ⟨s₁, hcall, hrest⟩ := run_cons_ok hrun
    rw [← List.singleton_append, fedBytes_append, ← List.append_assoc] at hempty ⊢
    exact ih (hinv.call (fun _ hlive => hlive.feedsFit hempty.of_append) hcall) hempty hrest

end Session

/-- Where the stored blocks fed are empty, never more than the cap and one match is unread. -/
theorem unread_bounded_of_storedEmpty {calls : List Call} {s : Session} (h : Session.run calls Session.start = .ok s)
    (hf : s.failed = false) (hempty : StoredEmpty (fedBytes calls)) : s.decoder.unread.length ≤ unreadCap :=
  (Session.start_bounded.run_of_storedEmpty calls (by rwa [List.nil_append]) h hf).2

/-- A run below a limit puts out no more than a byte for every eight bits it takes, beside what it may get to by symbols. -/
theorem output_le_input {limit bound : Nat} {c c' : ItemState × List Bool} (hlimit : limit + maxMatch ≤ bound)
    (hstart : c.1.2.length ≤ bound) (hc : ∃ r, Represents c.1.1 r) (hr : itemMachine.RunsWithin (Below limit) c c') :
    (∃ r, Represents c'.1.1 r) ∧ c'.2.length ≤ c.2.length ∧ 8 * c'.1.2.length + c'.2.length ≤ 8 * bound + c.2.length := by
  induction hr with
  | refl => exact ⟨hc, le_rfl, Nat.add_le_add_right (Nat.mul_le_mul_left _ hstart) _⟩
  | @tail b b' _ hmove ih =>
    obtain ⟨⟨state, output⟩, bits⟩ := b
    obtain ⟨⟨r, hrep⟩, hless, hle⟩ := ih
    obtain ⟨hbelow, hmove⟩ := hmove
    obtain ⟨r', -, hrep', -⟩ := moves_meaning [] hrep hmove
    have hbits := itemStep_length hrep hmove
    have hgrowth := (itemStep_output hmove).2
    refine ⟨⟨r', hrep'⟩, hbits.trans hless, ?_⟩
    simp only at hless hle hbits hgrowth
    cases state with
    | symbolLoop isFinal literal distance =>
      have hlt : output.length < limit := hbelow
      simp only [DecodeState.growth] at hgrowth
      omega
    | storedBody remaining isFinal =>
      rcases storedBody_takes hmove with ⟨-, hout, -⟩ | ⟨-, hout, htaken⟩
      · rw [hout]
        omega
      · simp only at htaken
        omega
    | _ =>
      simp only [DecodeState.growth, Nat.add_zero] at hgrowth
      omega

/-- Whatever is fed, a feed that comes back leaves no more unread than there was before it, or than the cap and one match, and one byte
more for each byte at hand. -/
theorem unread_le_input {calls : List Call} {s : Session} (h : Session.run calls Session.start = .ok s) {data : List UInt8}
    {d : Decoder} (hfeed : s.decoder.feed data = (.ok (), d)) :
    d.unread.length ≤ max s.decoder.unread.length unreadCap +
      (s.decoder.pendingBitCount / 8 + s.decoder.remainingInput.length + data.length) := by
  have hreached := Session.run_reached calls (.live [] [] Session.start_live (.inl rfl)) h
  rcases hreached with ⟨accepted, dropped, hlive, -⟩ | ⟨accepted, dropped, hdead⟩
  · have hrun := hlive.feedRun hfeed
    have hbound : s.taken.length + maxInternalBuffer + maxMatch ≤ s.taken.length + max s.decoder.unread.length unreadCap := by
      rw [Nat.add_assoc]
      exact Nat.add_le_add_left (le_max_right _ _) _
    have hlength : (s.itemFed data).2.length =
        s.decoder.pendingBitCount + 8 * (s.decoder.remainingInput.length + data.length) := by
      simp only [hlive.itemFed_eq, Decoder.item, Decoder.env, StepEnv.item, BitReader.newSeeded, BitReader.bits, List.drop_zero,
        List.length_append, length_ofNat, length_ofBytes, Decoder.remainingInput]
      omega
    obtain ⟨-, -, hle⟩ := output_le_input hbound (hrun.before_length.trans_le (Nat.add_le_add_left (le_max_left _ _) _))
      (runs_represents (hlive.reaches_itemFed data)) hrun.runs
    rw [hrun.output_length, hlength] at hle
    omega
  · have hpanic := Decoder.feed_dead hdead.decoder data
    rw [hfeed] at hpanic
    cases hpanic

/-! ## Two full stored blocks -/

/-- A stored block of as many bytes as it can hold. -/
def fullBlock (flags : UInt8) (data : List UInt8) : List UInt8 := [flags, 255, 255, 0, 0] ++ data

/-- The machine through a full stored block, whose first byte has the flag of a final block and the type. -/
theorem runs_fullBlock (limit : Nat) (isFinal : Bool) {data : List UInt8} (hdata : data.length = 65535) (output rest : List UInt8) :
    itemMachine.RunsWithin (Below limit) ((.blockHeader, output), ofBytes (fullBlock (if isFinal then 1 else 0) data ++ rest))
      ((if isFinal then .finished else .blockHeader, output ++ data), ofBytes rest) := by
  have hbits : ofBytes (fullBlock (if isFinal then 1 else 0) data ++ rest) =
      [isFinal, false, false] ++ ([false, false, false, false, false] ++ ofBytes ([255, 255, 0, 0] ++ (data ++ rest))) := by
    rw [fullBlock, List.append_assoc, List.cons_append, ofBytes_cons]
    cases isFinal <;> rfl
  have hheader : itemStep (.blockHeader, output) (ofBytes (fullBlock (if isFinal then 1 else 0) data ++ rest)) =
      .next (.storedAlignAndLen isFinal, output)
        ([false, false, false, false, false] ++ ofBytes ([255, 255, 0, 0] ++ (data ++ rest))) := by
    rw [hbits]
    cases isFinal <;> rfl
  have hlength : ([false, false, false, false, false] ++ ofBytes ([255, 255, 0, 0] ++ (data ++ rest))).length =
      5 + 8 * (4 + (data ++ rest).length) := by
    rw [List.length_append, length_ofBytes, List.length_append]
    rfl
  have hmod : (5 + 8 * (4 + (data ++ rest).length)) % 8 = 5 := by omega
  have hlen : itemStep (.storedAlignAndLen isFinal, output)
      ([false, false, false, false, false] ++ ofBytes ([255, 255, 0, 0] ++ (data ++ rest))) =
        .next (.storedBody 65535 isFinal, output) (ofBytes (data ++ rest)) := by
    have hfields : ofBytes [255, 255, 0, 0] = (([false, false, false, false, false] ++
        ofBytes ([255, 255, 0, 0] ++ (data ++ rest))).drop (([false, false, false, false, false] ++
          ofBytes ([255, 255, 0, 0] ++ (data ++ rest))).length % 8)).take 32 := by
      rw [hlength, hmod]
      rfl
    have hparse := parseStoredHeader_bytes (by rw [hlength]; omega) hfields
    rw [hlength, hmod] at hparse
    simp only [itemStep, hparse]
    rfl
  have hbytes : ofBytes data = (ofBytes (data ++ rest)).take (8 * data.length) := by
    rw [take_ofBytes, List.take_left]
  have hbody := runs_storedBody limit isFinal data 65535 output hdata.le hbytes
  rw [drop_ofBytes, List.drop_left, hdata, Nat.sub_self] at hbody
  have hdone : itemStep (.storedBody 0 isFinal, output ++ data) (ofBytes rest) =
      .next (if isFinal then .finished else .blockHeader, output ++ data) (ofBytes rest) := by
    simp only [itemStep, if_true]
  exact .head trivial (moves_of_next hheader) (.head trivial (moves_of_next hlen)
    (hbody.trans (.single trivial (moves_of_next hdone))))

/-- Fed two full stored blocks, a fresh decoder leaves all their bytes unread. -/
theorem feed_full_blocks {data data' : List UInt8} (hdata : data.length = 65535) (hdata' : data'.length = 65535) :
    ∃ d, Decoder.new.feed (fullBlock 0 data ++ fullBlock 1 data') = (.ok (), d) ∧ d.unread = data ++ data' := by
  have hrun : ∀ limit, itemMachine.RunsWithin (Below limit) (startItem (fullBlock 0 data ++ fullBlock 1 data'))
      ((.finished, data ++ data'), []) := by
    intro limit
    have hfirst := runs_fullBlock limit false hdata [] (fullBlock 1 data')
    have hsecond := runs_fullBlock limit true hdata' data []
    rw [List.append_nil] at hsecond
    exact hfirst.trans hsecond
  have hfed : Decoder.item [] { Decoder.new with input := Decoder.new.input.feed (fullBlock 0 data ++ fullBlock 1 data') } =
      startItem (fullBlock 0 data ++ fullBlock 1 data') := by
    simp only [Decoder.item, Decoder.env, StepEnv.item, BitReader.newSeeded, BitReader.bits, Buf.get_feed, Decoder.new,
      Buf.get_new, List.nil_append, List.drop_zero, ofNat_zero_width, startItem]
  rcases Decoder.feed_spec Decoder.new_live (fullBlock 0 data ++ fullBlock 1 data') (fun hf => absurd hf Bool.false_ne_true) with
    ⟨d, h1, h2⟩ | ⟨e, d, -, -, -, -, hfails⟩
  · refine ⟨d, h1, ?_⟩
    have hruns := h2.runs
    rw [hfed] at hruns
    have hitem := hruns.end_unique h2.stops (hrun _) fun _ => ⟨_, stops_halted⟩
    have houtput : d.output = data ++ data' := congrArg (fun c => c.1.2) hitem
    have hdrained : d.drained = 0 := h2.drained_eq
    rw [Decoder.unread, houtput, hdrained, List.drop_zero]
  · rw [hfed] at hfails
    exact absurd hfails (Decoder.not_fails (hrun _) (.inl stops_halted))

/-- The decoder leaves more unread than the cap and one match: two stored blocks of 65535 bytes, fed at once to a fresh decoder. -/
theorem stored_blocks_exceed_cap :
    ¬∀ calls s data d, Session.run calls Session.start = .ok s → s.decoder.feed data = (.ok (), d) →
      d.unread.length ≤ max s.decoder.unread.length (maxInternalBuffer + 258) := by
  intro h
  have hlength : (List.replicate 65535 (0 : UInt8)).length = 65535 := List.length_replicate
  obtain ⟨d, h1, h2⟩ := feed_full_blocks hlength hlength
  have hle := h [] Session.start _ d rfl h1
  rw [h2, List.length_append, hlength] at hle
  exact absurd hle (by decide)

end Noflate
