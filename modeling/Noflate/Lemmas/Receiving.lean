import Noflate.Error
import Noflate.PerMessage
import Noflate.Lemmas.Frames

/-!
# A decoder between two messages

A decoder that is fed a part of what does not fail does not fail (`Decoder.feed_safe`), and drained to its end it has put out what the
machine has where it stops. A decoder that has been fed whole pieces of a stream and drained (`Decoder.Between`) is as good as a fresh
one: the next piece gives its payload.
-/

namespace Noflate

open BitString Resumable

variable {bytes : List UInt8} {c : ItemState × List Bool} {verdict : Verdict}

/-- What the machine has put out on the beginning of a byte string is a beginning of what it has put out on all of it, where it stops. -/
theorem output_of_prefix {fed : List UInt8} {c' : ItemState × List Bool} (h : fed <+: bytes) (hr' : itemMachine.Runs (startItem fed) c')
    (hr : itemMachine.Runs (startItem bytes) c) (hstop : itemMachine.Stops c verdict) : c'.1.2 <+: c.1.2 := by
  obtain ⟨rest, rfl⟩ := h
  have hx : (ofBytes rest).length % 8 = 0 := by rw [length_ofBytes, Nat.mul_mod_right]
  have hall := hr'.append itemMachine_mono hx
  unfold startItem at hall hr
  rw [← ofBytes_append] at hall
  have hgrows := runs_output (hall.to_stop hr hstop)
  exact hgrows

/-- A decoder that is fed part of a byte string on which the machine does not fail. -/
theorem Decoder.feed_safe (hr : itemMachine.Runs (startItem bytes) c) (hstop : itemMachine.Stops c verdict)
    (hv : verdict ≠ .failed) {fed dropped data : List UInt8} {d : Decoder} (h : d.Live fed dropped)
    (hfin : d.finished = true → data = []) (hfed : fed ++ data <+: bytes) :
    ∃ d', d.feed data = (.ok (), d') ∧ Drives (fed ++ data) dropped { d with input := d.input.feed data } d' := by
  rcases Decoder.feed_spec h data hfin with hok | ⟨e, d', -, hdead, -⟩
  · exact hok
  · obtain ⟨c', hr', -, hstop'⟩ := hdead.failed
    obtain ⟨rest, h1, h2, -⟩ := stops_of_prefix hfed hr' hstop' (by simp)
    exact absurd (Machine.stop_unique hr hstop h1 h2).2 hv

/-- The same in a session. -/
theorem Session.feed_safe (hr : itemMachine.Runs (startItem bytes) c) (hstop : itemMachine.Stops c verdict)
    (hv : verdict ≠ .failed) {fed dropped data : List UInt8} {s : Session} (h : s.Live fed dropped)
    (hfin : s.decoder.finished = true → data = []) (hfed : fed ++ data <+: bytes) :
    ∃ d, s.call (.feed data) = .ok { s with decoder := d } ∧ s.decoder.feed data = (.ok (), d) ∧
      Live (fed ++ data) dropped { s with decoder := d } ∧
      Decoder.Drives (fed ++ data) dropped { s.decoder with input := s.decoder.input.feed data } d := by
  obtain ⟨d, h1, h2⟩ := Decoder.feed_safe hr hstop hv h.decoder hfin hfed
  refine ⟨d, by simp only [call, h1], h1, ⟨h2.live, ?_⟩, h2⟩
  exact h.tracks.feed h2.live.windowed h2.drained_eq (runs_output h2.runs.runs) s.failed

/-- Where the machine waits for more, no part of the input makes a decoder finish. -/
theorem Session.not_finished (hr : itemMachine.Runs (startItem bytes) c) (hstop : itemMachine.Stops c .waiting)
    {fed dropped : List UInt8} {s : Session} (h : s.Live fed dropped) (hfed : fed <+: bytes) : ¬s.decoder.finished = true := by
  intro hfin
  have hhalt := Decoder.halts_of_finished dropped (h.decoder.finished_iff.mp hfin)
  cases waiting_of_prefix hfed hr hstop h.decoder.runs hhalt

namespace PerMessage

/-- Pieces fed under `?`. -/
theorem feeds_waiting (hr : itemMachine.Runs (startItem bytes) c) (hstop : itemMachine.Stops c .waiting)
    (pieces : List (List UInt8)) {fed dropped taken : List UInt8} {dec : Decoder}
    (h : Session.Live fed dropped { decoder := dec, taken, failed := false }) (hfed : fed ++ pieces.flatten <+: bytes) :
    ∃ dec', pieces.foldlM feedDecoder dec = .ok dec' ∧
      Session.Live (fed ++ pieces.flatten) dropped { decoder := dec', taken, failed := false } := by
  induction pieces generalizing fed dec with
  | nil =>
    rw [List.flatten_nil, List.append_nil]
    exact ⟨dec, rfl, h⟩
  | cons data pieces ih =>
    rw [List.flatten_cons, ← List.append_assoc] at hfed ⊢
    have hpre : fed ++ data <+: bytes := (List.prefix_append _ _).trans hfed
    obtain ⟨d, -, h1, h2, -⟩ := Session.feed_safe hr hstop (by simp) h
      (fun hfin => absurd hfin (Session.not_finished hr hstop h ((List.prefix_append _ _).trans hpre))) hpre
    obtain ⟨dec', h3, h4⟩ := ih h2 hfed
    refine ⟨dec', ?_, h4⟩
    rw [List.foldlM_cons, feedDecoder, h1, Exec.leaving_ok, Exec.ok_bind]
    exact h3

/-- A decoder that has been fed whole pieces of a stream, and of which all output is consumed. -/
def Between (dec : Decoder) : Prop :=
  ∃ fed dropped taken, Session.Live fed dropped { decoder := dec, taken, failed := false } ∧ Carries fed taken ∧ dec.unread = []

/-- A fresh decoder stands between two messages. -/
theorem new_between : Between Decoder.new := ⟨[], [], [], Session.start_live, .nil, rfl⟩

/-- Feeding the pieces of a frame and the trailer. -/
theorem Between.fed {dec : Decoder} (h : Between dec) {frame message : List UInt8} (hframe : Carries (frame ++ trailer) message)
    (pieces : List (List UInt8)) (hpieces : pieces.flatten = frame) :
    ∃ dec₁ dec₂ fed dropped taken, pieces.foldlM feedDecoder dec = .ok dec₁ ∧ feedDecoder dec₁ trailer = .ok dec₂ ∧
      Session.Live fed dropped { decoder := dec₂, taken, failed := false } ∧ dec₂.Paused dropped ∧
        Carries fed (taken ++ message) := by
  obtain ⟨fed, dropped, taken, hlive, hcarries, -⟩ := h
  have hall := hcarries.append hframe
  have hr := hall.runs
  obtain ⟨dec₁, h1, h2⟩ := feeds_waiting hr (stops_header _) pieces hlive (by
    rw [hpieces, ← List.append_assoc]
    exact List.prefix_append _ _)
  have hfed : fed ++ pieces.flatten ++ trailer <+: fed ++ (frame ++ trailer) :=
    ⟨[], by rw [List.append_nil, hpieces, List.append_assoc]⟩
  obtain ⟨d, -, h3, h4, hdrives⟩ := Session.feed_safe hr (stops_header _) (by simp) h2
    (fun hfin => absurd hfin (Session.not_finished hr (stops_header _) h2 ((List.prefix_append _ _).trans hfed))) hfed
  refine ⟨dec₁, d, _, dropped, taken, h1, by rw [feedDecoder, h3, Exec.leaving_ok], h4, hdrives.paused, ?_⟩
  rw [hpieces, List.append_assoc]
  exact hall

/-- Receiving a frame gives the message that it carries. -/
theorem Between.receive {dec : Decoder} (h : Between dec) {message : List UInt8} {d : Delivery}
    (hframe : Carries (d.frame ++ trailer) message) : ∃ dec', PerMessage.receive dec d = .ok (message, dec') ∧ Between dec' := by
  have hfresh : Between (if d.fresh then Decoder.new else dec) := by
    split
    · exact new_between
    · exact h
  obtain ⟨dec₁, dec₂, fed, dropped, taken, h1, h2, h3, -, h4⟩ := hfresh.fed hframe d.pieces rfl
  have hr := h4.runs
  have hstop := stops_header (taken ++ message)
  have hrank := Decoder.rank_lt_driveFuel dropped dec₂
  obtain ⟨v, s', hsettle, -⟩ := Session.settleLoop_live (dec₂.driveFuel + 2) h3 rfl (by simp only; omega)
  have hcollect : ∀ all out new : List UInt8, all = taken ++ out → all ++ new = taken ++ (out ++ new) := by
    intro all out new hall
    rw [hall, List.append_assoc]
  have hdrained : Decoder.Drained (fun all out => all = taken ++ out) fed (drainLoop (· ++ ·) (dec₂.driveFuel + 2) [] dec₂) :=
    Decoder.drainLoop_of_settle hcollect (dec₂.driveFuel + 2) h3 (List.append_nil _).symm hsettle
  unfold PerMessage.receive
  rw [h1, Exec.ok_bind, h2, Exec.ok_bind]
  generalize drainLoop (· ++ ·) (dec₂.driveFuel + 2) [] dec₂ = result at hdrained ⊢
  cases hdrained with
  | finished hx hd =>
    exact absurd hd.finished (Session.not_finished hr hstop hd.live List.prefix_rfl)
  | failed hx hd =>
    obtain ⟨c', hr', -, hstop'⟩ := hd.failed
    cases (Machine.stop_unique hr hstop hr' hstop').2
  | @waiting dropped' taken' out dec' hx hd =>
    have hitem := (Machine.stop_unique hr hstop hd.live.decoder.runs hd.waiting).1
    have hall : taken ++ message = dec'.history dropped' := congrArg (fun c => c.1.2) hitem
    have hout := hd.live.tracks.output_eq
    rw [Session.output, hd.unread_eq, List.append_nil] at hout
    have htaken : taken' = taken ++ message := hout.trans hall.symm
    have hmessage : out = message := List.append_cancel_left (hx.symm.trans htaken)
    exact ⟨dec', by rw [hmessage], fed, dropped', taken', hd.live, htaken ▸ h4, hd.unread_eq⟩

/-- Receiving a frame as the documentation does gives the message that it carries, if that is short. -/
theorem Between.receiveOnce {dec : Decoder} (h : Between dec) {frame message : List UInt8}
    (hframe : Carries (frame ++ trailer) message) (hshort : message.length < maxInternalBuffer) :
    ∃ dec', PerMessage.receiveOnce dec frame = .ok (message, dec') ∧ Between dec' := by
  obtain ⟨dec₁, dec₂, fed, dropped, taken, h1, h2, h3, hpaused, h4⟩ := h.fed hframe [frame] (List.append_nil frame)
  have hfirst : feedDecoder dec frame = .ok dec₁ := by
    rw [List.foldlM_cons] at h1
    obtain ⟨dec', hfeed, hnil⟩ := Exec.bind_eq_ok.mp h1
    obtain rfl := Exec.ok.inj hnil
    exact hfeed
  have hr := h4.runs
  have hstop := stops_header (taken ++ message)
  have hout : taken ++ dec₂.unread = dec₂.history dropped := h3.tracks.output_eq
  -- too little has been put out for the decoder to have stopped before the end of what it was fed
  have hwaits : itemMachine.Stops (dec₂.item dropped) .waiting := by
    rcases hpaused.paused with hfin | hwait | ⟨hcap, -⟩
    · exact absurd hfin (Session.not_finished hr hstop h3 List.prefix_rfl)
    · exact hwait
    · have hpre : dec₂.history dropped <+: taken ++ message := runs_output (h3.decoder.runs.to_stop hr hstop)
      rw [← hout] at hpre
      have hlen := ((List.prefix_append_right_inj taken).mp hpre).length_le
      omega
  have hitem := (Machine.stop_unique hr hstop h3.decoder.runs hwaits).1
  have hall : taken ++ message = dec₂.history dropped := congrArg (fun c => c.1.2) hitem
  have hmessage : dec₂.unread = message := List.append_cancel_left (hout.trans hall.symm)
  obtain ⟨dropped', d, hcall, hlive, -⟩ := Session.advance_live h3 le_rfl
  obtain ⟨hadvance, htaken, -, hunread⟩ := Session.call_advance_all hcall
  simp only at hadvance htaken hunread
  refine ⟨d, ?_, fed, dropped', taken ++ message, ?_, h4, hunread⟩
  · unfold PerMessage.receiveOnce
    rw [hfirst, Exec.ok_bind, h2, Exec.ok_bind]
    simp only
    rw [hadvance, Exec.ok_bind, hmessage]
  · rw [htaken, hmessage] at hlive
    exact hlive

end PerMessage

end Noflate
