import Noflate.Error
import Noflate.Pipe
import Noflate.Lemmas.Layout
import Noflate.Lemmas.Sending
import Noflate.Lemmas.Receiving

/-!
# Nothing is lost or made up between an encoder and a decoder

In whatever order the two callers make their calls and bytes travel, no call panics or reports an error of the stream, and what the decoder
has put out is a beginning of what the encoder was fed (`pipe_safe`). Once the encoder holds nothing back and all of it has arrived,
a decoder that is drained has put out everything (`pipe_complete`).
-/

namespace Noflate

open BitString Resumable

/-! ## What an encoder will have put out -/

namespace Refines

variable {s : EncoderSession} {e : Emission}

/-- What an encoder has put out is a beginning of a stream for all it has been fed: the one it puts out when it is finished now. -/
theorem within_closed (h : Refines s e) (hs : e.Sound) : ∃ bytes, Closes bytes e.payload ∧ s.output <+: bytes := by
  by_cases ht : e.finishing = true
  · exact ⟨s.output, h.closes hs ht, List.prefix_rfl⟩
  · have hf : e.finishing = false := Bool.eq_false_iff.mpr ht
    obtain ⟨s', -, hs'⟩ := h.call_finish
    obtain ⟨hsound, hpayload⟩ := hs.call .finish
    have hclosed := hs'.closes hsound ((Emission.call_frame hf .finish).2.1.mpr rfl)
    rw [hpayload, Emission.accepts, List.append_nil] at hclosed
    exact ⟨s'.output, hclosed, h.output_grows hs' (Emission.run_bits_extends hf [.finish])⟩

/-- An encoder that holds nothing back: what it has put out carries, or closes, all it stands for. -/
theorem carries_or_closes (h : Refines s e) (hs : e.Sound) (hinput : s.encoder.input = []) (hcount : s.encoder.bitCount = 0) :
    if e.finishing then Closes s.output e.payload else Carries s.output e.payload := by
  split
  · rename_i ht
    exact h.closes hs ht
  · rename_i ht
    have hf : e.finishing = false := Bool.eq_false_iff.mpr ht
    have hbits : ofBytes s.output = blockBits e.blocks := by
      have hall := h.bits_eq
      rwa [Emission.bits_open hf, EncoderSession.bits, hcount, ofNat_zero_width, List.append_nil] at hall
    refine (h.carries hs hf (h.input_eq.symm.trans hinput) ?_).1
    rw [← hbits, length_ofBytes, Nat.mul_mod_right]

end Refines

namespace Pipe

/-- What holds whatever has happened: the encoder stands for an emission, the decoder has been fed a part of what came out of it, and the
rest of what its caller took is on its way. -/
structure Inv (p : Pipe) (e : Emission) : Prop where
  sender : Refines p.sender e
  sound : e.Sound
  receiver : ∃ fed dropped, p.receiver.Live fed dropped ∧ p.sender.taken = fed ++ p.channel
  not_failed : p.receiver.failed = false

/-- The invariant holds at the start. -/
theorem start_inv (options : EncodeOptions) : (start options).Inv (Emission.start options) :=
  ⟨Refines.start options, Emission.start_sound options, ⟨[], [], Session.start_live, rfl⟩, rfl⟩

/-- What a call on the encoder hands over. -/
theorem taken_extends {s s' : EncoderSession} {c : Command} (h : s.call c = .ok s') : s.taken <+: s'.taken := by
  have hbecomes : ∀ {result : Exec Encoder}, s.becomes result = .ok s' → s.taken <+: s'.taken := by
    intro result hresult
    cases result with
    | ok enc =>
      obtain rfl := Exec.ok.inj hresult
      exact List.prefix_rfl
    | err e =>
      obtain rfl := Exec.ok.inj hresult
      exact List.prefix_rfl
    | panic => cases hresult
    | diverge => cases hresult
  cases c with
  | feed data => exact hbecomes h
  | syncFlush => exact hbecomes h
  | finish => exact hbecomes h
  | resetHistory =>
    obtain rfl := Exec.ok.inj h
    exact List.prefix_rfl
  | advance n =>
    obtain ⟨enc, -, hs⟩ := Exec.bind_eq_ok.mp h
    obtain rfl := Exec.ok.inj hs
    exact List.prefix_append _ _

/-- What is on its way and what has arrived is a beginning of what the encoder has put out. -/
theorem arrived {p : Pipe} {fed : List UInt8} (hfed : p.sender.taken = fed ++ p.channel) (n : Nat) :
    fed ++ p.channel.take n <+: p.sender.output := by
  refine List.IsPrefix.trans ?_ (List.prefix_append p.sender.taken _)
  rw [hfed]
  exact (List.prefix_append_right_inj fed).mpr (List.take_prefix n _)

/-- A decoder that has finished has been fed everything there is. -/
theorem nothing_behind_end {bytes payload fed dropped data : List UInt8} {s : Session} (h : Closes bytes payload)
    (hlive : s.Live fed dropped) (hfed : fed ++ data <+: bytes) (hfin : s.decoder.finished = true) : data = [] := by
  obtain ⟨held, hheld, hr⟩ := h.runs
  obtain ⟨held', -, hr'⟩ := Decoder.halted_of_finished hlive hfin
  obtain ⟨rest, h1, h2, hrest⟩ := stops_of_prefix ((List.prefix_append _ _).trans hfed) hr' rfl (by simp)
  have hsame := congrArg (fun c => c.2.length) (Machine.stop_unique hr rfl h1 h2).1
  simp only [List.length_append, length_ofBytes] at hsame
  have hnil : rest = [] := List.length_eq_zero_iff.mp (by omega)
  rw [hrest, hnil, List.append_nil] at hfed
  exact List.append_right_eq_self.mp (hfed.eq_of_length_le (by rw [List.length_append]; omega))

/-- Every event in range keeps the invariant. -/
theorem Inv.step {p : Pipe} {e : Emission} (h : p.Inv e) {ev : Event} (hp : p.Permits ev) :
    ∃ p', p.step ev = .ok p' ∧ p'.Inv (Emission.run (commands [ev]) e) := by
  obtain ⟨fed, dropped, hlive, hfed⟩ := h.receiver
  cases ev with
  | send c =>
    obtain ⟨s', hcall, hs'⟩ := h.sender.call hp
    obtain ⟨new, hnew⟩ := taken_extends hcall
    refine ⟨{ p with sender := s', channel := p.channel ++ new }, ?_, hs', (h.sound.call c).1, ⟨fed, dropped, hlive, ?_⟩,
      h.not_failed⟩
    · rw [Pipe.step, hcall, Exec.ok_bind, ← hnew, List.drop_left]
    · show s'.taken = _
      rw [← hnew, hfed, List.append_assoc]
  | deliver n =>
    obtain ⟨bytes, hclosed, hout⟩ := h.sender.within_closed h.sound
    obtain ⟨held, -, hr⟩ := hclosed.runs
    have hpre := (arrived hfed n).trans hout
    obtain ⟨d, hcall, -, hlive', -⟩ := Session.feed_safe hr rfl (by simp) hlive (nothing_behind_end hclosed hlive hpre) hpre
    refine ⟨{ p with receiver := { p.receiver with decoder := d }, channel := p.channel.drop n }, ?_, h.sender, h.sound,
      ⟨_, dropped, hlive', ?_⟩, h.not_failed⟩
    · rw [Pipe.step, hcall, Exec.ok_bind]
    · show p.sender.taken = _
      rw [hfed, List.append_assoc, List.take_append_drop]
  | consume n =>
    obtain ⟨dropped', d, hcall, hlive', -⟩ := Session.advance_live hlive hp
    refine ⟨{ p with receiver := { p.receiver with decoder := d, taken := p.receiver.taken ++ p.receiver.decoder.unread.take n } },
      ?_, h.sender, h.sound, ⟨fed, dropped', hlive', hfed⟩, h.not_failed⟩
    rw [Pipe.step, hcall, Exec.ok_bind]

/-- Events in range keep the invariant. -/
theorem Inv.run {p : Pipe} {e : Emission} (h : p.Inv e) {events : List Event} (hp : p.InRange events) :
    ∃ p', run events p = .ok p' ∧ p'.Inv (Emission.run (commands events) e) := by
  induction events generalizing p e with
  | nil => exact ⟨p, rfl, h⟩
  | cons ev events ih =>
    obtain ⟨hev, hrest⟩ := inRange_cons.mp hp
    obtain ⟨p₁, h1, h2⟩ := h.step hev
    obtain ⟨p', h3, h4⟩ := ih h2 (hrest p₁ h1)
    have hcommands : commands (ev :: events) = commands [ev] ++ commands events := List.filterMap_append (l := [ev])
    refine ⟨p', by rw [Pipe.run, h1, Exec.ok_bind, h3], ?_⟩
    rwa [hcommands, Emission.run_append]

/-- Whatever happens in whatever order, no call panics, no call on the decoder reports an error, and what the decoder has put out is a
beginning of the bytes the encoder accepted. -/
theorem pipe_safe (options : EncodeOptions) {events : List Event} (hrange : (start options).InRange events) :
    ∃ p, run events (start options) = .ok p ∧ p.receiver.failed = false ∧
      p.receiver.output <+: accepted (commands events) := by
  obtain ⟨p, hrun, hp⟩ := (start_inv options).run hrange
  refine ⟨p, hrun, hp.not_failed, ?_⟩
  obtain ⟨fed, dropped, hlive, hfed⟩ := hp.receiver
  obtain ⟨bytes, hclosed, hout⟩ := hp.sender.within_closed hp.sound
  obtain ⟨held, -, hr⟩ := hclosed.runs
  have hpre : fed <+: bytes := by
    have harrived := arrived hfed 0
    rw [List.take_zero, List.append_nil] at harrived
    exact harrived.trans hout
  rw [hlive.tracks.output_eq, ← Emission.run_payload options]
  have hgrows := output_of_prefix hpre hlive.decoder.runs hr stops_halted
  exact hgrows

/-- A byte, of whose encoding a part has arrived. -/
theorem pipe_safe_stored :
    ∃ p, run [.send (.feed [65]), .send .finish, .send (.advance 3), .deliver 2, .consume 0] (start EncodeOptions.new.stored) = .ok p ∧
      p.receiver.failed = false ∧ p.receiver.output <+: [65] := by
  have hrange : (start EncodeOptions.new.stored).InRange
      [.send (.feed [65]), .send .finish, .send (.advance 3), .deliver 2, .consume 0] := by
    refine ⟨trivial, trivial, ?_, trivial, ?_, trivial⟩
    · show 3 ≤ _
      decide
    · exact Nat.zero_le _
  exact pipe_safe EncodeOptions.new.stored hrange

/-- Once the encoder holds nothing back and all of it has arrived, a decoder that is drained has put out all bytes accepted; it has
finished if the encoder has, and waits for more otherwise. -/
theorem pipe_complete (options : EncodeOptions) {events : List Event} (hrange : (start options).InRange events) {p : Pipe}
    (hrun : run events (start options) = .ok p) (hidle : p.Idle) :
    ∃ d, p.receiver.settle = .ok (if .finish ∈ commands events then .halted else .waiting, d) ∧
      d.output = accepted (commands events) ∧ d.failed = false := by
  obtain ⟨p', hrun', hp⟩ := (start_inv options).run hrange
  obtain rfl := Exec.ok.inj (hrun.symm.trans hrun')
  obtain ⟨fed, dropped, hlive, hfed⟩ := hp.receiver
  obtain ⟨verdict, d, hsettle, hd⟩ := Session.settle_spec (.inl ⟨hp.not_failed, dropped, hlive⟩)
  obtain ⟨c, hr, hstop, hout, -⟩ := hd.stopped
  have hall : fed = p.sender.output := by
    rw [EncoderSession.output, hidle.unread_eq, hfed, hidle.channel_eq, List.append_nil, List.append_nil]
  have hread := hp.sender.carries_or_closes hp.sound hidle.input_eq hidle.bitCount_eq
  rw [← hall, Emission.run_payload] at hread
  have hends : verdict = (if .finish ∈ commands events then .halted else .waiting) ∧ c.1.2 = accepted (commands events) := by
    have hfin := Emission.run_finishing (commands events) (Emission.start options)
    by_cases hmem : .finish ∈ commands events
    · rw [if_pos (hfin.mpr (.inr hmem))] at hread
      obtain ⟨held, -, hr'⟩ := hread.runs
      obtain ⟨rfl, rfl⟩ := Machine.stop_unique hr hstop hr' rfl
      rw [if_pos hmem]
      exact ⟨rfl, rfl⟩
    · rw [if_neg fun ht => hmem ((hfin.mp ht).resolve_left (by simp [Emission.start]))] at hread
      obtain ⟨rfl, rfl⟩ := Machine.stop_unique hr hstop hread.runs (stops_header _)
      rw [if_neg hmem]
      exact ⟨rfl, rfl⟩
  refine ⟨d, by rw [hsettle, hends.1], hout.symm.trans hends.2, ?_⟩
  refine Bool.eq_false_iff.mpr fun ht => ?_
  have hfailed := hd.failed_iff.mp ht
  rw [hends.1] at hfailed
  split at hfailed <;> cases hfailed

/-- A byte and a flush, taken in two parts and delivered in two others. -/
theorem pipe_complete_stored :
    ∃ p d, run [.send (.feed [65]), .send .syncFlush, .send (.advance 3), .deliver 2, .send (.advance 8), .deliver 9]
        (start EncodeOptions.new.stored) = .ok p ∧
      p.receiver.settle = .ok (.waiting, d) ∧ d.output = [65] ∧ d.failed = false := by
  have hrange : (start EncodeOptions.new.stored).InRange
      [.send (.feed [65]), .send .syncFlush, .send (.advance 3), .deliver 2, .send (.advance 8), .deliver 9] := by
    refine ⟨trivial, trivial, ?_, trivial, ?_, trivial, trivial⟩
    · show 3 ≤ _
      decide
    · show 8 ≤ _
      decide
  obtain ⟨d, h⟩ := pipe_complete EncodeOptions.new.stored hrange rfl ⟨rfl, rfl, rfl, rfl⟩
  exact ⟨_, d, rfl, h⟩

end Pipe

end Noflate
