import Noflate.ContainerDecoding
import Noflate.Lemmas.GzipSteps
import Noflate.Lemmas.ZlibSteps

/-!
# Decoders of containers whose output is consumed

What a decoder has put out is given by the place in the stream its bytes lead to (`Shows`), whatever of it has been consumed: consuming
leaves a decoder where it stands (`Gzip.Stands.consume`, `Zlib.Stands.consume`). So a session follows the reader of the format through
all its calls (`Follows.run`).
-/

namespace Noflate

open Framing Resumable

/-- What has been put out of a stream up to a place in it: nothing in the header, in the body what the raw machine has put out where it
waits, and behind the body all of it. -/
def Shows {η : Type} (p : Phase UInt8 η (List UInt8)) (output : List UInt8) : Prop :=
  match p with
  | .header _ => output = []
  | .body bytes => ∃ c, itemMachine.Runs (startItem bytes) c ∧ itemMachine.Stops c .waiting ∧ c.1.2 = output
  | .trailer taken _ => output = taken
  | .done taken => output = taken

/-- A place shows one output. -/
theorem Shows.unique {η : Type} {p : Phase UInt8 η (List UInt8)} {output output' : List UInt8} (h : Shows p output)
    (h' : Shows p output') : output = output' := by
  cases p with
  | header state => exact Eq.trans h (Eq.symm h')
  | body bytes =>
    obtain ⟨c, hr, hstop, rfl⟩ := h
    obtain ⟨c', hr', hstop', rfl⟩ := h'
    rw [(Machine.stop_unique hr hstop hr' hstop').1]
  | trailer taken filled => exact Eq.trans h (Eq.symm h')
  | done taken => exact Eq.trans h (Eq.symm h')

/-- A raw decoder that waits with its output collected. -/
theorem Decoder.Waits.shows {η : Type} {bytes dropped taken : List UInt8} {d : Decoder} (h : d.Waits bytes dropped taken) :
    Shows (.body bytes : Phase UInt8 η (List UInt8)) taken := by
  refine ⟨_, h.live.decoder.runs, h.waiting, ?_⟩
  have houtput := h.live.tracks.output_eq
  rw [Session.output, h.unread_eq, List.append_nil] at houtput
  exact houtput.symm

/-! ## Consuming output -/

namespace Gzip

variable {gone : List UInt8} {d : Decoder} {p : Phase UInt8 HeaderState (List UInt8)}

/-- What a decoder has put out is what its place shows. -/
theorem Stands.shows (h : Stands gone d p) : Shows p (gone ++ d.output.get) := by
  have hnone : Unstarted d → gone = [] → gone ++ d.output.get = [] := by
    intro hd hgone
    rw [hgone, hd.output_eq, List.append_nil]
  cases h with
  | fixed hd hgone => exact hnone hd hgone
  | extraLength hd hgone => exact hnone hd hgone
  | extra hd hgone => exact hnone hd hgone
  | extraEnd hd hgone _ _ hp =>
    rw [hp, hnone hd hgone]
    cases HeaderState.afterExtra d.flags with
    | some state => rfl
    | none => exact Noflate.Decoder.new_waits.shows
  | name hd hgone => exact hnone hd hgone
  | comment hd hgone => exact hnone hd hgone
  | headerCrc hd hgone => exact hnone hd hgone
  | body hd hwaits =>
    rw [← hd.collected.output_eq]
    exact hwaits.shows
  | trailer hd => exact hd.collected.output_eq.symm
  | done hd => exact hd.output_eq.symm

/-- Consuming output leaves a decoder where it stands. -/
theorem Stands.consume {n : Nat} {d' : Decoder} (h : Stands gone d p) (hadvance : d.advance n = .ok d') :
    Stands (gone ++ d.output.get.take n) d' p := by
  obtain ⟨output, hb, hd'⟩ := Exec.bind_eq_ok.mp hadvance
  obtain rfl := Exec.ok.inj hd'
  obtain ⟨-, hget⟩ := Buf.le_of_advance hb
  have hunstarted : Unstarted d → Unstarted { d with output } := fun hd =>
    ⟨hd.1, hd.2, hd.3, hd.4, by simp only [hget, hd.output_eq, List.drop_nil], hd.6, hd.7, hd.8⟩
  have hgone : Unstarted d → gone = [] → gone ++ d.output.get.take n = [] := by
    intro hd hnil
    rw [hnil, hd.output_eq, List.take_nil, List.append_nil]
  have hcollected : ∀ {taken}, Collected gone taken d → Collected (gone ++ d.output.get.take n) taken { d with output } := by
    intro taken hd
    refine ⟨hd.crc_of, hd.size_eq, ?_⟩
    simp only [hget]
    rw [List.append_assoc, List.take_append_drop]
    exact hd.output_eq
  cases h with
  | fixed hd hnil hstate hlength hfilled hlt hbytes =>
    exact .fixed (hunstarted hd) (hgone hd hnil) hstate hlength hfilled hlt hbytes
  | extraLength hd hnil hstate hfilled hlt hbytes => exact .extraLength (hunstarted hd) (hgone hd hnil) hstate hfilled hlt hbytes
  | extra hd hnil hstate hlt hremaining => exact .extra (hunstarted hd) (hgone hd hnil) hstate hlt hremaining
  | extraEnd hd hnil hstate hremaining hp => exact .extraEnd (hunstarted hd) (hgone hd hnil) hstate hremaining hp
  | name hd hnil hstate => exact .name (hunstarted hd) (hgone hd hnil) hstate
  | comment hd hnil hstate => exact .comment (hunstarted hd) (hgone hd hnil) hstate
  | headerCrc hd hnil hstate hfilled hlt => exact .headerCrc (hunstarted hd) (hgone hd hnil) hstate hfilled hlt
  | body hd hwaits => exact .body ⟨hcollected hd.collected, hd.2, hd.3, hd.4, hd.5⟩ hwaits
  | trailer hd => exact .trailer ⟨hcollected hd.collected, hd.2, hd.3, hd.4, hd.5, hd.6, hd.7⟩
  | done hd hstate hfilled hfinished => exact .done (hcollected hd) hstate hfilled hfinished

end Gzip

namespace Zlib

variable {gone : List UInt8} {d : Decoder} {p : Phase UInt8 (List UInt8) (List UInt8)}

/-- What a decoder has put out is what its place shows. -/
theorem Stands.shows (h : Stands gone d p) : Shows p (gone ++ d.output.get) := by
  cases h with
  | header hd hgone =>
    rw [hgone, hd.output_eq]
    rfl
  | body hd hwaits =>
    rw [← hd.collected.output_eq]
    exact hwaits.shows
  | trailer hd => exact hd.collected.output_eq.symm
  | done hd => exact hd.output_eq.symm

/-- Consuming output leaves a decoder where it stands. -/
theorem Stands.consume {n : Nat} {d' : Decoder} (h : Stands gone d p) (hadvance : d.advance n = .ok d') :
    Stands (gone ++ d.output.get.take n) d' p := by
  obtain ⟨output, hb, hd'⟩ := Exec.bind_eq_ok.mp hadvance
  obtain rfl := Exec.ok.inj hd'
  obtain ⟨-, hget⟩ := Buf.le_of_advance hb
  have hcollected : ∀ {taken}, Collected gone taken d → Collected (gone ++ d.output.get.take n) taken { d with output } := by
    intro taken hd
    refine ⟨hd.adler_of, ?_⟩
    simp only [hget]
    rw [List.append_assoc, List.take_append_drop]
    exact hd.output_eq
  cases h with
  | header hd hgone hstate hlength hfilled hlt hbytes =>
    have hnil : output.get = [] := by rw [hget, hd.output_eq, List.drop_nil]
    have hgone' : gone ++ d.output.get.take n = [] := by rw [hgone, hd.output_eq, List.take_nil, List.append_nil]
    exact .header ⟨hd.1, hd.2, hnil, hd.4, hd.5, hd.6⟩ hgone' hstate hlength hfilled hlt hbytes
  | body hd hwaits => exact .body ⟨hcollected hd.collected, hd.2, hd.3, hd.4, hd.5⟩ hwaits
  | trailer hd => exact .trailer ⟨hcollected hd.collected, hd.2, hd.3, hd.4, hd.5, hd.6, hd.7⟩
  | done hd hstate hfinished => exact .done (hcollected hd) hstate hfinished

end Zlib

/-! ## Sessions -/

/-- A decoder follows the reader of a format: where it stands in a stream is where the bytes fed lead the reader to, its output is what
that place shows, and consuming some of it does not move it. -/
structure Follows {δ η : Type} (F : Format UInt8 η (List UInt8)) (D : ContainerDecoder δ)
    (Stands : List UInt8 → δ → Phase UInt8 η (List UInt8) → Prop) : Prop where
  new : Stands [] D.new (.header F.start)
  feed : ∀ {gone d p}, Stands gone d p → ∀ data,
    (∃ d' p', D.feed d data = (.ok (), d') ∧ F.run p data = some p' ∧ Stands gone d' p') ∨
      ((∃ e d', D.feed d data = (.err e, d')) ∧ F.run p data = none)
  advance : ∀ {gone d p n}, Stands gone d p → n ≤ (D.output d).length →
    ∃ d', D.advance d n = .ok d' ∧ Stands (gone ++ (D.output d).take n) d' p
  shows : ∀ {gone d p}, Stands gone d p → Shows p (gone ++ D.output d)
  finished : ∀ {gone d p}, Stands gone d p → (D.isFinished d = true ↔ ∃ o, p = .done o)

/-- The gzip decoder follows the reader of gzip members. -/
theorem Gzip.follows : Follows Gzip.format Gzip.decoder Gzip.Stands where
  new := Gzip.new_stands
  feed := by
    intro gone d p h data
    have hfeed := Gzip.feed_spec h data
    show (∃ d' p', d.feed data = (.ok (), d') ∧ _) ∨ ((∃ e d', d.feed data = (.err e, d')) ∧ _)
    generalize d.feed data = r at hfeed ⊢
    cases hfeed with
    | ok hq h' => exact .inl ⟨_, _, rfl, hq, h'⟩
    | err hq _ => exact .inr ⟨⟨_, _, rfl⟩, hq⟩
  advance := by
    intro gone d p n h hn
    obtain ⟨output, hb, -⟩ := Buf.advance_ok hn
    have hadvance : d.advance n = .ok { d with output } := by
      rw [Gzip.Decoder.advance, hb, Exec.ok_bind]
    exact ⟨_, hadvance, h.consume hadvance⟩
  shows := fun h => h.shows
  finished := fun h => h.finished_iff

/-- The zlib decoder follows the reader of zlib streams. -/
theorem Zlib.follows : Follows Zlib.format Zlib.decoder Zlib.Stands where
  new := Zlib.new_stands
  feed := by
    intro gone d p h data
    have hfeed := Zlib.feed_spec h data
    show (∃ d' p', d.feed data = (.ok (), d') ∧ _) ∨ ((∃ e d', d.feed data = (.err e, d')) ∧ _)
    generalize d.feed data = r at hfeed ⊢
    cases hfeed with
    | ok hq h' => exact .inl ⟨_, _, rfl, hq, h'⟩
    | err hq => exact .inr ⟨⟨_, _, rfl⟩, hq⟩
  advance := by
    intro gone d p n h hn
    obtain ⟨output, hb, -⟩ := Buf.advance_ok hn
    have hadvance : d.advance n = .ok { d with output } := by
      rw [Zlib.Decoder.advance, hb, Exec.ok_bind]
    exact ⟨_, hadvance, h.consume hadvance⟩
  shows := fun h => h.shows
  finished := fun h => h.finished_iff

namespace Follows

variable {δ η : Type} {F : Format UInt8 η (List UInt8)} {D : ContainerDecoder δ}
  {Stands : List UInt8 → δ → Phase UInt8 η (List UInt8) → Prop}

/-- A session follows the reader through its calls, to a place or to an error. -/
theorem run (h : Follows F D Stands) {calls : List Call} {s : DecodingSession δ} {p : Phase UInt8 η (List UInt8)}
    (hs : Stands s.taken s.decoder p) (hrange : s.InRange D calls) :
    (∃ s' p', DecodingSession.run D calls s = .ok s' ∧ F.run p (fedBytes calls) = some p' ∧ Stands s'.taken s'.decoder p') ∨
      ((∃ e, DecodingSession.run D calls s = .err e) ∧ F.run p (fedBytes calls) = none) := by
  induction calls generalizing s p with
  | nil => exact .inl ⟨s, p, rfl, rfl, hs⟩
  | cons c calls ih =>
    obtain ⟨hc, hrest⟩ := DecodingSession.inRange_cons.mp hrange
    rw [DecodingSession.run_cons]
    cases c with
    | feed data =>
      rw [fedBytes_feed, Format.run_append, DecodingSession.call]
      rcases h.feed hs data with ⟨d', p', hfeed, hp, hs'⟩ | ⟨⟨e, d', hfeed⟩, hp⟩
      · have hcall : s.call D (.feed data) = .ok { s with decoder := d' } := by
          rw [DecodingSession.call, hfeed, Exec.leaving_ok, Exec.ok_bind]
        rw [hfeed, hp, Exec.leaving_ok, Exec.ok_bind, Exec.ok_bind, Option.bind_some]
        exact ih hs' (hrest _ hcall)
      · rw [hfeed, hp, Exec.leaving_err, Exec.err_bind, Exec.err_bind]
        exact .inr ⟨⟨e, rfl⟩, rfl⟩
    | advance n =>
      obtain ⟨d', hadvance, hs'⟩ := h.advance hs (hc n rfl)
      have hcall : s.call D (.advance n) = .ok { decoder := d', taken := s.taken ++ (D.output s.decoder).take n } := by
        rw [DecodingSession.call, hadvance, Exec.ok_bind]
      rw [fedBytes_advance, hcall, Exec.ok_bind]
      exact ih hs' (hrest _ hcall)

end Follows

end Noflate
