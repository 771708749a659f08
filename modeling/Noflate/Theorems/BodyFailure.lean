import Noflate.Theorems.Aftermath
import Noflate.Theorems.Placeholder
import Noflate.Theorems.Termination

/-!
# A body that fails in a container

The gzip and the zlib decoder hand their body to the deflate decoder, and an error of it leaves the placeholder in there as it does in a
decoder of its own. A call of `feed` does so exactly when the bytes fed so far are a header of the format and a damaged deflate stream
behind it (`Gzip.body_fails_iff`, `Zlib.body_fails_iff`). How much has been consumed plays no part, for the two decoders drain the deflate
decoder themselves. A byte fed behind such a call is a panic, and behind no other.
-/

namespace Noflate

open Framing Resumable

/-- A damaged deflate stream: the machine on bits runs into an invalid item of it, wherever the stream goes on from there. -/
def Damaged (body : List UInt8) : Prop := ∃ c, itemMachine.Runs (startItem body) c ∧ itemMachine.Stops c .failed

theorem deflateBody_eq_none_iff {body : List UInt8} : deflateBody body = none ↔ Damaged body := by
  constructor
  · intro h
    obtain ⟨verdict, c, hr, hstop, -⟩ := exists_stop body
    rw [deflateBody_of_stop hr hstop] at h
    cases verdict with
    | failed => exact ⟨c, hr, hstop⟩
    | waiting => cases h
    | halted => cases h
  · rintro ⟨c, hr, hstop⟩
    exact deflateBody_of_stop hr hstop

/-- What is malformed within reach is damaged. -/
theorem Malformed.damaged {fed : List UInt8} {consumed : Nat} (h : Malformed fed consumed) : Damaged fed := by
  obtain ⟨c, hr, hstop, -⟩ := h
  exact ⟨c, hr.runs, hstop⟩

/-- Where bytes have been read from the start on, the first bad item is met in the body of what follows exactly when a damaged body
follows a header. -/
theorem bodyBad_start_iff {η : Type} {F : Format UInt8 η (List UInt8)} (hF : F.body = deflateBody) {fed data : List UInt8}
    {p : Phase UInt8 η (List UInt8)} (hp : F.run (.header F.start) fed = some p) :
    F.BodyBad p data ↔ ∃ header body, F.IsHeader F.start header ∧ Damaged body ∧ fed ++ data = header ++ body := by
  rw [← Format.bodyBad_append_iff hp, Format.bodyBad_header_iff]
  simp only [hF, deflateBody_eq_none_iff]

/-! ## Gzip -/

/-- Behind a call, a byte more is a panic exactly when the body has failed. -/
theorem Gzip.Stands.panic_iff {gone : List UInt8} {d : Gzip.Decoder} {p : Phase UInt8 Gzip.HeaderState (List UInt8)}
    (h : Gzip.Stands gone d p) (data : List UInt8) :
    (Gzip.BodyFailed (d.feed data).2 ↔ Gzip.format.BodyBad p data) ∧
      ∀ more, more ≠ [] → (((d.feed data).2.feed more).1 = .panic ↔ Gzip.BodyFailed (d.feed data).2) := by
  have hfeed := Gzip.feed_spec h data
  generalize d.feed data = r at hfeed
  cases hfeed with
  | ok hp hstands =>
    have hnot := hstands.not_bad.2
    refine ⟨iff_of_false hnot fun hbad => ?_, fun more _ => iff_of_false (fun hpanic => ?_) hnot⟩
    · cases hp.symm.trans hbad.run_eq
    · have hmore := Gzip.feed_spec hstands more
      simp only at hpanic
      generalize Gzip.Decoder.feed _ more = r at hmore hpanic
      cases hmore <;> cases hpanic
  | err hp hfailed hbody =>
    refine ⟨hbody, fun more hmore => ?_⟩
    rcases hfailed.feedLoop hmore (more.length + 8) with ⟨hdiverge, hstuck⟩ | ⟨hpanic, hfail⟩ | ⟨⟨e, herr⟩, -, hnot⟩
    · refine iff_of_false (fun hpanic => ?_) fun hfail => nomatch hfail.1.symm.trans hstuck.1
      cases hpanic.symm.trans hdiverge
    · exact iff_of_true hpanic hfail
    · refine iff_of_false (fun hpanic => ?_) hnot
      cases hpanic.symm.trans (congrArg Prod.fst herr)

/-- In every run of calls of a gzip decoder without an error so far, the next call of `feed` leaves the placeholder in the deflate decoder
exactly when the bytes fed are then a header and a damaged body; and exactly then a byte fed behind that call is a panic. -/
theorem Gzip.body_fails_iff {calls : List Call} {s : DecodingSession Gzip.Decoder}
    (hrange : (DecodingSession.start Gzip.decoder).InRange Gzip.decoder calls)
    (hrun : DecodingSession.run Gzip.decoder calls (DecodingSession.start Gzip.decoder) = .ok s) (data : List UInt8) :
    (Gzip.BodyFailed (s.decoder.feed data).2 ↔
        ∃ header body, Rfc1952.Header header ∧ Damaged body ∧ fedBytes calls ++ data = header ++ body) ∧
      ∀ more, more ≠ [] → (((s.decoder.feed data).2.feed more).1 = .panic ↔ Gzip.BodyFailed (s.decoder.feed data).2) := by
  rcases Gzip.follows.run Gzip.follows.new hrange with ⟨s', p, hrun', hp, hstands⟩ | ⟨⟨e, herr⟩, -⟩
  · obtain rfl := Exec.ok.inj (hrun.symm.trans hrun')
    obtain ⟨hfails, hpanic⟩ := hstands.panic_iff data
    refine ⟨hfails.trans ((bodyBad_start_iff rfl hp).trans ?_), hpanic⟩
    simp only [Gzip.isHeader_iff]
  · cases hrun.symm.trans herr

/-- A member whose first block has the reserved type, and a byte behind it. -/
example : ((Gzip.Decoder.new.feed [0x1F, 0x8B, 8, 0, 0, 0, 0, 0, 0, 255, 7]).2.feed [0]).1 = .panic := by decide +kernel

/-! ## Zlib -/

/-- Behind a call, a byte more is a panic exactly when the body has failed. -/
theorem Zlib.Stands.panic_iff {gone : List UInt8} {d : Zlib.Decoder} {p : Phase UInt8 (List UInt8) (List UInt8)}
    (h : Zlib.Stands gone d p) (data : List UInt8) :
    (Zlib.BodyFailed (d.feed data).2 ↔ Zlib.format.BodyBad p data) ∧
      ∀ more, more ≠ [] → (((d.feed data).2.feed more).1 = .panic ↔ Zlib.BodyFailed (d.feed data).2) := by
  have hfeed := Zlib.feed_spec h data
  generalize hr : d.feed data = r at hfeed
  cases hfeed with
  | ok hp hstands =>
    have hnot := hstands.not_bodyFailed
    refine ⟨iff_of_false hnot fun hbad => ?_, fun more _ => iff_of_false (fun hpanic => ?_) hnot⟩
    · cases hp.symm.trans hbad.run_eq
    · have hmore := Zlib.feed_spec hstands more
      simp only at hpanic
      generalize Zlib.Decoder.feed _ more = r at hmore hpanic
      cases hmore <;> cases hpanic
  | err hp hbody =>
    refine ⟨hbody, fun more hmore => ?_⟩
    rcases (Zlib.failed_of_feedLoop _ h hr).feed hmore with ⟨hnot, herr⟩ | ⟨hfail, hpanic⟩
    · refine iff_of_false (fun hpanic => ?_) hnot
      cases hpanic.symm.trans (congrArg Prod.fst herr)
    · exact iff_of_true hpanic hfail

/-- The same for a zlib decoder. -/
theorem Zlib.body_fails_iff {calls : List Call} {s : DecodingSession Zlib.Decoder}
    (hrange : (DecodingSession.start Zlib.decoder).InRange Zlib.decoder calls)
    (hrun : DecodingSession.run Zlib.decoder calls (DecodingSession.start Zlib.decoder) = .ok s) (data : List UInt8) :
    (Zlib.BodyFailed (s.decoder.feed data).2 ↔
        ∃ cmf flg body, Rfc1950.Header cmf flg ∧ Damaged body ∧ fedBytes calls ++ data = [cmf, flg] ++ body) ∧
      ∀ more, more ≠ [] → (((s.decoder.feed data).2.feed more).1 = .panic ↔ Zlib.BodyFailed (s.decoder.feed data).2) := by
  rcases Zlib.follows.run Zlib.follows.new hrange with ⟨s', p, hrun', hp, hstands⟩ | ⟨⟨e, herr⟩, -⟩
  · obtain rfl := Exec.ok.inj (hrun.symm.trans hrun')
    obtain ⟨hfails, hpanic⟩ := hstands.panic_iff data
    refine ⟨hfails.trans ((bodyBad_start_iff rfl hp).trans ?_), hpanic⟩
    simp only [Zlib.isHeader_iff]
    constructor
    · rintro ⟨header, body, ⟨cmf, flg, rfl, hheader⟩, hbody, heq⟩
      exact ⟨cmf, flg, body, hheader, hbody, heq⟩
    · rintro ⟨cmf, flg, body, hheader, hbody, heq⟩
      exact ⟨_, body, ⟨cmf, flg, rfl, hheader⟩, hbody, heq⟩
  · cases hrun.symm.trans herr

end Noflate
