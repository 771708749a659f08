import Noflate.Error
import Noflate.Lemmas.BridgeWriter
import Noflate.Lemmas.BridgeReader
import Noflate.Theorems.Pipe
import Noflate.Theorems.OneShot

/-!
# The adapters for `Write` and `Read`

The callers go on after errors. Whatever its sink does, what the writer hands over are parts of a stream of the bytes it was given, each
in its place, and the accepted ones are all of that stream when it is finished; a part that the sink took before it failed is handed over
again (`writer_safe`). Whatever its source does and into whatever buffers a caller reads, the reader hands over a beginning of what the
stream decodes to, and it says that there is no more only where that is true: short of 64 KiB of output it tells a stream that is cut
short from one that is not; it panics exactly when it feeds a decoder that has reported an error (`reader_faithful`). The two together
give back what was written (`written_is_read`).
-/

namespace Noflate.Bridge

open Resumable

/-! ## Writing -/

/-- The deliveries to a sink are parts of a stream for some bytes, each in its place, and the sink holds a beginning of that stream while
no call was made behind a torn delivery. -/
def Sink.Carries (w : Sink) (data : List UInt8) : Prop :=
  ∃ bytes, Deflate.decompress bytes = .ok data ∧ Placed w.received bytes ∧
    ((∀ d ∈ w.received.dropLast, ¬d.Torn) → w.written <+: bytes)

/-- What a writer has handed over is part of a stream. -/
theorem DeflateWriter.Stands.carries {w : DeflateWriter} {e : Emission} (h : w.Stands e) (hs : e.Sound) : w.inner.Carries e.payload := by
  obtain ⟨bytes, hclosed, hpre⟩ := h.refines.within_closed hs
  have hplaced := h.placed.mono hpre
  exact ⟨bytes, hclosed.decompress, hplaced, hplaced.begins⟩

/-- Writing to any sink, by a caller who goes on after errors. Every call comes back, and an error is one the sink was to report. At any
time what the sink took are parts of a stream for all bytes given, also those of calls that reported an error. When the writer is
finished without an error, the deliveries that the sink accepted are such a stream; and so is what it holds, if no call has reported an
error, or none of the deliveries was torn off. -/
theorem writer_safe (answers : List (Option (Nat × Nat))) (calls : List WriteCall) :
    ∃ w answer w', Writing.run calls (Writing.start { received := [], answers }) = .ok w ∧ w.writer.finish = .ok (answer, w') ∧
      (∀ failure ∈ w.errors, failure.FromSink answers) ∧
      (∀ failure, answer = .error failure → failure.FromSink w.writer.inner.answers) ∧
      w.writer.inner.Carries (calls.flatMap WriteCall.bytes) ∧ w'.inner.Carries (calls.flatMap WriteCall.bytes) ∧
      (answer = .ok () → Deflate.decompress (accepted w'.inner.received) = .ok (calls.flatMap WriteCall.bytes) ∧
        ((w.errors = [] ∨ ∀ d ∈ w'.inner.received, ¬d.Torn) →
          Deflate.decompress w'.inner.written = .ok (calls.flatMap WriteCall.bytes))) := by
  obtain ⟨w, e, hrun, hw, hpayload⟩ := (Writing.start_stands answers).run calls
  have hdata : e.payload = calls.flatMap WriteCall.bytes := hpayload
  obtain ⟨answer, w', hfinish, hw', hok, herror⟩ := hw.finish
  obtain ⟨hsound, hsame⟩ := hw.fine.sound.call .finish
  rw [Emission.accepts, List.append_nil] at hsame
  have hcarries := hw.stands.carries hw.fine.sound
  have hcarries' := hw'.carries hsound
  rw [hsame] at hcarries'
  rw [hdata] at hcarries hcarries' hok
  refine ⟨w, answer, w', hrun, hfinish, hw.errors, herror, hcarries, hcarries', fun hanswer => ?_⟩
  obtain ⟨hclosed, hnew⟩ := hok hanswer
  refine ⟨hclosed.decompress, fun hcases => ?_⟩
  have htorn : ∀ d ∈ w'.inner.received, ¬d.Torn := by
    rcases hcases with hnone | htorn
    · intro d hd ht
      have hwhole := (hnew d hd).elim (hw.whole hnone d) id
      cases ht.1.symm.trans hwhole
    · exact htorn
  rw [Sink.written, ← accepted_of_not_torn htorn]
  exact hclosed.decompress

/-! ## Reading -/

/-- Behind an error of the decoder, the next piece of the source is a panic. -/
example : Reading.run [4, 4] (Reading.start { answers := [.ok [7], .ok [1]] }) = .panic := rfl

/-! ## There and back -/

/-- What is written, less than 64 KiB, is read, by callers who go on after errors: whatever the calls of `write` and `flush`, if the writer
is finished without an error, in whatever pieces the source delivers what the sink holds, with whatever errors in between, and into
whatever buffers, if there are enough of them. -/
theorem written_is_read (sinkAnswers : List (Option (Nat × Nat))) {calls : List WriteCall}
    (hshort : (calls.flatMap WriteCall.bytes).length < maxInternalBuffer) :
    ∃ w answer w', Writing.run calls (Writing.start { received := [], answers := sinkAnswers }) = .ok w ∧
      w.writer.finish = .ok (answer, w') ∧
      (answer = .ok () → ∀ answers, Source.Honest { answers } → delivered answers = w'.inner.written →
        ∀ lens, (∀ len ∈ lens, 0 < len) → (calls.flatMap WriteCall.bytes).length + answers.length < lens.length →
          ∃ u, Reading.run lens (Reading.start { answers }) = .ok u ∧ u.taken = calls.flatMap WriteCall.bytes ∧ .done ∈ u.reports ∧
            ∀ report ∈ u.reports, report = .done ∨ report.ofDevice = true) := by
  have hstart : (Writing.start { received := [], answers := sinkAnswers }).Quiet [] (Emission.start EncodeOptions.new) :=
    ⟨rfl, rfl, rfl, rfl⟩
  obtain ⟨w, e, hrun, hw, hq⟩ := hstart.run (Writing.start_stands sinkAnswers) calls hshort
  obtain ⟨answer, w', hfinish, hw', hok, -⟩ := hw.finish
  refine ⟨w, answer, w', hrun, hfinish, fun hanswer answers hhonest hdelivered lens hpos hmany => ?_⟩
  obtain ⟨hclosed, hnew⟩ := hok hanswer
  have hdata : e.payload = calls.flatMap WriteCall.bytes := by
    rw [Emission.payload, hq.blocks_eq, hq.pending_eq]
    rfl
  -- all that the sink took is the one delivery that finishing made
  have htorn : ∀ d ∈ w'.inner.received, ¬d.Torn := by
    intro d hd ht
    rcases hnew d hd with hold | hwhole
    · rw [hq.received_eq] at hold
      cases hold
    · cases ht.1.symm.trans hwhole
  rw [accepted_of_not_torn htorn, hdata] at hclosed
  obtain ⟨held, -, hr'⟩ := hclosed.runs
  obtain ⟨verdict, c, hr, hstop, -, hcases⟩ := reads_spec hhonest lens
  rw [hdelivered] at hr
  obtain ⟨rfl, rfl⟩ := Machine.stop_unique hr hstop hr' stops_halted
  -- a report is the end, or about the device: the stream is complete, and shorter than what a decoder holds back
  have hreports : ∀ {u : Reading}, u.Inv answers (calls.flatMap WriteCall.bytes) .halted → ∀ report ∈ u.reports,
      report = .done ∧ u.taken = calls.flatMap WriteCall.bytes ∨ report.ofDevice = true := by
    intro u hinv report hmem
    have hmeans := hinv.means report hmem
    cases report with
    | done => exact .inl ⟨rfl, hmeans.2⟩
    | failed failure =>
      cases failure with
      | other e => cases hmeans
      | device code => exact .inr rfl
      | unexpectedEof message =>
        rcases hmeans with ⟨hend, -⟩ | hcap
        · rcases hend with hwait | ⟨e', he'⟩
          · cases hwait
          · cases hinv.means _ he'
        · have hle := hinv.taken_begins.length_le
          omega
  rcases hcases with ⟨u, hreads, hinv, hends⟩ | ⟨-, before, u, -, -, hinv, ⟨e', he'⟩, -⟩
  · obtain ⟨report, hmem, hof⟩ := hends hpos hmany
    rcases hreports hinv report hmem with ⟨rfl, htaken⟩ | hdevice
    · exact ⟨u, hreads, htaken, hmem, fun report' hmem' => (hreports hinv report' hmem').imp_left And.left⟩
    · cases hof.symm.trans hdevice
  · cases hinv.means _ he'

/-- Two pieces, with a flush in between that fails, and a source that fails between two pieces. -/
theorem written_is_read_two :
    ∃ w answer w', Writing.run [.write [65], .flush, .write [66, 67]]
        (Writing.start { received := [], answers := [some (0, 7)] }) = .ok w ∧
      w.writer.finish = .ok (answer, w') ∧
      (answer = .ok () → ∀ answers, Source.Honest { answers } → delivered answers = w'.inner.written →
        ∀ lens, (∀ len ∈ lens, 0 < len) → 3 + answers.length < lens.length →
          ∃ u, Reading.run lens (Reading.start { answers }) = .ok u ∧ u.taken = [65, 66, 67] ∧ .done ∈ u.reports ∧
            ∀ report ∈ u.reports, report = .done ∨ report.ofDevice = true) :=
  @written_is_read [some (0, 7)] [.write [65], .flush, .write [66, 67]] (by decide)

end Noflate.Bridge
