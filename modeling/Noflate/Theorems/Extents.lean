import Noflate.Error
import Noflate.Lemmas.Receiving
import Noflate.Theorems.OneShot
import Noflate.Theorems.Schedules

/-!
# How far a stream reaches

What a decoder makes of the beginning of a byte string it does not take back: its output only grows with more bytes, and a verdict on the
beginning is the verdict on all of it (`decoded_beginning`). A raw stream says itself where it ends, and `deflate::decompress` does not look
at what follows; the containers take nothing behind their trailer, so that no stream they accept is the beginning of another one
(`extents`).
-/

namespace Noflate

open Framing Resumable

/-- Schedules for the beginning of a byte string and for all of it: the output of the first is a beginning of the output of the second,
and if the first has ended, with the end of the stream or with an error, both are the same. -/
theorem decoded_beginning {front bytes : List UInt8} (hfront : front <+: bytes) {calls calls' : List Call} (h : Schedule front calls)
    (h' : Schedule bytes calls') :
    ∃ verdict output verdict' output',
      Session.outcome calls = .ok (verdict, output) ∧ Session.outcome calls' = .ok (verdict', output') ∧
      output <+: output' ∧ (verdict ≠ .waiting → verdict' = verdict ∧ output' = output) := by
  obtain ⟨verdict, output, c, houtcome, hr, hstop, rfl⟩ := h.stops
  obtain ⟨verdict', output', c', houtcome', hr', hstop', rfl⟩ := h'.stops
  refine ⟨_, _, _, _, houtcome, houtcome', output_of_prefix hfront hr hr' hstop', fun hv => ?_⟩
  obtain ⟨rest, hlong, hstop₂, -⟩ := stops_of_prefix hfront hr hstop hv
  obtain ⟨rfl, rfl⟩ := Machine.stop_unique hr' hstop' hlong hstop₂
  exact ⟨rfl, rfl⟩

/-- Two stored blocks, the second one cut short, and all of them. -/
theorem decoded_beginning_stored :
    ∃ verdict output verdict' output', Session.outcome [.feed [0, 1, 0, 254, 255, 65, 1, 1]] = .ok (verdict, output) ∧
      Session.outcome [.feed [0, 1, 0], .feed [254, 255, 65, 1, 1, 0, 254, 255, 66], .advance 1] = .ok (verdict', output') ∧
      output <+: output' ∧ (verdict ≠ .waiting → verdict' = verdict ∧ output' = output) :=
  have h : Schedule [0, 1, 0, 254, 255, 65, 1, 1] [.feed [0, 1, 0, 254, 255, 65, 1, 1]] := ⟨by decide +kernel, .inl rfl⟩
  have h' : Schedule [0, 1, 0, 254, 255, 65, 1, 1, 0, 254, 255, 66]
      [.feed [0, 1, 0], .feed [254, 255, 65, 1, 1, 0, 254, 255, 66], .advance 1] := ⟨by decide +kernel, .inl rfl⟩
  decoded_beginning (by decide) h h'

/-! ## Where streams end -/

/-- Bytes before and behind the end of what a one-shot function accepts: the beginning of a stream is incomplete, and nothing is
accepted behind its end. -/
def PrefixFree (message : String) (decompress : List UInt8 → Exec (List UInt8)) : Prop :=
  ∀ front more output, more ≠ [] →
    (decompress front = .ok output → ∃ e, decompress (front ++ more) = .err e) ∧
      (decompress (front ++ more) = .ok output → decompress front = .err (.invalidData message))

/-- The streams of a format are a prefix code. -/
theorem ReadsFormat.prefixFree {η δ : Type} {F : Format UInt8 η (List UInt8)} {feedChunks : List (List UInt8) → Exec δ}
    {finished : δ → Bool} {output : δ → List UInt8} (h : ReadsFormat F feedChunks finished output) {message : String}
    {decompress : List UInt8 → Exec (List UInt8)} (hagrees : Agrees feedChunks finished output message decompress) :
    PrefixFree message decompress := by
  intro front more out hmore
  -- nothing is read behind the end, so an accepted stream and one that it begins are never both read to the end
  have hbehind : ∀ out', F.run (.header F.start) front = some (.done out') → F.run (.header F.start) (front ++ more) = none := by
    intro out' hdone
    rw [F.run_append, hdone, Option.bind_some, F.run_done hmore]
  refine ⟨fun hok => ?_, fun hok => ?_⟩
  · have hnone := hbehind out (h.done_of_decompress hagrees hok)
    have hflat : [front ++ more].flatten = front ++ more := List.flatten_singleton
    rw [← hflat] at hnone ⊢
    exact (h.rejected hagrees hnone).2
  · have hdone := h.done_of_decompress hagrees hok
    have hflat : [front].flatten = front := List.flatten_singleton
    rcases hagrees [front] with ⟨d, hd, hfin, hout⟩ | ⟨d, -, -, herr⟩ | ⟨e, -, he, -⟩
    · rw [hflat] at hout
      rw [hbehind _ (h.done_of_decompress hagrees hout)] at hdone
      cases hdone
    · rwa [hflat] at herr
    · have hnone := (h.fails_iff [front]).mp ⟨e, he⟩
      rw [hflat] at hnone
      rw [F.run_append, hnone] at hdone
      cases hdone

/-- A raw stream is decompressed whatever follows it, and what is wrong with the beginning of a byte string stays wrong with more bytes;
so the beginning of a stream has all its output, or is incomplete. In the containers no stream begins another one. -/
theorem extents :
    (∀ front more, (∀ output, Deflate.decompress front = .ok output → Deflate.decompress (front ++ more) = .ok output) ∧
      (∀ e, Deflate.decompress front = .err e → e ≠ truncatedError →
        ∃ e', e' ≠ truncatedError ∧ Deflate.decompress (front ++ more) = .err e') ∧
      ∀ output, Deflate.decompress (front ++ more) = .ok output →
        Deflate.decompress front = .ok output ∨ Deflate.decompress front = .err truncatedError) ∧
      PrefixFree Gzip.truncatedMessage Gzip.decompress ∧ PrefixFree Zlib.truncatedMessage Zlib.decompress := by
  refine ⟨fun front more => ?_, Gzip.reads.prefixFree Gzip.agrees, Zlib.reads.prefixFree Zlib.agrees⟩
  obtain ⟨verdict, c, hr, hstop, hres⟩ := decompress_spec front
  obtain ⟨verdict', c', hr', hstop', hres'⟩ := decompress_spec (front ++ more)
  have hsame : verdict ≠ .waiting → verdict' = verdict ∧ c'.1 = c.1 := by
    intro hv
    obtain ⟨rest, hlong, hstop₂, -⟩ := stops_of_prefix (List.prefix_append front more) hr hstop hv
    obtain ⟨rfl, rfl⟩ := Machine.stop_unique hr' hstop' hlong hstop₂
    exact ⟨rfl, rfl⟩
  rcases hres with ⟨rfl, -, hok⟩ | ⟨rfl, herr⟩ | ⟨rfl, e, hne, herr⟩
  · obtain ⟨rfl, hc⟩ := hsame (by simp)
    have hok' : Deflate.decompress (front ++ more) = .ok c.1.2 := by
      rcases hres' with ⟨-, -, hok'⟩ | ⟨hv, -⟩ | ⟨hv, -⟩
      · rw [hok', hc]
      · cases hv
      · cases hv
    rw [hok, hok']
    refine ⟨fun output h => h, fun e h => ?_, fun output h => .inl h⟩
    cases h
  · rw [herr]
    refine ⟨fun output h => ?_, fun e h hne => absurd (Exec.err.inj h).symm hne, fun output _ => .inr rfl⟩
    cases h
  · obtain ⟨rfl, -⟩ := hsame (by simp)
    obtain ⟨e', hne', herr'⟩ : ∃ e', e' ≠ truncatedError ∧ Deflate.decompress (front ++ more) = .err e' := by
      rcases hres' with ⟨hv, -⟩ | ⟨hv, -⟩ | ⟨-, e', hne', herr'⟩
      · cases hv
      · cases hv
      · exact ⟨e', hne', herr'⟩
    rw [herr, herr']
    refine ⟨fun output h => ?_, fun _ _ _ => ⟨e', hne', rfl⟩, fun output h => ?_⟩
    · cases h
    · cases h

end Noflate
