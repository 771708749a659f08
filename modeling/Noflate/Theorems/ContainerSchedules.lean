import Noflate.Error
import Noflate.Lemmas.ContainerSessions

/-!
# What a container is decoded to does not depend on the calls

A gzip and a zlib decoder give the same output for the same bytes at any time, not at the end only: in whatever pieces they are fed, and
wherever output is consumed in between (`container_schedules`). So does `decompress`.
-/

namespace Noflate

open Framing

/-- Two sessions that have fed the same bytes have both met an error, or have both made the same output available and agree on whether
the stream is finished. With the same bytes `decompress` reports an error too, or gives that output if the stream is finished and reports
that it is incomplete if it is not. -/
def ScheduleFree {δ : Type} (D : ContainerDecoder δ) (message : String) : Prop :=
  ∀ calls calls', (DecodingSession.start D).InRange D calls → (DecodingSession.start D).InRange D calls' →
    fedBytes calls = fedBytes calls' →
      (∃ s s', DecodingSession.run D calls (DecodingSession.start D) = .ok s ∧
        DecodingSession.run D calls' (DecodingSession.start D) = .ok s' ∧ s.output D = s'.output D ∧
        D.isFinished s.decoder = D.isFinished s'.decoder ∧
        D.decompress (fedBytes calls) = if D.isFinished s.decoder then .ok (s.output D) else .err (.invalidData message)) ∨
      ∃ e e' e'', DecodingSession.run D calls (DecodingSession.start D) = .err e ∧
        DecodingSession.run D calls' (DecodingSession.start D) = .err e' ∧ D.decompress (fedBytes calls) = .err e''

section

variable {δ η : Type} {F : Format UInt8 η (List UInt8)} {D : ContainerDecoder δ}
  {Stands : List UInt8 → δ → Phase UInt8 η (List UInt8) → Prop}

/-- Two decoders at one place agree. -/
theorem Follows.agree (h : Follows F D Stands) {gone gone' : List UInt8} {d d' : δ} {p : Phase UInt8 η (List UInt8)}
    (hd : Stands gone d p) (hd' : Stands gone' d' p) :
    gone ++ D.output d = gone' ++ D.output d' ∧ D.isFinished d = D.isFinished d' :=
  ⟨(h.shows hd).unique (h.shows hd'), Bool.eq_iff_iff.mpr ((h.finished hd).trans (h.finished hd').symm)⟩

/-- A decoder that follows the reader of a format, and whose `decompress` is one feed. -/
theorem Follows.scheduleFree (h : Follows F D Stands) {message : String}
    (hone : D.decompress = decompressWith D.feed D.isFinished D.output D.advance message D.new) : ScheduleFree D message := by
  intro calls calls' hrange hrange' hsame
  have hdecompress : D.decompress (fedBytes calls) =
      Exec.leaving (D.feed D.new (fedBytes calls)) >>= fun d =>
        if D.isFinished d then do
          let out := D.output d
          let _ ← D.advance d out.length
          .ok out
        else .err (.invalidData message) := by rw [hone]; rfl
  rcases h.run h.new hrange with ⟨s, p, hrun, hp, hs⟩ | ⟨⟨e, hrun⟩, hp⟩
  · rcases h.run h.new hrange' with ⟨s', p', hrun', hp', hs'⟩ | ⟨-, hp'⟩
    · rw [← hsame, hp] at hp'
      obtain rfl := Option.some.inj hp'
      obtain ⟨houtput, hfinished⟩ := h.agree hs hs'
      refine .inl ⟨s, s', hrun, hrun', houtput, hfinished, ?_⟩
      rcases h.feed h.new (fedBytes calls) with ⟨d, q, hfeed, hq, hd⟩ | ⟨-, hq⟩
      · obtain rfl := Option.some.inj (hp.symm.trans hq)
        obtain ⟨hout, hfin⟩ := h.agree hs hd
        obtain ⟨d', hadvance, -⟩ := h.advance hd le_rfl
        rw [hdecompress, hfeed, Exec.leaving_ok, Exec.ok_bind, hfin]
        simp only [hadvance, Exec.ok_bind]
        rw [DecodingSession.output, hout, List.nil_append]
      · cases hp.symm.trans hq
    · rw [← hsame, hp] at hp'
      cases hp'
  · rcases h.run h.new hrange' with ⟨s', p', -, hp', -⟩ | ⟨⟨e', hrun'⟩, -⟩
    · rw [← hsame, hp] at hp'
      cases hp'
    · rcases h.feed h.new (fedBytes calls) with ⟨d, q, -, hq, -⟩ | ⟨⟨e'', d, hfeed⟩, -⟩
      · cases hp.symm.trans hq
      · refine .inr ⟨e, e', e'', hrun, hrun', ?_⟩
        rw [hdecompress, hfeed, Exec.leaving_err, Exec.err_bind]

end

/-- Decoding a container, in whatever pieces and wherever output is consumed, makes the same output available for the same bytes. -/
theorem container_schedules :
    ScheduleFree Gzip.decoder Gzip.truncatedMessage ∧ ScheduleFree Zlib.decoder Zlib.truncatedMessage :=
  ⟨Gzip.follows.scheduleFree rfl, Zlib.follows.scheduleFree rfl⟩

end Noflate
