import Noflate.Error
import Noflate.Lemmas.ContainerSessions

/-!
# What follows an error of the zlib decoder

A zlib decoder that has reported an error keeps it: whatever it is fed afterwards, it reports the same error and stays as it is. The one
exception is an error of the body, behind which the deflate decoder is left in the placeholder, and the next byte is a panic. In
particular `feed` comes back in every state, and with a result as long as no error of the body was met (`error_is_kept`).
-/

namespace Noflate.Zlib

open Framing

/-- The message for bytes behind the end of a stream. -/
def afterEnd : Error := .invalidData "bytes fed after zlib stream end"

/-- The message for a checksum that does not match. -/
def mismatch : Error := .invalidData "adler-32 checksum mismatch in zlib trailer"

/-- A decoder in use, and the first error it has reported. -/
inductive Used : Option Error → Decoder → Prop
  | new : Used none Decoder.new
  | feed {o : Option Error} {d d' : Decoder} {data : List UInt8} (h : Used o d) (hfeed : d.feed data = (.ok (), d')) : Used o d'
  | fail {o : Option Error} {d d' : Decoder} {data : List UInt8} {e : Error} (h : Used o d) (hfeed : d.feed data = (.err e, d')) :
      Used (some (o.getD e)) d'
  | advance {o : Option Error} {d d' : Decoder} {n : Nat} (h : Used o d) (hadvance : d.advance n = .ok d') : Used o d'

/-- How a call that reported an error leaves a decoder: with a bad header, a body whose decoder has failed, a trailer that does not match,
or behind its end. -/
inductive Failed (e : Error) (d : Decoder) : Prop
  | header (hstate : d.state = .header) (hfilled : d.headerFilled = 2) (hlength : d.header.length = 2)
      (herr : validateZlibHeader d.header = .err e)
  | body {bytes dropped : List UInt8} (hstate : d.state = .body) (hdead : d.deflate.Dead bytes dropped)
  | trailer (hstate : d.state = .trailer) (hfilled : d.trailerFilled = 4) (hlength : d.trailer.length = 4)
      (hne : BitString.beNat d.trailer ≠ d.adler.value) (he : e = mismatch)
  | done (hstate : d.state = .done) (he : e = afterEnd)

/-! ## Into an error -/

section

variable {d d' : Decoder} {e : Error}

/-- A byte of the trailer that came with the body, and an error. -/
theorem failed_of_feedByteInTrailer {b : UInt8} (hlength : d.trailer.length = 4) (h : d.feedByteInTrailer b = (.err e, d')) :
    Failed e d' := by
  unfold Decoder.feedByteInTrailer at h
  split at h
  · rename_i hstate
    split at h
    · cases h
    · simp only at h
      split at h
      · rename_i hfilled
        split at h
        · rename_i hne
          cases h
          exact .trailer hstate hfilled (by rw [List.length_set, hlength]) hne rfl
        · cases h
      · cases h
  · rename_i hstate
    cases h
    exact .done hstate rfl
  · cases h

/-- The loop over the bytes that the deflate decoder left over, in the trailer or behind it. -/
theorem failed_of_tailLoop {gone taken filled : List UInt8} (bytes : List UInt8) (hd : InTrailer gone taken filled d)
    (hle : (filled ++ bytes).length ≤ 4) (h : Decoder.tailLoop bytes d = (.err e, d')) : Failed e d' := by
  induction bytes generalizing filled d with
  | nil => cases h
  | cons b bytes ih =>
    rw [Decoder.tailLoop] at h
    have hbyte := feedByteInTrailer_spec hd b
    generalize hr : d.feedByteInTrailer b = r at h hbyte
    generalize hq : format.step (.trailer taken filled) b = q at hbyte
    cases hbyte with
    | err hnone =>
      cases h
      exact failed_of_feedByteInTrailer hd.trailer_length hr
    | @ok d₁ p hp hstands hrank =>
      rw [List.append_cons] at hle
      by_cases hshort : (filled ++ [b]).length < 4
      · rw [step_trailer, if_pos hshort, hp] at hq
        obtain rfl := Option.some.inj hq
        exact ih hstands.inTrailer hle h
      · have hnil : bytes = [] := by
          rw [List.length_append] at hle
          exact List.eq_nil_of_length_eq_zero (by omega)
        subst hnil
        cases h

/-- What the deflate decoder left over, and an error. -/
theorem failed_of_consumeDeflateTail {gone taken : List UInt8} (hd : InTrailer gone taken [] d)
    (h : d.consumeDeflateTail = (.err e, d')) : Failed e d' := by
  unfold Decoder.consumeDeflateTail at h
  simp only at h
  have hle : ([] ++ d.deflate.remainingInput.take 4).length ≤ 4 := by
    rw [List.nil_append]
    exact List.length_take_le _ _
  have hspec := tailLoop_spec (d.deflate.remainingInput.take 4) hd hle
  generalize hr : Decoder.tailLoop (d.deflate.remainingInput.take 4) d = r at h hspec
  cases hspec with
  | err hq =>
    cases h
    exact failed_of_tailLoop _ hd hle hr
  | @ok d₁ p hp hstands hrank =>
    simp only at h
    split at h
    · rename_i hlong
      cases h
      -- four bytes were read, so the decoder is behind its end
      have hfour : (d.deflate.remainingInput.take 4).length = 4 := List.length_take_of_le hlong.le
      have hrun : format.run (.trailer taken []) (d.deflate.remainingInput.take 4) =
          if [] ++ d.deflate.remainingInput.take 4 = format.trailer taken then some (.done taken) else none :=
        format.run_trailer_eq (hd.filled_lt.trans_eq (length_trailer taken).symm)
          (by rw [List.nil_append, hfour]; exact (length_trailer taken).symm)
      rw [hp] at hrun
      split at hrun
      · obtain rfl := Option.some.inj hrun
        exact .done hstands.isDone.2.1 rfl
      · cases hrun
    · cases h

/-- A round of the body, and an error: of the body, or of the trailer behind it. -/
theorem failed_of_feedBody {gone bytes body dropped taken : List UInt8} (hd : InBody gone taken d)
    (hwaits : d.deflate.Waits body dropped taken) (herr : d.feedBody bytes = (.err e, d')) : Failed e d' := by
  have hcollect : ∀ taken x new, InBody gone taken x → InBody gone (taken ++ new) (Decoder.collect x new) :=
    fun _ _ new hx => hx.collect new
  have hdrain := Noflate.Decoder.feedAndDrain_spec hcollect hwaits hd bytes
  unfold Decoder.feedBody at herr
  generalize feedAndDrain Decoder.collect d d.deflate bytes = r at herr hdrain
  cases hdrain with
  | waiting hd' hwaits' => cases herr
  | failed hd' hdead =>
    cases herr
    exact .body hd'.state_eq hdead
  | @finished dropped' taken' d₁ deflate hd' hfinishes =>
    have hin : InTrailer gone taken' [] { d₁ with deflate, state := .trailer } :=
      ⟨⟨hd'.collected.adler_of, hd'.collected.output_eq⟩, rfl, hd'.trailer_length, hd'.trailerFilled_eq, Nat.succ_pos 3, rfl,
        hd'.finished_eq⟩
    simp only at herr
    split at herr
    · cases herr
    · rename_i htail
      cases herr
      exact failed_of_consumeDeflateTail hin htail
    · cases herr
    · cases herr

/-- A round of the loop, and an error. -/
theorem failed_of_feedStep {gone bytes : List UInt8} {p : Phase UInt8 (List UInt8) (List UInt8)} (h : Stands gone d p)
    (herr : d.feedStep bytes = (.err e, d')) : Failed e d' := by
  -- what fills an array up keeps its length
  have hcopied : ∀ {n k : Nat} {dest : List UInt8}, dest.length = k → n ≤ k →
      (copyFromSlice dest n (bytes.take (min (k - n) bytes.length))).length = k := by
    intro n k dest hdest hn
    rw [length_copyFromSlice, hdest]
    rw [List.length_take, hdest]
    omega
  unfold Decoder.feedStep at herr
  cases h with
  | header hd hgone hstate hlength hfilled hlt hpre =>
    simp only [hstate] at herr
    split at herr
    · cases herr
    · split at herr
      · rename_i hfull
        split at herr
        · cases herr
        · rename_i hvalid
          cases herr
          exact .header rfl hfull (hcopied hlength (hfilled.trans_le hlt.le)) hvalid
        · cases herr
        · cases herr
      · cases herr
  | @body body dropped taken hd hwaits =>
    simp only [hd.state_eq] at herr
    exact failed_of_feedBody hd hwaits herr
  | @trailer taken filled hd =>
    simp only [hd.state_eq] at herr
    split at herr
    · cases herr
    · split at herr
      · rename_i hfull
        split at herr
        · rename_i hne
          cases herr
          exact .trailer rfl hfull (hcopied hd.trailer_length (hd.trailerFilled_eq.trans_le hd.filled_lt.le)) hne rfl
        · cases herr
      · cases herr
  | done hd hstate hfinished =>
    simp only [hstate] at herr
    cases herr
    exact .done hstate rfl

/-- A call, and an error. -/
theorem failed_of_feedLoop (fuel : Nat) {gone bytes : List UInt8} {p : Phase UInt8 (List UInt8) (List UInt8)} (h : Stands gone d p)
    (herr : Decoder.feedLoop fuel d bytes = (.err e, d')) : Failed e d' := by
  induction fuel generalizing d p bytes with
  | zero => cases bytes <;> cases herr
  | succ fuel ih =>
    cases bytes with
    | nil => cases herr
    | cons b bytes =>
      have hround := feedStep_spec h (List.cons_ne_nil b bytes)
      rw [Decoder.feedLoop] at herr
      generalize hr : d.feedStep (b :: bytes) = r at herr hround
      cases hround with
      | err hp =>
        cases herr
        exact failed_of_feedStep h hr
      | ok hsplit hp h' hless => exact ih h' herr

/-! ## Behind an error -/

/-- A decoder that has failed, fed more bytes: it reports the error again and stays as it is, or its body is in the placeholder. -/
theorem Failed.feed (h : Failed e d) {data : List UInt8} (hdata : data ≠ []) :
    (¬BodyFailed d ∧ d.feed data = (.err e, d)) ∨ (BodyFailed d ∧ (d.feed data).1 = .panic) := by
  obtain ⟨b, rest, rfl⟩ := List.exists_cons_of_ne_nil hdata
  -- a round that reports the error is all there is of the loop
  have hround : ∀ {s : State}, d.state = s → s ≠ .body → d.feedStep (b :: rest) = (.err e, d) →
      ¬BodyFailed d ∧ d.feed (b :: rest) = (.err e, d) := by
    intro s hstate hs hstep
    refine ⟨fun hbody => hs (hstate.symm.trans hbody.1), ?_⟩
    rw [Decoder.feed, List.length_cons, Nat.succ_add, Decoder.feedLoop, hstep]
  -- nothing is copied into an array that is full
  have hcopy : ∀ {k : Nat} {dest : List UInt8}, copyFromSlice dest k [] = dest := by
    intro k dest
    rw [copyFromSlice, List.append_nil, List.length_nil, Nat.add_zero, List.take_append_drop]
  cases h with
  | header hstate hfilled hlength herr =>
    refine .inl (hround hstate (by simp) ?_)
    have hsame : { d with state := .header, header := d.header, headerFilled := 2 } = d := by rw [← hstate, ← hfilled]
    unfold Decoder.feedStep
    simp only [hstate, hfilled, Nat.lt_irrefl, if_false, Nat.sub_self, Nat.zero_min, List.take_zero, Nat.add_zero, if_true, hcopy,
      hsame, herr]
  | body hstate hdead =>
    refine .inr ⟨⟨hstate, hdead.state_eq⟩, ?_⟩
    have hpanic := Noflate.Decoder.feedAndDrain_dead Decoder.collect hdead d (b :: rest)
    have hbody : (d.feedBody (b :: rest)).1 = .panic := by
      unfold Decoder.feedBody
      generalize feedAndDrain Decoder.collect d d.deflate (b :: rest) = r at hpanic
      obtain ⟨r, x, deflate⟩ := r
      obtain rfl : r = .panic := hpanic
      rfl
    have hstep : d.feedStep (b :: rest) = d.feedBody (b :: rest) := by
      unfold Decoder.feedStep
      rw [hstate]
    rw [Decoder.feed, List.length_cons, Nat.succ_add, Decoder.feedLoop, hstep]
    generalize d.feedBody (b :: rest) = r at hbody
    obtain ⟨r, d'⟩ := r
    obtain rfl : r = .panic := hbody
    rfl
  | trailer hstate hfilled hlength hne he =>
    refine .inl (hround hstate (by simp) ?_)
    have hsame : { d with state := .trailer, trailer := d.trailer, trailerFilled := 4 } = d := by rw [← hstate, ← hfilled]
    unfold Decoder.feedStep
    simp only [hstate, hfilled, Nat.lt_irrefl, if_false, Nat.sub_self, Nat.zero_min, List.take_zero, Nat.add_zero, if_true, hcopy,
      hsame]
    rw [if_pos hne, he]
    rfl
  | done hstate he =>
    refine .inl (hround hstate (by simp) ?_)
    unfold Decoder.feedStep
    rw [hstate, he]
    rfl

/-- Consuming output of a decoder that has failed. -/
theorem Failed.advance (h : Failed e d) {n : Nat} (hadvance : d.advance n = .ok d') : Failed e d' := by
  obtain ⟨output, -, hd'⟩ := Exec.bind_eq_ok.mp hadvance
  obtain rfl := Exec.ok.inj hd'
  cases h with
  | header hstate hfilled hlength herr => exact .header hstate hfilled hlength herr
  | body hstate hdead => exact .body hstate hdead
  | trailer hstate hfilled hlength hne he => exact .trailer hstate hfilled hlength hne he
  | done hstate he => exact .done hstate he

/-- A decoder in use stands somewhere in a stream if it has reported no error, and has failed with the first one otherwise. -/
theorem Used.stands_or_failed {o : Option Error} (h : Used o d) :
    (o = none ∧ ∃ gone p, Stands gone d p) ∨ ∃ e, o = some e ∧ Failed e d := by
  induction h with
  | new => exact .inl ⟨rfl, [], _, new_stands⟩
  | @feed o d d' data h hfeed ih =>
    rcases ih with ⟨ho, gone, p, hstands⟩ | ⟨e, ho, hfailed⟩
    · have hspec := feed_spec hstands data
      rw [hfeed] at hspec
      cases hspec with
      | ok hq hstands' => exact .inl ⟨ho, gone, _, hstands'⟩
    · by_cases hdata : data = []
      · subst hdata
        have hnil : d.feed [] = (.ok (), d) := rfl
        obtain ⟨-, rfl⟩ := Prod.mk.inj (hfeed.symm.trans hnil)
        exact .inr ⟨e, ho, hfailed⟩
      · rcases hfailed.feed hdata with ⟨-, herr⟩ | ⟨-, hpanic⟩
        · cases hfeed.symm.trans herr
        · rw [hfeed] at hpanic
          cases hpanic
  | @fail o d d' data e h hfeed ih =>
    rcases ih with ⟨ho, gone, p, hstands⟩ | ⟨e', ho, hfailed⟩
    · exact .inr ⟨e, by rw [ho]; rfl, failed_of_feedLoop _ hstands hfeed⟩
    · by_cases hdata : data = []
      · subst hdata
        have hnil : d.feed [] = (.ok (), d) := rfl
        cases hfeed.symm.trans hnil
      · rcases hfailed.feed hdata with ⟨-, herr⟩ | ⟨-, hpanic⟩
        · obtain ⟨-, rfl⟩ := Prod.mk.inj (hfeed.symm.trans herr)
          exact .inr ⟨e', by rw [ho]; rfl, hfailed⟩
        · rw [hfeed] at hpanic
          cases hpanic
  | advance h hadvance ih =>
    rcases ih with ⟨ho, gone, p, hstands⟩ | ⟨e, ho, hfailed⟩
    · exact .inl ⟨ho, _, p, hstands.consume hadvance⟩
    · exact .inr ⟨e, ho, hfailed.advance hadvance⟩

end

/-- What `feed` does with bytes, in every state that calls lead to. Before the first error it returns a result. Behind it, it returns the
same error and leaves the decoder as it is; but behind an error of the body it panics. It never goes round for ever. -/
theorem error_is_kept {o : Option Error} {d : Decoder} (h : Used o d) {data : List UInt8} (hdata : data ≠ []) :
    (o = none → (d.feed data).1 = .ok () ∨ ∃ e, (d.feed data).1 = .err e) ∧
      (∀ e, o = some e → (¬BodyFailed d ∧ d.feed data = (.err e, d)) ∨ (BodyFailed d ∧ (d.feed data).1 = .panic)) ∧
      (d.feed data).1 ≠ .diverge := by
  rcases h.stands_or_failed with ⟨rfl, gone, p, hstands⟩ | ⟨e, rfl, hfailed⟩
  · have hspec := feed_spec hstands data
    generalize d.feed data = r at hspec
    cases hspec with
    | ok hq hstands' =>
      refine ⟨fun _ => .inl rfl, fun e he => ?_, by simp⟩
      cases he
    | @err e d' hq =>
      refine ⟨fun _ => .inr ⟨e, rfl⟩, fun e he => ?_, by simp⟩
      cases he
  · have hfeed := hfailed.feed hdata
    refine ⟨fun ho => ?_, fun e' he' => ?_, ?_⟩
    · cases ho
    · obtain rfl := Option.some.inj he'
      exact hfeed
    · rcases hfeed with ⟨-, herr⟩ | ⟨-, hpanic⟩
      · rw [herr]
        simp
      · rw [hpanic]
        simp

/-- A header of another compression method, and a byte behind it. -/
theorem error_is_kept_method :
    ∃ d e, Decoder.new.feed [0x79, 0x9C] = (.err e, d) ∧ Used (some e) d ∧
      ((¬BodyFailed d ∧ d.feed [0] = (.err e, d)) ∨ (BodyFailed d ∧ (d.feed [0]).1 = .panic)) := by
  have hfeed : Decoder.new.feed [0x79, 0x9C] = (.err (.unsupported "zlib compression method 9 not supported (only deflate=8)"),
      (Decoder.new.feed [0x79, 0x9C]).2) := Prod.ext (by decide +kernel) rfl
  have hused := Used.fail .new hfeed
  exact ⟨_, _, hfeed, hused, (error_is_kept hused (by decide)).2.1 _ rfl⟩

end Noflate.Zlib
