import Noflate.Drain
import Noflate.Container
import Noflate.General.Framing
import Noflate.Lemmas.Decompress
import Noflate.Lemmas.Exactness

/-!
# The deflate body of a container

`deflateBody` says of a byte string whether it is bad, incomplete or complete with a meaning, for the raw deflate decoder. Feeding
and draining a decoder that waits for input (`Decoder.Waits`) finds out (`feedAndDrain_spec`), and where the body ends
(`Decoder.Finishes`).
-/

namespace Noflate

open BitString Resumable

/-! ## Filling an array -/

/-- A byte behind the filled part of an array. -/
theorem take_set_succ {bytes filled : List UInt8} (hlt : filled.length < bytes.length) (h : bytes.take filled.length = filled)
    (b : UInt8) : (bytes.set filled.length b).take (filled ++ [b]).length = filled ++ [b] := by
  rw [List.set_eq_take_append_cons_drop, if_pos hlt, h, List.append_cons filled b (bytes.drop _), List.take_left]

/-- A slice copied behind the filled part of an array. -/
theorem take_copyFromSlice {dest filled : List UInt8} (h : dest.take filled.length = filled) (src : List UInt8) :
    (copyFromSlice dest filled.length src).take (filled ++ src).length = filled ++ src := by
  rw [copyFromSlice, h, List.take_left]

theorem length_copyFromSlice {dest src : List UInt8} {start : Nat} (h : start + src.length ≤ dest.length) :
    (copyFromSlice dest start src).length = dest.length := by
  rw [copyFromSlice, List.length_append, List.length_append, List.length_take, List.length_drop]
  omega

/-- As much of a slice as fills an array up: it does, or it is all of the slice. -/
theorem fill_cases {n k : Nat} {bytes : List UInt8} (hn : n < k) (hbytes : bytes ≠ []) :
    ∃ piece rest, bytes = piece ++ rest ∧ min (k - n) bytes.length = piece.length ∧ bytes.take piece.length = piece ∧
      bytes.drop piece.length = rest ∧ rest.length < bytes.length ∧
      (n + piece.length = k ∨ (n + piece.length < k ∧ rest = [])) := by
  have hpos := List.length_pos_iff.mpr hbytes
  have hlen : (bytes.take (min (k - n) bytes.length)).length = min (k - n) bytes.length := by
    rw [List.length_take, Nat.min_assoc, Nat.min_self]
  refine ⟨_, _, (List.take_append_drop _ _).symm, hlen.symm, by rw [hlen], by rw [hlen], ?_, ?_⟩
  · rw [List.length_drop]
    omega
  · rw [hlen, List.drop_eq_nil_iff]
    omega

/-! ## What the raw decoder says of a byte string -/

/-- What a verdict says of a body. -/
def bodyOf (output : List UInt8) : Verdict → Option (Option (List UInt8))
  | .waiting => some none
  | .failed => none
  | .halted => some (some output)

/-- What the raw deflate decoder says of a byte string: it is bad, incomplete, or complete with an output. -/
def deflateBody (bytes : List UInt8) : Option (Option (List UInt8)) :=
  match Session.outcome [.feed bytes] with
  | .ok (verdict, output) => bodyOf output verdict
  | _ => none

/-- What it says is where the machine stops. -/
theorem deflateBody_of_stop {bytes : List UInt8} {c : ItemState × List Bool} {verdict : Verdict}
    (hr : itemMachine.Runs (startItem bytes) c) (hstop : itemMachine.Stops c verdict) :
    deflateBody bytes = bodyOf c.1.2 verdict := by
  have hp : Session.Permitted Session.start [.feed bytes] :=
    Session.along_cons.mpr ⟨⟨rfl, fun h => (nomatch h)⟩, fun _ _ => trivial⟩
  obtain ⟨verdict', output, c', h1, hr', hstop', rfl⟩ := Session.outcome_spec hp
  rw [fedBytes_feed, fedBytes_nil, List.append_nil] at hr'
  obtain ⟨rfl, rfl⟩ := Machine.stop_unique hr' hstop' hr hstop
  rw [deflateBody, h1]

theorem deflateBody_nil : deflateBody [] = some none :=
  deflateBody_of_stop (Machine.Runs.refl (startItem [])) rfl

/-- What is bad or complete stays so with more bytes behind it. -/
theorem deflateBody_append {bytes : List UInt8} (h : deflateBody bytes ≠ some none) (more : List UInt8) :
    deflateBody (bytes ++ more) = deflateBody bytes := by
  obtain ⟨verdict, c, hr, hstop, -⟩ := exists_stop bytes
  rw [deflateBody_of_stop hr hstop] at h ⊢
  have hne : verdict ≠ .waiting := by
    rintro rfl
    exact h rfl
  have hr' := hr.append itemMachine_mono (admissible_ofBytes more)
  rw [← startItem_append] at hr'
  have heq := deflateBody_of_stop hr' (hstop.append itemMachine_mono hne (admissible_ofBytes more))
  exact heq

/-! ## A decoder that waits, and one that has finished -/

namespace Decoder

/-- A decoder whose output is collected, and that waits for input behind some bytes. -/
structure Waits (bytes dropped taken : List UInt8) (d : Decoder) : Prop where
  live : Session.Live bytes dropped { decoder := d, taken, failed := false }
  unread_eq : d.unread = []
  waiting : itemMachine.Stops (d.item dropped) .waiting

/-- A decoder whose output is collected, and that has decoded the final block. -/
structure Finishes (bytes dropped taken : List UInt8) (d : Decoder) : Prop where
  live : Session.Live bytes dropped { decoder := d, taken, failed := false }
  unread_eq : d.unread = []
  finished : d.finished = true

theorem new_waits : Waits [] [] [] new := ⟨Session.start_live, rfl, rfl⟩

theorem Waits.not_finished {bytes dropped taken : List UInt8} {d : Decoder} (h : d.Waits bytes dropped taken) :
    ¬d.finished = true := by
  intro hf
  have hhalts := halts_of_finished dropped (h.live.decoder.finished_iff.mp hf)
  cases (Machine.stop_unique (Machine.Runs.refl _) hhalts (Machine.Runs.refl _) h.waiting).2

theorem Waits.not_transient {bytes dropped taken : List UInt8} {d : Decoder} (h : d.Waits bytes dropped taken) :
    d.state ≠ .transient := by
  intro hs
  have hwait := h.waiting
  unfold item StepEnv.item env at hwait
  simp only [hs] at hwait
  cases hwait

theorem Waits.body_eq {bytes dropped taken : List UInt8} {d : Decoder} (h : d.Waits bytes dropped taken) :
    deflateBody bytes = some none := deflateBody_of_stop h.live.decoder.runs h.waiting

/-- The machine has halted where a decoder has finished: what is left are fewer than eight bits, and what the decoder has not
taken. -/
theorem halted_of_finished {bytes dropped : List UInt8} {s : Session} (h : s.Live bytes dropped)
    (hf : s.decoder.finished = true) :
    ∃ held, held.length < 8 ∧
      itemMachine.Runs (startItem bytes) ((.finished, s.output), held ++ ofBytes s.decoder.remainingInput) := by
  have hstate := h.decoder.finished_iff.mp hf
  have hheld : s.decoder.pendingBitCount < 8 := by
    have hc : s.decoder.pendingBitCount ≤ s.decoder.state.buffered := h.decoder.ok.buffered
    rw [hstate] at hc
    exact Nat.lt_succ_of_le hc
  refine ⟨ofNat s.decoder.pendingBitCount s.decoder.pendingBitBuffer, by rw [length_ofNat]; exact hheld, ?_⟩
  have hitem : s.decoder.item dropped = ((.finished, s.output),
      ofNat s.decoder.pendingBitCount s.decoder.pendingBitBuffer ++ ofBytes s.decoder.remainingInput) := by
    rw [h.tracks.output_eq, ← hstate]
    rfl
  rw [← hitem]
  exact h.decoder.runs

/-- What a finished decoder has not taken is the end of what it was fed, and the body is in front of it. -/
theorem body_of_finished {bytes dropped : List UInt8} {s : Session} (h : s.Live bytes dropped)
    (hf : s.decoder.finished = true) :
    ∃ used held, bytes = used ++ s.decoder.remainingInput ∧ held.length < 8 ∧
      itemMachine.Runs (startItem used) ((.finished, s.output), held) := by
  obtain ⟨held, hheld, hr⟩ := halted_of_finished h hf
  obtain ⟨codeSets, hm, -⟩ := inflate_of_halted hr
  -- the reference leaves the end of the bits
  have hsuffix : held ++ ofBytes s.decoder.remainingInput <:+ ofBytes bytes := by
    have hread : (Rfc1951.readBlocks (ofBytes bytes).length (ofBytes bytes) [] []).map meaningOf =
        some ((s.output, codeSets), held ++ ofBytes s.decoder.remainingInput) := by
      unfold Rfc1951.inflate at hm
      rw [hm]
      rfl
    exact (exact_readBlocks _ _ _).suffix hread
  obtain ⟨used, hused⟩ := suffix_of_ofBytes ((List.suffix_append _ _).trans hsuffix)
  refine ⟨used, held, hused, hheld, halted_shorten s.decoder.remainingInput ?_⟩
  rwa [← hused]

theorem Finishes.output_eq {bytes dropped taken : List UInt8} {d : Decoder} (h : d.Finishes bytes dropped taken) :
    Session.output { decoder := d, taken, failed := false } = taken := by
  rw [Session.output, h.unread_eq, List.append_nil]

/-! ## Feeding and draining -/

/-- How feeding and draining ends: at the end of the body, waiting for input, or in an error; what was collected is the output. -/
inductive Drained {σ : Type} (C : List UInt8 → σ → Prop) (bytes : List UInt8) : Exec Bool × σ × Decoder → Prop
  | finished {dropped taken : List UInt8} {x : σ} {d : Decoder} (hx : C taken x) (hd : d.Finishes bytes dropped taken) :
      Drained C bytes (.ok true, x, d)
  | waiting {dropped taken : List UInt8} {x : σ} {d : Decoder} (hx : C taken x) (hd : d.Waits bytes dropped taken) :
      Drained C bytes (.ok false, x, d)
  | failed {e : Error} {dropped taken : List UInt8} {x : σ} {d : Decoder} (hx : C taken x) (hd : d.Dead bytes dropped) :
      Drained C bytes (.err e, x, d)

section

variable {σ : Type} {C : List UInt8 → σ → Prop} {collect : σ → List UInt8 → σ}

/-- The loop makes the calls of `Session.settle`. -/
theorem drainLoop_of_settle (hC : ∀ taken x new, C taken x → C (taken ++ new) (collect x new)) (fuel : Nat)
    {bytes dropped taken : List UInt8} {d : Decoder} (hd : Session.Live bytes dropped { decoder := d, taken, failed := false })
    {x : σ} (hx : C taken x) {s' : Session} {verdict : Verdict}
    (h : Session.settleLoop fuel { decoder := d, taken, failed := false } = .ok (verdict, s')) :
    Drained C bytes (drainLoop collect fuel x d) := by
  induction fuel generalizing d taken dropped x with
  | zero => cases h
  | succ fuel ih =>
    obtain ⟨dropped₁, d₁, hcall, hd₁, hsame, -, hlen⟩ := Session.advance_live hd le_rfl
    obtain ⟨hadvance, -, -, hunread⟩ := Session.call_advance_all hcall
    simp only [List.take_length] at hcall hd₁ hadvance hunread
    have hx₁ := hC taken x d.unread hx
    rw [Session.settleLoop, hcall, Exec.ok_bind] at h
    simp only [Bool.false_eq_true, if_false] at h
    rw [drainLoop]
    simp only [hadvance]
    by_cases hfin : d₁.finished = true
    · rw [if_pos hfin]
      exact .finished hx₁ ⟨hd₁, hunread, hfin⟩
    · rw [if_neg hfin] at h ⊢
      rcases Decoder.feed_spec hd₁.decoder [] (fun _ => rfl) with ⟨d₂, hfeed, hdrives⟩ | ⟨e, d₂, hfeed, hdead, -⟩
      · rw [List.append_nil] at hdrives
        have hd₂ : Session.Live bytes dropped₁ { decoder := d₂, taken := taken ++ d.unread, failed := false } :=
          ⟨hdrives.live, hd₁.tracks.feed hdrives.live.windowed hdrives.drained_eq (runs_output hdrives.runs.runs) false⟩
        simp only [Session.call, hfeed, Exec.ok_bind, Bool.not_false, Bool.true_and] at h
        simp only [hfeed]
        by_cases hstall : (d₂.unread.isEmpty && d₂.remainingInput.length == d₁.remainingInput.length && !d₂.finished) = true
        · rw [if_pos hstall]
          simp only [Bool.and_eq_true, List.isEmpty_iff, Bool.not_eq_true'] at hstall
          obtain ⟨⟨hempty, -⟩, hnot⟩ := hstall
          refine .waiting hx₁ ⟨hd₂, hempty, ?_⟩
          rcases hdrives.paused.paused with hf | hwait | ⟨hcap, -⟩
          · rw [hnot] at hf
            cases hf
          · exact hwait
          · rw [hempty] at hcap
            exact absurd hcap (by decide)
        · rw [if_neg hstall] at h ⊢
          exact ih hd₂ hx₁ h
      · rw [List.append_nil] at hdead
        simp only [hfeed]
        exact .failed hx₁ hdead

/-- A decoder that waits, fed more bytes. -/
theorem feedAndDrain_spec (hC : ∀ taken x new, C taken x → C (taken ++ new) (collect x new)) {bytes dropped taken : List UInt8}
    {d : Decoder} (hd : d.Waits bytes dropped taken) {x : σ} (hx : C taken x) (rest : List UInt8) :
    Drained C (bytes ++ rest) (feedAndDrain collect x d rest) := by
  unfold feedAndDrain
  rcases Decoder.feed_spec hd.live.decoder rest (fun hf => absurd hf hd.not_finished) with
    ⟨d₁, hfeed, hdrives⟩ | ⟨e, d₁, hfeed, hdead, -⟩
  · simp only [hfeed]
    have hd₁ : Session.Live (bytes ++ rest) dropped { decoder := d₁, taken, failed := false } :=
      ⟨hdrives.live, hd.live.tracks.feed hdrives.live.windowed hdrives.drained_eq (runs_output hdrives.runs.runs) false⟩
    have hrank := Decoder.rank_lt_driveFuel dropped d₁
    obtain ⟨verdict, s', hsettle, -⟩ := Session.settleLoop_live (d₁.driveFuel + 2) hd₁ rfl (by simp only; omega)
    exact drainLoop_of_settle hC _ hd₁ hx hsettle
  · simp only [hfeed]
    exact .failed hx hdead

end

/-- A decoder that has failed, fed more bytes: a panic. -/
theorem feedAndDrain_dead {σ : Type} (collect : σ → List UInt8 → σ) {bytes dropped : List UInt8} {d : Decoder}
    (hd : d.Dead bytes dropped) (x : σ) (rest : List UInt8) : (feedAndDrain collect x d rest).1 = .panic := by
  have hpanic := Decoder.feed_dead hd rest
  unfold feedAndDrain
  cases hf : d.feed rest with
  | mk e d' =>
    rw [hf] at hpanic
    simp only at hpanic
    subst hpanic
    rfl

end Decoder

/-! ## Containers -/

/-- A container format over a deflate body. -/
def containerFormat {η : Type} (start : η) (header : η → UInt8 → Option (Option η)) (trailer : List UInt8 → List UInt8)
    (trailer_ne_nil : ∀ o, trailer o ≠ []) : Framing.Format UInt8 η (List UInt8) where
  start
  header
  body := deflateBody
  trailer
  body_nil := deflateBody_nil
  body_bad := fun h more => (deflateBody_append (by rw [h]; exact nofun) more).trans h
  body_complete := fun h more => (deflateBody_append (by rw [h]; exact nofun) more).trans h
  trailer_ne_nil

section

variable {η : Type} {F : Framing.Format UInt8 η (List UInt8)}

/-- Where the machine halts in the last byte, there is a body. -/
theorem isBody_of_halted (hF : F.body = deflateBody) {bytes output : List UInt8} {held : List Bool} (hheld : held.length < 8)
    (hr : itemMachine.Runs (startItem bytes) ((.finished, output), held)) : F.IsBody bytes output := by
  constructor
  · rw [hF]
    exact deflateBody_of_stop hr stops_halted
  · rintro short more rfl hmore
    obtain ⟨verdict, c, hr', hstop, -⟩ := exists_stop short
    rw [hF, deflateBody_of_stop hr' hstop, waiting_of_short hmore hheld hr hr' hstop]
    rfl

/-- A body is what the raw decoder finishes on, with nothing left over. -/
theorem isBody_iff (hF : F.body = deflateBody) {bytes output : List UInt8} :
    F.IsBody bytes output ↔ Session.FinishesOn bytes output := by
  have hp : Session.Permitted Session.start [.feed bytes] :=
    Session.along_cons.mpr ⟨⟨rfl, fun h => (nomatch h)⟩, fun _ _ => trivial⟩
  obtain ⟨s₁, h1, hs₁⟩ := Session.run_permitted _ hp (.inl ⟨rfl, [], Session.start_live⟩)
  rw [List.nil_append, fedBytes_feed, fedBytes_nil, List.append_nil] at hs₁
  obtain ⟨verdict, s, h2, hs⟩ := Session.settle_spec hs₁
  have hrun : (Session.run [.feed bytes] Session.start >>= Session.settle) = .ok (verdict, s) := by
    rw [h1, Exec.ok_bind, h2]
  obtain ⟨c, hr, hstop, hout, hlive⟩ := hs.stopped
  constructor
  · intro hbody
    have hcomplete := hbody.complete
    rw [hF, deflateBody_of_stop hr hstop] at hcomplete
    cases verdict with
    | waiting => cases hcomplete
    | failed => cases hcomplete
    | halted =>
      obtain ⟨-, dropped, hl⟩ := hlive nofun
      have hfin := hs.finished_iff.mpr rfl
      obtain ⟨used, held, hbytes, hheld, hused⟩ := Decoder.body_of_finished hl hfin
      refine ⟨s, hrun, hfin, ?_, hout.symm.trans (Option.some.inj (Option.some.inj hcomplete))⟩
      -- bytes left over would make a shorter body complete
      by_contra hleft
      have hshort := hbody.shortest _ _ hbytes hleft
      rw [hF, deflateBody_of_stop hused stops_halted] at hshort
      cases hshort
  · rintro ⟨s', hrun', hfin, hleft, rfl⟩
    obtain ⟨rfl, rfl⟩ := Prod.mk.inj (Exec.ok.inj (hrun.symm.trans hrun'))
    obtain ⟨-, dropped, hl⟩ := hlive nofun
    obtain ⟨used, held, hbytes, hheld, hused⟩ := Decoder.body_of_finished hl hfin
    rw [hleft, List.append_nil] at hbytes
    subst hbytes
    exact isBody_of_halted hF hheld hused

variable {σ : Type} {C : List UInt8 → σ → Prop} {bytes dropped taken : List UInt8} {d : Decoder}

/-- A decoder that waited, and waits behind more bytes: they are read into the body. -/
theorem run_body_waiting (hF : F.body = deflateBody) {rest dropped' taken' : List UInt8} {d' : Decoder}
    (h' : d'.Waits (bytes ++ rest) dropped' taken') : F.run (.body bytes) rest = some (.body (bytes ++ rest)) := by
  refine F.run_body_incomplete ?_
  rw [hF]
  exact h'.body_eq

/-- A decoder that waited, and fails on more bytes: they make the body bad. -/
theorem bodyBad_failed (hF : F.body = deflateBody) (h : d.Waits bytes dropped taken) {rest dropped' : List UInt8} {d' : Decoder}
    (h' : d'.Dead (bytes ++ rest) dropped') : F.BodyBad (.body bytes) rest := by
  obtain ⟨c, hr, -, hstop⟩ := h'.failed
  refine (Framing.Format.bodyBad_body_iff ?_).mpr ?_
  · rw [hF]
    exact h.body_eq
  · rw [hF, deflateBody_of_stop hr hstop]
    rfl

/-- A decoder that waited, and finishes within more bytes: they are the end of the body and what is left over. -/
theorem run_body_finished (hF : F.body = deflateBody) (h : d.Waits bytes dropped taken) {rest dropped' taken' : List UInt8}
    {d' : Decoder} (h' : d'.Finishes (bytes ++ rest) dropped' taken') :
    ∃ used, rest = used ++ d'.remainingInput ∧ used ≠ [] ∧ F.run (.body bytes) used = some (.trailer taken' []) := by
  obtain ⟨front, held, hbytes, hheld, hr⟩ := Decoder.body_of_finished h'.live h'.finished
  simp only [h'.output_eq] at hbytes hr
  have hcomplete := deflateBody_of_stop hr stops_halted
  -- the body is longer than what the decoder waited behind
  have hlt : bytes.length < front.length := by
    by_contra hle
    obtain ⟨more, rfl⟩ : front <+: bytes :=
      List.prefix_of_prefix_length_le ⟨_, hbytes.symm⟩ (List.prefix_append bytes rest) (Nat.le_of_not_lt hle)
    have happ := deflateBody_append (by rw [hcomplete]; exact nofun) more
    rw [hcomplete, h.body_eq] at happ
    cases happ
  obtain ⟨used, rfl⟩ : bytes <+: front :=
    List.prefix_of_prefix_length_le (List.prefix_append bytes rest) ⟨_, hbytes.symm⟩ hlt.le
  rw [List.append_assoc] at hbytes
  have hused : used ≠ [] := by
    rintro rfl
    rw [List.append_nil] at hlt
    exact Nat.lt_irrefl _ hlt
  exact ⟨used, List.append_cancel_left hbytes, hused, F.run_body_complete (isBody_of_halted hF hheld hr) hused⟩

end

/-- A byte string on which the machine halts, with less than a byte left, is one the raw decoder finishes on. -/
theorem finishesOn_of_halted {bytes output : List UInt8} {held : List Bool} (hheld : held.length < 8)
    (hr : itemMachine.Runs (startItem bytes) ((.finished, output), held)) : Session.FinishesOn bytes output := by
  have hF : (containerFormat () (fun _ _ => none) (fun _ => [0]) (fun _ => List.cons_ne_nil _ _)).body = deflateBody := rfl
  exact (isBody_iff hF).mp (isBody_of_halted hF hheld hr)

/-! ## Decoders that read a format -/

/-- A decoder that is not finished, where the reader is not done. -/
theorem not_finished_iff {η : Type} {finished : Bool} {p : Framing.Phase UInt8 η (List UInt8)} (hf : finished = false)
    (hp : ∀ o, p ≠ .done o) : finished = true ↔ ∃ o, p = .done o := by
  rw [hf]
  exact ⟨fun h => absurd h Bool.false_ne_true, fun ⟨o, ho⟩ => absurd ho (hp o)⟩

section

variable {η δ : Type} {F : Framing.Format UInt8 η (List UInt8)} {feedChunks : List (List UInt8) → Exec δ} {finished : δ → Bool}
  {output : δ → List UInt8}

/-- A decoder that is fed in pieces does what the reader of a format does: it reports an error where the reader fails, and it is
finished, with an output, where the reader is done with it. -/
def ReadsFormat (F : Framing.Format UInt8 η (List UInt8)) (feedChunks : List (List UInt8) → Exec δ) (finished : δ → Bool)
    (output : δ → List UInt8) : Prop :=
  ∀ chunks,
    (∃ d p, feedChunks chunks = .ok d ∧ F.run (.header F.start) chunks.flatten = some p ∧
        ∀ data, (finished d = true ∧ output d = data) ↔ p = .done data) ∨
      ((∃ e, feedChunks chunks = .err e) ∧ F.run (.header F.start) chunks.flatten = none)

namespace ReadsFormat

/-- A decoder reads a format if each call of `feed` does: `Stands` relates a decoder to where the reader stands. -/
theorem of_stands (Stands : δ → Framing.Phase UInt8 η (List UInt8) → Prop) (feed : δ → List UInt8 → Exec Unit × δ)
    (feedChunks : δ → List (List UInt8) → Exec δ) (hnil : ∀ d, feedChunks d [] = .ok d)
    (hok : ∀ {d d' data}, feed d data = (.ok (), d') → ∀ chunks, feedChunks d (data :: chunks) = feedChunks d' chunks)
    (herr : ∀ {d d' data e}, feed d data = (.err e, d') → ∀ chunks, feedChunks d (data :: chunks) = .err e)
    (hfeed : ∀ {d p}, Stands d p → ∀ data, (∃ d' p', feed d data = (.ok (), d') ∧ F.run p data = some p' ∧ Stands d' p') ∨
      ((∃ e d', feed d data = (.err e, d')) ∧ F.run p data = none))
    (hdone : ∀ {d p}, Stands d p → ∀ data, (finished d = true ∧ output d = data) ↔ p = .done data)
    {start : δ} (hstart : Stands start (.header F.start)) : ReadsFormat F (feedChunks start) finished output := by
  have hrun : ∀ (chunks : List (List UInt8)) {d : δ} {p : Framing.Phase UInt8 η (List UInt8)}, Stands d p →
      (∃ d' p', feedChunks d chunks = .ok d' ∧ F.run p chunks.flatten = some p' ∧ Stands d' p') ∨
        ((∃ e, feedChunks d chunks = .err e) ∧ F.run p chunks.flatten = none) := by
    intro chunks
    induction chunks with
    | nil => exact fun h => .inl ⟨_, _, hnil _, rfl, h⟩
    | cons data chunks ih =>
      intro d p h
      rw [List.flatten_cons, Framing.Format.run_append]
      rcases hfeed h data with ⟨d', p', h1, h2, h3⟩ | ⟨⟨e, d', h1⟩, h2⟩
      · rw [hok h1, h2, Option.bind_some]
        exact ih h3
      · rw [herr h1, h2]
        exact .inr ⟨⟨e, rfl⟩, rfl⟩
  intro chunks
  rcases hrun chunks hstart with ⟨d, p, h1, h2, h3⟩ | hfails
  · exact .inl ⟨d, p, h1, h2, hdone h3⟩
  · exact .inr hfails

/-- What is accepted is what the reader reads to the end. -/
theorem accepts_iff (h : ReadsFormat F feedChunks finished output) (chunks : List (List UInt8)) (data : List UInt8) :
    (∃ d, feedChunks chunks = .ok d ∧ finished d = true ∧ output d = data) ↔
      F.run (.header F.start) chunks.flatten = some (.done data) := by
  rcases h chunks with ⟨d, p, hfeed, hrun, hdone⟩ | ⟨⟨e, hfeed⟩, hrun⟩
  · constructor
    · rintro ⟨d', hfeed', hfinished⟩
      obtain rfl := Exec.ok.inj (hfeed.symm.trans hfeed')
      rw [hrun, (hdone data).mp hfinished]
    · intro hrun'
      exact ⟨d, hfeed, (hdone data).mpr (Option.some.inj (hrun.symm.trans hrun'))⟩
  · constructor
    · rintro ⟨d, hfeed', -⟩
      cases hfeed.symm.trans hfeed'
    · intro hrun'
      cases hrun.symm.trans hrun'

/-- An error is met where the reader fails. -/
theorem fails_iff (h : ReadsFormat F feedChunks finished output) (chunks : List (List UInt8)) :
    (∃ e, feedChunks chunks = .err e) ↔ F.run (.header F.start) chunks.flatten = none := by
  rcases h chunks with ⟨d, p, hfeed, hrun, -⟩ | ⟨hfeed, hrun⟩
  · constructor
    · rintro ⟨e, he⟩
      cases hfeed.symm.trans he
    · intro hnone
      cases hrun.symm.trans hnone
  · exact ⟨fun _ => hrun, fun _ => hfeed⟩

/-- A byte string that the reader reads to the end is one at the end of which the decoder finishes. -/
theorem finishesAtEnd (h : ReadsFormat F feedChunks finished output) {bytes data : List UInt8}
    (hrun : F.run (.header F.start) bytes = some (.done data)) : FinishesAtEnd feedChunks finished output bytes data := by
  refine ⟨?_, ?_, ?_⟩
  · intro chunks hflat
    exact (h.accepts_iff chunks data).mpr (hflat ▸ hrun)
  · intro chunks more hmore hflat
    rw [← hflat, Framing.Format.run_append] at hrun
    rcases h chunks with ⟨d, p, hfeed, hp, hdone⟩ | ⟨-, hnone⟩
    · refine ⟨d, hfeed, Bool.eq_false_iff.mpr fun hfinished => ?_⟩
      rw [hp, (hdone _).mp ⟨hfinished, rfl⟩, Option.bind_some, Framing.Format.run_done F hmore] at hrun
      cases hrun
    · rw [hnone] at hrun
      cases hrun
  · intro chunks more hmore hflat
    rw [h.fails_iff, hflat, Framing.Format.run_append, hrun, Option.bind_some, Framing.Format.run_done F hmore]

end ReadsFormat

end

end Noflate
