import Noflate.Error
import Noflate.Bridge
import Noflate.Lemmas.Receiving

/-!
# The reader over a source that may fail

A reader stands on the run of the machine over all that the source will deliver (`DeflateReader.Stands`), or behind an error of its
decoder, with the output from before the error still to be handed over (`DeflateReader.Behind`). Every call of `read` keeps it in one of
the two (`DeflateReader.Keeps.read`), unless it feeds a decoder that has reported an error; so does a run of calls, whatever they report
(`Reading.Inv.run`).
-/

namespace Noflate.Bridge

open Resumable

/-! ## One call -/

/-- Where a reader in use stands: its decoder has met no error and has come to rest, and what it has been fed and what the source will
still deliver are all that there is. -/
structure DeflateReader.Stands (all taken : List UInt8) (r : DeflateReader) : Prop where
  source : ∃ fed dropped, Session.Live fed dropped { decoder := r.decoder, taken, failed := false } ∧
    (r.decoder.finished = true ∨ itemMachine.Stops (r.decoder.item dropped) .waiting ∨
      maxInternalBuffer ≤ (taken ++ r.decoder.unread).length) ∧
    all = fed ++ if r.eof then [] else delivered r.inner.answers
  honest : r.inner.Honest

/-- Where a reader stands behind an error of its decoder: what was decoded before the error is still to be handed over. -/
structure DeflateReader.Behind (all taken : List UInt8) (r : DeflateReader) : Prop where
  dead : ∃ fed dropped, fed <+: all ∧ Session.Dead fed dropped { decoder := r.decoder, taken, failed := true }
  honest : r.inner.Honest

/-- How a call of `read` comes back, on a reader that stays with what it keeps, or whose decoder reports an error. -/
inductive Reads (Keeps : List UInt8 → DeflateReader → Prop) (Fails : DeflateReader → Prop) (taken : List UInt8) (r : DeflateReader)
    (len : Nat) : Answer (List UInt8) → DeflateReader → Prop where
  | some {r' : DeflateReader} {bytes : List UInt8} (hlen : 0 < len → bytes ≠ []) (hr : Keeps (taken ++ bytes) r')
      (hanswers : r'.inner.answers <:+ r.inner.answers) : Reads Keeps Fails taken r len (.ok bytes) r'
  | done {r' : DeflateReader} (hr : Keeps taken r') (hunread : r'.decoder.unread = []) (hfin : r'.decoder.finished = true)
      (hanswers : r'.inner.answers <:+ r.inner.answers) : Reads Keeps Fails taken r len (.ok []) r'
  | eof {r' : DeflateReader} (hr : Keeps taken r') (hunread : r'.decoder.unread = []) (hfin : ¬r'.decoder.finished = true)
      (heof : r'.eof = true) (hanswers : r'.inner.answers <:+ r.inner.answers) :
      Reads Keeps Fails taken r len (.error (.unexpectedEof truncatedMessage)) r'
  | device {r' : DeflateReader} {code : Nat} (hr : Keeps taken r') (hanswers : .error code :: r'.inner.answers <:+ r.inner.answers) :
      Reads Keeps Fails taken r len (.error (.device code)) r'
  | failed {r' : DeflateReader} {e : Error} (hr : Fails r') (hanswers : r'.inner.answers <:+ r.inner.answers) :
      Reads Keeps Fails taken r len (.error (.other e)) r'

/-- A call that has taken answers of the source comes back as one that has yet to take them. -/
theorem Reads.of_suffix {Keeps : List UInt8 → DeflateReader → Prop} {Fails : DeflateReader → Prop} {taken : List UInt8}
    {r r₁ r' : DeflateReader} {len : Nat} {answer : Answer (List UInt8)} (h : Reads Keeps Fails taken r₁ len answer r')
    (hsuffix : r₁.inner.answers <:+ r.inner.answers) : Reads Keeps Fails taken r len answer r' := by
  cases h with
  | some hlen hr hanswers => exact .some hlen hr (hanswers.trans hsuffix)
  | done hr hunread hfin hanswers => exact .done hr hunread hfin (hanswers.trans hsuffix)
  | eof hr hunread hfin heof hanswers => exact .eof hr hunread hfin heof (hanswers.trans hsuffix)
  | device hr hanswers => exact .device hr (hanswers.trans hsuffix)
  | failed hr hanswers => exact .failed hr (hanswers.trans hsuffix)

/-- What a call keeps may be said in another way. -/
theorem Reads.imp {Keeps Keeps' : List UInt8 → DeflateReader → Prop} {Fails Fails' : DeflateReader → Prop} {taken : List UInt8}
    {r r' : DeflateReader} {len : Nat} {answer : Answer (List UInt8)} (h : Reads Keeps Fails taken r len answer r')
    (hkeeps : ∀ taken r, Keeps taken r → Keeps' taken r) (hfails : ∀ r, Fails r → Fails' r) :
    Reads Keeps' Fails' taken r len answer r' := by
  cases h with
  | some hlen hr hanswers => exact .some hlen (hkeeps _ _ hr) hanswers
  | done hr hunread hfin hanswers => exact .done (hkeeps _ _ hr) hunread hfin hanswers
  | eof hr hunread hfin heof hanswers => exact .eof (hkeeps _ _ hr) hunread hfin heof hanswers
  | device hr hanswers => exact .device (hkeeps _ _ hr) hanswers
  | failed hr hanswers => exact .failed (hfails _ hr) hanswers

/-- A source that has given some of its answers. -/
theorem Source.Honest.of_suffix {inner inner' : Source} (h : inner.Honest) (hsuffix : inner'.answers <:+ inner.answers) : inner'.Honest :=
  fun piece hp => h piece (hsuffix.subset hp)

/-- A fresh reader has all of the source before it. -/
theorem DeflateReader.new_stands {inner : Source} (h : inner.Honest) : (new inner).Stands (delivered inner.answers) [] :=
  ⟨⟨[], [], Session.start_live, .inr (.inl (stops_header [])), rfl⟩, h⟩

/-- How many answers of the source the loop may still ask for, with the end. -/
def DeflateReader.rounds (r : DeflateReader) : Nat := if r.eof then 1 else r.inner.answers.length + 2

/-- The rounds that `read` allows are enough. -/
theorem DeflateReader.rounds_le (r : DeflateReader) : r.rounds ≤ r.inner.answers.length + 2 := by
  unfold DeflateReader.rounds
  split <;> omega

/-- Some output goes into a buffer that is not empty. -/
theorem take_min_ne_nil {bytes : List UInt8} {len : Nat} (hne : bytes ≠ []) (hpos : 0 < len) : bytes.take (min bytes.length len) ≠ [] := by
  have hpos' : 0 < bytes.length := List.length_pos_iff.mpr hne
  refine List.length_pos_iff.mp ?_
  rw [List.length_take]
  omega

/-- Output is handed over: some of it where the buffer is not empty. -/
theorem DeflateReader.Stands.handsOver {all taken : List UInt8} {r : DeflateReader} (h : r.Stands all taken) (len : Nat) :
    ∃ decoder, r.decoder.advance (min r.decoder.unread.length len) = .ok decoder ∧
      { r with decoder }.Stands all (taken ++ r.decoder.unread.take (min r.decoder.unread.length len)) := by
  obtain ⟨fed, dropped, hlive, hrest, hall⟩ := h.source
  have hle : min r.decoder.unread.length len ≤ r.decoder.unread.length := Nat.min_le_left _ _
  obtain ⟨dropped', d, hcall, hlive', hsame, hitem, -⟩ := Session.advance_live hlive hle
  obtain ⟨d', hadvance, hd'⟩ := Exec.bind_eq_ok.mp hcall
  obtain rfl : d' = d := congrArg Session.decoder (Exec.ok.inj hd')
  simp only at hadvance
  have houtput : taken ++ r.decoder.unread.take (min r.decoder.unread.length len) ++ d'.unread = taken ++ r.decoder.unread :=
    hlive'.tracks.output_eq.trans ((congrArg (fun c => c.1.2) hitem).trans hlive.tracks.output_eq.symm)
  refine ⟨d', hadvance, ⟨fed, dropped', hlive', ?_, hall⟩, h.honest⟩
  rw [hsame.finished_eq, hitem, houtput]
  exact hrest

/-- So is output that was decoded before an error. -/
theorem DeflateReader.Behind.handsOver {all taken : List UInt8} {r : DeflateReader} (h : r.Behind all taken) (len : Nat) :
    ∃ decoder, r.decoder.advance (min r.decoder.unread.length len) = .ok decoder ∧
      { r with decoder }.Behind all (taken ++ r.decoder.unread.take (min r.decoder.unread.length len)) := by
  obtain ⟨fed, dropped, hfed, hdead⟩ := h.dead
  have hle : min r.decoder.unread.length len ≤ r.decoder.unread.length := Nat.min_le_left _ _
  obtain ⟨dropped', d, hcall, hdead'⟩ := Session.advance_dead hdead hle
  obtain ⟨d', hadvance, hd'⟩ := Exec.bind_eq_ok.mp hcall
  obtain rfl : d' = d := congrArg Session.decoder (Exec.ok.inj hd')
  exact ⟨d', hadvance, ⟨fed, dropped', hfed, hdead'⟩, h.honest⟩

/-- A piece of the source is fed: the reader stands behind it, or its decoder has failed on what the source delivers. -/
theorem DeflateReader.Stands.takesIn {all taken piece : List UInt8} {answers : List (Except Nat (List UInt8))} {r : DeflateReader}
    (h : r.Stands all taken) (hfin : ¬r.decoder.finished = true) (heof : ¬r.eof = true)
    (hanswers : r.inner.answers = .ok piece :: answers) (hne : ¬piece.isEmpty = true) (hhonest : Source.Honest { answers }) :
    (∃ decoder, r.decoder.feed piece = (.ok (), decoder) ∧ { r with inner := { answers }, decoder }.Stands all taken) ∨
      ∃ e decoder, r.decoder.feed piece = (.err e, decoder) ∧ { r with inner := { answers }, decoder }.Behind all taken := by
  obtain ⟨fed, dropped, hlive, -, hall⟩ := h.source
  rw [if_neg heof, hanswers, delivered, if_neg hne, ← List.append_assoc] at hall
  rcases Decoder.feed_spec hlive.decoder piece (fun ht => absurd ht hfin) with ⟨d, hfeed, hdrives⟩ | ⟨e, d, hfeed, hdead, hsame, hgrows, -⟩
  · have hlive' : Session.Live (fed ++ piece) dropped { decoder := d, taken, failed := false } :=
      ⟨hdrives.live, hlive.tracks.feed hdrives.live.windowed hdrives.drained_eq (runs_output hdrives.runs.runs) false⟩
    refine .inl ⟨d, hfeed, ⟨fed ++ piece, dropped, hlive', hdrives.paused.paused.imp_right (Or.imp_right fun hcap => ?_), ?_⟩, hhonest⟩
    · rw [List.length_append]
      exact hcap.1.trans (Nat.le_add_left _ _)
    · rw [if_neg heof]
      exact hall
  · exact .inr ⟨e, d, hfeed,
      ⟨fed ++ piece, dropped, hall ▸ List.prefix_append _ _, hdead, hlive.tracks.feed hdead.windowed hsame hgrows true⟩, hhonest⟩

/-- The loop of `read`. -/
theorem DeflateReader.Stands.readLoop {all taken : List UInt8} (len fuel : Nat) {r : DeflateReader} (h : r.Stands all taken)
    (hfuel : r.rounds ≤ fuel) :
    ∃ answer r', readLoop fuel r len = .ok (answer, r') ∧
      Reads (DeflateReader.Stands all) (DeflateReader.Behind all taken) taken r len answer r' := by
  induction fuel generalizing r with
  | zero =>
    unfold rounds at hfuel
    split at hfuel <;> omega
  | succ fuel ih =>
    rw [DeflateReader.readLoop]
    by_cases hempty : r.decoder.unread.isEmpty = true
    · have hunread := List.isEmpty_iff.mp hempty
      simp only [hempty, Bool.not_true, Bool.false_eq_true, if_false]
      by_cases hfin : r.decoder.finished = true
      · rw [if_pos hfin]
        exact ⟨_, r, rfl, .done h hunread hfin List.suffix_rfl⟩
      rw [if_neg hfin]
      by_cases heof : r.eof = true
      · rw [if_pos heof]
        exact ⟨_, r, rfl, .eof h hunread hfin heof List.suffix_rfl⟩
      obtain ⟨fed, dropped, hlive, hrest, hall⟩ := h.source
      rw [if_neg heof] at hall ⊢
      rw [DeflateReader.rounds, if_neg heof] at hfuel
      -- the reader that has seen the end of the source
      have hend : ∀ inner : Source, inner.answers <:+ r.inner.answers → all = fed →
          ∃ answer r', DeflateReader.readLoop fuel { r with inner, eof := true } len = .ok (answer, r') ∧
            Reads (DeflateReader.Stands all) (DeflateReader.Behind all taken) taken r len answer r' := by
        intro inner hsuffix hfed
        have hstands : DeflateReader.Stands all taken { r with inner, eof := true } :=
          ⟨⟨fed, dropped, hlive, hrest, hfed.trans (List.append_nil _).symm⟩, h.honest.of_suffix hsuffix⟩
        obtain ⟨answer, r', hloop, hreads⟩ := ih hstands (by
          rw [DeflateReader.rounds, if_pos rfl]
          omega)
        exact ⟨answer, r', hloop, hreads.of_suffix hsuffix⟩
      unfold Source.read
      cases hanswers : r.inner.answers with
      | nil =>
        rw [hanswers, delivered, List.append_nil] at hall
        exact hend r.inner List.suffix_rfl hall
      | cons answer answers =>
        have hsuffix : answers <:+ r.inner.answers := hanswers ▸ List.suffix_cons _ _
        have hlen : answers.length < r.inner.answers.length := by
          rw [hanswers]
          exact Nat.lt_succ_self _
        cases answer with
        | error code =>
          rw [hanswers, delivered] at hall
          refine ⟨_, _, rfl, .device ⟨⟨fed, dropped, hlive, hrest, ?_⟩, h.honest.of_suffix hsuffix⟩ (hanswers ▸ List.suffix_rfl)⟩
          rw [if_neg heof]
          exact hall
        | ok piece =>
          simp only
          by_cases hpiece : piece.isEmpty = true
          · rw [hanswers, delivered, if_pos hpiece, List.append_nil] at hall
            rw [if_pos hpiece]
            exact hend { answers } hsuffix hall
          · rw [if_neg hpiece, if_neg (Nat.not_lt.mpr (h.honest piece (hanswers ▸ List.mem_cons_self)))]
            rcases h.takesIn hfin heof hanswers hpiece (h.honest.of_suffix hsuffix) with ⟨d, hfeed, hstands⟩ | ⟨e, d, hfeed, hbehind⟩
            · obtain ⟨answer, r', hloop, hreads⟩ := ih hstands (by
                rw [DeflateReader.rounds, if_neg heof]
                simp only
                omega)
              simp only [hfeed]
              exact ⟨answer, r', hloop, hreads.of_suffix hsuffix⟩
            · simp only [hfeed]
              exact ⟨_, _, rfl, .failed hbehind hsuffix⟩
    · obtain ⟨d, hadvance, hstands⟩ := h.handsOver len
      rw [Bool.not_eq_true] at hempty
      simp only [hempty, Bool.not_false, if_true]
      rw [hadvance, Exec.ok_bind]
      exact ⟨_, _, rfl, .some (take_min_ne_nil fun hnil => by simp [hnil] at hempty) hstands List.suffix_rfl⟩

/-- The decoder of a reader behind an error has not finished, and cannot be fed. -/
theorem DeflateReader.Behind.decoder {all taken : List UInt8} {r : DeflateReader} (h : r.Behind all taken) :
    r.decoder.finished = false ∧ ∀ piece, (r.decoder.feed piece).1 = .panic := by
  obtain ⟨fed, dropped, -, hdead⟩ := h.dead
  exact ⟨hdead.decoder.finished_eq, Decoder.feed_dead hdead.decoder⟩

/-- A reader behind an error that is given a piece panics. -/
theorem DeflateReader.Behind.panics {all taken : List UInt8} (len fuel : Nat) {r : DeflateReader} (h : r.Behind all taken)
    (hfeeds : r.Feeds) : DeflateReader.readLoop (fuel + 1) r len = .panic := by
  obtain ⟨hunread, hfin, heof, piece, answers, hpiece, hanswers⟩ := hfeeds
  have hne : ¬piece.isEmpty = true := fun hempty => hpiece (List.isEmpty_iff.mp hempty)
  have hpanic := h.decoder.2 piece
  rw [DeflateReader.readLoop]
  simp only [hunread, List.isEmpty_nil, Bool.not_true, Bool.false_eq_true, if_false, hfin, heof, Source.read, hanswers]
  rw [if_neg hne]
  split
  · rfl
  · cases hfeed : r.decoder.feed piece with
    | mk result d =>
      rw [hfeed] at hpanic
      simp only at hpanic
      simp only [hpanic]

/-- The loop of `read` behind an error of the decoder: it comes back, if the decoder is not fed. -/
theorem DeflateReader.Behind.readLoop {all taken : List UInt8} (len fuel : Nat) {r : DeflateReader} (h : r.Behind all taken)
    (hfeeds : ¬r.Feeds) :
    ∃ answer r', DeflateReader.readLoop (fuel + 2) r len = .ok (answer, r') ∧
      Reads (DeflateReader.Behind all) (fun _ => False) taken r len answer r' := by
  obtain ⟨hfin, -⟩ := h.decoder
  have hnot : ¬r.decoder.finished = true := by
    rw [hfin]
    exact Bool.false_ne_true
  rw [DeflateReader.readLoop]
  by_cases hempty : r.decoder.unread.isEmpty = true
  · have hunread := List.isEmpty_iff.mp hempty
    simp only [hempty, Bool.not_true, Bool.false_eq_true, if_false]
    rw [if_neg hnot]
    by_cases heof : r.eof = true
    · rw [if_pos heof]
      exact ⟨_, r, rfl, .eof h hunread hnot heof List.suffix_rfl⟩
    rw [if_neg heof]
    -- the reader that has seen the end of the source
    have hend : ∀ inner : Source, inner.answers <:+ r.inner.answers →
        ∃ answer r', DeflateReader.readLoop (fuel + 1) { r with inner, eof := true } len = .ok (answer, r') ∧
          Reads (DeflateReader.Behind all) (fun _ => False) taken r len answer r' := by
      intro inner hsuffix
      rw [DeflateReader.readLoop]
      simp only [hempty, Bool.not_true, Bool.false_eq_true, if_false]
      rw [if_neg hnot, if_pos trivial]
      exact ⟨_, _, rfl, .eof ⟨h.dead, h.honest.of_suffix hsuffix⟩ hunread hnot rfl hsuffix⟩
    unfold Source.read
    cases hanswers : r.inner.answers with
    | nil => exact hend r.inner List.suffix_rfl
    | cons answer answers =>
      have hsuffix : answers <:+ r.inner.answers := hanswers ▸ List.suffix_cons _ _
      cases answer with
      | error code => exact ⟨_, _, rfl, .device ⟨h.dead, h.honest.of_suffix hsuffix⟩ (hanswers ▸ List.suffix_rfl)⟩
      | ok piece =>
        simp only
        by_cases hpiece : piece.isEmpty = true
        · rw [if_pos hpiece]
          exact hend { answers } hsuffix
        · refine absurd ⟨hunread, hfin, Bool.eq_false_iff.mpr heof, piece, answers, fun hnil => ?_, hanswers⟩ hfeeds
          rw [hnil] at hpiece
          exact hpiece rfl
  · obtain ⟨d, hadvance, hbehind⟩ := h.handsOver len
    rw [Bool.not_eq_true] at hempty
    simp only [hempty, Bool.not_false, if_true]
    rw [hadvance, Exec.ok_bind]
    exact ⟨_, _, rfl, .some (take_min_ne_nil fun hnil => by simp [hnil] at hempty) hbehind List.suffix_rfl⟩

/-! ## What was handed over -/

section

variable {all : List UInt8} {c : ItemState × List Bool} {verdict : Verdict}

/-- What was handed over is a beginning of the output. -/
theorem DeflateReader.Stands.taken_begins {r : DeflateReader} {taken : List UInt8} (h : r.Stands all taken)
    (hr : itemMachine.Runs (startItem all) c) (hstop : itemMachine.Stops c verdict) : taken <+: c.1.2 := by
  obtain ⟨fed, dropped, hlive, -, hall⟩ := h.source
  have hgrows := output_of_prefix (hall ▸ List.prefix_append fed _) hlive.decoder.runs hr hstop
  have houtput : taken ++ r.decoder.unread = r.decoder.history dropped := hlive.tracks.output_eq
  have hhistory : r.decoder.history dropped <+: c.1.2 := hgrows
  rw [← houtput] at hhistory
  exact (List.prefix_append _ _).trans hhistory

/-- A reader whose decoder has finished, and that has handed over all it had. -/
theorem DeflateReader.Stands.done {r : DeflateReader} {taken : List UInt8} (h : r.Stands all taken)
    (hr : itemMachine.Runs (startItem all) c) (hstop : itemMachine.Stops c verdict) (hunread : r.decoder.unread = [])
    (hfin : r.decoder.finished = true) : verdict = .halted ∧ taken = c.1.2 := by
  obtain ⟨fed, dropped, hlive, -, hall⟩ := h.source
  obtain ⟨held, -, hr'⟩ := Decoder.halted_of_finished hlive hfin
  obtain ⟨rest, h1, h2, -⟩ := stops_of_prefix (hall ▸ List.prefix_append fed _) hr' stops_halted (by simp)
  obtain ⟨rfl, rfl⟩ := Machine.stop_unique hr hstop h1 h2
  refine ⟨rfl, ?_⟩
  simp only [Session.output, hunread, List.append_nil]

/-- A reader that has handed over all it had, and has seen the end of the source. -/
theorem DeflateReader.Stands.eof {r : DeflateReader} {taken : List UInt8} (h : r.Stands all taken)
    (hr : itemMachine.Runs (startItem all) c) (hstop : itemMachine.Stops c verdict) (hunread : r.decoder.unread = [])
    (hfin : ¬r.decoder.finished = true) (heof : r.eof = true) :
    (verdict = .waiting ∧ taken = c.1.2) ∨ maxInternalBuffer ≤ taken.length := by
  obtain ⟨fed, dropped, hlive, hrest, hall⟩ := h.source
  rw [if_pos heof, List.append_nil] at hall
  have houtput := hlive.tracks.output_eq
  simp only [Session.output, hunread, List.append_nil] at houtput
  rcases hrest with hfin' | hwait | hcap
  · exact absurd hfin' hfin
  · obtain ⟨rfl, rfl⟩ := Machine.stop_unique hr hstop (hall ▸ hlive.decoder.runs) hwait
    exact .inl ⟨rfl, houtput⟩
  · rw [hunread, List.append_nil] at hcap
    exact .inr hcap

/-- A reader behind an error of its decoder: the stream fails, and what was handed over and what is left are its output. -/
theorem DeflateReader.Behind.failed {r : DeflateReader} {taken : List UInt8} (h : r.Behind all taken)
    (hr : itemMachine.Runs (startItem all) c) (hstop : itemMachine.Stops c verdict) :
    verdict = .failed ∧ taken ++ r.decoder.unread = c.1.2 := by
  obtain ⟨fed, dropped, hfed, hdead⟩ := h.dead
  obtain ⟨c', hr', houtput, hstop'⟩ := hdead.decoder.failed
  obtain ⟨rest, h1, h2, -⟩ := stops_of_prefix hfed hr' hstop' (by simp)
  obtain ⟨rfl, rfl⟩ := Machine.stop_unique hr hstop h1 h2
  exact ⟨rfl, hdead.tracks.output_eq.trans houtput.symm⟩

/-- A reader in use, before an error of its decoder or behind it. -/
def DeflateReader.Keeps (all : List UInt8) (broken : Prop) (taken : List UInt8) (r : DeflateReader) : Prop :=
  (¬broken ∧ r.Stands all taken) ∨ (broken ∧ r.Behind all taken)

section

variable {broken : Prop} {r : DeflateReader} {taken : List UInt8}

theorem DeflateReader.Keeps.taken_begins (h : r.Keeps all broken taken) (hr : itemMachine.Runs (startItem all) c)
    (hstop : itemMachine.Stops c verdict) : taken <+: c.1.2 := by
  rcases h with ⟨-, h⟩ | ⟨-, h⟩
  · exact h.taken_begins hr hstop
  · rw [← (h.failed hr hstop).2]
    exact List.prefix_append _ _

theorem DeflateReader.Keeps.done (h : r.Keeps all broken taken) (hr : itemMachine.Runs (startItem all) c)
    (hstop : itemMachine.Stops c verdict) (hunread : r.decoder.unread = []) (hfin : r.decoder.finished = true) :
    verdict = .halted ∧ taken = c.1.2 := by
  rcases h with ⟨-, h⟩ | ⟨-, h⟩
  · exact h.done hr hstop hunread hfin
  · cases h.decoder.1.symm.trans hfin

theorem DeflateReader.Keeps.eof (h : r.Keeps all broken taken) (hr : itemMachine.Runs (startItem all) c)
    (hstop : itemMachine.Stops c verdict) (hunread : r.decoder.unread = []) (hfin : ¬r.decoder.finished = true) (heof : r.eof = true) :
    ((verdict = .waiting ∨ broken) ∧ taken = c.1.2) ∨ maxInternalBuffer ≤ taken.length := by
  rcases h with ⟨-, h⟩ | ⟨hbroken, h⟩
  · exact (h.eof hr hstop hunread hfin heof).imp_left fun hend => ⟨.inl hend.1, hend.2⟩
  · have houtput := (h.failed hr hstop).2
    rw [hunread, List.append_nil] at houtput
    exact .inl ⟨.inr hbroken, houtput⟩

/-- A call of `read`: it comes back, unless it feeds a decoder that has reported an error. -/
theorem DeflateReader.Keeps.read (h : r.Keeps all broken taken) (len : Nat) (hfeeds : ¬(broken ∧ r.Feeds)) :
    ∃ answer r', r.read len = .ok (answer, r') ∧
      Reads (DeflateReader.Keeps all broken) (DeflateReader.Behind all taken) taken r len answer r' := by
  rcases h with ⟨hbroken, h⟩ | ⟨hbroken, h⟩
  · obtain ⟨answer, r', hread, hreads⟩ := h.readLoop len _ r.rounds_le
    exact ⟨answer, r', hread, hreads.imp (fun _ _ hr => .inl ⟨hbroken, hr⟩) fun _ hr => hr⟩
  · obtain ⟨answer, r', hread, hreads⟩ := h.readLoop len r.inner.answers.length fun hf => hfeeds ⟨hbroken, hf⟩
    exact ⟨answer, r', hread, hreads.imp (fun _ _ hr => .inr ⟨hbroken, hr⟩) fun _ hr => hr.elim⟩

end

end

/-! ## Runs of calls -/

/-- What a report says of the stream, of the output it decodes to, and of what the caller got of it. A stream may be called incomplete
that is not only behind an error of the decoder, or if 64 KiB were handed over: the decoder may then hold input that it was not asked
for. -/
def Report.Means (answers : List (Except Nat (List UInt8))) (verdict : Verdict) (output : List UInt8) (u : Reading) : Report → Prop
  | .done => verdict = .halted ∧ u.taken = output
  | .failed (.other _) => verdict = .failed
  | .failed (.unexpectedEof _) => ((verdict = .waiting ∨ u.Broken) ∧ u.taken = output) ∨ maxInternalBuffer ≤ u.taken.length
  | .failed (.device code) => .error code ∈ answers

/-- A reader in use: what was handed over, where the reader stands, and what the reports mean. -/
structure Reading.Inv (answers : List (Except Nat (List UInt8))) (output : List UInt8) (verdict : Verdict) (u : Reading) : Prop where
  taken_begins : u.taken <+: output
  suffix : u.reader.inner.answers <:+ answers
  keeps : u.reader.Keeps (delivered answers) u.Broken u.taken
  means : ∀ report ∈ u.reports, report.Means answers verdict output u

/-- How many reports were not about the device. -/
def Reading.heard (u : Reading) : Nat := u.reports.countP fun report => !report.ofDevice

/-- How a `read` goes on: what was reported stays, and it hands over something, takes an answer of the source, or has something to say. -/
structure Reading.Goes (u u' : Reading) (len : Nat) : Prop where
  reports_grow : u.reports <+: u'.reports
  counts : 0 < len → u'.reader.inner.answers.length + u.taken.length + u.heard + 1 ≤
    u.reader.inner.answers.length + u'.taken.length + u'.heard

namespace Reading

variable {answers : List (Except Nat (List UInt8))} {c : ItemState × List Bool} {verdict : Verdict} {u : Reading}

/-- What a report means stays so while more is handed over and reported. -/
theorem means_mono {output : List UInt8} {u' : Reading} {report : Report} (h : report.Means answers verdict output u)
    (hgrows : u.taken <+: u'.taken) (hbegins : u'.taken <+: output) (hreports : u.reports <+: u'.reports) :
    report.Means answers verdict output u' := by
  have hall : u.taken = output → u'.taken = output := fun heq => hbegins.eq_of_length_le (heq ▸ hgrows.length_le)
  cases report with
  | done => exact ⟨h.1, hall h.2⟩
  | failed e =>
    cases e with
    | other e => exact h
    | device code => exact h
    | unexpectedEof message =>
      have hbroken : u.Broken → u'.Broken := fun ⟨e, he⟩ => ⟨e, hreports.subset he⟩
      exact h.imp (fun hend => ⟨hend.1.imp_right hbroken, hall hend.2⟩) fun hcap => hcap.trans hgrows.length_le

/-- One more report. -/
theorem heard_report (reader : DeflateReader) (report : Report) (hof : report.ofDevice = false) :
    heard { u with reader, reports := u.reports ++ [report] } = u.heard + 1 := by
  unfold heard
  rw [List.countP_append, List.countP_singleton, hof]
  rfl

/-- A report that is no error of the decoder does not break a reader. -/
theorem broken_report (reader : DeflateReader) (report : Report) (hno : ∀ e, report ≠ .failed (.other e)) :
    Broken { u with reader, reports := u.reports ++ [report] } ↔ u.Broken := by
  refine exists_congr fun e => ?_
  rw [List.mem_append, List.mem_singleton]
  exact ⟨fun h => h.resolve_right fun heq => hno e heq.symm, .inl⟩

/-- The state behind a report. -/
theorem Inv.report {output : List UInt8} (h : u.Inv answers output verdict) {reader : DeflateReader} {report : Report}
    (hsuffix : reader.inner.answers <:+ u.reader.inner.answers)
    (hkeeps : reader.Keeps (delivered answers) (Broken { u with reader, reports := u.reports ++ [report] }) u.taken)
    (hmeans : report.Means answers verdict output { u with reader, reports := u.reports ++ [report] }) :
    Inv answers output verdict { u with reader, reports := u.reports ++ [report] } := by
  refine ⟨h.taken_begins, hsuffix.trans h.suffix, hkeeps, fun report' hmem => ?_⟩
  rcases List.mem_append.mp hmem with hmem | hmem
  · exact means_mono (h.means report' hmem) List.prefix_rfl h.taken_begins (List.prefix_append _ _)
  · rwa [List.mem_singleton.mp hmem]

/-- One more `read`, that does not feed a decoder behind an error. -/
theorem Inv.read (hr : itemMachine.Runs (startItem (delivered answers)) c) (hstop : itemMachine.Stops c verdict)
    (h : u.Inv answers c.1.2 verdict) (len : Nat) (hfeeds : ¬(u.Broken ∧ u.reader.Feeds)) :
    ∃ u', u.read len = .ok u' ∧ u'.Inv answers c.1.2 verdict ∧ u.Goes u' len := by
  obtain ⟨answer, r', hread, hreads⟩ := h.keeps.read len hfeeds
  unfold Reading.read
  rw [hread, Exec.ok_bind]
  cases hreads with
  | @some r' bytes hlen hkeeps hsuffix =>
    have hgoes : (bytes.isEmpty && len != 0) = false := by
      rw [Bool.and_eq_false_iff]
      rcases Nat.eq_zero_or_pos len with rfl | hpos
      · exact .inr rfl
      · exact .inl (by simpa using hlen hpos)
    have hbegins := hkeeps.taken_begins hr hstop
    have hcount := hsuffix.length_le
    simp only [hgoes, Bool.false_eq_true, if_false]
    refine ⟨_, rfl, ⟨hbegins, hsuffix.trans h.suffix, hkeeps, fun report hmem => ?_⟩, List.prefix_rfl, fun hpos => ?_⟩
    · exact means_mono (h.means report hmem) (List.prefix_append _ _) hbegins List.prefix_rfl
    · have hpos' : 0 < bytes.length := List.length_pos_iff.mpr (hlen hpos)
      simp only [heard, List.length_append]
      omega
  | done hkeeps hunread hfin hsuffix =>
    have hcount := hsuffix.length_le
    by_cases hlen : (len != 0) = true
    · simp only [List.isEmpty_nil, hlen, Bool.and_self, if_true]
      have hbroken := broken_report (u := u) r' .done fun e he => by cases he
      have hmeans := hkeeps.done hr hstop hunread hfin
      rw [← hbroken] at hkeeps
      refine ⟨_, rfl, h.report hsuffix hkeeps hmeans, List.prefix_append _ _, fun _ => ?_⟩
      rw [heard_report r' .done rfl]
      simp only
      omega
    · have hzero : len = 0 := by simpa using hlen
      subst hzero
      simp only [List.isEmpty_nil, bne_self_eq_false, Bool.and_false, Bool.false_eq_true, if_false, List.append_nil]
      refine ⟨_, rfl, ⟨h.taken_begins, hsuffix.trans h.suffix, hkeeps, h.means⟩, List.prefix_rfl, fun hpos => ?_⟩
      exact absurd hpos (Nat.lt_irrefl 0)
  | eof hkeeps hunread hfin heof hsuffix =>
    have hcount := hsuffix.length_le
    have hbroken := broken_report (u := u) r' (.failed (.unexpectedEof truncatedMessage)) fun e he => by cases he
    have hmeans := hkeeps.eof hr hstop hunread hfin heof
    rw [← hbroken] at hkeeps hmeans
    refine ⟨_, rfl, h.report hsuffix hkeeps hmeans, List.prefix_append _ _, fun _ => ?_⟩
    rw [heard_report r' _ rfl]
    simp only
    omega
  | @device r' code hkeeps hsuffix =>
    have hcount := hsuffix.length_le
    have hbroken := broken_report (u := u) r' (.failed (.device code)) fun e he => by cases he
    rw [← hbroken] at hkeeps
    refine ⟨_, rfl, h.report ((List.suffix_cons _ _).trans hsuffix) hkeeps ?_, List.prefix_append _ _, fun _ => ?_⟩
    · exact h.suffix.subset (hsuffix.subset List.mem_cons_self)
    · rw [List.length_cons] at hcount
      simp only [heard, List.countP_append, List.countP_singleton, Report.ofDevice]
      omega
  | @failed r' e hbehind hsuffix =>
    have hcount := hsuffix.length_le
    refine ⟨_, rfl, h.report hsuffix (.inr ⟨⟨e, List.mem_append_right _ List.mem_cons_self⟩, hbehind⟩) ?_, List.prefix_append _ _,
      fun _ => ?_⟩
    · exact (hbehind.failed hr hstop).1
    · rw [heard_report r' _ rfl]
      simp only
      omega

/-- A `read` panics exactly when it feeds a decoder behind an error. -/
theorem Inv.panics_iff (hr : itemMachine.Runs (startItem (delivered answers)) c) (hstop : itemMachine.Stops c verdict)
    (h : u.Inv answers c.1.2 verdict) (len : Nat) : u.read len = .panic ↔ u.Broken ∧ u.reader.Feeds := by
  refine ⟨fun hpanic => ?_, fun ⟨hbroken, hfeeds⟩ => ?_⟩
  · by_contra hnot
    obtain ⟨u', hread, -⟩ := h.read hr hstop len hnot
    cases hread.symm.trans hpanic
  · rcases h.keeps with ⟨hnot, -⟩ | ⟨-, hbehind⟩
    · exact absurd hbroken hnot
    · rw [Reading.read, DeflateReader.read, hbehind.panics len _ hfeeds]
      rfl

/-- Any number of reads: all come back, or one of them feeds a decoder behind an error. -/
theorem Inv.run (hr : itemMachine.Runs (startItem (delivered answers)) c) (hstop : itemMachine.Stops c verdict) (lens : List Nat)
    (h : u.Inv answers c.1.2 verdict) :
    (∃ u', Reading.run lens u = .ok u' ∧ u'.Inv answers c.1.2 verdict ∧ ((∀ len ∈ lens, 0 < len) →
      u'.reader.inner.answers.length + u.taken.length + u.heard + lens.length ≤
        u.reader.inner.answers.length + u'.taken.length + u'.heard)) ∨
    (Reading.run lens u = .panic ∧
      ∃ before u', before <+: lens ∧ Reading.run before u = .ok u' ∧ u'.Inv answers c.1.2 verdict ∧ u'.Broken ∧ u'.reader.Feeds) := by
  induction lens generalizing u with
  | nil => exact .inl ⟨u, rfl, h, fun _ => le_rfl⟩
  | cons len lens ih =>
    by_cases hfeeds : u.Broken ∧ u.reader.Feeds
    · refine .inr ⟨?_, [], u, List.nil_prefix, rfl, h, hfeeds⟩
      rw [Reading.run, (h.panics_iff hr hstop len).mpr hfeeds]
      rfl
    · obtain ⟨u₁, hread, h₁, hgoes⟩ := h.read hr hstop len hfeeds
      have hrun : ∀ lens, Reading.run (len :: lens) u = Reading.run lens u₁ := fun lens => by
        rw [Reading.run, hread, Exec.ok_bind]
      rw [hrun]
      rcases ih h₁ with ⟨u', hrun', h', hcount⟩ | ⟨hpanic, before, u', hpre, hrun', h', hfeeds'⟩
      · refine .inl ⟨u', hrun', h', fun hpos => ?_⟩
        have h1 := hgoes.counts (hpos len List.mem_cons_self)
        have h2 := hcount fun len' hlen' => hpos len' (List.mem_cons_of_mem _ hlen')
        rw [List.length_cons]
        omega
      · exact .inr ⟨hpanic, len :: before, u', List.cons_prefix_cons.mpr ⟨rfl, hpre⟩, (hrun before).trans hrun', h', hfeeds'⟩

end Reading

/-- Reads from a source, where the machine stops on what it delivers. -/
theorem reads_spec {answers : List (Except Nat (List UInt8))} (hhonest : Source.Honest { answers }) (lens : List Nat) :
    ∃ verdict c, itemMachine.Runs (startItem (delivered answers)) c ∧ itemMachine.Stops c verdict ∧
      Session.outcome [.feed (delivered answers)] = .ok (verdict, c.1.2) ∧
      ((∃ u, Reading.run lens (Reading.start { answers }) = .ok u ∧ u.Inv answers c.1.2 verdict ∧
          ((∀ len ∈ lens, 0 < len) → c.1.2.length + answers.length < lens.length → ∃ report ∈ u.reports, report.ofDevice = false)) ∨
        (Reading.run lens (Reading.start { answers }) = .panic ∧ ∃ before u, before <+: lens ∧
          Reading.run before (Reading.start { answers }) = .ok u ∧ u.Inv answers c.1.2 verdict ∧ u.Broken ∧ u.reader.Feeds)) := by
  have hpermitted : Session.Permitted Session.start [.feed (delivered answers)] := by
    refine Session.along_cons.mpr ⟨⟨rfl, fun hfin => ?_⟩, fun s' _ => trivial⟩
    cases hfin
  obtain ⟨verdict, output, c, houtcome, hr, hstop, rfl⟩ := Session.outcome_spec hpermitted
  have hfed : fedBytes [.feed (delivered answers)] = delivered answers := by rw [fedBytes_feed, fedBytes_nil, List.append_nil]
  rw [hfed] at hr
  have hstart : (Reading.start { answers }).Inv answers c.1.2 verdict := by
    refine ⟨List.nil_prefix, List.suffix_rfl, .inl ⟨fun hbroken => ?_, DeflateReader.new_stands hhonest⟩, fun report hmem => ?_⟩
    · obtain ⟨e, he⟩ := hbroken
      cases he
    · cases hmem
  refine ⟨verdict, c, hr, hstop, houtcome, (hstart.run hr hstop lens).imp_left fun ⟨u, hrun, hinv, hcount⟩ => ?_⟩
  refine ⟨u, hrun, hinv, fun hpos hmany => ?_⟩
  have hcount' := hcount hpos
  have hle := hinv.taken_begins.length_le
  have hheard : 0 < u.heard := by
    simp only [Reading.start, DeflateReader.new, Reading.heard, List.length_nil, List.countP_nil] at hcount' ⊢
    omega
  obtain ⟨report, hmem, hof⟩ := List.countP_pos_iff.mp hheard
  exact ⟨report, hmem, by simpa using hof⟩

end Noflate.Bridge
