import Noflate.Error
import Noflate.Bridge
import Noflate.Lemmas.Sending

/-!
# The writer over a sink that may fail

A writer stands for an emission: what the sink has accepted is what was consumed of the output of the encoder, and each delivery has its
place in that output (`DeflateWriter.Stands`). A call that fails leaves the encoder as it is, so that the next one hands over the same
bytes again (`DeflateWriter.Stands.drain`); a run of calls keeps all this, whatever the calls report (`Writing.Stands.run`).
-/

namespace Noflate.Bridge

/-! ## Deliveries -/

/-- Every delivery is what comes in some bytes behind the deliveries accepted before it. -/
def Placed (deliveries : List Delivery) (bytes : List UInt8) : Prop :=
  ∀ before d, before ++ [d] <+: deliveries → accepted before ++ d.bytes <+: bytes

section

variable {deliveries : List Delivery} {bytes bytes' : List UInt8}

/-- One more delivery without an error. -/
@[simp] theorem accepted_append_whole (deliveries : List Delivery) (bytes : List UInt8) :
    accepted (deliveries ++ [{ bytes, whole := true }]) = accepted deliveries ++ bytes := by
  simp [accepted]

/-- One more delivery that failed. -/
@[simp] theorem accepted_append_failed (deliveries : List Delivery) (bytes : List UInt8) :
    accepted (deliveries ++ [{ bytes, whole := false }]) = accepted deliveries := by
  simp [accepted]

/-- Where no delivery is torn off, the accepted ones are all that was taken. -/
theorem accepted_of_not_torn (h : ∀ d ∈ deliveries, ¬d.Torn) : accepted deliveries = deliveries.flatMap Delivery.bytes := by
  induction deliveries with
  | nil => rfl
  | cons d deliveries ih =>
    have hrest := ih fun d' hd' => h d' (List.mem_cons_of_mem _ hd')
    unfold accepted at hrest ⊢
    cases hwhole : d.whole with
    | true => rw [List.filter_cons_of_pos hwhole, List.flatMap_cons, hrest, List.flatMap_cons]
    | false =>
      have hempty : d.bytes = [] := by
        by_contra hne
        exact h d List.mem_cons_self ⟨hwhole, hne⟩
      have hnot : ¬d.whole = true := by
        rw [hwhole]
        exact Bool.false_ne_true
      rw [List.filter_cons_of_neg hnot, hrest, List.flatMap_cons, hempty, List.nil_append]

/-- Deliveries stay in their places when bytes come behind. -/
theorem Placed.mono (h : Placed deliveries bytes) (hgrows : bytes <+: bytes') : Placed deliveries bytes' :=
  fun before d hpre => (h before d hpre).trans hgrows

/-- One more delivery in its place. -/
theorem Placed.append (h : Placed deliveries bytes) {d : Delivery} (hd : accepted deliveries ++ d.bytes <+: bytes) :
    Placed (deliveries ++ [d]) bytes := by
  intro before d' hpre
  rcases List.prefix_concat_iff.mp hpre with heq | hpre
  · obtain ⟨rfl, hlast⟩ := List.append_inj' heq rfl
    obtain rfl := List.singleton_inj.mp hlast
    exact hd
  · exact h before d' hpre

/-- A sink on which no call was made behind a torn delivery holds a beginning of the bytes. -/
theorem Placed.begins (h : Placed deliveries bytes) (hlast : ∀ d ∈ deliveries.dropLast, ¬d.Torn) :
    deliveries.flatMap Delivery.bytes <+: bytes := by
  rcases List.eq_nil_or_concat' deliveries with rfl | ⟨before, d, rfl⟩
  · exact List.nil_prefix
  · rw [List.dropLast_concat] at hlast
    have hplaced := h before d List.prefix_rfl
    rwa [accepted_of_not_torn hlast, ← List.flatMap_singleton Delivery.bytes d, ← List.flatMap_append] at hplaced

end

/-! ## Calls on a writer -/

/-- The encoder of a writer in use: what the sink has accepted is what was consumed of its output. -/
def DeflateWriter.session (w : DeflateWriter) : EncoderSession :=
  { encoder := w.encoder, taken := accepted w.inner.received, failed := false }

/-- A writer stands for an emission, and each delivery has its place in what the encoder has put out. -/
structure DeflateWriter.Stands (w : DeflateWriter) (e : Emission) : Prop where
  refines : Refines w.session e
  placed : Placed w.inner.received w.session.output

/-- An error that a sink was to report. -/
def Failure.FromSink (answers : List (Option (Nat × Nat))) (e : Failure) : Prop := ∃ n code, e = .device code ∧ some (n, code) ∈ answers

/-- What a call of the writer does with its sink: it hands over whole deliveries, or it reports an error of the sink. -/
inductive Handles (inner : Sink) : Answer Unit → Sink → Prop where
  | ok {inner' : Sink} (hsubset : inner'.answers ⊆ inner.answers) (hnew : ∀ d ∈ inner'.received, d ∈ inner.received ∨ d.whole = true) :
      Handles inner (.ok ()) inner'
  | failed {inner' : Sink} {e : Failure} (hsubset : inner'.answers ⊆ inner.answers) (he : e.FromSink inner.answers) :
      Handles inner (.error e) inner'

/-- An error is one the sink was to report. -/
theorem Handles.error {inner inner' : Sink} {answer : Answer Unit} (h : Handles inner answer inner') {failure : Failure}
    (hanswer : answer = .error failure) : failure.FromSink inner.answers := by
  cases h with
  | ok _ _ => cases hanswer
  | failed _ he => exact Except.error.inj hanswer ▸ he

/-- Draining the encoder. -/
theorem DeflateWriter.Stands.drain {w : DeflateWriter} {e : Emission} (h : w.Stands e) :
    ∃ answer w', w.drain = .ok (answer, w') ∧ w'.Stands e ∧ Handles w.inner answer w'.inner ∧
      (answer = .ok () → w'.encoder.unread = []) := by
  unfold DeflateWriter.drain
  by_cases hempty : w.encoder.unread.isEmpty = true
  · rw [if_pos hempty]
    exact ⟨_, w, rfl, h, .ok (List.Subset.refl _) fun d hd => .inl hd, fun _ => List.isEmpty_iff.mp hempty⟩
  · rw [if_neg hempty]
    obtain ⟨enc', hadvance, hunread, hrefines⟩ := h.refines.consumed
    have hadvance' : w.encoder.advance w.encoder.unread.length = .ok enc' := hadvance
    -- the sink takes all: nothing is left, and what was put out is what it was
    have htakes : ∀ answers, DeflateWriter.Stands
        { inner := { received := w.inner.received ++ [{ bytes := w.encoder.unread, whole := true }], answers }, encoder := enc' } e := by
      intro answers
      have hsame : accepted w.inner.received ++ w.encoder.unread ++ enc'.unread = w.session.output := by
        rw [hunread, List.append_nil]
        rfl
      refine ⟨?_, ?_⟩
      · unfold DeflateWriter.session
        rw [accepted_append_whole]
        exact hrefines
      · unfold DeflateWriter.session EncoderSession.output
        rw [accepted_append_whole, hsame]
        exact h.placed.append List.prefix_rfl
    have hwhole : ∀ d ∈ w.inner.received ++ [{ bytes := w.encoder.unread, whole := true }],
        d ∈ w.inner.received ∨ d.whole = true := by
      intro d hd
      rcases List.mem_append.mp hd with hd | hd
      · exact .inl hd
      · rw [List.mem_singleton.mp hd]
        exact .inr rfl
    unfold Sink.writeAll
    cases hanswers : w.inner.answers with
    | nil =>
      simp only
      rw [hadvance', Exec.ok_bind]
      exact ⟨_, _, rfl, htakes _, .ok (hanswers ▸ List.Subset.refl _) hwhole, fun _ => hunread⟩
    | cons answer answers =>
      cases answer with
      | none =>
        simp only
        rw [hadvance', Exec.ok_bind]
        exact ⟨_, _, rfl, htakes _, .ok (hanswers ▸ List.subset_cons_self _ _) hwhole, fun _ => hunread⟩
      | some failure =>
        have hfails : Failure.FromSink w.inner.answers (.device failure.2) := ⟨failure.1, failure.2, rfl, hanswers ▸ List.mem_cons_self⟩
        refine ⟨_, _, rfl, ⟨?_, ?_⟩, .failed (hanswers ▸ List.subset_cons_self _ _) hfails, fun hok => by cases hok⟩
        · unfold DeflateWriter.session
          rw [accepted_append_failed]
          exact h.refines
        · unfold DeflateWriter.session
          rw [accepted_append_failed]
          exact h.placed.append ((List.prefix_append_right_inj _).mpr (List.take_prefix _ _))

/-- The encoder is called, and puts out more. -/
theorem DeflateWriter.Stands.with_encoder {w : DeflateWriter} {e : Emission} (h : w.Stands e) (he : e.Fine) (c : Command) {enc' : Encoder}
    (hrefines : Refines { w.session with encoder := enc' } (e.call c)) : DeflateWriter.Stands { w with encoder := enc' } (e.call c) :=
  ⟨hrefines, h.placed.mono (h.refines.output_grows hrefines (Emission.run_bits_extends he.finishing [c]))⟩

/-- A writer in use: it stands for an emission that is not finished, of the bytes it was given, and all errors were those of the sink. -/
structure Writing.Stands (answers : List (Option (Nat × Nat))) (w : Writing) (e : Emission) : Prop where
  stands : w.writer.Stands e
  fine : e.Fine
  answers_subset : w.writer.inner.answers ⊆ answers
  errors : ∀ failure ∈ w.errors, failure.FromSink answers
  whole : w.errors = [] → ∀ d ∈ w.writer.inner.received, d.whole = true

/-- A sink that reports less reports nothing else. -/
theorem Failure.FromSink.mono {answers answers' : List (Option (Nat × Nat))} {e : Failure} (h : e.FromSink answers)
    (hsubset : answers ⊆ answers') : e.FromSink answers' := by
  obtain ⟨n, code, rfl, hmem⟩ := h
  exact ⟨n, code, rfl, hsubset hmem⟩

namespace Writing

variable {answers : List (Option (Nat × Nat))} {w : Writing} {e : Emission}

/-- A fresh writer. -/
theorem start_stands (answers : List (Option (Nat × Nat))) :
    (start { received := [], answers }).Stands answers (Emission.start EncodeOptions.new) := by
  refine ⟨⟨Refines.start EncodeOptions.new, fun before d hpre => ?_⟩, Emission.start_fine EncodeOptions.new, List.Subset.refl _, ?_, ?_⟩
  · exact absurd (List.prefix_nil.mp hpre) (List.append_ne_nil_of_right_ne_nil _ (List.cons_ne_nil d []))
  · intro failure hfailure
    cases hfailure
  · intro _ d hd
    cases hd

/-- A call has come back: an error of the sink is noted. -/
theorem Stands.becomes (h : w.Stands answers e) {e' : Emission} (he' : e'.Fine) {answer : Answer Unit} {writer : DeflateWriter}
    (hwriter : writer.Stands e') (hhandles : Handles w.writer.inner answer writer.inner) :
    ∃ w', w.becomes (.ok (answer, writer)) = .ok w' ∧ w'.Stands answers e' ∧ w'.writer = writer := by
  unfold Writing.becomes
  rw [Exec.ok_bind]
  cases hhandles with
  | ok hsubset hnew =>
    refine ⟨_, rfl, ⟨hwriter, he', List.Subset.trans hsubset h.answers_subset, h.errors, fun hnone d hd => ?_⟩, rfl⟩
    exact (hnew d hd).elim (h.whole hnone d) id
  | failed hsubset hfails =>
    refine ⟨_, rfl, ⟨hwriter, he', List.Subset.trans hsubset h.answers_subset, fun failure hmem => ?_, fun hnone => ?_⟩, rfl⟩
    · rcases List.mem_append.mp hmem with hmem | hmem
      · exact h.errors failure hmem
      · rw [List.mem_singleton.mp hmem]
        exact hfails.mono h.answers_subset
    · exact absurd hnone (List.append_ne_nil_of_right_ne_nil _ (List.cons_ne_nil _ _))

/-- A call of `write`: its bytes are fed, whatever it reports. -/
theorem Stands.write (h : w.Stands answers e) (buf : List UInt8) :
    ∃ w', w.call (.write buf) = .ok w' ∧ w'.Stands answers (e.call (.feed buf)) := by
  obtain ⟨enc', hfeed, hrefines⟩ := h.stands.refines.feed_ok h.fine buf
  have hfeed' : w.writer.encoder.feed buf = .ok enc' := hfeed
  obtain ⟨answer, writer, hdrain, hwriter, hhandles, -⟩ := (h.stands.with_encoder h.fine (.feed buf) hrefines).drain
  obtain ⟨w', hbecomes, hw', -⟩ := h.becomes (h.fine.call (by simp)) hwriter hhandles
  refine ⟨w', ?_, hw'⟩
  rw [Writing.call, DeflateWriter.write, hfeed', DeflateWriter.withEncoder, hdrain, hbecomes]

/-- A call of `flush`: the writer is what it was. -/
theorem Stands.flush (h : w.Stands answers e) :
    ∃ w', w.call .flush = .ok w' ∧ w'.Stands answers e ∧ w'.writer.inner.received = w.writer.inner.received ∧
      w'.writer.encoder = w.writer.encoder := by
  have hsame : ∀ inner : Sink, inner.received = w.writer.inner.received → DeflateWriter.Stands { w.writer with inner } e := by
    intro inner hinner
    have hsession : DeflateWriter.session { w.writer with inner } = w.writer.session := by
      unfold DeflateWriter.session
      rw [hinner]
    exact ⟨hsession ▸ h.stands.refines, hsession ▸ hinner ▸ h.stands.placed⟩
  rw [Writing.call, DeflateWriter.flush, Sink.flush]
  cases hanswers : w.writer.inner.answers with
  | nil =>
    obtain ⟨w', hbecomes, hw', hsame'⟩ := h.becomes h.fine h.stands (.ok (List.Subset.refl _) fun d hd => .inl hd)
    exact ⟨w', hbecomes, hw', by rw [hsame'], by rw [hsame']⟩
  | cons answer rest =>
    have hsubset : rest ⊆ w.writer.inner.answers := hanswers ▸ List.subset_cons_self _ _
    cases answer with
    | none =>
      obtain ⟨w', hbecomes, hw', hsame'⟩ := h.becomes h.fine (hsame { w.writer.inner with answers := rest } rfl)
        (.ok hsubset fun d hd => .inl hd)
      exact ⟨w', hbecomes, hw', by rw [hsame'], by rw [hsame']⟩
    | some failure =>
      have hfails : Failure.FromSink w.writer.inner.answers (.device failure.2) :=
        ⟨failure.1, failure.2, rfl, hanswers ▸ List.mem_cons_self⟩
      obtain ⟨w', hbecomes, hw', hsame'⟩ := h.becomes h.fine (hsame { w.writer.inner with answers := rest } rfl)
        (.failed hsubset hfails)
      exact ⟨w', hbecomes, hw', by rw [hsame'], by rw [hsame']⟩

/-- A call: its bytes are given, whatever it reports. -/
theorem Stands.call (h : w.Stands answers e) (c : WriteCall) :
    ∃ w' e', w.call c = .ok w' ∧ w'.Stands answers e' ∧ e'.payload = e.payload ++ c.bytes := by
  cases c with
  | write buf =>
    obtain ⟨w', hcall, hw'⟩ := h.write buf
    refine ⟨w', _, hcall, hw', ?_⟩
    rw [(h.fine.sound.call (.feed buf)).2, Emission.accepts, h.fine.finishing]
    rfl
  | flush =>
    obtain ⟨w', hcall, hw', -⟩ := h.flush
    exact ⟨w', e, hcall, hw', (List.append_nil _).symm⟩

/-- Calls, one after the other. -/
theorem Stands.run (h : w.Stands answers e) (calls : List WriteCall) :
    ∃ w' e', Writing.run calls w = .ok w' ∧ w'.Stands answers e' ∧ e'.payload = e.payload ++ calls.flatMap WriteCall.bytes := by
  induction calls generalizing w e with
  | nil => exact ⟨w, e, rfl, h, (List.append_nil _).symm⟩
  | cons c calls ih =>
    obtain ⟨w₁, e₁, hcall, h₁, hpayload₁⟩ := h.call c
    obtain ⟨w', e', hrun, h', hpayload'⟩ := ih h₁
    refine ⟨w', e', by rw [Writing.run, hcall, Exec.ok_bind, hrun], h', ?_⟩
    rw [hpayload', hpayload₁, List.append_assoc, List.flatMap_cons]

/-- Finishing: the rest of a stream is handed over, or the sink has failed. -/
theorem Stands.finish (h : w.Stands answers e) :
    ∃ answer writer, w.writer.finish = .ok (answer, writer) ∧ writer.Stands (e.call .finish) ∧
      (answer = .ok () → Closes (accepted writer.inner.received) e.payload ∧
        ∀ d ∈ writer.inner.received, d ∈ w.writer.inner.received ∨ d.whole = true) ∧
      ∀ failure, answer = .error failure → failure.FromSink w.writer.inner.answers := by
  obtain ⟨enc', hfinish, hrefines, hfin⟩ := h.stands.refines.finish_ok h.fine
  have hfinish' : w.writer.encoder.finish = .ok enc' := hfinish
  obtain ⟨hsound, hpayload⟩ := h.fine.sound.call .finish
  rw [Emission.accepts, List.append_nil] at hpayload
  obtain ⟨answer, writer, hdrain, hwriter, hhandles, hempty⟩ := (h.stands.with_encoder h.fine .finish hrefines).drain
  refine ⟨answer, writer, by rw [DeflateWriter.finish, hfinish', DeflateWriter.withEncoder, hdrain], hwriter, fun hok => ⟨?_, ?_⟩,
    fun failure hanswer => hhandles.error hanswer⟩
  · have hclosed := hwriter.refines.closes hsound hfin
    have hall : writer.session.output = accepted writer.inner.received := by
      unfold DeflateWriter.session EncoderSession.output
      rw [hempty hok, List.append_nil]
    rwa [hall, hpayload] at hclosed
  · cases hhandles with
    | ok _ hnew => exact hnew
    | failed _ _ => cases hok

end Writing

/-! ## Writers that keep what they are given -/

/-- An encoder that has emitted no block has put out nothing. -/
theorem output_of_no_blocks {s : EncoderSession} {e : Emission} (h : Refines s e) (hblocks : e.blocks = []) (hf : e.finishing = false) :
    s.output = [] := by
  have hbits : s.bits = [] := by
    rw [h.bits_eq, Emission.bits_open hf, hblocks]
    rfl
  have hlength := congrArg List.length (List.append_eq_nil_iff.mp hbits).1
  rw [BitString.length_ofBytes, List.length_nil] at hlength
  exact List.length_eq_zero_iff.mp (by omega)

/-- Input that is shorter than a block is kept. -/
theorem feed_short {e : Emission} (hf : e.finishing = false) {limit : Nat} (hlimit : e.options.maxBlockInputBytes = some limit)
    {data : List UInt8} (hshort : (e.pending ++ data).length < limit) : e.call (.feed data) = { e with pending := e.pending ++ data } := by
  have hnot : ¬e.finishing = true := by
    rw [hf]
    exact Bool.false_ne_true
  rw [Emission.call, if_neg hnot, Emission.cutAll]
  simp only [hlimit]
  exact Emission.cut_rest fun hfull => Nat.not_lt.mpr hfull.2 hshort

/-- A writer in use that keeps all it was given: it has handed over nothing. -/
structure Writing.Quiet (data : List UInt8) (w : Writing) (e : Emission) : Prop where
  options_eq : e.options = EncodeOptions.new
  blocks_eq : e.blocks = []
  pending_eq : e.pending = data
  received_eq : w.writer.inner.received = []

namespace Writing

variable {answers : List (Option (Nat × Nat))} {data : List UInt8} {w : Writing} {e : Emission}

/-- A call on a writer that keeps what it is given. -/
theorem Quiet.call (hq : w.Quiet data e) (h : w.Stands answers e) (c : WriteCall)
    (hshort : (data ++ c.bytes).length < defaultMaxBlockInput) :
    ∃ w' e', w.call c = .ok w' ∧ w'.Stands answers e' ∧ w'.Quiet (data ++ c.bytes) e' := by
  cases c with
  | write buf =>
    obtain ⟨enc', hfeed, hrefines⟩ := h.stands.refines.feed_ok h.fine buf
    have hfeed' : w.writer.encoder.feed buf = .ok enc' := hfeed
    have hlimit : e.options.maxBlockInputBytes = some defaultMaxBlockInput := by rw [hq.options_eq, EncodeOptions.new]
    have hsame := feed_short h.fine.finishing hlimit (hq.pending_eq ▸ hshort : (e.pending ++ buf).length < defaultMaxBlockInput)
    have hfine : (e.call (.feed buf)).Fine := h.fine.call (by simp)
    have hblocks : (e.call (.feed buf)).blocks = [] := by rw [hsame, hq.blocks_eq]
    have houtput := output_of_no_blocks hrefines hblocks hfine.finishing
    have hunread : enc'.unread.isEmpty = true := List.isEmpty_iff.mpr (List.append_eq_nil_iff.mp houtput).2
    have hwriter := h.stands.with_encoder h.fine (.feed buf) hrefines
    obtain ⟨w', hbecomes, hw', hsame'⟩ := h.becomes hfine hwriter (.ok (List.Subset.refl _) fun d hd => .inl hd)
    refine ⟨w', _, ?_, hw', ?_⟩
    · rw [Writing.call, DeflateWriter.write, hfeed', DeflateWriter.withEncoder, DeflateWriter.drain]
      simp only [hunread, if_true, hbecomes]
    · refine ⟨?_, hblocks, ?_, ?_⟩
      · rw [hsame, hq.options_eq]
      · rw [hsame, hq.pending_eq]
        rfl
      · rw [hsame', hq.received_eq]
  | flush =>
    obtain ⟨w', hcall, hw', hreceived, -⟩ := h.flush
    exact ⟨w', e, hcall, hw', hq.options_eq, hq.blocks_eq, hq.pending_eq.trans (List.append_nil _).symm,
      hreceived.trans hq.received_eq⟩

/-- Calls on a writer that keeps what it is given. -/
theorem Quiet.run (hq : w.Quiet data e) (h : w.Stands answers e) (calls : List WriteCall)
    (hshort : (data ++ calls.flatMap WriteCall.bytes).length < defaultMaxBlockInput) :
    ∃ w' e', Writing.run calls w = .ok w' ∧ w'.Stands answers e' ∧ w'.Quiet (data ++ calls.flatMap WriteCall.bytes) e' := by
  induction calls generalizing data w e with
  | nil => exact ⟨w, e, rfl, h, by rwa [List.flatMap_nil, List.append_nil]⟩
  | cons c calls ih =>
    rw [List.flatMap_cons, ← List.append_assoc] at hshort ⊢
    obtain ⟨w₁, e₁, hcall, h₁, hq₁⟩ := hq.call h c (by
      rw [List.length_append] at hshort
      omega)
    obtain ⟨w', e', hrun, h', hq'⟩ := ih hq₁ h₁ hshort
    exact ⟨w', e', by rw [Writing.run, hcall, Exec.ok_bind, hrun], h', hq'⟩

end Writing

end Noflate.Bridge
