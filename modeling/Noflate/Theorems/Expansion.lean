import Noflate.Error
import Noflate.Lemmas.Sessions
import Noflate.Lemmas.Takings
import Noflate.Theorems.OneShot

/-!
# How far a stream expands

Two bits stand for the 258 bytes of the longest match at most, so the output of a decoder is never longer than 1032 times its input: not in
any state that calls lead to, an error or not (`session_expansion`), and not in what the one-shot functions return
(`decompress_expansion`).
-/

namespace Noflate

open BitString Resumable

/-- A run of the machine: its output is no longer than 129 bytes for each bit. -/
theorem runs_expansion {bytes : List UInt8} {c : ItemState × List Bool} (h : itemMachine.Runs (startItem bytes) c) :
    c.1.2.length ≤ 1032 * bytes.length := by
  have hinv : (∃ r, Represents c.1.1 r) ∧ c.1.2.length + 129 * c.2.length ≤ 129 * (ofBytes bytes).length := by
    refine Machine.Runs.invariant
      (P := fun c => (∃ r, Represents c.1.1 r) ∧ c.1.2.length + 129 * c.2.length ≤ 129 * (ofBytes bytes).length) ?_ h ?_
    · rintro ⟨⟨s, output⟩, bits⟩ ⟨s', bits'⟩ hmove ⟨⟨r, hr⟩, hle⟩
      obtain ⟨r', -, hr', -⟩ := moves_meaning [] hr hmove
      exact ⟨⟨r', hr'⟩, (itemStep_expansion hr hmove).trans hle⟩
    · refine ⟨⟨.block, .block⟩, ?_⟩
      simp [startItem]
  have hle := hinv.2
  rw [length_ofBytes] at hle
  omega

/-! ## Sessions -/

namespace Session

/-- A session whose output is that of the machine on some of the bytes fed, or fewer. -/
def Fed (fed : List UInt8) (s : Session) : Prop :=
  ∃ accepted dropped, accepted.length ≤ fed.length ∧ (s.Live accepted dropped ∨ s.Dead accepted dropped)

/-- A call adds what it feeds. -/
theorem Fed.call {fed : List UInt8} {s s' : Session} (h : s.Fed fed) {c : Call} (hcall : s.call c = .ok s') :
    s'.Fed (fed ++ fedBytes [c]) := by
  obtain ⟨accepted, dropped, hle, hs⟩ := h
  have hgrows : accepted.length ≤ (fed ++ fedBytes [c]).length := by
    rw [List.length_append]
    exact hle.trans (Nat.le_add_right _ _)
  rcases hs with hs | hs
  · by_cases hok : s.decoder.finished = true → fedBytes [c] = []
    · have hle' : (accepted ++ fedBytes [c]).length ≤ (fed ++ fedBytes [c]).length := by
        rw [List.length_append, List.length_append]
        exact Nat.add_le_add_right hle _
      rcases call_live hs hok hcall with ⟨dropped', hs', -⟩ | ⟨dropped', hs'⟩
      · exact ⟨_, dropped', hle', .inl hs'⟩
      · exact ⟨_, dropped', hle', .inr hs'⟩
    · -- bytes behind the end are refused
      obtain ⟨hfinished, hne⟩ := Classical.not_imp.mp hok
      cases c with
      | feed data =>
        rw [fedBytes_feed, fedBytes_nil, List.append_nil] at hne
        rw [feed_finished hfinished hne] at hcall
        obtain rfl := Exec.ok.inj hcall
        exact ⟨accepted, dropped, hgrows, .inl ⟨hs.decoder, ⟨hs.tracks.windowed, hs.tracks.taken_eq⟩⟩⟩
      | advance n => exact absurd rfl hne
  · obtain ⟨dropped', hs'⟩ := call_dead hs hcall
    exact ⟨accepted, dropped', hgrows, .inr hs'⟩

/-- Calls add what they feed. -/
theorem Fed.run (calls : List Call) {fed : List UInt8} {s s' : Session} (h : s.Fed fed) (hrun : run calls s = .ok s') :
    s'.Fed (fed ++ fedBytes calls) := by
  induction calls generalizing fed s with
  | nil =>
    obtain rfl := Exec.ok.inj hrun
    rw [fedBytes_nil, List.append_nil]
    exact h
  | cons c calls ih =>
    obtain ⟨s₁, hcall, hrest⟩ := run_cons_ok hrun
    have hfed : fedBytes (c :: calls) = fedBytes [c] ++ fedBytes calls := by
      cases c with
      | feed data => rw [fedBytes_feed, fedBytes_feed, fedBytes_nil, List.append_nil]
      | advance n => rfl
    rw [hfed, ← List.append_assoc]
    exact ih (h.call hcall) hrest

/-- The output of a session is bounded by what was fed. -/
theorem Fed.expansion {fed : List UInt8} {s : Session} (h : s.Fed fed) : s.output.length ≤ 1032 * fed.length := by
  obtain ⟨accepted, dropped, hle, hs⟩ := h
  suffices s.output.length ≤ 1032 * accepted.length from this.trans (Nat.mul_le_mul_left _ hle)
  rcases hs with hs | hs
  · rw [hs.tracks.output_eq]
    exact runs_expansion hs.decoder.runs
  · obtain ⟨c, hr, hout, -⟩ := hs.decoder.failed
    rw [hs.tracks.output_eq, ← hout]
    exact runs_expansion hr

end Session

/-- Whatever calls a decoder has served, whether the stream was valid or not: all it has put out is no longer than 1032 times what it was
fed. -/
theorem session_expansion {calls : List Call} {s : Session} (h : Session.run calls Session.start = .ok s) :
    s.output.length ≤ 1032 * (fedBytes calls).length := by
  have hstart : Session.start.Fed [] := ⟨[], [], le_rfl, .inl Session.start_live⟩
  have hfed := hstart.run calls h
  rw [List.nil_append] at hfed
  exact hfed.expansion

/-- A stored block in pieces. -/
theorem session_expansion_stored :
    ∃ s, Session.run [.feed [1, 1, 0], .feed [254, 255, 65], .advance 1] Session.start = .ok s ∧
      s.output.length ≤ 1032 * (fedBytes [.feed [1, 1, 0], .feed [254, 255, 65], .advance 1]).length := by
  obtain ⟨s, hs, -⟩ := Exec.returns_iff.mp
    (show (Session.run [.feed [1, 1, 0], .feed [254, 255, 65], .advance 1] Session.start).returns (fun s => s.decoder.finished) = true by
      decide +kernel)
  exact ⟨s, hs, session_expansion hs⟩

/-! ## One call -/

theorem deflateBody_expansion {bytes output : List UInt8} (h : deflateBody bytes = some (some output)) :
    output.length ≤ 1032 * bytes.length := by
  obtain ⟨verdict, c, hr, hstop, -⟩ := exists_stop bytes
  rw [deflateBody_of_stop hr hstop] at h
  cases verdict with
  | waiting => cases h
  | failed => cases h
  | halted =>
    obtain rfl := Option.some.inj (Option.some.inj h)
    exact runs_expansion hr

/-- A container holds its body, so its output is no longer either. -/
theorem ReadsFormat.expansion {η δ : Type} {F : Framing.Format UInt8 η (List UInt8)} {feedChunks : List (List UInt8) → Exec δ}
    {finished : δ → Bool} {output : δ → List UInt8} (h : ReadsFormat F feedChunks finished output) (hF : F.body = deflateBody)
    {message : String} {decompress : List UInt8 → Exec (List UInt8)} (hagrees : Agrees feedChunks finished output message decompress)
    {bytes data : List UInt8} (hok : decompress bytes = .ok data) : data.length ≤ 1032 * bytes.length := by
  obtain ⟨header, body, -, hbody, rfl⟩ := (F.run_done_iff _ _).mp (h.done_of_decompress hagrees hok)
  have hcomplete := hbody.complete
  rw [hF] at hcomplete
  have hle := deflateBody_expansion hcomplete
  rw [List.length_append, List.length_append]
  omega

/-- What is decompressed in one call is no longer than 1032 times the stream, in each format. -/
theorem decompress_expansion {bytes data : List UInt8}
    (h : Deflate.decompress bytes = .ok data ∨ Gzip.decompress bytes = .ok data ∨ Zlib.decompress bytes = .ok data) :
    data.length ≤ 1032 * bytes.length := by
  rcases h with h | h | h
  · obtain ⟨verdict, c, hr, -, hcases⟩ := decompress_spec bytes
    rcases hcases with ⟨-, -, hok⟩ | ⟨-, herr⟩ | ⟨-, e, -, herr⟩
    · obtain rfl := Exec.ok.inj (h.symm.trans hok)
      exact runs_expansion hr
    · cases h.symm.trans herr
    · cases h.symm.trans herr
  · exact Gzip.reads.expansion rfl Gzip.agrees h
  · exact Zlib.reads.expansion rfl Zlib.agrees h

/-- A stored block. -/
theorem decompress_expansion_stored :
    Deflate.decompress [1, 1, 0, 254, 255, 65] = .ok [65] ∧
      [(65 : UInt8)].length ≤ 1032 * [(1 : UInt8), 1, 0, 254, 255, 65].length := by
  have h : Deflate.decompress [1, 1, 0, 254, 255, 65] = .ok [65] := by decide +kernel
  exact ⟨h, decompress_expansion (.inl h)⟩

end Noflate
