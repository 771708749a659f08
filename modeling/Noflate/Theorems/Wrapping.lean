import Noflate.Error
import Noflate.OneShot
import Noflate.Lemmas.Wrapping
import Noflate.Theorems.Containers
import Noflate.Theorems.Independence

/-!
# The containers and the raw encoder

A gzip or a zlib encoder puts out its header, what the raw encoder puts out for all its bytes in one feed, and its trailer: however the
bytes are divided over its calls, and wherever output is consumed (`containers_wrap`). So `compress` gives what the streaming encoder
with its options does.
-/

namespace Noflate

open BitString

/-- A container, of which the trailer of a byte string is known, is put around what the raw encoder puts out for all bytes in one feed:
before the end the header, from the first feed on, and what the raw encoder has put out; behind it the trailer too. Where the options
are those of `compress`, that is what `compress` gives. -/
def WrapsRaw {κ : Type} (K : Container κ) (trailer : List UInt8 → List UInt8) (options : EncodeOptions) : Prop :=
  ∀ calls, (ContainerSession.start (ContainerEncoder.withOptions K options)).InRange (ContainerEncoder.feed K) calls →
    ∃ s s' raw raw',
      ContainerSession.run (ContainerEncoder.feed K) calls (ContainerSession.start (ContainerEncoder.withOptions K options)) = .ok s ∧
      s.close (ContainerEncoder.finish K) = .ok s' ∧
      EncoderSession.run [.feed (fedBytes calls)] (EncoderSession.start options) = .ok raw ∧
      EncoderSession.run [.feed (fedBytes calls), .finish] (EncoderSession.start options) = .ok raw' ∧
      s.output = (if fedPieces calls = [] then [] else K.header ++ raw.output) ∧ s.encoder.isFinished = false ∧
      s'.output = K.header ++ raw'.output ++ trailer (fedBytes calls) ∧
      (s'.encoder.isFinished = true ↔ s'.encoder.unread = []) ∧
      (options = EncodeOptions.new.bufferAllInput → K.compress (fedBytes calls) = .ok s'.output)

section

variable {κ : Type} {K : Container κ}

/-- A checksum that took in pieces is that of all their bytes. -/
theorem check_of_pieces {C : List UInt8 → κ → Prop} (hupdate : ∀ fed c data, C fed c → C (fed ++ data) (K.update c data))
    (pieces : List (List UInt8)) {fed : List UInt8} {c : κ} (h : C fed c) : C (fed ++ pieces.flatten) (pieces.foldl K.update c) := by
  induction pieces generalizing fed c with
  | nil => rwa [List.flatten_nil, List.append_nil]
  | cons data pieces ih =>
    rw [List.flatten_cons, ← List.append_assoc]
    exact ih (hupdate fed c data h)

/-- The raw encoder with all bytes in one feed, and what is done behind it, puts out what an encoder does that stands for the emission
of their pieces. -/
theorem raw_of_pieces (options : EncodeOptions) (pieces : List (List UInt8)) (behind : List Command)
    (hbehind : ∀ n, .advance n ∉ behind) :
    ∃ raw, EncoderSession.run (.feed pieces.flatten :: behind) (EncoderSession.start options) = .ok raw ∧
      ∀ s : EncoderSession, Refines s (Emission.run (feeds pieces ++ behind) (Emission.start options)) → s.output = raw.output := by
  have hnone : ∀ n, .advance n ∉ (.feed pieces.flatten :: behind : List Command) := fun n hn =>
    (List.mem_cons.mp hn).elim (fun h => by cases h) (hbehind n)
  obtain ⟨raw, hrun, hraw⟩ := run_refines (Refines.start options)
    (EncoderSession.inRange_of_no_advance hnone (EncoderSession.start options))
  exact ⟨raw, hrun, fun s hs => (Refines.of_segments (segments_pieces pieces behind) hs hraw).2⟩

/-- An encoder of a container, finished: it says so when its output is consumed, and has put out the raw output for all bytes between
its header and its trailer. -/
theorem wraps_close {C : List UInt8 → κ → Prop} (hnew : C [] K.new)
    (hupdate : ∀ fed c data, C fed c → C (fed ++ data) (K.update c data))
    {trailer : List UInt8 → List UInt8} (htrailer : ∀ data c, C data c → K.trailer c = trailer data) (options : EncodeOptions)
    {calls : List Call}
    (hrange : (ContainerSession.start (ContainerEncoder.withOptions K options)).InRange (ContainerEncoder.feed K) calls) :
    ∃ s s' raw',
      ContainerSession.run (ContainerEncoder.feed K) calls (ContainerSession.start (ContainerEncoder.withOptions K options)) = .ok s ∧
      s.close (ContainerEncoder.finish K) = .ok s' ∧
      EncoderSession.run [.feed (fedBytes calls), .finish] (EncoderSession.start options) = .ok raw' ∧
      s'.output = K.header ++ raw'.output ++ trailer (fedBytes calls) ∧ s'.encoder.finishing = true ∧
      s'.encoder.drained ≤ s'.encoder.output.length ∧
      s.Wraps K (Emission.run (feeds (fedPieces calls)) (Emission.start options)) ∧
      (s.encoder.headerEmitted = true ↔ fedPieces calls ≠ []) := by
  obtain ⟨s, hrun, hwraps, hheader, hcheck⟩ := (ContainerSession.Wraps.start K options).run hrange
  obtain ⟨s', deflate, body, hclose, hrefines, hunread, hout, hfinishing, hle⟩ := hwraps.close
  obtain ⟨raw', hraw, hsame⟩ := raw_of_pieces options (fedPieces calls) [.finish] (by simp)
  rw [flatten_fedPieces] at hraw
  refine ⟨s, s', raw', hrun, hclose, hraw, ?_, hfinishing, hle, hwraps, ?_⟩
  · have hbody : body = raw'.output := by
      have hrun' : Emission.run (feeds (fedPieces calls) ++ [.finish]) (Emission.start options) =
          (Emission.run (feeds (fedPieces calls)) (Emission.start options)).call .finish := Emission.run_append _ _ _
      have houtput := hsame _ (hrun' ▸ hrefines)
      rwa [EncoderSession.output, hunread, List.append_nil] at houtput
    have hof := check_of_pieces hupdate (fedPieces calls) hnew
    rw [List.nil_append, flatten_fedPieces] at hof
    have hstart : s.encoder.check = (fedPieces calls).foldl K.update K.new := hcheck
    rw [hout, hbody, hstart, htrailer _ _ hof]
  · exact hheader.trans ⟨fun h => h.resolve_left Bool.false_ne_true, .inr⟩

/-- A container with a trailer that is known is put around the raw output. -/
theorem wrapsRaw {C : List UInt8 → κ → Prop} (hnew : C [] K.new)
    (hupdate : ∀ fed c data, C fed c → C (fed ++ data) (K.update c data))
    {trailer : List UInt8 → List UInt8} (htrailer : ∀ data c, C data c → K.trailer c = trailer data) (options : EncodeOptions) :
    WrapsRaw K trailer options := by
  intro calls hrange
  obtain ⟨s, s', raw', hrun, hclose, hraw', hout', hfinishing, hle, hwraps, hheader⟩ :=
    wraps_close hnew hupdate htrailer options hrange
  obtain ⟨raw, hraw, hsame⟩ := raw_of_pieces options (fedPieces calls) [] (by simp)
  rw [flatten_fedPieces] at hraw
  refine ⟨s, s', raw, raw', hrun, hclose, hraw, hraw', ?_, ?_, hout', ?_, ?_⟩
  · split
    · rename_i hnone
      exact hwraps.untouched (Bool.eq_false_iff.mpr fun ht => hheader.mp ht hnone)
    · rename_i hsome
      obtain ⟨body, hrefines, hout⟩ := hwraps.wrapped
      have houtput := hsame _ (by rwa [List.append_nil])
      rw [EncoderSession.output, hwraps.consumed, List.append_nil] at houtput
      have hbody : body = raw.output := houtput
      rwa [ContainerEncoder.missingHeader, if_pos (hheader.mpr hsome), List.append_nil, hbody] at hout
  · rw [ContainerEncoder.isFinished, hwraps.finishing_eq, Bool.false_and]
  · rw [ContainerEncoder.isFinished, hfinishing, Bool.true_and, beq_iff_eq, ContainerEncoder.unread, List.drop_eq_nil_iff]
    exact ⟨fun h => h.ge, fun h => le_antisymm hle h⟩
  · rintro rfl
    have hrange₁ : (ContainerSession.start (ContainerEncoder.withOptions K EncodeOptions.new.bufferAllInput)).InRange
        (ContainerEncoder.feed K) [.feed (fedBytes calls)] :=
      ContainerSession.inRange_cons.mpr ⟨fun n hn => (by cases hn), fun _ _ => trivial⟩
    obtain ⟨s₁, s₁', raw₁, hrun₁, hclose₁, hraw₁, hout₁, -, hle₁, -, -⟩ :=
      wraps_close hnew hupdate htrailer EncodeOptions.new.bufferAllInput hrange₁
    rw [fedBytes_feed, fedBytes_nil, List.append_nil] at hraw₁ hout₁
    obtain rfl := Exec.ok.inj (hraw'.symm.trans hraw₁)
    rw [compress_of_close hrun₁ hclose₁ hle₁, hout₁, hout']

end

/-- However bytes are divided over the calls, and wherever output is consumed, a gzip and a zlib encoder put out what the raw encoder
does for all bytes in one feed, between their header and their trailer; and that is what `compress` gives. -/
theorem containers_wrap (options : EncodeOptions) :
    WrapsRaw Gzip.container Rfc1952.trailer options ∧ WrapsRaw Zlib.container Rfc1950.trailer options := by
  have hnew : Adler32.Of [] Zlib.container.new := Adler32.new_of
  have hupdate : ∀ data a more, Adler32.Of data a → Adler32.Of (data ++ more) (Zlib.container.update a more) :=
    fun _ _ more h => h.update more
  refine ⟨wrapsRaw Gzip.Checks.new_of Gzip.Checks.of_update (fun _ _ h => h.trailer_eq) options,
    wrapsRaw hnew hupdate (fun data a h => ?_) options⟩
  show beBytes 4 a.value = _
  rw [h.value_eq]
  rfl

end Noflate
