import Noflate.Lemmas.Completeness
import Noflate.Lemmas.Decompress

/-!
# What the decoder puts out

The decoder against the bit-at-a-time reference of the format: what it has made available when it is finished is what the
reference reads from the bytes fed (`finished_output`), and of the valid streams `decompress` decodes all but those with a block
that transmits the single zero-length distance code (`decompress_iff`).
-/

namespace Noflate

open BitString Resumable

/-- The meaning of a byte string is that of any longer one, up to what is left behind the final block. -/
theorem inflate_of_halted_append {bytes : List UInt8} {output : List UInt8} {rest : List Bool} (more : List UInt8)
    (h : itemMachine.Runs (startItem bytes) ((.finished, output), rest)) :
    ∃ codeSets, Rfc1951.inflate (ofBytes (bytes ++ more)) = some { output, codeSets, rest := rest ++ ofBytes more } ∧
      ∀ sets ∈ codeSets, Held sets := by
  have hx : (ofBytes more).length % 8 = 0 := by rw [length_ofBytes, Nat.mul_mod_right]
  have happ := h.append itemMachine_mono hx
  unfold startItem at happ
  rw [← ofBytes_append] at happ
  exact inflate_of_halted happ

/-- Calls that leave the decoder finished: the machine has halted on the bytes it took. -/
theorem Session.Reached.finished {fed : List UInt8} {s : Session} (h : s.Reached fed) (hf : s.decoder.finished = true) :
    ∃ accepted more dropped, fed = accepted ++ more ∧ s.Live accepted dropped ∧
      itemMachine.Runs (startItem accepted) ((.finished, s.output), s.item.2) := by
  rcases h with ⟨accepted, dropped, hlive, hfed⟩ | ⟨accepted, dropped, hdead⟩
  · obtain ⟨more, hmore⟩ : accepted <+: fed := hfed.elim (fun h => h ▸ List.prefix_refl _) And.right
    refine ⟨accepted, more, dropped, hmore.symm, hlive, ?_⟩
    have hr := hlive.decoder.runs
    rw [← hlive.tracks.item_eq] at hr
    have hitem : s.item = ((.finished, s.output), s.item.2) := by
      unfold Session.item
      rw [hlive.decoder.finished_iff.mp hf]
    rwa [hitem] at hr
  · cases hf.symm.trans hdead.decoder.finished_eq

/-- When the decoder is finished, all it has made available is what the reference reads from the bytes fed. -/
theorem finished_output {calls : List Call} {s : Session} (h : Session.run calls Session.start = .ok s)
    (hf : s.decoder.finished = true) :
    ∃ meaning, Rfc1951.inflate (ofBytes (fedBytes calls)) = some meaning ∧ meaning.output = s.output := by
  have hreached := Session.run_reached calls (.live [] [] Session.start_live (.inl rfl)) h
  rw [List.nil_append] at hreached
  obtain ⟨accepted, more, dropped, hfed, -, hr⟩ := hreached.finished hf
  obtain ⟨codeSets, hm, -⟩ := inflate_of_halted_append more hr
  rw [hfed]
  exact ⟨_, hm, rfl⟩

/-- A stored block fed in two pieces. -/
theorem finished_output_stored :
    ∃ s, Session.run [.feed [1, 1, 0], .feed [254, 255, 65]] Session.start = .ok s ∧
      ∃ meaning, Rfc1951.inflate (ofBytes [1, 1, 0, 254, 255, 65]) = some meaning ∧ meaning.output = s.output := by
  obtain ⟨s, hs, hfin⟩ := Exec.returns_iff.mp
    (show (Session.run [.feed [1, 1, 0], .feed [254, 255, 65]] Session.start).returns (fun s => s.decoder.finished) = true by
      decide +kernel)
  exact ⟨s, hs, finished_output hs hfin⟩

/-- A valid stream is decompressed to its meaning exactly when none of its dynamic blocks transmits the single zero-length
distance code. -/
theorem decompress_iff {bytes : List UInt8} {meaning : Rfc1951.Meaning} (h : Rfc1951.Valid (ofBytes bytes) meaning) :
    Deflate.decompress bytes = .ok meaning.output ↔ ∀ sets ∈ meaning.codeSets, sets.distance ≠ [0] := by
  obtain ⟨verdict, c, hr, hstop, hres⟩ := decompress_spec bytes
  constructor
  · intro hok sets hs h0
    rcases hres with ⟨-, hfin, -⟩ | ⟨-, he⟩ | ⟨-, e, -, he⟩
    · -- the machine has halted: the distances of every code set in the meaning fit
      obtain ⟨⟨s, output⟩, rest⟩ := c
      obtain rfl : s = .finished := hfin
      obtain ⟨codeSets, hm, hheld⟩ := inflate_of_halted hr
      obtain rfl := Option.some.inj (h.inflates.symm.trans hm)
      obtain ⟨w, hw, hpos⟩ := (hheld sets hs).distances
      rw [h0, List.mem_singleton] at hw
      exact absurd hpos (by rw [hw]; exact Nat.lt_irrefl 0)
    · cases hok.symm.trans he
    · cases hok.symm.trans he
  · intro hsets
    obtain ⟨rfl, rfl⟩ := halted_of_inflate h.inflates (fun sets hs => held_of_valid (h.codeSets sets hs) (hsets sets hs)) hr hstop
    rcases hres with ⟨-, -, hok⟩ | ⟨hne, -⟩ | ⟨hne, -⟩
    · exact hok
    · cases hne
    · cases hne

/-- The stored block of one byte. -/
theorem decompress_iff_stored :
    Deflate.decompress [1, 1, 0, 254, 255, 65] = .ok [65] ↔ ∀ sets ∈ ([] : List Rfc1951.CodeSets), sets.distance ≠ [0] :=
  have h : Rfc1951.Valid (ofBytes [1, 1, 0, 254, 255, 65]) { output := [65], codeSets := [], rest := [] } :=
    ⟨by decide +kernel, fun _ hs => (nomatch hs)⟩
  decompress_iff h

/-- Two literals in a dynamic block without distances: its distance alphabet is one code length of zero. -/
theorem decompress_rejects_no_distances :
    ¬∀ bytes meaning, Rfc1951.Valid (ofBytes bytes) meaning → Deflate.decompress bytes = .ok meaning.output := by
  intro h
  obtain ⟨sets, hsets⟩ : ∃ sets : Rfc1951.CodeSets, sets = {
      codeLength := [2, 2] ++ List.replicate 16 0 ++ [1]
      literal := List.replicate 65 0 ++ [1] ++ List.replicate 190 0 ++ [1]
      distance := [0] } := ⟨_, rfl⟩
  have hvalid : sets.Valid := by
    rw [hsets]
    exact ⟨by decide +kernel, by decide, by decide +kernel, by decide +kernel, by decide, ⟨1, by decide +kernel, by decide⟩, .inr rfl⟩
  have hmeaning : Rfc1951.Valid (ofBytes [5, 192, 129, 8, 0, 0, 0, 0, 32, 182, 253, 165, 142])
      { output := [65, 65], codeSets := [sets], rest := [] } := by
    refine ⟨by rw [hsets]; decide +kernel, ?_⟩
    intro sets' hs
    rw [List.mem_singleton.mp hs]
    exact hvalid
  have hok : Deflate.decompress [5, 192, 129, 8, 0, 0, 0, 0, 32, 182, 253, 165, 142] = .ok [65, 65] := h _ _ hmeaning
  have herr : Deflate.decompress [5, 192, 129, 8, 0, 0, 0, 0, 32, 182, 253, 165, 142] ≠ .ok [65, 65] := by decide +kernel
  exact herr hok

end Noflate
