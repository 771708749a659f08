import Noflate.Lemmas.Tracing

/-!
# What a reset of the history cuts off

The match finder forgets the bytes before a reset, but the encoder still holds those that are pending: they come into one block with
bytes fed later, and are referred to from there (`reset_reaches_back`). Where every reset finds nothing pending, as it does behind a
flush, no block emitted after it reaches into a byte fed before (`reset_isolates`).
-/

namespace Noflate

open BitString

/-- In a run of which every reset finds nothing pending, or that emits no back-reference anyway: no back-reference in a block that
starts behind the bits emitted up to a reset reaches into a byte fed up to it. -/
theorem reset_isolates (options : EncodeOptions) {commands : List Command} (hrange : (EncoderSession.start options).InRange commands)
    (hresets : EncoderSession.Along EncoderSession.ResetsAtBoundary (EncoderSession.start options) commands)
    {front back : List Command} (hsplit : commands = front ++ .resetHistory :: back) :
    ∃ s s', EncoderSession.run front (EncoderSession.start options) = .ok s ∧
      EncoderSession.run commands (EncoderSession.start options) = .ok s' ∧
      ∀ ref ∈ Rfc1951.references (s'.bits ++ pad s'.bits), s.bits.length ≤ ref.block →
        (payload front).length + ref.distance ≤ ref.position := by
  subst hsplit
  have hrange' := EncoderSession.along_append.mp hrange
  obtain ⟨s, hrun, hs⟩ := run_refines (Refines.start options) hrange'.1
  obtain ⟨s', hrun', hs'⟩ := run_refines (Refines.start options) hrange
  have hreset := (EncoderSession.along_cons.mp ((EncoderSession.along_append.mp hresets).2 s hrun)).1
  refine ⟨s, s', hrun, hrun', ?_⟩
  have hstart := Emission.start_sound options
  intro ref href hblock
  rw [hs'.bits_eq, Emission.run_append] at href
  have hle : (blockBits (Emission.run front (Emission.start options)).blocks).length ≤ s.bits.length := by
    rw [hs.bits_eq, Emission.bits, List.length_append]
    omega
  obtain ⟨hopen, ⟨b, hb, hrefers⟩, hreach⟩ := Emission.references_behind (hstart.run front) _ href (hle.trans hblock)
  have hfront : .finish ∉ front := by
    intro hm
    rw [(Emission.run_finishing front _).mpr (.inr hm)] at hopen
    cases hopen
  obtain ⟨-, -, hpayload⟩ := hstart.run_open rfl hfront
  rcases hreset with hempty | hplain
  · rw [Emission.payload, ← hs.input_eq, hempty, List.append_nil] at hpayload
    rw [hpayload] at hreach
    exact hreach
  · rw [hs.options_eq, Emission.run_options] at hplain
    rw [← Emission.run_append] at hb
    exact absurd (((Emission.start_plain hplain).run _).blocks_plain b hb) hrefers

/-- Two bytes and a flush, a reset, and five more of the same bytes: the block behind the reset has a back-reference, and it reaches into
the five only. -/
theorem reset_isolates_flushed :
    ∃ s s', EncoderSession.run [.feed [65, 65], .syncFlush] (EncoderSession.start EncodeOptions.new.fixedHuffman) = .ok s ∧
      EncoderSession.run ([.feed [65, 65], .syncFlush] ++ .resetHistory :: [.feed [65, 65, 65, 65, 65], .finish])
        (EncoderSession.start EncodeOptions.new.fixedHuffman) = .ok s' ∧
      (∃ ref ∈ Rfc1951.references (s'.bits ++ pad s'.bits), s.bits.length ≤ ref.block) ∧
      ∀ ref ∈ Rfc1951.references (s'.bits ++ pad s'.bits), s.bits.length ≤ ref.block →
        (payload [.feed [65, 65], .syncFlush]).length + ref.distance ≤ ref.position := by
  obtain ⟨start, hstart⟩ : ∃ start, start = EncoderSession.start EncodeOptions.new.fixedHuffman := ⟨_, rfl⟩
  have hall : (EncoderSession.run [.feed [65, 65], .syncFlush] start).returns (fun s => s.encoder.input.isEmpty &&
      (EncoderSession.run [.resetHistory, .feed [65, 65, 65, 65, 65], .finish] s).returns
        fun s' => decide (∃ ref ∈ Rfc1951.references (s'.bits ++ pad s'.bits), s.bits.length ≤ ref.block)) = true := by
    rw [hstart]
    decide +kernel
  obtain ⟨s, h1, h2⟩ := Exec.returns_iff.mp hall
  obtain ⟨hempty, h3⟩ := Bool.and_eq_true_iff.mp h2
  obtain ⟨s', hback, h5⟩ := Exec.returns_iff.mp h3
  have h4 : EncoderSession.run ([.feed [65, 65], .syncFlush] ++ .resetHistory :: [.feed [65, 65, 65, 65, 65], .finish]) start =
      .ok s' := by
    rw [EncoderSession.run_append, h1, Exec.ok_bind, hback]
  have hresets : EncoderSession.Along EncoderSession.ResetsAtBoundary start
      ([.feed [65, 65], .syncFlush] ++ .resetHistory :: [.feed [65, 65, 65, 65, 65], .finish]) := by
    refine EncoderSession.along_append.mpr ⟨?_, fun s₁ h => ?_⟩
    · exact EncoderSession.along_cons.mpr ⟨trivial, fun _ _ => EncoderSession.along_cons.mpr ⟨trivial, fun _ _ => trivial⟩⟩
    · obtain rfl := Exec.ok.inj (h1.symm.trans h)
      refine EncoderSession.along_cons.mpr ⟨.inl (List.isEmpty_iff.mp hempty), fun _ _ => ?_⟩
      exact EncoderSession.along_cons.mpr ⟨trivial, fun _ _ => EncoderSession.along_cons.mpr ⟨trivial, fun _ _ => trivial⟩⟩
  subst hstart
  obtain ⟨s₁, s₁', hs, hs', hrefs⟩ :=
    reset_isolates EncodeOptions.new.fixedHuffman (EncoderSession.inRange_of_no_advance (by simp) _) hresets rfl
  obtain rfl := Exec.ok.inj (h1.symm.trans hs)
  obtain rfl := Exec.ok.inj (h4.symm.trans hs')
  exact ⟨s, s', h1, h4, of_decide_eq_true h5, hrefs⟩

/-- Two bytes that are pending at a reset, and the same two behind it: the one block of the stream refers from the second byte to
the first, and both were fed before the reset. -/
theorem reset_reaches_back :
    ∃ s s', EncoderSession.run [.feed [65, 65]] (EncoderSession.start EncodeOptions.new.fixedHuffman) = .ok s ∧
      EncoderSession.run ([.feed [65, 65]] ++ .resetHistory :: [.feed [65, 65], .finish])
        (EncoderSession.start EncodeOptions.new.fixedHuffman) = .ok s' ∧
      ¬∀ ref ∈ Rfc1951.references (s'.bits ++ pad s'.bits), s.bits.length ≤ ref.block →
        (payload [.feed [65, 65]]).length + ref.distance ≤ ref.position := by
  have hall : (EncoderSession.run [.feed [65, 65]] (EncoderSession.start EncodeOptions.new.fixedHuffman)).returns (fun s =>
      (EncoderSession.run ([.feed [65, 65]] ++ .resetHistory :: [.feed [65, 65], .finish])
        (EncoderSession.start EncodeOptions.new.fixedHuffman)).returns fun s' =>
          decide (¬∀ ref ∈ Rfc1951.references (s'.bits ++ pad s'.bits), s.bits.length ≤ ref.block →
            (payload [.feed [65, 65]]).length + ref.distance ≤ ref.position)) = true := by decide +kernel
  obtain ⟨s, h1, h2⟩ := Exec.returns_iff.mp hall
  obtain ⟨s', h3, h4⟩ := Exec.returns_iff.mp h2
  exact ⟨s, s', h1, h3, of_decide_eq_true h4⟩

end Noflate
