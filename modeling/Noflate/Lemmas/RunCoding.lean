import Noflate.Lemmas.Codes

/-!
# The transmitted code lengths

The code lengths of a dynamic block are transmitted run by run. The elements of a run add the run (`RunLength.codes_expand`), so
those of all runs add the code lengths (`widths_expand`), and the reference reads them back as it reads any elements that
add up to what is announced (`readCodeLengths_of_expand`).
-/

namespace Noflate

open BitString

/-! ## What elements add -/

/-- What an element of the transmitted code lengths adds to those there are. -/
inductive BitwidthCode.Adds (lengths : List Nat) : BitwidthCode → List Nat → Prop
  | length {sym : Nat} (h : sym < 16) : Adds lengths { code := sym, extraBits := 0, extra := 0 } [sym]
  | last {extra last : Nat} (hextra : extra < 4) (hlast : lengths.getLast? = some last) :
      Adds lengths { code := 16, extraBits := 2, extra } (List.replicate (extra + 3) last)
  | zeros {extra : Nat} (hextra : extra < 8) :
      Adds lengths { code := 17, extraBits := 3, extra } (List.replicate (extra + 3) 0)
  | manyZeros {extra : Nat} (hextra : extra < 128) :
      Adds lengths { code := 18, extraBits := 7, extra } (List.replicate (extra + 11) 0)

/-- Elements that expand to code lengths, from those there are. -/
inductive Expands : List Nat → List BitwidthCode → List Nat → Prop
  | nil (lengths : List Nat) : Expands lengths [] lengths
  | cons {lengths added all : List Nat} {c : BitwidthCode} {codes : List BitwidthCode} (h : c.Adds lengths added)
      (hrest : Expands (lengths ++ added) codes all) : Expands lengths (c :: codes) all

namespace Expands

theorem append {lengths mid all : List Nat} {codes codes' : List BitwidthCode} (h : Expands lengths codes mid)
    (h' : Expands mid codes' all) : Expands lengths (codes ++ codes') all := by
  induction h with
  | nil => exact h'
  | cons hadds _ ih => exact .cons hadds (ih h')

theorem single {lengths added : List Nat} {c : BitwidthCode} (h : c.Adds lengths added) :
    Expands lengths [c] (lengths ++ added) := .cons h (.nil _)

/-- Widths one by one. -/
theorem replicate {v : Nat} (hv : v < 16) (n : Nat) (lengths : List Nat) :
    Expands lengths (List.replicate n { code := v, extraBits := 0, extra := 0 }) (lengths ++ List.replicate n v) := by
  induction n generalizing lengths with
  | zero =>
    rw [List.replicate_zero, List.replicate_zero, List.append_nil]
    exact .nil _
  | succ n ih =>
    have hrest := ih (lengths ++ [v])
    rw [List.append_assoc] at hrest
    rw [List.replicate_succ, List.replicate_succ]
    exact .cons (.length hv) hrest

/-- An element adds a length at least. -/
theorem length_le {lengths all : List Nat} {codes : List BitwidthCode} (h : Expands lengths codes all) :
    lengths.length + codes.length ≤ all.length := by
  induction h with
  | nil => exact le_rfl
  | cons hadds _ ih =>
    rw [List.length_append] at ih
    rw [List.length_cons]
    cases hadds with
    | length h =>
      rw [List.length_singleton] at ih
      omega
    | last hextra hlast =>
      rw [List.length_replicate] at ih
      omega
    | zeros hextra =>
      rw [List.length_replicate] at ih
      omega
    | manyZeros hextra =>
      rw [List.length_replicate] at ih
      omega

end Expands

/-! ## The elements of a run -/

/-- Adding a repeated element to a list of repeated elements. -/
theorem replicate_append (a b v : Nat) (lengths : List Nat) :
    lengths ++ List.replicate a v ++ List.replicate b v = lengths ++ List.replicate (a + b) v := by
  rw [List.append_assoc, List.replicate_append_replicate]

/-- The loop over a long run of zeros adds all but the last few of them. -/
theorem longZeroLoop_spec (fuel : Nat) {count : Nat} (codes : List BitwidthCode) (hfuel : count ≤ fuel) :
    ∃ added rest, longZeroLoop fuel count codes = (codes ++ added, rest) ∧ rest ≤ count ∧ rest < 11 ∧
      ∀ lengths, Expands lengths added (lengths ++ List.replicate (count - rest) 0) := by
  induction fuel generalizing count codes with
  | zero =>
    obtain rfl : count = 0 := Nat.le_zero.mp hfuel
    refine ⟨[], 0, by rw [longZeroLoop, List.append_nil], le_rfl, Nat.succ_pos _, ?_⟩
    intro lengths
    rw [Nat.sub_self, List.replicate_zero, List.append_nil]
    exact .nil _
  | succ fuel ih =>
    rw [longZeroLoop]
    by_cases hc : 11 ≤ count
    · have hless : count - min 138 count ≤ fuel := by omega
      obtain ⟨added, rest, h1, h2, h3, h4⟩ := ih (codes ++ [{ code := 18, extraBits := 7, extra := min 138 count - 11 }]) hless
      rw [if_pos hc]
      refine ⟨{ code := 18, extraBits := 7, extra := min 138 count - 11 } :: added, rest, ?_, by omega, h3, ?_⟩
      · simp only [h1, List.append_assoc, List.cons_append, List.nil_append]
      · intro lengths
        have hrest := h4 (lengths ++ List.replicate (min 138 count - 11 + 11) 0)
        rw [replicate_append, show min 138 count - 11 + 11 + (count - min 138 count - rest) = count - rest by omega] at hrest
        exact .cons (.manyZeros (by omega)) hrest
    · rw [if_neg hc]
      refine ⟨[], count, by rw [List.append_nil], le_rfl, by omega, ?_⟩
      intro lengths
      rw [Nat.sub_self, List.replicate_zero, List.append_nil]
      exact .nil _

/-- The elements of a run of zeros add the run. -/
theorem zeroCodes_expand (count : Nat) (lengths : List Nat) :
    Expands lengths (zeroCodes count) (lengths ++ List.replicate count 0) := by
  obtain ⟨added, rest, h1, h2, h3, h4⟩ := longZeroLoop_spec count [] le_rfl
  have hlong := h4 lengths
  unfold zeroCodes
  rw [h1, List.nil_append]
  simp only
  by_cases hc : 3 ≤ rest
  · have hadds : BitwidthCode.Adds (lengths ++ List.replicate (count - rest) 0) { code := 17, extraBits := 3, extra := rest - 3 }
        (List.replicate (rest - 3 + 3) 0) := .zeros (by omega)
    have hall := hlong.append (.single hadds)
    rw [replicate_append, show count - rest + (rest - 3 + 3) = count by omega] at hall
    rwa [if_pos hc]
  · have hall := hlong.append (.replicate (Nat.succ_pos 15) rest _)
    rw [replicate_append, Nat.sub_add_cancel h2] at hall
    rwa [if_neg hc]

/-- The loop over the repetitions of a width adds all but the last few of them. -/
theorem repeatLoop_spec (v fuel : Nat) {count : Nat} (codes : List BitwidthCode) (hfuel : count ≤ fuel) :
    ∃ added rest, repeatLoop fuel count codes = (codes ++ added, rest) ∧ rest ≤ count ∧
      ∀ lengths, lengths.getLast? = some v → Expands lengths added (lengths ++ List.replicate (count - rest) v) := by
  induction fuel generalizing count codes with
  | zero =>
    obtain rfl : count = 0 := Nat.le_zero.mp hfuel
    refine ⟨[], 0, by rw [repeatLoop, List.append_nil], le_rfl, ?_⟩
    intro lengths _
    rw [Nat.sub_self, List.replicate_zero, List.append_nil]
    exact .nil _
  | succ fuel ih =>
    rw [repeatLoop]
    by_cases hc : 3 ≤ count
    · have hless : count - min 6 count ≤ fuel := by omega
      obtain ⟨added, rest, h1, h2, h3⟩ := ih (codes ++ [{ code := 16, extraBits := 2, extra := min 6 count - 3 }]) hless
      rw [if_pos hc]
      refine ⟨{ code := 16, extraBits := 2, extra := min 6 count - 3 } :: added, rest, ?_, by omega, ?_⟩
      · simp only [h1, List.append_assoc, List.cons_append, List.nil_append]
      · intro lengths hlast
        have hlast' : (lengths ++ List.replicate (min 6 count - 3 + 3) v).getLast? = some v := by
          rw [List.replicate_succ', ← List.append_assoc, List.getLast?_concat]
        have hrest := h3 (lengths ++ List.replicate (min 6 count - 3 + 3) v) hlast'
        rw [replicate_append, show min 6 count - 3 + 3 + (count - min 6 count - rest) = count - rest by omega] at hrest
        exact .cons (.last (by omega) hlast) hrest
    · rw [if_neg hc]
      refine ⟨[], count, by rw [List.append_nil], le_rfl, ?_⟩
      intro lengths _
      rw [Nat.sub_self, List.replicate_zero, List.append_nil]
      exact .nil _

/-- The elements of a run add the run. -/
theorem RunLength.codes_expand {run : RunLength} (hv : run.value < 16) (hc : 0 < run.count) (lengths : List Nat) :
    Expands lengths run.codes (lengths ++ List.replicate run.count run.value) := by
  unfold RunLength.codes
  by_cases h0 : run.value = 0
  · rw [if_pos h0, h0]
    exact zeroCodes_expand run.count lengths
  · obtain ⟨added, rest, h1, h2, h3⟩ := repeatLoop_spec run.value (run.count - 1)
      [{ code := run.value, extraBits := 0, extra := 0 }] le_rfl
    rw [if_neg h0, h1]
    simp only
    have hfirst : Expands lengths [{ code := run.value, extraBits := 0, extra := 0 }] (lengths ++ List.replicate 1 run.value) :=
      .single (.length hv)
    have hmany := h3 (lengths ++ List.replicate 1 run.value) (by rw [List.replicate_one, List.getLast?_concat])
    have hall := (hfirst.append hmany).append (.replicate hv rest _)
    rwa [replicate_append, replicate_append, show 1 + (run.count - 1 - rest + rest) = run.count by omega] at hall

/-! ## The runs of the code lengths -/

/-- What runs stand for. -/
def runWidths (runs : List RunLength) : List Nat := runs.flatMap fun run => List.replicate run.count run.value

/-- Adding a width to runs. -/
theorem pushWidth_spec {runs : List RunLength} (width : Nat) (h : ∀ run ∈ runs, 0 < run.count) :
    runWidths (pushWidth runs width) = runWidths runs ++ [width] ∧ ∀ run ∈ pushWidth runs width, 0 < run.count := by
  have hnew : runWidths [{ value := width, count := 1 }] = [width] := rfl
  have happend : ∀ as bs, runWidths (as ++ bs) = runWidths as ++ runWidths bs := fun _ _ => List.flatMap_append
  unfold pushWidth
  cases hl : runs.getLast? with
  | none =>
    rw [List.getLast?_eq_none_iff.mp hl]
    refine ⟨hnew, ?_⟩
    intro run hrun
    rw [List.mem_singleton.mp hrun]
    exact Nat.one_pos
  | some last =>
    have hsplit := List.dropLast_append_getLast? last hl
    simp only
    by_cases hv : last.value = width
    · rw [if_pos hv]
      constructor
      · conv_rhs => rw [← hsplit]
        rw [happend, happend, List.append_assoc]
        congr 1
        simp only [runWidths, List.flatMap_cons, List.flatMap_nil, List.append_nil]
        rw [List.replicate_succ', hv]
      · intro run hrun
        rcases List.mem_append.mp hrun with hrun | hrun
        · exact h run ((List.dropLast_sublist runs).mem hrun)
        · rw [List.mem_singleton.mp hrun]
          exact Nat.succ_pos _
    · rw [if_neg hv]
      refine ⟨by rw [happend, hnew], ?_⟩
      intro run hrun
      rcases List.mem_append.mp hrun with hrun | hrun
      · exact h run hrun
      · rw [List.mem_singleton.mp hrun]
        exact Nat.one_pos

/-- The runs of widths stand for them. -/
theorem runLengths_spec (widths : List Nat) : runWidths (runLengths widths) = widths ∧ ∀ run ∈ runLengths widths, 0 < run.count := by
  have hgen : ∀ (widths : List Nat) (runs : List RunLength), (∀ run ∈ runs, 0 < run.count) →
      runWidths (widths.foldl pushWidth runs) = runWidths runs ++ widths ∧
        ∀ run ∈ widths.foldl pushWidth runs, 0 < run.count := by
    intro widths
    induction widths with
    | nil => exact fun runs h => ⟨(List.append_nil _).symm, h⟩
    | cons width widths ih =>
      intro runs h
      obtain ⟨h1, h2⟩ := pushWidth_spec width h
      obtain ⟨h3, h4⟩ := ih (pushWidth runs width) h2
      refine ⟨?_, h4⟩
      rw [List.foldl_cons, h3, h1, List.append_assoc]
      rfl
  exact hgen widths [] fun run hrun => (nomatch hrun)

/-- The elements of all runs add all widths. -/
theorem runs_expand {runs : List RunLength} (h : ∀ run ∈ runs, 0 < run.count ∧ run.value < 16) (lengths : List Nat) :
    Expands lengths (runs.flatMap RunLength.codes) (lengths ++ runWidths runs) := by
  induction runs generalizing lengths with
  | nil =>
    rw [runWidths, List.flatMap_nil, List.flatMap_nil, List.append_nil]
    exact .nil _
  | cons run runs ih =>
    obtain ⟨hc, hv⟩ := h run List.mem_cons_self
    have hrest := ih (fun r hr => h r (List.mem_cons_of_mem _ hr)) (lengths ++ List.replicate run.count run.value)
    rw [List.append_assoc] at hrest
    exact (run.codes_expand hv hc lengths).append hrest

/-- The elements for widths below sixteen add them. -/
theorem widths_expand {widths : List Nat} (h : ∀ w ∈ widths, w < 16) :
    Expands [] ((runLengths widths).flatMap RunLength.codes) widths := by
  obtain ⟨h1, h2⟩ := runLengths_spec widths
  have hvalues : ∀ run ∈ runLengths widths, 0 < run.count ∧ run.value < 16 := by
    intro run hrun
    refine ⟨h2 run hrun, h run.value ?_⟩
    rw [← h1]
    exact List.mem_flatMap.mpr ⟨run, hrun, List.mem_replicate.mpr ⟨(h2 run hrun).ne', rfl⟩⟩
  have hall := runs_expand hvalues []
  rwa [h1, List.nil_append] at hall

/-! ## Writing and reading the elements -/

/-- The bits of an element. -/
def BitwidthCode.bits (codeLengthCode : List Nat) (c : BitwidthCode) : List Bool :=
  codeBits codeLengthCode c.code ++ ofNat c.extraBits c.extra

/-- An element with room for its extra bits is written. -/
theorem BitwidthCode.writes {enc : HuffmanEncoder} {codeLengthCode : List Nat} (henc : Encodes enc codeLengthCode)
    (hfits : Fits codeLengthCode) {c : BitwidthCode} (hc : HasCode codeLengthCode c.code) (hfew : c.extraBits ≤ 16)
    (hextra : c.extra < 2 ^ c.extraBits) :
    Writes (fun w => writeBitwidthCode enc w c) (c.bits codeLengthCode) := by
  have hextra' : Writes (fun w => if 0 < c.extraBits then w.writeBits c.extraBits c.extra else .ok w)
      (ofNat c.extraBits c.extra) := by
    by_cases h0 : 0 < c.extraBits
    · simp only [if_pos h0]
      exact .field hfew hextra
    · have hz : c.extraBits = 0 := Nat.eq_zero_of_not_pos h0
      simp only [hz, Nat.lt_irrefl, if_false, ofNat_zero_width]
      exact .nothing
  exact (henc.writes hfits hc).bind hextra'

theorem BitwidthCode.Adds.extra_lt {lengths added : List Nat} {c : BitwidthCode} (h : c.Adds lengths added) :
    c.extraBits ≤ 16 ∧ c.extra < 2 ^ c.extraBits := by
  cases h with
  | length h => exact ⟨Nat.zero_le _, Nat.one_pos⟩
  | last hextra hlast => exact ⟨(by decide : 2 ≤ 16), hextra⟩
  | zeros hextra => exact ⟨(by decide : 3 ≤ 16), hextra⟩
  | manyZeros hextra => exact ⟨(by decide : 7 ≤ 16), hextra⟩

/-- The extra bits of elements that expand have room, and a writer has room for them. -/
theorem Expands.extra_lt {lengths all : List Nat} {codes : List BitwidthCode} (h : Expands lengths codes all) :
    ∀ c ∈ codes, c.extraBits ≤ 16 ∧ c.extra < 2 ^ c.extraBits := by
  induction h with
  | nil => exact fun c hc => (nomatch hc)
  | cons hadds _ ih =>
    intro c hc
    rcases List.mem_cons.mp hc with rfl | hc
    · exact hadds.extra_lt
    · exact ih c hc

/-- The symbols of elements that expand are symbols of the code-length code. -/
theorem Expands.code_lt {lengths all : List Nat} {codes : List BitwidthCode} (h : Expands lengths codes all) :
    ∀ c ∈ codes, c.code < 19 := by
  induction h with
  | nil => exact fun c hc => (nomatch hc)
  | cons hadds _ ih =>
    intro c hc
    rcases List.mem_cons.mp hc with rfl | hc
    · cases hadds with
      | length h => exact h.trans (by decide)
      | last hextra hlast => exact (by decide : 16 < 19)
      | zeros hextra => exact (by decide : 17 < 19)
      | manyZeros hextra => exact (by decide : 18 < 19)
    · exact ih c hc

section

variable {codeLengthCode : List Nat}

/-- An element that was written is read as what it adds. -/
theorem BitwidthCode.Adds.read (hfits : Fits codeLengthCode) {lengths added : List Nat} {c : BitwidthCode}
    (h : c.Adds lengths added) (hc : HasCode codeLengthCode c.code) (rest : List Bool) :
    CodeLengthRead codeLengthCode lengths (c.bits codeLengthCode ++ rest) added rest := by
  unfold BitwidthCode.bits
  rw [List.append_assoc]
  have hsym := readSymbol_codeBits hfits hc (ofNat c.extraBits c.extra ++ rest)
  cases h with
  | length h =>
    rw [ofNat_zero_width, List.nil_append] at hsym ⊢
    exact .length hsym h
  | last hextra hlast => exact .last hsym (readField_append hextra rest) hlast
  | zeros hextra => exact .zeros hsym (readField_append hextra rest)
  | manyZeros hextra => exact .manyZeros hsym (readField_append hextra rest)

/-- Elements that expand to as many code lengths as are announced are read as these. -/
theorem readCodeLengths_of_expand (hfits : Fits codeLengthCode) {lengths all : List Nat} {codes : List BitwidthCode}
    (h : Expands lengths codes all) (hcodes : ∀ c ∈ codes, HasCode codeLengthCode c.code) {fuel : Nat}
    (hfuel : all.length ≤ lengths.length + fuel) (rest : List Bool) :
    Rfc1951.readCodeLengths codeLengthCode all.length fuel (codes.flatMap (BitwidthCode.bits codeLengthCode) ++ rest) lengths =
      some (all, rest) := by
  induction h generalizing fuel with
  | nil lengths => rw [readCodeLengths_done _ _ le_rfl, if_pos rfl, List.flatMap_nil, List.nil_append]
  | cons hadds hrest ih =>
    rename_i lengths added all c codes
    have hread := hadds.read hfits (hcodes c List.mem_cons_self) (codes.flatMap (BitwidthCode.bits codeLengthCode) ++ rest)
    have hpos := hread.length_pos
    have hle := hrest.length_le
    rw [List.length_append] at hle
    cases fuel with
    | zero => omega
    | succ fuel =>
      rw [List.flatMap_cons, List.append_assoc, readCodeLengths_succ fuel _ (by omega), readCodeLength_iff.mpr hread,
        Option.bind_some]
      exact ih (fun c hc => hcodes c (List.mem_cons_of_mem _ hc)) (by rw [List.length_append]; omega)

end

end Noflate
