import Noflate.Zlib
import Noflate.Rfc1950
import Noflate.Lemmas.Checksums
import Noflate.Lemmas.Draining

/-!
# The zlib decoder against its format

The format of a zlib stream over the deflate body, and `Stands`, which relates a decoder to where a reader of the format stands. A
round of the loop of `feed` reads a piece of the slice as the reader does (`feedStep_spec`), whichever of the two pieces of code
takes the bytes of the trailer.
-/

namespace Noflate.Zlib

open BitString Framing

/-! ## The format -/

/-- The two bytes of the header may be bad. -/
def checkHeader (bytes : List UInt8) : Option (Option (List UInt8)) :=
  if Rfc1950.Header (bytes.getD 0 0) (bytes.getD 1 0) then some none else none

/-- Read a byte of the header, behind those that are there. -/
def headerStep (bytes : List UInt8) (b : UInt8) : Option (Option (List UInt8)) :=
  if (bytes ++ [b]).length < 2 then some (some (bytes ++ [b])) else checkHeader (bytes ++ [b])

theorem length_trailer (data : List UInt8) : (Rfc1950.trailer data).length = 4 := length_beBytes 4 _

theorem trailer_ne_nil (data : List UInt8) : Rfc1950.trailer data ≠ [] :=
  List.ne_nil_of_length_pos (by rw [length_trailer]; exact Nat.succ_pos 3)

/-- The format of a zlib stream. -/
def format : Format UInt8 (List UInt8) (List UInt8) := containerFormat [] headerStep Rfc1950.trailer trailer_ne_nil

theorem collects_header : format.Collects id 2 checkHeader := fun _ _ _ => rfl

/-- The header that is read is two bytes that are a header. -/
theorem isHeader_iff {bytes : List UInt8} :
    format.IsHeader format.start bytes ↔ ∃ cmf flg, bytes = [cmf, flg] ∧ Rfc1950.Header cmf flg := by
  have hzero : ([] : List UInt8).length < 2 := Nat.succ_pos 1
  refine Iff.trans (collects_header.isHeader_iff hzero) ?_
  constructor
  · rintro ⟨header, rest, o, rfl, hlen, ho, hb⟩
    obtain ⟨cmf, flg, rfl⟩ := List.length_eq_two.mp hlen
    by_cases h : Rfc1950.Header cmf flg
    · have hcheck : checkHeader [cmf, flg] = some none := if_pos h
      obtain rfl := Option.some.inj (hcheck.symm.trans ho)
      obtain rfl : rest = [] := hb
      exact ⟨cmf, flg, rfl, h⟩
    · have hcheck : checkHeader [cmf, flg] = none := if_neg h
      cases hcheck.symm.trans ho
  · rintro ⟨cmf, flg, rfl, h⟩
    exact ⟨[cmf, flg], [], none, rfl, rfl, if_pos h, rfl⟩

/-- The checks of the header, against those of the format. -/
theorem validateZlibHeader_spec (header : List UInt8) :
    (checkHeader header = some none ∧ validateZlibHeader header = .ok ()) ∨
      (checkHeader header = none ∧ ∃ e, validateZlibHeader header = .err e) := by
  unfold checkHeader validateZlibHeader
  generalize header.getD 0 0 = cmf
  generalize header.getD 1 0 = flg
  have hmethod : cmf &&& 0x0F ≠ 8 ↔ ¬cmf.toNat % 16 = 8 := by
    rw [Ne, ← UInt8.toNat_inj, UInt8.toNat_and]
    exact not_congr (Eq.congr_left (Nat.and_two_pow_sub_one_eq_mod cmf.toNat 4))
  have hwindow : cmf >>> 4 > 7 ↔ ¬cmf.toNat / 16 ≤ 7 := by
    have hshift : (cmf >>> 4).toNat = cmf.toNat / 16 := by
      rw [UInt8.toNat_shiftRight]
      exact Nat.shiftRight_eq_div_pow cmf.toNat 4
    rw [gt_iff_lt, UInt8.lt_iff_toNat_lt, hshift, Nat.not_le]
    exact Iff.rfl
  have hdict : flg &&& 0x20 ≠ 0 ↔ ¬flg.toNat.testBit 5 = false := by
    have hand : (flg &&& 0x20).toNat = (flg.toNat.testBit 5).toNat * 2 ^ 5 := by
      rw [UInt8.toNat_and]
      exact Nat.and_two_pow flg.toNat 5
    rw [Ne, ← UInt8.toNat_inj, hand]
    cases flg.toNat.testBit 5 <;> simp
  have hcheck : ((cmf.toNat <<< 8) ||| flg.toNat) % 31 ≠ 0 ↔ ¬(256 * cmf.toNat + flg.toNat) % 31 = 0 := by
    have hor := or_shiftLeft cmf.toNat flg.toNat_lt
    rw [Nat.lor_comm, hor, Nat.add_comm]
    exact Iff.rfl
  by_cases h1 : cmf.toNat % 16 = 8
  · rw [if_neg (not_not_intro h1 ∘ hmethod.mp)]
    by_cases h2 : cmf.toNat / 16 ≤ 7
    · rw [if_neg (not_not_intro h2 ∘ hwindow.mp)]
      by_cases h3 : flg.toNat.testBit 5 = false
      · rw [if_neg (not_not_intro h3 ∘ hdict.mp)]
        by_cases h4 : (256 * cmf.toNat + flg.toNat) % 31 = 0
        · rw [if_neg (not_not_intro h4 ∘ hcheck.mp)]
          exact .inl ⟨if_pos ⟨h1, h2, h3, h4⟩, rfl⟩
        · rw [if_pos (hcheck.mpr h4)]
          exact .inr ⟨if_neg fun h => h4 h.2.2.2, _, rfl⟩
      · rw [if_pos (hdict.mpr h3)]
        exact .inr ⟨if_neg fun h => h3 h.2.2.1, _, rfl⟩
    · rw [if_pos (hwindow.mpr h2)]
      exact .inr ⟨if_neg fun h => h2 h.2.1, _, rfl⟩
  · rw [if_pos (hmethod.mpr h1)]
    exact .inr ⟨if_neg fun h => h1 h.1, _, rfl⟩

/-! ## The fields of the decoder -/

/-- A decoder before its body: nothing is decoded and nothing of the trailer is there. -/
structure Unstarted (d : Decoder) : Prop where
  deflate_eq : d.deflate = Noflate.Decoder.new
  adler_eq : d.adler = Adler32.new
  output_eq : d.output.get = []
  trailer_length : d.trailer.length = 4
  trailerFilled_eq : d.trailerFilled = 0
  finished_eq : d.finished = false

/-- What a decoder has collected from the body, of which the caller has consumed the beginning. -/
structure Collected (gone taken : List UInt8) (d : Decoder) : Prop where
  adler_of : Adler32.Of taken d.adler
  output_eq : taken = gone ++ d.output.get

/-- A decoder in its body. -/
structure InBody (gone taken : List UInt8) (d : Decoder) : Prop where
  collected : Collected gone taken d
  state_eq : d.state = .body
  trailer_length : d.trailer.length = 4
  trailerFilled_eq : d.trailerFilled = 0
  finished_eq : d.finished = false

/-- A decoder in its trailer. -/
structure InTrailer (gone taken filled : List UInt8) (d : Decoder) : Prop where
  collected : Collected gone taken d
  state_eq : d.state = .trailer
  trailer_length : d.trailer.length = 4
  trailerFilled_eq : d.trailerFilled = filled.length
  filled_lt : filled.length < 4
  filled_eq : d.trailer.take filled.length = filled
  finished_eq : d.finished = false

/-- Where a decoder stands in a stream, the caller having consumed some output. -/
inductive Stands (gone : List UInt8) (d : Decoder) : Phase UInt8 (List UInt8) (List UInt8) → Prop
  | header {bytes : List UInt8} (hd : Unstarted d) (hgone : gone = []) (hstate : d.state = .header)
      (hlength : d.header.length = 2) (hfilled : d.headerFilled = bytes.length) (hlt : bytes.length < 2)
      (hbytes : d.header.take bytes.length = bytes) : Stands gone d (.header bytes)
  | body {bytes dropped taken : List UInt8} (hd : InBody gone taken d) (hwaits : d.deflate.Waits bytes dropped taken) :
      Stands gone d (.body bytes)
  | trailer {taken filled : List UInt8} (hd : InTrailer gone taken filled d) : Stands gone d (.trailer taken filled)
  | done {taken : List UInt8} (hd : Collected gone taken d) (hstate : d.state = .done) (hfinished : d.finished = true) :
      Stands gone d (.done taken)

/-- The states in the order in which a stream goes through them. -/
def State.rank : State → Nat
  | .header => 3
  | .body => 2
  | .trailer => 1
  | .done => 0

/-- The deflate decoder is in the placeholder that a failed step leaves behind. -/
def BodyFailed (d : Decoder) : Prop := d.state = .body ∧ d.deflate.state = .transient

/-- From the trailer on, the body has not failed. -/
theorem not_bodyFailed {d : Decoder} (h : d.state.rank ≤ 1) : ¬BodyFailed d := by
  intro hd
  rw [hd.1] at h
  exact absurd h (by decide)

/-- How reading bytes of the trailer ends, against the reader of the format: where the reader stands behind them, or in an error. -/
inductive Reads (gone : List UInt8) (q : Option (Phase UInt8 (List UInt8) (List UInt8))) : Exec Unit × Decoder → Prop
  | ok {d : Decoder} {p : Phase UInt8 (List UInt8) (List UInt8)} (hq : q = some p) (h : Stands gone d p)
      (hrank : d.state.rank ≤ 1) : Reads gone q (.ok (), d)
  | err {e : Error} {d : Decoder} (hq : q = none) (hrank : d.state.rank ≤ 1) : Reads gone q (.err e, d)

/-! ## The trailer -/

/-- The check of the trailer is that it is the trailer. -/
theorem trailer_iff (data : List UInt8) {bytes : List UInt8} (h : bytes.length = 4) :
    bytes = Rfc1950.trailer data ↔ beNat bytes = Rfc1950.adler32 data := by
  have hadler : Rfc1950.adler32 data < 256 ^ 4 := Adler32.adler32_lt data
  rw [beNat_eq_iff h hadler]
  exact Iff.rfl

theorem step_trailer (taken filled : List UInt8) (b : UInt8) :
    format.step (.trailer taken filled) b = if (filled ++ [b]).length < 4 then some (.trailer taken (filled ++ [b]))
      else if filled ++ [b] = Rfc1950.trailer taken then some (.done taken) else none := by
  rw [← length_trailer taken]
  rfl

section

variable {gone taken filled : List UInt8} {d : Decoder}

theorem InTrailer.rank_le (hd : InTrailer gone taken filled d) : d.state.rank ≤ 1 := by
  rw [hd.state_eq]
  exact Nat.le_refl 1

/-- Filling up the trailer, however it is done: the check is that of the format. -/
theorem InTrailer.complete (hd : InTrailer gone taken filled d) {bytes trailer : List UInt8} (n : Nat)
    (hfull : (filled ++ bytes).length = 4) (htrailer : trailer = filled ++ bytes) :
    (beNat trailer = d.adler.value ∧ format.run (.trailer taken filled) bytes = some (.done taken) ∧
        Stands gone { d with trailer, trailerFilled := n, state := .done, finished := true } (.done taken)) ∨
      (beNat trailer ≠ d.adler.value ∧ format.run (.trailer taken filled) bytes = none) := by
  have hrun := format.run_trailer_eq (o := taken) (hd.filled_lt.trans_eq (length_trailer taken).symm)
    (hfull.trans (length_trailer taken).symm)
  rw [hrun, htrailer, hd.collected.adler_of.value_eq]
  by_cases h : filled ++ bytes = Rfc1950.trailer taken
  · exact .inl ⟨(trailer_iff taken hfull).mp h, if_pos h, .done ⟨hd.collected.adler_of, hd.collected.output_eq⟩ rfl rfl⟩
  · exact .inr ⟨fun he => h ((trailer_iff taken hfull).mpr he), if_neg h⟩

/-- Filling some of the trailer. -/
theorem InTrailer.more (hd : InTrailer gone taken filled d) {bytes trailer : List UInt8}
    (hshort : (filled ++ bytes).length < 4) (hlength : trailer.length = 4)
    (htake : trailer.take (filled ++ bytes).length = filled ++ bytes) :
    InTrailer gone taken (filled ++ bytes) { d with
      state := .trailer, trailer, trailerFilled := filled.length + bytes.length } :=
  ⟨⟨hd.collected.adler_of, hd.collected.output_eq⟩, rfl, hlength, List.length_append.symm, hshort, htake, hd.finished_eq⟩

/-- A byte of the trailer that came with the body. -/
theorem feedByteInTrailer_spec (hd : InTrailer gone taken filled d) (b : UInt8) :
    Reads gone (format.step (.trailer taken filled) b) (d.feedByteInTrailer b) := by
  have hlt : filled.length < d.trailer.length := hd.filled_lt.trans_eq hd.trailer_length.symm
  have htake := take_set_succ hlt hd.filled_eq b
  have hlen : (filled ++ [b]).length = filled.length + 1 := List.length_append
  have hset : (d.trailer.set filled.length b).length = 4 := by rw [List.length_set, hd.trailer_length]
  have hguard : ¬4 ≤ filled.length := Nat.not_le.mpr hd.filled_lt
  have hstep : format.step (.trailer taken filled) b = format.run (.trailer taken filled) [b] := by
    rw [Format.run_cons]
    cases format.step (.trailer taken filled) b <;> rfl
  unfold Decoder.feedByteInTrailer
  simp only [hd.state_eq, hd.trailerFilled_eq, if_neg hguard]
  rw [hstep]
  by_cases hfull : filled.length + 1 = 4
  · have hbytes : d.trailer.set filled.length b = filled ++ [b] := by
      rwa [hlen, hfull, List.take_of_length_le hset.le] at htake
    rw [if_pos hfull]
    rcases hd.complete (filled.length + 1) (hlen.trans hfull) hbytes with ⟨h1, h2, h3⟩ | ⟨h1, h2⟩
    · rw [if_neg (not_not_intro h1)]
      exact .ok h2 h3 (Nat.zero_le _)
    · rw [if_pos h1]
      exact .err h2 (Nat.le_refl 1)
  · have hshort : (filled ++ [b]).length < 4 := hlen.trans_lt (Nat.lt_of_le_of_ne hd.filled_lt hfull)
    rw [if_neg hfull]
    exact .ok (format.run_trailer_lt (hshort.trans_eq (length_trailer taken).symm)) (.trailer (hd.more hshort hset htake))
      (Nat.le_refl 1)

theorem Stands.inTrailer {taken : List UInt8} (h : Stands gone d (.trailer taken filled)) : InTrailer gone taken filled d := by
  cases h with
  | trailer hd => exact hd

theorem Stands.isDone {taken : List UInt8} (h : Stands gone d (.done taken)) :
    Collected gone taken d ∧ d.state = .done ∧ d.finished = true := by
  cases h with
  | done hd hstate hfinished => exact ⟨hd, hstate, hfinished⟩

/-- The loop over the bytes that the deflate decoder left over. -/
theorem tailLoop_spec (bytes : List UInt8) (hd : InTrailer gone taken filled d) (hle : (filled ++ bytes).length ≤ 4) :
    Reads gone (format.run (.trailer taken filled) bytes) (Decoder.tailLoop bytes d) := by
  induction bytes generalizing filled d with
  | nil => exact .ok rfl (.trailer hd) hd.rank_le
  | cons b bytes ih =>
    rw [Decoder.tailLoop, Format.run_cons]
    have hbyte := feedByteInTrailer_spec hd b
    generalize d.feedByteInTrailer b = r at hbyte
    generalize hq : format.step (.trailer taken filled) b = q at hbyte
    cases hbyte with
    | err hnone hrank => exact .err (by rw [hnone]; rfl) hrank
    | @ok d' p hp h hrank =>
      rw [hp, Option.bind_some]
      rw [List.append_cons] at hle
      by_cases hshort : (filled ++ [b]).length < 4
      · rw [step_trailer, if_pos hshort, hp] at hq
        obtain rfl := Option.some.inj hq
        exact ih h.inTrailer hle
      · -- the last byte: there is none behind it
        have hnil : bytes = [] := by
          rw [List.length_append] at hle
          exact List.eq_nil_of_length_eq_zero (by omega)
        subst hnil
        exact .ok rfl h hrank

/-- The bytes that the deflate decoder left over are read as the trailer. -/
theorem consumeDeflateTail_spec (hd : InTrailer gone taken [] d) :
    Reads gone (format.run (.trailer taken []) d.deflate.remainingInput) d.consumeDeflateTail := by
  unfold Decoder.consumeDeflateTail
  simp only
  generalize d.deflate.remainingInput = tail
  have hloop := tailLoop_spec (tail.take 4) hd (by rw [List.nil_append]; exact List.length_take_le _ _)
  generalize Decoder.tailLoop (tail.take 4) d = r at hloop ⊢
  by_cases hlong : 4 < tail.length
  · have hnone : format.run (.trailer taken []) tail = none :=
      format.run_trailer_gt hd.filled_lt ((length_trailer taken).trans_lt hlong)
    cases hloop with
    | err _ hrank => exact .err hnone hrank
    | ok _ _ hrank =>
      simp only [if_pos hlong]
      exact .err hnone hrank
  · rw [List.take_of_length_le (Nat.le_of_not_lt hlong)] at hloop
    cases hloop with
    | err hq hrank => exact .err hq hrank
    | ok hp h hrank =>
      simp only [if_neg hlong]
      exact .ok hp h hrank

end

/-! ## The rounds -/

/-- How a round of the loop ends: it reads a piece of the slice; or it ends in an error that some of the bytes make, in the body if the
first bad one is there. -/
inductive Round (gone : List UInt8) (p : Phase UInt8 (List UInt8) (List UInt8)) (before : State) (bytes : List UInt8) :
    Exec (List UInt8) × Decoder → Prop
  | ok {d : Decoder} {p' : Phase UInt8 (List UInt8) (List UInt8)} {piece rest : List UInt8} (hbytes : bytes = piece ++ rest)
      (hp : format.run p piece = some p') (h : Stands gone d p')
      (hless : rest.length + d.state.rank < bytes.length + before.rank) : Round gone p before bytes (.ok rest, d)
  | err {e : Error} {d : Decoder} (hp : format.run p bytes = none) (hbody : BodyFailed d ↔ format.BodyBad p bytes) :
      Round gone p before bytes (.err e, d)

section

variable {gone : List UInt8} {d : Decoder} {bytes : List UInt8}

/-- A round in the trailer. -/
theorem round_trailer {taken filled : List UInt8} (hd : InTrailer gone taken filled d) (hbytes : bytes ≠ []) :
    Round gone (.trailer taken filled) .trailer bytes (d.feedStep bytes) := by
  obtain ⟨piece, rest, hsplit, hmin, htake, hdrop, hless, hfull⟩ := fill_cases hd.filled_lt hbytes
  have hguard : ¬4 < filled.length := Nat.not_lt.mpr hd.filled_lt.le
  have hle : filled.length + piece.length ≤ 4 := hfull.elim Nat.le_of_eq fun h => h.1.le
  have hlen : (filled ++ piece).length = filled.length + piece.length := List.length_append
  have hcopied : (copyFromSlice d.trailer filled.length piece).length = 4 := by
    rw [length_copyFromSlice (hle.trans_eq hd.trailer_length.symm), hd.trailer_length]
  have hfront := take_copyFromSlice hd.filled_eq piece
  generalize hcopy : copyFromSlice d.trailer filled.length piece = copy at hcopied hfront
  unfold Decoder.feedStep
  simp only [hd.state_eq, hd.trailerFilled_eq, if_neg hguard, hmin, htake, hdrop, hcopy]
  rcases hfull with hfull | ⟨hshort, rfl⟩
  · have hall : copy = filled ++ piece := by
      rwa [hlen, hfull, List.take_of_length_le hcopied.le] at hfront
    rw [if_pos hfull]
    rcases hd.complete (filled.length + piece.length) (hlen.trans hfull) hall with ⟨h1, h2, h3⟩ | ⟨h1, h2⟩
    · rw [if_neg (not_not_intro h1)]
      exact .ok hsplit h2 h3 (Nat.add_lt_add_of_lt_of_le hless (Nat.zero_le _))
    · rw [if_pos h1]
      refine .err ?_ (iff_of_false (not_bodyFailed (Nat.le_refl 1)) (Format.not_bodyBad_trailer _ _ _))
      rw [hsplit, Format.run_append, h2]
      rfl
  · rw [if_neg hshort.ne]
    exact .ok hsplit (format.run_trailer_lt ((hlen.trans_lt hshort).trans_eq (length_trailer taken).symm))
      (.trailer (hd.more (hlen.trans_lt hshort) hcopied hfront)) (Nat.add_lt_add_right hless _)

/-- Collecting a piece of output. -/
theorem InBody.collect {taken : List UInt8} (hd : InBody gone taken d) (new : List UInt8) :
    InBody gone (taken ++ new) (d.collect new) := by
  refine ⟨⟨hd.collected.adler_of.update new, ?_⟩, hd.state_eq, hd.trailer_length, hd.trailerFilled_eq, hd.finished_eq⟩
  simp only [Decoder.collect, Buf.get_feed]
  rw [hd.collected.output_eq, List.append_assoc]

/-- The body: the rest of the slice is fed to the deflate decoder, and what that leaves over is read as the trailer. -/
theorem feedBody_spec {body dropped taken : List UInt8} (hd : InBody gone taken d) (hwaits : d.deflate.Waits body dropped taken)
    (hbytes : bytes ≠ []) : Round gone (.body body) .body bytes (d.feedBody bytes) := by
  have hpos := List.length_pos_iff.mpr hbytes
  have hcollect : ∀ taken x new, InBody gone taken x → InBody gone (taken ++ new) (Decoder.collect x new) :=
    fun _ _ new h => h.collect new
  have hdrain := Noflate.Decoder.feedAndDrain_spec hcollect hwaits hd bytes
  unfold Decoder.feedBody
  generalize feedAndDrain Decoder.collect d d.deflate bytes = r at hdrain ⊢
  cases hdrain with
  | @waiting dropped' taken' d' deflate hd' hwaits' =>
    refine .ok (List.append_nil _).symm (run_body_waiting rfl hwaits') (.body ⟨⟨hd'.collected.adler_of,
      hd'.collected.output_eq⟩, hd'.state_eq, hd'.trailer_length, hd'.trailerFilled_eq, hd'.finished_eq⟩ hwaits') ?_
    simp only [hd'.state_eq, List.length_nil]
    omega
  | @failed e dropped' taken' d' deflate hd' hdead =>
    have hbad := bodyBad_failed (F := format) rfl hwaits hdead
    exact .err hbad.run_eq ⟨fun _ => hbad, fun _ => ⟨hd'.state_eq, hdead.state_eq⟩⟩
  | @finished dropped' taken' d' deflate hd' hfinishes =>
    obtain ⟨used, hused, -, hrun⟩ := run_body_finished (F := format) rfl hwaits hfinishes
    have hall : format.run (.body body) bytes = format.run (.trailer taken' []) deflate.remainingInput := by
      rw [hused, Format.run_append, hrun, Option.bind_some]
    have hin : InTrailer gone taken' [] { d' with deflate, state := .trailer } :=
      ⟨⟨hd'.collected.adler_of, hd'.collected.output_eq⟩, rfl, hd'.trailer_length, hd'.trailerFilled_eq, Nat.succ_pos 3, rfl,
        hd'.finished_eq⟩
    have htail := consumeDeflateTail_spec hin
    simp only at htail ⊢
    generalize Decoder.consumeDeflateTail { d' with deflate, state := .trailer } = r at htail ⊢
    cases htail with
    | err hnone hrank =>
      refine .err (hall.trans hnone) (iff_of_false (not_bodyFailed hrank) ?_)
      rw [hused, Format.bodyBad_append_iff hrun]
      exact Format.not_bodyBad_trailer _ _ _
    | ok hp h hrank =>
      refine .ok (List.append_nil _).symm (hall.trans hp) h ?_
      rw [List.length_nil, Nat.zero_add]
      exact Nat.lt_of_le_of_lt hrank (Nat.lt_add_left _ (Nat.lt_succ_self 1))

/-- At the start of the body. -/
theorem Unstarted.body (hd : Unstarted d) (hstate : d.state = .body) : Stands [] d (.body []) := by
  have hcollected : Collected [] [] d := by
    refine ⟨?_, ?_⟩
    · rw [hd.adler_eq]
      exact Adler32.new_of
    · rw [hd.output_eq]
      rfl
  have hwaits : d.deflate.Waits [] [] [] := by
    rw [hd.deflate_eq]
    exact Noflate.Decoder.new_waits
  exact .body ⟨hcollected, hstate, hd.trailer_length, hd.trailerFilled_eq, hd.finished_eq⟩ hwaits

/-- A round in the header. -/
theorem round_header {pre : List UInt8} (hd : Unstarted d) (hstate : d.state = .header) (hlength : d.header.length = 2)
    (hfilled : d.headerFilled = pre.length) (hlt : pre.length < 2) (hpre : d.header.take pre.length = pre)
    (hbytes : bytes ≠ []) : Round [] (.header pre) .header bytes (d.feedStep bytes) := by
  obtain ⟨piece, rest, hsplit, hmin, htake, hdrop, hless, hfull⟩ := fill_cases hlt hbytes
  have hguard : ¬2 < pre.length := Nat.not_lt.mpr hlt.le
  have hle : pre.length + piece.length ≤ 2 := hfull.elim Nat.le_of_eq fun h => h.1.le
  have hlen : (pre ++ piece).length = pre.length + piece.length := List.length_append
  have hcopied : (copyFromSlice d.header pre.length piece).length = 2 := by
    rw [length_copyFromSlice (hle.trans_eq hlength.symm), hlength]
  have hfront := take_copyFromSlice hpre piece
  generalize hcopy : copyFromSlice d.header pre.length piece = copy at hcopied hfront
  have hun : ∀ state, Unstarted { d with state, header := copy, headerFilled := pre.length + piece.length } := fun _ =>
    ⟨hd.1, hd.2, hd.3, hd.4, hd.5, hd.6⟩
  unfold Decoder.feedStep
  simp only [hstate, hfilled, if_neg hguard, hmin, htake, hdrop, hcopy]
  rcases hfull with hfull | ⟨hshort, rfl⟩
  · have hall : copy = pre ++ piece := by
      rwa [hlen, hfull, List.take_of_length_le hcopied.le] at hfront
    have hrun := collects_header.run_eq hlt (hlen.trans hfull)
    rw [← hall] at hrun
    rw [if_pos hfull]
    rcases validateZlibHeader_spec copy with ⟨hcheck, hvalid⟩ | ⟨hcheck, e, hvalid⟩
    · rw [hcheck] at hrun
      simp only [hvalid]
      exact .ok hsplit hrun ((hun .body).body rfl) (Nat.add_lt_add_of_lt_of_le hless (Nat.le_succ 2))
    · rw [hcheck] at hrun
      simp only [hvalid]
      refine .err ?_ (iff_of_false (fun hbody => nomatch hbody.1) ?_)
      · rw [hsplit, Format.run_append]
        exact (congrArg (Option.bind · _) hrun).trans rfl
      · rw [hsplit]
        exact collects_header.not_bodyBad hlt (hlen.trans hfull) (hall ▸ hcheck) rest
  · rw [if_neg hshort.ne]
    exact .ok hsplit (collects_header.run_lt (hlen.trans_lt hshort))
      (.header (hun .header) rfl rfl hcopied hlen.symm (hlen.trans_lt hshort) hfront) (Nat.add_lt_add_right hless _)

end

/-- A round of the loop reads a piece of the slice as the reader of the format does. -/
theorem feedStep_spec {gone bytes : List UInt8} {d : Decoder} {p : Phase UInt8 (List UInt8) (List UInt8)} (h : Stands gone d p)
    (hbytes : bytes ≠ []) : Round gone p d.state bytes (d.feedStep bytes) := by
  cases h with
  | header hd hgone hstate hlength hfilled hlt hpre =>
    rw [hgone, hstate]
    exact round_header hd hstate hlength hfilled hlt hpre hbytes
  | body hd hwaits =>
    have hstep : d.feedStep bytes = d.feedBody bytes := by
      unfold Decoder.feedStep
      rw [hd.state_eq]
    rw [hstep, hd.state_eq]
    exact feedBody_spec hd hwaits hbytes
  | trailer hd =>
    rw [hd.state_eq]
    exact round_trailer hd hbytes
  | done hd hstate hfinished =>
    have hstep : d.feedStep bytes = (.err (.invalidData "bytes fed after zlib stream end"), d) := by
      unfold Decoder.feedStep
      rw [hstate]
    rw [hstep]
    obtain ⟨b, rest, rfl⟩ := List.exists_cons_of_ne_nil hbytes
    exact .err rfl (iff_of_false (fun hbody => nomatch hstate.symm.trans hbody.1) (Format.not_bodyBad_done _ _))

/-! ## The loop -/

/-- How the loop of `feed` ends, against the reader of the format. -/
inductive Feeds (gone : List UInt8) (p : Phase UInt8 (List UInt8) (List UInt8)) (bytes : List UInt8) : Exec Unit × Decoder → Prop
  | ok {d : Decoder} {p' : Phase UInt8 (List UInt8) (List UInt8)} (hp : format.run p bytes = some p') (h : Stands gone d p') :
      Feeds gone p bytes (.ok (), d)
  | err {e : Error} {d : Decoder} (hp : format.run p bytes = none) (hbody : BodyFailed d ↔ format.BodyBad p bytes) :
      Feeds gone p bytes (.err e, d)

/-- The loop comes back, and reads the slice as the reader of the format does. -/
theorem feedLoop_spec (fuel : Nat) {gone bytes : List UInt8} {d : Decoder} {p : Phase UInt8 (List UInt8) (List UInt8)}
    (h : Stands gone d p) (hfuel : bytes.length + d.state.rank ≤ fuel) :
    Feeds gone p bytes (Decoder.feedLoop fuel d bytes) := by
  induction fuel generalizing d p bytes with
  | zero =>
    have hnil : bytes = [] := List.eq_nil_of_length_eq_zero (by omega)
    subst hnil
    exact .ok rfl h
  | succ fuel ih =>
    cases bytes with
    | nil => exact .ok rfl h
    | cons b bytes =>
      have hround := feedStep_spec h (List.cons_ne_nil b bytes)
      rw [Decoder.feedLoop]
      generalize d.feedStep (b :: bytes) = r at hround
      cases hround with
      | err hp hbody => exact .err hp hbody
      | @ok d' p' piece rest hsplit hp h' hless =>
        have hrest := ih h' (Nat.le_of_lt_succ (hless.trans_le hfuel))
        have hall : format.run p (b :: bytes) = format.run p' rest := by rw [hsplit, Format.run_append, hp, Option.bind_some]
        simp only
        generalize Decoder.feedLoop fuel d' rest = r at hrest ⊢
        cases hrest with
        | ok hq h => exact .ok (hall.trans hq) h
        | err hq hbody =>
          refine .err (hall.trans hq) (hbody.trans ?_)
          rw [hsplit, Format.bodyBad_append_iff hp]

/-- A call of `feed` reads the slice as the reader of the format does. -/
theorem feed_spec {gone : List UInt8} {d : Decoder} {p : Phase UInt8 (List UInt8) (List UInt8)} (h : Stands gone d p)
    (bytes : List UInt8) : Feeds gone p bytes (d.feed bytes) := by
  refine feedLoop_spec _ h (Nat.add_le_add_left ?_ _)
  cases d.state <;> exact by decide

/-- A fresh decoder stands at the start of the header. -/
theorem new_stands : Stands [] Decoder.new (.header []) := by
  have hd : Unstarted Decoder.new := ⟨rfl, rfl, rfl, rfl, rfl, rfl⟩
  exact .header hd rfl rfl rfl rfl (Nat.succ_pos 1) rfl

/-- A decoder is finished behind the end of a stream. -/
theorem Stands.finished_iff {gone : List UInt8} {d : Decoder} {p : Phase UInt8 (List UInt8) (List UInt8)} (h : Stands gone d p) :
    d.finished = true ↔ ∃ o, p = .done o := by
  cases h with
  | header hd => exact not_finished_iff hd.finished_eq fun _ => nofun
  | body hd => exact not_finished_iff hd.finished_eq fun _ => nofun
  | trailer hd => exact not_finished_iff hd.finished_eq fun _ => nofun
  | done hd hstate hfinished => exact ⟨fun _ => ⟨_, rfl⟩, fun _ => hfinished⟩

/-- The body of a decoder that stands somewhere in a stream has not failed. -/
theorem Stands.not_bodyFailed {gone : List UInt8} {d : Decoder} {p : Phase UInt8 (List UInt8) (List UInt8)} (h : Stands gone d p) :
    ¬BodyFailed d := by
  intro hd
  cases h with
  | header _ _ hstate => cases hstate.symm.trans hd.1
  | body _ hwaits => exact hwaits.not_transient hd.2
  | trailer hin => cases hin.state_eq.symm.trans hd.1
  | done _ hstate => cases hstate.symm.trans hd.1

/-- A fresh decoder reads zlib streams. -/
theorem reads : ReadsFormat format Decoder.new.feedChunks Decoder.finished (·.output.get) := by
  refine .of_stands (Stands []) Decoder.feed Decoder.feedChunks (fun _ => rfl) ?_ ?_ ?_ ?_ new_stands
  · intro d d' data hfeed chunks
    rw [Decoder.feedChunks, hfeed]
  · intro d d' data e hfeed chunks
    rw [Decoder.feedChunks, hfeed]
  · intro d p h data
    have hfeed := feed_spec h data
    generalize d.feed data = r at hfeed ⊢
    cases hfeed with
    | ok hq h' => exact .inl ⟨_, _, rfl, hq, h'⟩
    | err hq => exact .inr ⟨⟨_, _, rfl⟩, hq⟩
  · intro d p h data
    constructor
    · rintro ⟨hfinished, rfl⟩
      obtain ⟨taken, rfl⟩ := h.finished_iff.mp hfinished
      exact congrArg Phase.done h.isDone.1.output_eq
    · rintro rfl
      exact ⟨h.finished_iff.mpr ⟨_, rfl⟩, h.isDone.1.output_eq.symm⟩

end Noflate.Zlib
