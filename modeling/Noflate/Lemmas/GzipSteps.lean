import Noflate.Lemmas.Checksums
import Noflate.Lemmas.GzipFormat

/-!
# The gzip decoder against its format

`Stands` relates a decoder to where a reader of the format stands. A round of the loop of `feed` reads a piece of the slice as the
reader does (`feedStep_spec`), and so does the whole loop (`feedLoop_spec`).
-/

namespace Noflate.Gzip

open BitString Framing
open Rfc1952 (flag)
open HeaderState (afterComment afterName afterExtra afterLength afterFixed checkFixed)

/-! ## The fields of the decoder -/

/-- A flag is tested by its mask. -/
theorem mask_ne_zero_iff {flags mask : UInt8} {k : Nat} (hmask : mask.toNat = 2 ^ k) :
    flags &&& mask ≠ 0 ↔ flag flags k = true := by
  have hzero : flags &&& mask = 0 ↔ flags.toNat &&& 2 ^ k = 0 := by
    rw [← UInt8.toNat_inj, UInt8.toNat_and, hmask]
    rfl
  rw [Ne, hzero, Nat.and_two_pow, flag]
  cases flags.toNat.testBit k with
  | false => simp
  | true => simp

/-- A decoder before its body: nothing is decoded and nothing of the trailer is there. -/
structure Unstarted (d : Decoder) : Prop where
  extraLen_length : d.extraLen.length = 2
  deflate_eq : d.deflate = Noflate.Decoder.new
  crc_eq : d.crc = Crc32.new
  size_eq : d.size = 0
  output_eq : d.output.get = []
  trailer_length : d.trailer.length = 8
  trailerFilled_eq : d.trailerFilled = 0
  finished_eq : d.finished = false

/-- What a decoder has collected from the body, of which the caller has consumed the beginning. -/
structure Collected (gone taken : List UInt8) (d : Decoder) : Prop where
  crc_of : Crc32.Of taken d.crc
  size_eq : d.size = taken.length % 2 ^ 32
  output_eq : taken = gone ++ d.output.get

/-- A decoder in its body. -/
structure InBody (gone taken : List UInt8) (d : Decoder) : Prop where
  collected : Collected gone taken d
  state_eq : d.state = .body
  trailer_length : d.trailer.length = 8
  trailerFilled_eq : d.trailerFilled = 0
  finished_eq : d.finished = false

/-- A decoder in its trailer. -/
structure InTrailer (gone taken filled : List UInt8) (d : Decoder) : Prop where
  collected : Collected gone taken d
  state_eq : d.state = .trailer
  trailer_length : d.trailer.length = 8
  trailerFilled_eq : d.trailerFilled = filled.length
  filled_lt : filled.length < 8
  filled_eq : d.trailer.take filled.length = filled
  finished_eq : d.finished = false

/-- Where a decoder stands in a member, the caller having consumed some output. -/
inductive Stands (gone : List UInt8) (d : Decoder) : Phase UInt8 HeaderState (List UInt8) → Prop
  | fixed {bytes : List UInt8} (hd : Unstarted d) (hgone : gone = []) (hstate : d.state = .fixedHeader)
      (hlength : d.headerBytes.length = 10) (hfilled : d.headerFilled = bytes.length) (hlt : bytes.length < 10)
      (hbytes : d.headerBytes.take bytes.length = bytes) : Stands gone d (.header (.fixed bytes))
  | extraLength {bytes : List UInt8} (hd : Unstarted d) (hgone : gone = []) (hstate : d.state = .extra)
      (hfilled : d.extraLenBytesFilled = bytes.length) (hlt : bytes.length < 2) (hbytes : d.extraLen.take bytes.length = bytes) :
      Stands gone d (.header (.extraLength d.flags bytes))
  | extra {length : Nat} {bytes : List UInt8} (hd : Unstarted d) (hgone : gone = []) (hstate : d.state = .extraLen)
      (hlt : bytes.length < length) (hremaining : bytes.length + d.extraRemaining = length) :
      Stands gone d (.header (.extra d.flags length bytes))
  | extraEnd {p : Phase UInt8 HeaderState (List UInt8)} (hd : Unstarted d) (hgone : gone = []) (hstate : d.state = .extraLen)
      (hremaining : d.extraRemaining = 0) (hp : p = Format.behind (afterExtra d.flags)) : Stands gone d p
  | name (hd : Unstarted d) (hgone : gone = []) (hstate : d.state = .name) : Stands gone d (.header (.name d.flags))
  | comment (hd : Unstarted d) (hgone : gone = []) (hstate : d.state = .comment) : Stands gone d (.header (.comment d.flags))
  | headerCrc {bytes : List UInt8} (hd : Unstarted d) (hgone : gone = []) (hstate : d.state = .hcrc)
      (hfilled : d.extraLenBytesFilled = bytes.length) (hlt : bytes.length < 2) : Stands gone d (.header (.headerCrc bytes))
  | body {bytes dropped taken : List UInt8} (hd : InBody gone taken d) (hwaits : d.deflate.Waits bytes dropped taken) :
      Stands gone d (.body bytes)
  | trailer {taken filled : List UInt8} (hd : InTrailer gone taken filled d) : Stands gone d (.trailer taken filled)
  | done {taken : List UInt8} (hd : Collected gone taken d) (hstate : d.state = .done) (hfilled : d.trailerFilled = 8)
      (hfinished : d.finished = true) : Stands gone d (.done taken)

/-- How a call of `feed` that returned an error leaves a decoder: with a bad header, a body whose decoder has failed, a trailer that
does not match, or behind its end. -/
inductive Failed (d : Decoder) : Prop
  | header (hstate : d.state = .fixedHeader) (hfilled : d.headerFilled = 10) (hlength : d.headerBytes.length = 10)
      (herr : ∃ e, d.parseFixedHeader = .err e)
  | body {bytes dropped : List UInt8} (hstate : d.state = .body) (hdead : d.deflate.Dead bytes dropped)
  | trailer (hstate : d.state = .trailer) (hfilled : d.trailerFilled = 8)
  | done (hstate : d.state = .done)

/-- The deflate decoder is in the placeholder that a failed step leaves behind. -/
def BodyFailed (d : Decoder) : Prop := d.state = .body ∧ d.deflate.state = .transient

/-- The states in the order in which a member goes through them. -/
def State.rank : State → Nat
  | .fixedHeader => 8
  | .extra => 7
  | .extraLen => 6
  | .name => 5
  | .comment => 4
  | .hcrc => 3
  | .body => 2
  | .trailer => 1
  | .done => 0

/-- How reading bytes of the trailer ends, against the reader of the format: where the reader stands behind them, or in an error. -/
inductive Reads (gone : List UInt8) (q : Option (Phase UInt8 HeaderState (List UInt8))) : Exec Unit × Decoder → Prop
  | ok {d : Decoder} {p : Phase UInt8 HeaderState (List UInt8)} (hq : q = some p) (h : Stands gone d p)
      (hrank : d.state.rank ≤ 1) : Reads gone q (.ok (), d)
  | err {e : Error} {d : Decoder} (hq : q = none) (h : Failed d) (hrank : d.state.rank ≤ 1) : Reads gone q (.err e, d)

/-- From the trailer on, the body has not failed. -/
theorem not_bodyFailed {d : Decoder} (h : d.state.rank ≤ 1) : ¬BodyFailed d := by
  intro hd
  rw [hd.1] at h
  exact absurd h (by decide)

/-! ## The trailer -/

/-- The two checks of the trailer are that it is the trailer. -/
theorem trailer_iff (data : List UInt8) {bytes : List UInt8} (h : bytes.length = 8) :
    bytes = Rfc1952.trailer data ↔
      leNat (bytes.take 4) = Rfc1952.crc32 data ∧ leNat (bytes.drop 4) = data.length % 2 ^ 32 := by
  have hcrc : Rfc1952.crc32 data < 256 ^ 4 := Crc32.crc32_lt data
  have hsize : data.length % 2 ^ 32 < 256 ^ 4 := Nat.mod_lt _ (Nat.two_pow_pos 32)
  have hlen : (bytes.take 4).length = 4 := by
    rw [List.length_take, h]
    rfl
  rw [leNat_eq_iff hlen hcrc, leNat_eq_iff (by rw [List.length_drop, h]) hsize, Rfc1952.trailer]
  constructor
  · rintro rfl
    exact ⟨List.take_left' (length_leBytes _ _), List.drop_left' (length_leBytes _ _)⟩
  · rintro ⟨h1, h2⟩
    rw [← h1, ← h2, List.take_append_drop]

theorem step_trailer (taken filled : List UInt8) (b : UInt8) :
    format.step (.trailer taken filled) b = if (filled ++ [b]).length < 8 then some (.trailer taken (filled ++ [b]))
      else if filled ++ [b] = Rfc1952.trailer taken then some (.done taken) else none := by
  rw [← length_trailer taken]
  rfl

section

variable {gone taken filled : List UInt8} {d : Decoder}

theorem InTrailer.rank_le (hd : InTrailer gone taken filled d) : d.state.rank ≤ 1 := by
  rw [hd.state_eq]
  exact Nat.le_refl 1

/-- A byte of the trailer. -/
theorem feedTrailerByte_spec (hd : InTrailer gone taken filled d) (b : UInt8) :
    Reads gone (format.step (.trailer taken filled) b) (d.feedTrailerByte b) := by
  have hlt : filled.length < d.trailer.length := hd.filled_lt.trans_eq hd.trailer_length.symm
  have htake := take_set_succ hlt hd.filled_eq b
  have hlen : (filled ++ [b]).length = filled.length + 1 := by rw [List.length_append, List.length_singleton]
  have hset : (d.trailer.set filled.length b).length = 8 := by rw [List.length_set, hd.trailer_length]
  have hguard : ¬8 ≤ filled.length := Nat.not_le.mpr hd.filled_lt
  unfold Decoder.feedTrailerByte
  simp only [hd.trailerFilled_eq, if_neg hguard]
  rw [step_trailer, hlen]
  by_cases hfull : filled.length + 1 = 8
  · have hbytes : d.trailer.set filled.length b = filled ++ [b] := by
      rw [hlen, hfull, List.take_of_length_le hset.le] at htake
      exact htake
    rw [if_pos hfull, if_neg (by rw [hfull]; exact Nat.lt_irrefl 8)]
    have hiff := trailer_iff taken (hlen.trans hfull)
    simp only [hbytes, hd.collected.crc_of.value_eq, hd.collected.size_eq]
    by_cases hcrc : leNat ((filled ++ [b]).take 4) = Rfc1952.crc32 taken
    · rw [if_neg (not_not_intro hcrc)]
      by_cases hsize : leNat ((filled ++ [b]).drop 4) = taken.length % 2 ^ 32
      · rw [if_neg (not_not_intro hsize)]
        exact .ok (if_pos (hiff.mpr ⟨hcrc, hsize⟩))
          (.done ⟨hd.collected.crc_of, rfl, hd.collected.output_eq⟩ rfl hfull rfl) (Nat.zero_le _)
      · rw [if_pos hsize]
        exact .err (if_neg fun h => hsize (hiff.mp h).2) (.trailer hd.state_eq hfull) hd.rank_le
    · rw [if_pos hcrc]
      exact .err (if_neg fun h => hcrc (hiff.mp h).1) (.trailer hd.state_eq hfull) hd.rank_le
  · have hlt8 : filled.length + 1 < 8 := Nat.lt_of_le_of_ne hd.filled_lt hfull
    rw [if_neg hfull]
    refine .ok (if_pos hlt8) (.trailer ⟨⟨hd.collected.crc_of, hd.collected.size_eq, hd.collected.output_eq⟩, hd.state_eq, hset,
      hlen.symm, hlen.trans_lt hlt8, htake, hd.finished_eq⟩) hd.rank_le

theorem Stands.inTrailer {taken : List UInt8} (h : Stands gone d (.trailer taken filled)) : InTrailer gone taken filled d := by
  cases h with
  | trailer hd => exact hd
  | extraEnd _ _ _ _ hp => cases ho : afterExtra d.flags <;> rw [ho] at hp <;> cases hp

theorem Stands.isDone {taken : List UInt8} (h : Stands gone d (.done taken)) :
    Collected gone taken d ∧ d.state = .done ∧ d.trailerFilled = 8 ∧ d.finished = true := by
  cases h with
  | done hd hstate hfilled hfinished => exact ⟨hd, hstate, hfilled, hfinished⟩
  | extraEnd _ _ _ _ hp => cases ho : afterExtra d.flags <;> rw [ho] at hp <;> cases hp

/-- A trailer is complete at its eighth byte. -/
theorem Stands.done_of_full {taken bytes : List UInt8} {p : Phase UInt8 HeaderState (List UInt8)}
    (hlt : filled.length < 8) (h : (filled ++ bytes).length = 8) (hp : format.run (.trailer taken filled) bytes = some p) :
    p = .done taken := by
  have hrun := format.run_trailer_eq (o := taken) (hlt.trans_eq (length_trailer taken).symm) (h.trans (length_trailer taken).symm)
  rw [hp] at hrun
  split at hrun
  · exact Option.some.inj hrun
  · cases hrun

/-- The loop over the bytes that the deflate decoder left over. -/
theorem tailLoop_spec (bytes : List UInt8) (hd : InTrailer gone taken filled d) (hle : (filled ++ bytes).length ≤ 8) :
    Reads gone (format.run (.trailer taken filled) bytes) (Decoder.tailLoop bytes d) := by
  induction bytes generalizing filled d with
  | nil => exact .ok rfl (.trailer hd) hd.rank_le
  | cons b bytes ih =>
    rw [Decoder.tailLoop, Format.run_cons]
    have hbyte := feedTrailerByte_spec hd b
    generalize d.feedTrailerByte b = r at hbyte
    generalize hq : format.step (.trailer taken filled) b = q at hbyte
    cases hbyte with
    | err hnone hfailed hrank => exact .err (by rw [hnone]; rfl) hfailed hrank
    | @ok d' p hp h hrank =>
      rw [hp, Option.bind_some]
      rw [List.append_cons] at hle
      by_cases hshort : (filled ++ [b]).length < 8
      · rw [step_trailer, if_pos hshort, hp] at hq
        obtain rfl := Option.some.inj hq
        exact ih h.inTrailer hle
      · -- the last byte: there is none behind it
        have hnil : bytes = [] := by
          rw [List.length_append] at hle
          exact List.eq_nil_of_length_eq_zero (by omega)
        subst hnil
        exact .ok rfl h hrank

/-- The bytes that the deflate decoder left over are read as the trailer. -/
theorem consumeDeflateTail_spec (hd : InTrailer gone taken [] d) :
    Reads gone (format.run (.trailer taken []) d.deflate.remainingInput) d.consumeDeflateTail := by
  unfold Decoder.consumeDeflateTail
  simp only
  generalize d.deflate.remainingInput = tail
  have hloop := tailLoop_spec (tail.take 8) hd (by rw [List.nil_append]; exact List.length_take_le _ _)
  generalize Decoder.tailLoop (tail.take 8) d = r at hloop ⊢
  by_cases hlong : 8 < tail.length
  · have hnone : format.run (.trailer taken []) tail = none :=
      format.run_trailer_gt hd.filled_lt ((length_trailer taken).trans_lt hlong)
    cases hloop with
    | err _ hfailed hrank => exact .err hnone hfailed hrank
    | ok hp h hrank =>
      simp only [if_pos hlong]
      have hfull : ([] ++ tail.take 8 : List UInt8).length = 8 := List.length_take_of_le hlong.le
      obtain rfl := Stands.done_of_full hd.filled_lt hfull hp
      exact .err hnone (.done h.isDone.2.1) hrank
  · rw [List.take_of_length_le (Nat.le_of_not_lt hlong)] at hloop
    cases hloop with
    | err hq hfailed hrank => exact .err hq hfailed hrank
    | ok hp h hrank =>
      simp only [if_neg hlong]
      exact .ok hp h hrank

end

/-! ## One round -/

/-- How a round of the loop ends: it reads a piece of the slice, or goes on to a later state; or it ends in an error that some of
the bytes make, in the body if the first bad one is there. -/
inductive Round (gone : List UInt8) (p : Phase UInt8 HeaderState (List UInt8)) (before : State) (bytes : List UInt8) :
    Exec (List UInt8) × Decoder → Prop
  | ok {d : Decoder} {p' : Phase UInt8 HeaderState (List UInt8)} {piece rest : List UInt8} (hbytes : bytes = piece ++ rest)
      (hp : format.run p piece = some p') (h : Stands gone d p')
      (hless : rest.length + d.state.rank < bytes.length + before.rank) : Round gone p before bytes (.ok rest, d)
  | err {e : Error} {d : Decoder} (hp : format.run p bytes = none) (h : Failed d)
      (hbody : BodyFailed d ↔ format.BodyBad p bytes) : Round gone p before bytes (.err e, d)

section

variable {gone : List UInt8} {d : Decoder} {bytes : List UInt8}

/-- The loop over the bytes of the slice reads the trailer as far as it goes. -/
theorem trailerLoop_spec (bytes : List UInt8) {taken filled : List UInt8} (hd : InTrailer gone taken filled d) :
    (∃ d' p' piece rest, Decoder.trailerLoop bytes d = (.ok rest, d') ∧ bytes = piece ++ rest ∧
        format.run (.trailer taken filled) piece = some p' ∧ Stands gone d' p' ∧ d'.state.rank ≤ 1 ∧
        (bytes ≠ [] → piece ≠ [])) ∨
      ∃ e d', Decoder.trailerLoop bytes d = (.err e, d') ∧ format.run (.trailer taken filled) bytes = none ∧ Failed d' ∧
        d'.state.rank ≤ 1 := by
  induction bytes generalizing filled d with
  | nil => exact .inl ⟨d, _, [], [], rfl, rfl, rfl, .trailer hd, hd.rank_le, fun h => absurd rfl h⟩
  | cons b bytes ih =>
    have hguard : d.trailerFilled < 8 := by
      rw [hd.trailerFilled_eq]
      exact hd.filled_lt
    rw [Decoder.trailerLoop, if_pos hguard, Format.run_cons]
    have hbyte := feedTrailerByte_spec hd b
    generalize d.feedTrailerByte b = r at hbyte
    generalize hq : format.step (.trailer taken filled) b = q at hbyte
    cases hbyte with
    | err hnone hfailed hrank => exact .inr ⟨_, _, rfl, by rw [hnone]; rfl, hfailed, hrank⟩
    | @ok d₁ p hp h hrank =>
      rw [hp, Option.bind_some]
      have hone : ∀ piece, format.run (.trailer taken filled) (b :: piece) = format.run p piece := by
        intro piece
        rw [Format.run_cons, hq, hp, Option.bind_some]
      rw [step_trailer, hp] at hq
      by_cases hshort : (filled ++ [b]).length < 8
      · rw [if_pos hshort] at hq
        obtain rfl := Option.some.inj hq
        rcases ih h.inTrailer with ⟨d', p', piece, rest, h1, h2, h3, h4, h5, -⟩ | ⟨e, d', h1, h2, h3⟩
        · refine .inl ⟨d', p', b :: piece, rest, h1, by rw [h2]; rfl, ?_, h4, h5, fun _ => List.cons_ne_nil _ _⟩
          rw [hone]
          exact h3
        · exact .inr ⟨e, d', h1, h2, h3⟩
      · -- the trailer is complete: the loop ends
        rw [if_neg hshort] at hq
        split at hq
        · obtain rfl := Option.some.inj hq
          refine .inl ⟨d₁, _, [b], bytes, ?_, rfl, hone [], h, hrank, fun _ => List.cons_ne_nil _ _⟩
          have hend : ¬d₁.trailerFilled < 8 := by
            rw [h.isDone.2.2.1]
            exact Nat.lt_irrefl 8
          cases bytes with
          | nil => rfl
          | cons c bytes => exact if_neg hend
        · cases hq

/-- Collecting a piece of output. -/
theorem InBody.collect {taken : List UInt8} (hd : InBody gone taken d) (new : List UInt8) :
    InBody gone (taken ++ new) (d.collect new) := by
  refine ⟨⟨hd.collected.crc_of.update new, ?_, ?_⟩, hd.state_eq, hd.trailer_length, hd.trailerFilled_eq, hd.finished_eq⟩
  · simp only [Decoder.collect, hd.collected.size_eq, List.length_append]
    omega
  · simp only [Decoder.collect, Buf.get_feed]
    rw [hd.collected.output_eq, List.append_assoc]

/-- The body: the rest of the slice is fed to the deflate decoder, and what that leaves over is read as the trailer. -/
theorem feedBody_spec {body dropped taken : List UInt8} (hd : InBody gone taken d) (hwaits : d.deflate.Waits body dropped taken)
    (hbytes : bytes ≠ []) : Round gone (.body body) .body bytes (d.feedBody bytes) := by
  have hpos := List.length_pos_iff.mpr hbytes
  have hcollect : ∀ taken x new, InBody gone taken x → InBody gone (taken ++ new) (Decoder.collect x new) :=
    fun _ _ new h => h.collect new
  have hdrain := Noflate.Decoder.feedAndDrain_spec hcollect hwaits hd bytes
  unfold Decoder.feedBody
  generalize feedAndDrain Decoder.collect d d.deflate bytes = r at hdrain ⊢
  cases hdrain with
  | @waiting dropped' taken' d' deflate hd' hwaits' =>
    refine .ok (List.append_nil _).symm (run_body_waiting rfl hwaits') (.body ⟨⟨hd'.collected.crc_of, hd'.collected.size_eq,
      hd'.collected.output_eq⟩, hd'.state_eq, hd'.trailer_length, hd'.trailerFilled_eq, hd'.finished_eq⟩ hwaits') ?_
    simp only [hd'.state_eq, List.length_nil]
    omega
  | @failed e dropped' taken' d' deflate hd' hdead =>
    have hbad := bodyBad_failed (F := format) rfl hwaits hdead
    exact .err hbad.run_eq (.body hd'.state_eq hdead) ⟨fun _ => hbad, fun _ => ⟨hd'.state_eq, hdead.state_eq⟩⟩
  | @finished dropped' taken' d' deflate hd' hfinishes =>
    obtain ⟨used, hused, -, hrun⟩ := run_body_finished (F := format) rfl hwaits hfinishes
    have hall : format.run (.body body) bytes = format.run (.trailer taken' []) deflate.remainingInput := by
      rw [hused, Format.run_append, hrun, Option.bind_some]
    have hin : InTrailer gone taken' [] { d' with deflate, state := .trailer } :=
      ⟨⟨hd'.collected.crc_of, hd'.collected.size_eq, hd'.collected.output_eq⟩, rfl, hd'.trailer_length, hd'.trailerFilled_eq,
        Nat.succ_pos 7, rfl, hd'.finished_eq⟩
    have htail := consumeDeflateTail_spec hin
    simp only at htail ⊢
    generalize Decoder.consumeDeflateTail { d' with deflate, state := .trailer } = r at htail ⊢
    cases htail with
    | err hnone hfailed hrank =>
      refine .err (hall.trans hnone) hfailed (iff_of_false (not_bodyFailed hrank) ?_)
      rw [hused, Format.bodyBad_append_iff hrun]
      exact Format.not_bodyBad_trailer _ _ _
    | ok hp h hrank =>
      refine .ok (List.append_nil _).symm (hall.trans hp) h ?_
      rw [List.length_nil, Nat.zero_add]
      exact Nat.lt_of_le_of_lt hrank (Nat.lt_add_left _ (Nat.lt_succ_self 1))

end

/-! ## The fields of the header -/

section

variable {d : Decoder}

/-- Nothing is decoded when the decoder goes on to another field. -/
theorem Unstarted.moved (hd : Unstarted d) (state : State) (n : Nat) :
    Unstarted { d with state, extraLenBytesFilled := n } :=
  ⟨hd.extraLen_length, hd.deflate_eq, hd.crc_eq, hd.size_eq, hd.output_eq, hd.trailer_length, hd.trailerFilled_eq, hd.finished_eq⟩

/-- At the start of the body. -/
theorem Unstarted.body (hd : Unstarted d) (hstate : d.state = .body) : Stands [] d (.body []) := by
  have hcollected : Collected [] [] d := by
    refine ⟨?_, ?_, ?_⟩
    · rw [hd.crc_eq]
      exact Crc32.new_of
    · rw [hd.size_eq]
      rfl
    · rw [hd.output_eq]
      rfl
  have hwaits : d.deflate.Waits [] [] [] := by
    rw [hd.deflate_eq]
    exact Noflate.Decoder.new_waits
  exact .body ⟨hcollected, hstate, hd.trailer_length, hd.trailerFilled_eq, hd.finished_eq⟩ hwaits

theorem Unstarted.advancePastComment (hd : Unstarted d) :
    Stands [] d.advancePastComment (Format.behind (afterComment d.flags)) ∧ d.advancePastComment.state.rank ≤ 3 := by
  unfold Decoder.advancePastComment afterComment
  by_cases h : flag d.flags 1 = true
  · rw [if_pos ((mask_ne_zero_iff rfl).mpr h), if_pos h]
    exact ⟨.headerCrc (hd.moved .hcrc 0) rfl rfl rfl (Nat.succ_pos 1), Nat.le_refl 3⟩
  · rw [if_neg (fun hm => h ((mask_ne_zero_iff rfl).mp hm)), if_neg h]
    exact ⟨(hd.moved .body d.extraLenBytesFilled).body rfl, Nat.le_succ 2⟩

theorem Unstarted.advancePastName (hd : Unstarted d) :
    Stands [] d.advancePastName (Format.behind (afterName d.flags)) ∧ d.advancePastName.state.rank ≤ 4 := by
  unfold Decoder.advancePastName afterName
  by_cases h : flag d.flags 4 = true
  · rw [if_pos ((mask_ne_zero_iff rfl).mpr h), if_pos h]
    exact ⟨.comment (hd.moved .comment d.extraLenBytesFilled) rfl rfl, Nat.le_refl 4⟩
  · rw [if_neg (fun hm => h ((mask_ne_zero_iff rfl).mp hm)), if_neg h]
    obtain ⟨h1, h2⟩ := hd.advancePastComment
    exact ⟨h1, h2.trans (Nat.le_succ 3)⟩

theorem Unstarted.advancePastExtra (hd : Unstarted d) :
    Stands [] d.advancePastExtra (Format.behind (afterExtra d.flags)) ∧ d.advancePastExtra.state.rank ≤ 5 := by
  unfold Decoder.advancePastExtra afterExtra
  by_cases h : flag d.flags 3 = true
  · rw [if_pos ((mask_ne_zero_iff rfl).mpr h), if_pos h]
    exact ⟨.name (hd.moved .name d.extraLenBytesFilled) rfl rfl, Nat.le_refl 5⟩
  · rw [if_neg (fun hm => h ((mask_ne_zero_iff rfl).mp hm)), if_neg h]
    obtain ⟨h1, h2⟩ := hd.advancePastName
    exact ⟨h1, h2.trans (Nat.le_succ 4)⟩

theorem Unstarted.advanceToNextHeaderState (hd : Unstarted d) :
    Stands [] d.advanceToNextHeaderState (Format.behind (afterFixed d.flags)) ∧ d.advanceToNextHeaderState.state.rank ≤ 7 := by
  unfold Decoder.advanceToNextHeaderState afterFixed
  by_cases h : flag d.flags 2 = true
  · rw [if_pos ((mask_ne_zero_iff rfl).mpr h), if_pos h]
    exact ⟨.extraLength (hd.moved .extra 0) rfl rfl rfl (Nat.succ_pos 1) rfl, Nat.le_refl 7⟩
  · rw [if_neg (fun hm => h ((mask_ne_zero_iff rfl).mp hm)), if_neg h]
    obtain ⟨h1, h2⟩ := hd.advancePastExtra
    exact ⟨h1, h2.trans (Nat.le_add_right 5 2)⟩

/-- The checks of the fixed bytes, against those of the format. -/
theorem parseFixedHeader_spec (hlength : d.headerBytes.length = 10) :
    (checkFixed d.headerBytes = some (afterFixed (d.headerBytes.getD 3 0)) ∧
        d.parseFixedHeader = .ok { d with flags := d.headerBytes.getD 3 0 }) ∨
      (checkFixed d.headerBytes = none ∧ ∃ e, d.parseFixedHeader = .err e) := by
  obtain ⟨b0, b1, b2, rest, hbytes⟩ : ∃ b0 b1 b2 rest, d.headerBytes = b0 :: b1 :: b2 :: rest := by
    match d.headerBytes, hlength with
    | b0 :: b1 :: b2 :: rest, _ => exact ⟨b0, b1, b2, rest, rfl⟩
  unfold checkFixed Decoder.parseFixedHeader
  rw [hbytes]
  simp only [List.getD_cons_zero, List.getD_cons_succ, List.take_succ_cons, List.take_zero, List.cons.injEq, and_true]
  by_cases hmagic : b0 ≠ 0x1F ∨ b1 ≠ 0x8B
  · rw [if_pos hmagic, if_neg (fun h => hmagic.elim (fun h0 => h0 h.1) (fun h1 => h1 h.2.1))]
    exact .inr ⟨rfl, _, rfl⟩
  · rw [if_neg hmagic]
    rw [not_or, not_ne_iff, not_ne_iff] at hmagic
    by_cases hmethod : b2 = 8
    · rw [if_pos ⟨hmagic.1, hmagic.2, hmethod⟩, if_neg (not_not_intro hmethod)]
      exact .inl ⟨rfl, rfl⟩
    · rw [if_neg (fun h => hmethod h.2.2), if_pos hmethod]
      exact .inr ⟨rfl, _, rfl⟩

end

/-! ## The rounds -/

section

variable {d : Decoder} {bytes : List UInt8}

/-- What a round does with the outcome of the check of the fixed bytes. -/
def afterCheck (d : Decoder) (rest : List UInt8) : Exec Decoder → Exec (List UInt8) × Decoder
  | .ok d => (.ok rest, d.advanceToNextHeaderState)
  | .err e => (.err e, d)
  | .panic => (.panic, d)
  | .diverge => (.diverge, d)

/-- A round in the fixed bytes. -/
theorem round_fixed {pre : List UInt8} (hd : Unstarted d) (hstate : d.state = .fixedHeader) (hlength : d.headerBytes.length = 10)
    (hfilled : d.headerFilled = pre.length) (hlt : pre.length < 10) (hpre : d.headerBytes.take pre.length = pre)
    (hbytes : bytes ≠ []) : Round [] (.header (.fixed pre)) .fixedHeader bytes (d.feedStep bytes) := by
  obtain ⟨piece, rest, hsplit, hmin, htake, hdrop, hless, hfull⟩ := fill_cases hlt hbytes
  have hguard : ¬10 < pre.length := Nat.not_lt.mpr hlt.le
  have hle : pre.length + piece.length ≤ 10 := hfull.elim Nat.le_of_eq fun h => h.1.le
  have hlen : (pre ++ piece).length = pre.length + piece.length := List.length_append
  have hcopied : (copyFromSlice d.headerBytes pre.length piece).length = 10 := by
    rw [length_copyFromSlice (hle.trans_eq hlength.symm), hlength]
  have hfront := take_copyFromSlice hpre piece
  generalize hcopy : copyFromSlice d.headerBytes pre.length piece = copy at hcopied hfront
  obtain ⟨d₁, hd₁⟩ : ∃ d₁ : Decoder, d₁ = { d with
      state := .fixedHeader, headerBytes := copy, headerFilled := pre.length + piece.length } := ⟨_, rfl⟩
  have hun : Unstarted d₁ := by
    rw [hd₁]
    exact ⟨hd.1, hd.2, hd.3, hd.4, hd.5, hd.6, hd.7, hd.8⟩
  have hstate₁ : d₁.state = .fixedHeader := by rw [hd₁]
  have hstep : d.feedStep bytes =
      if pre.length + piece.length = 10 then afterCheck d₁ rest d₁.parseFixedHeader else (.ok rest, d₁) := by
    unfold Decoder.feedStep
    rw [hd₁]
    simp only [hstate, hfilled, if_neg hguard, hmin, htake, hdrop, hcopy]
    rfl
  have hbytes₁ : d₁.headerBytes = copy := by rw [hd₁]
  rw [hstep]
  rcases hfull with hfull | ⟨hshort, rfl⟩
  · have hall : copy = pre ++ piece := by
      rwa [hlen, hfull, List.take_of_length_le hcopied.le] at hfront
    have hrun := collects_fixed.run_eq hlt (hlen.trans hfull)
    rw [← hall] at hrun
    rw [if_pos hfull]
    rcases parseFixedHeader_spec (hbytes₁ ▸ hcopied) with ⟨hcheck, hparse⟩ | ⟨hcheck, e, hparse⟩
    · rw [hbytes₁] at hcheck
      rw [hcheck, Option.map_some] at hrun
      obtain ⟨h1, h2⟩ := (show Unstarted { d₁ with flags := d₁.headerBytes.getD 3 0 } from
        ⟨hun.1, hun.2, hun.3, hun.4, hun.5, hun.6, hun.7, hun.8⟩).advanceToNextHeaderState
      simp only [hparse, afterCheck]
      exact .ok hsplit hrun (hbytes₁ ▸ h1) (Nat.add_lt_add_of_lt_of_le hless (h2.trans (by decide)))
    · rw [hbytes₁] at hcheck
      rw [hcheck] at hrun
      simp only [hparse, afterCheck]
      refine .err ?_ (.header hstate₁ ?_ (hbytes₁ ▸ hcopied) ⟨e, hparse⟩) (iff_of_false ?_ ?_)
      · rw [hsplit, Format.run_append, hrun]
        rfl
      · rw [hd₁]
        exact hfull
      · intro hbody
        cases hstate₁.symm.trans hbody.1
      · rw [hsplit]
        exact collects_fixed.not_bodyBad hlt (hlen.trans hfull) (hall ▸ hcheck) rest
  · rw [if_neg hshort.ne]
    refine .ok hsplit (collects_fixed.run_lt (hlen.trans_lt hshort)) (.fixed hun rfl hstate₁ ?_ ?_ (hlen.trans_lt hshort) ?_) ?_
    · rw [hbytes₁, hcopied]
    · rw [hd₁, hlen]
    · rw [hbytes₁, hfront]
    · rw [hstate₁]
      exact Nat.add_lt_add_right hless _

/-- A round in the length of the extra field. -/
theorem round_extraLength {pre : List UInt8} (hd : Unstarted d) (hstate : d.state = .extra)
    (hfilled : d.extraLenBytesFilled = pre.length) (hlt : pre.length < 2) (hpre : d.extraLen.take pre.length = pre)
    (hbytes : bytes ≠ []) : Round [] (.header (.extraLength d.flags pre)) .extra bytes (d.feedStep bytes) := by
  obtain ⟨piece, rest, hsplit, hmin, htake, hdrop, hless, hfull⟩ := fill_cases hlt hbytes
  have hle : pre.length + piece.length ≤ 2 := hfull.elim Nat.le_of_eq fun h => h.1.le
  have hlen : (pre ++ piece).length = pre.length + piece.length := List.length_append
  have hcopied : (copyFromSlice d.extraLen pre.length piece).length = 2 := by
    rw [length_copyFromSlice (hle.trans_eq hd.extraLen_length.symm), hd.extraLen_length]
  have hfront := take_copyFromSlice hpre piece
  generalize hcopy : copyFromSlice d.extraLen pre.length piece = copy at hcopied hfront
  have hun : ∀ state n remaining, Unstarted { d with
      state, extraLenBytesFilled := n, extraLen := copy, extraRemaining := remaining } := fun _ _ _ =>
    ⟨hcopied, hd.deflate_eq, hd.crc_eq, hd.size_eq, hd.output_eq, hd.trailer_length, hd.trailerFilled_eq, hd.finished_eq⟩
  unfold Decoder.feedStep
  simp only [hstate, hfilled, if_pos hlt, hmin, htake, hdrop, hcopy]
  rcases hfull with hfull | ⟨hshort, rfl⟩
  · have hall : copy = pre ++ piece := by
      rwa [hlen, hfull, List.take_of_length_le hcopied.le] at hfront
    have hrun := (collects_extraLength d.flags).run_eq hlt (hlen.trans hfull)
    rw [← hall, Option.map_some] at hrun
    rw [if_pos hfull]
    refine .ok hsplit hrun ?_ (Nat.add_lt_add_of_lt_of_le hless (Nat.le_succ 6))
    unfold afterLength
    by_cases hzero : leNat copy = 0
    · rw [if_pos hzero]
      exact .extraEnd (hun _ _ _) rfl rfl hzero rfl
    · rw [if_neg hzero]
      exact .extra (hun _ _ _) rfl rfl (Nat.pos_of_ne_zero hzero) (Nat.zero_add _)
  · rw [if_neg hshort.ne]
    exact .ok hsplit ((collects_extraLength d.flags).run_lt (hlen.trans_lt hshort))
      (.extraLength (hun _ _ d.extraRemaining) rfl rfl hlen.symm (hlen.trans_lt hshort) hfront) (Nat.add_lt_add_right hless _)

/-- A round in the extra field. -/
theorem round_extra {length : Nat} {pre : List UInt8} (hd : Unstarted d) (hstate : d.state = .extraLen)
    (hlt : pre.length < length) (hremaining : pre.length + d.extraRemaining = length) (hbytes : bytes ≠ []) :
    Round [] (.header (.extra d.flags length pre)) .extraLen bytes (d.feedStep bytes) := by
  obtain ⟨piece, rest, hsplit, hmin, htake, hdrop, hless, hfull⟩ := fill_cases hlt hbytes
  have hlen : (pre ++ piece).length = pre.length + piece.length := List.length_append
  have hmin' : min d.extraRemaining bytes.length = piece.length := by
    rw [← hmin, ← hremaining, Nat.add_sub_cancel_left]
  have hun : Unstarted { d with state := .extraLen, extraRemaining := d.extraRemaining - piece.length } :=
    ⟨hd.1, hd.2, hd.3, hd.4, hd.5, hd.6, hd.7, hd.8⟩
  unfold Decoder.feedStep
  simp only [hstate, hmin', hdrop]
  rcases hfull with hfull | ⟨hshort, rfl⟩
  · have hzero : d.extraRemaining - piece.length = 0 := by omega
    have hrun := (collects_extra d.flags length).run_eq hlt (hlen.trans hfull)
    rw [Option.map_some] at hrun
    obtain ⟨h1, h2⟩ := hun.advancePastExtra
    rw [if_pos hzero]
    exact .ok hsplit hrun h1 (Nat.add_lt_add_of_lt_of_le hless (h2.trans (by decide)))
  · have hmore : ¬d.extraRemaining - piece.length = 0 := by omega
    rw [if_neg hmore]
    refine .ok hsplit ((collects_extra d.flags length).run_lt (hlen.trans_lt hshort))
      (.extra hun rfl rfl (hlen.trans_lt hshort) ?_) (Nat.add_lt_add_right hless _)
    rw [hlen]
    simp only
    omega

/-- A round at the end of the extra field: nothing is read. -/
theorem round_extraEnd (hd : Unstarted d) (hstate : d.state = .extraLen) (hremaining : d.extraRemaining = 0) :
    Round [] (Format.behind (afterExtra d.flags)) .extraLen bytes (d.feedStep bytes) := by
  obtain ⟨h1, h2⟩ := (show Unstarted { d with state := .extraLen, extraRemaining := 0 } from
    ⟨hd.1, hd.2, hd.3, hd.4, hd.5, hd.6, hd.7, hd.8⟩).advancePastExtra
  unfold Decoder.feedStep
  simp only [hstate, hremaining, Nat.zero_min, List.drop_zero, Nat.sub_zero, if_true]
  exact .ok (List.nil_append bytes).symm rfl h1 (Nat.add_lt_add_left (Nat.lt_succ_of_le h2) _)

/-- The loop over a zero-terminated field. -/
theorem skipText_spec (bytes : List UInt8) :
    (Decoder.skipText bytes = (false, []) ∧ (0 : UInt8) ∉ bytes) ∨
      ∃ text rest, Decoder.skipText bytes = (true, rest) ∧ bytes = text ++ [0] ++ rest ∧ (0 : UInt8) ∉ text := by
  induction bytes with
  | nil => exact .inl ⟨rfl, List.not_mem_nil⟩
  | cons b bytes ih =>
    rw [Decoder.skipText]
    by_cases hb : b = 0
    · rw [if_pos hb, hb]
      exact .inr ⟨[], bytes, rfl, rfl, List.not_mem_nil⟩
    · rw [if_neg hb]
      have hcons : ∀ {text : List UInt8}, (0 : UInt8) ∉ text → (0 : UInt8) ∉ b :: text := fun h hm =>
        (List.mem_cons.mp hm).elim (fun h0 => hb h0.symm) h
      rcases ih with ⟨h1, h2⟩ | ⟨text, rest, h1, h2, h3⟩
      · exact .inl ⟨h1, hcons h2⟩
      · exact .inr ⟨b :: text, rest, h1, by rw [h2]; rfl, hcons h3⟩

/-- A round in a zero-terminated field. -/
theorem round_text {p : HeaderState} {after : Option HeaderState} {before : State} {d' : Decoder}
    (hpasses : format.PassesTo p 0 after) (hbytes : bytes ≠ [])
    (hstep : d.feedStep bytes = (.ok (Decoder.skipText bytes).2, if (Decoder.skipText bytes).1 then d' else d))
    (hd : Stands [] d (.header p)) (hd' : Stands [] d' (Format.behind after)) (hrank : d.state.rank ≤ before.rank)
    (hrank' : d'.state.rank ≤ before.rank) : Round [] (.header p) before bytes (d.feedStep bytes) := by
  have hpos := List.length_pos_iff.mpr hbytes
  rw [hstep]
  rcases skipText_spec bytes with ⟨h1, h2⟩ | ⟨text, rest, h1, h2, h3⟩
  · rw [h1]
    refine .ok (List.append_nil bytes).symm (hpasses.run_notMem h2) hd ?_
    simp only [Bool.false_eq_true, if_false, List.length_nil]
    omega
  · rw [h1]
    refine .ok h2 (hpasses.run_last h3) hd' ?_
    rw [h2]
    simp only [if_true, List.length_append, List.length_singleton]
    omega

/-- A round in the check of the header. -/
theorem round_headerCrc {pre : List UInt8} (hd : Unstarted d) (hstate : d.state = .hcrc)
    (hfilled : d.extraLenBytesFilled = pre.length) (hlt : pre.length < 2) (hbytes : bytes ≠ []) :
    Round [] (.header (.headerCrc pre)) .hcrc bytes (d.feedStep bytes) := by
  obtain ⟨piece, rest, hsplit, hmin, htake, hdrop, hless, hfull⟩ := fill_cases hlt hbytes
  have hlen : (pre ++ piece).length = pre.length + piece.length := List.length_append
  have hguard : ¬2 < pre.length := Nat.not_lt.mpr hlt.le
  unfold Decoder.feedStep
  simp only [hstate, hfilled, if_neg hguard, hmin, hdrop]
  rcases hfull with hfull | ⟨hshort, rfl⟩
  · have hrun := collects_headerCrc.run_eq hlt (hlen.trans hfull)
    rw [if_pos hfull]
    exact .ok hsplit hrun ((hd.moved .body 0).body rfl) (Nat.add_lt_add_of_lt_of_le hless (Nat.le_succ 2))
  · rw [if_neg hshort.ne]
    exact .ok hsplit (collects_headerCrc.run_lt (hlen.trans_lt hshort))
      (.headerCrc (hd.moved .hcrc _) rfl rfl hlen.symm (hlen.trans_lt hshort)) (Nat.add_lt_add_right hless _)

end

/-- A round of the loop reads a piece of the slice as the reader of the format does. -/
theorem feedStep_spec {gone bytes : List UInt8} {d : Decoder} {p : Phase UInt8 HeaderState (List UInt8)} (h : Stands gone d p)
    (hbytes : bytes ≠ []) : Round gone p d.state bytes (d.feedStep bytes) := by
  cases h with
  | fixed hd hgone hstate hlength hfilled hlt hpre =>
    rw [hgone, hstate]
    exact round_fixed hd hstate hlength hfilled hlt hpre hbytes
  | extraLength hd hgone hstate hfilled hlt hpre =>
    rw [hgone, hstate]
    exact round_extraLength hd hstate hfilled hlt hpre hbytes
  | extra hd hgone hstate hlt hremaining =>
    rw [hgone, hstate]
    exact round_extra hd hstate hlt hremaining hbytes
  | extraEnd hd hgone hstate hremaining hp =>
    rw [hgone, hstate, hp]
    exact round_extraEnd hd hstate hremaining
  | name hd hgone hstate =>
    obtain ⟨h1, h2⟩ := hd.advancePastName
    rw [hgone, hstate]
    refine round_text (passesTo_name d.flags) hbytes ?_ (.name hd rfl hstate) h1 ?_ ?_
    · unfold Decoder.feedStep
      rw [hstate]
    · rw [hstate]
    · exact h2.trans (Nat.le_succ 4)
  | comment hd hgone hstate =>
    obtain ⟨h1, h2⟩ := hd.advancePastComment
    rw [hgone, hstate]
    refine round_text (passesTo_comment d.flags) hbytes ?_ (.comment hd rfl hstate) h1 ?_ ?_
    · unfold Decoder.feedStep
      rw [hstate]
    · rw [hstate]
    · exact h2.trans (Nat.le_succ 3)
  | headerCrc hd hgone hstate hfilled hlt =>
    rw [hgone, hstate]
    exact round_headerCrc hd hstate hfilled hlt hbytes
  | body hd hwaits =>
    have hstep : d.feedStep bytes = d.feedBody bytes := by
      unfold Decoder.feedStep
      rw [hd.state_eq]
    rw [hstep, hd.state_eq]
    exact feedBody_spec hd hwaits hbytes
  | @trailer taken filled hd =>
    have hstep : d.feedStep bytes = Decoder.trailerLoop bytes d := by
      unfold Decoder.feedStep
      rw [hd.state_eq]
    rw [hstep, hd.state_eq]
    rcases trailerLoop_spec bytes hd with ⟨d', p', piece, rest, h1, h2, h3, h4, h5, h6⟩ | ⟨e, d', h1, h2, h3, h4⟩
    · rw [h1]
      refine .ok h2 h3 h4 ?_
      have hpos := List.length_pos_iff.mpr (h6 hbytes)
      rw [h2, List.length_append]
      exact Nat.add_lt_add_of_lt_of_le (Nat.lt_add_of_pos_left hpos) h5
    · rw [h1]
      exact .err h2 h3 (iff_of_false (not_bodyFailed h4) (Format.not_bodyBad_trailer _ _ _))
  | done hd hstate hfilled hfinished =>
    have hstep : d.feedStep bytes = (.err (.invalidData "bytes fed after gzip stream end"), d) := by
      unfold Decoder.feedStep
      rw [hstate]
    rw [hstep]
    obtain ⟨b, rest, rfl⟩ := List.exists_cons_of_ne_nil hbytes
    exact .err rfl (.done hstate) (iff_of_false (fun hbody => nomatch hstate.symm.trans hbody.1) (Format.not_bodyBad_done _ _))

/-! ## The loop -/

/-- How the loop of `feed` ends, against the reader of the format. -/
inductive Feeds (gone : List UInt8) (p : Phase UInt8 HeaderState (List UInt8)) (bytes : List UInt8) : Exec Unit × Decoder → Prop
  | ok {d : Decoder} {p' : Phase UInt8 HeaderState (List UInt8)} (hp : format.run p bytes = some p') (h : Stands gone d p') :
      Feeds gone p bytes (.ok (), d)
  | err {e : Error} {d : Decoder} (hp : format.run p bytes = none) (h : Failed d) (hbody : BodyFailed d ↔ format.BodyBad p bytes) :
      Feeds gone p bytes (.err e, d)

/-- The loop comes back, and reads the slice as the reader of the format does. -/
theorem feedLoop_spec (fuel : Nat) {gone bytes : List UInt8} {d : Decoder} {p : Phase UInt8 HeaderState (List UInt8)}
    (h : Stands gone d p) (hfuel : bytes.length + d.state.rank ≤ fuel) :
    Feeds gone p bytes (Decoder.feedLoop fuel d bytes) := by
  induction fuel generalizing d p bytes with
  | zero =>
    have hnil : bytes = [] := List.eq_nil_of_length_eq_zero (by omega)
    subst hnil
    exact .ok rfl h
  | succ fuel ih =>
    cases bytes with
    | nil => exact .ok rfl h
    | cons b bytes =>
      have hround := feedStep_spec h (List.cons_ne_nil b bytes)
      rw [Decoder.feedLoop]
      generalize d.feedStep (b :: bytes) = r at hround
      cases hround with
      | err hp hfailed hbody => exact .err hp hfailed hbody
      | @ok d' p' piece rest hsplit hp h' hless =>
        have hrest := ih h' (Nat.le_of_lt_succ (hless.trans_le hfuel))
        have hall : format.run p (b :: bytes) = format.run p' rest := by rw [hsplit, Format.run_append, hp, Option.bind_some]
        simp only
        generalize Decoder.feedLoop fuel d' rest = r at hrest ⊢
        cases hrest with
        | ok hq h => exact .ok (hall.trans hq) h
        | err hq hfailed hbody =>
          refine .err (hall.trans hq) hfailed (hbody.trans ?_)
          rw [hsplit, Format.bodyBad_append_iff hp]

/-- A call of `feed` reads the slice as the reader of the format does. -/
theorem feed_spec {gone : List UInt8} {d : Decoder} {p : Phase UInt8 HeaderState (List UInt8)} (h : Stands gone d p)
    (bytes : List UInt8) : Feeds gone p bytes (d.feed bytes) := by
  refine feedLoop_spec _ h (Nat.add_le_add_left ?_ _)
  cases d.state <;> exact by decide

/-- A fresh decoder stands at the start of the header. -/
theorem new_stands : Stands [] Decoder.new (.header (.fixed [])) := by
  have hd : Unstarted Decoder.new := ⟨rfl, rfl, rfl, rfl, rfl, rfl, rfl, rfl⟩
  exact .fixed hd rfl rfl rfl rfl (Nat.succ_pos 9) rfl

/-- A decoder is finished behind the end of a member. -/
theorem Stands.finished_iff {gone : List UInt8} {d : Decoder} {p : Phase UInt8 HeaderState (List UInt8)} (h : Stands gone d p) :
    d.finished = true ↔ ∃ o, p = .done o := by
  cases h with
  | fixed hd => exact not_finished_iff hd.finished_eq fun _ => nofun
  | extraLength hd => exact not_finished_iff hd.finished_eq fun _ => nofun
  | extra hd => exact not_finished_iff hd.finished_eq fun _ => nofun
  | extraEnd hd _ _ _ hp =>
    refine not_finished_iff hd.finished_eq fun o ho => ?_
    rw [hp] at ho
    cases hs : afterExtra d.flags <;> rw [hs] at ho <;> cases ho
  | name hd => exact not_finished_iff hd.finished_eq fun _ => nofun
  | comment hd => exact not_finished_iff hd.finished_eq fun _ => nofun
  | headerCrc hd => exact not_finished_iff hd.finished_eq fun _ => nofun
  | body hd => exact not_finished_iff hd.finished_eq fun _ => nofun
  | trailer hd => exact not_finished_iff hd.finished_eq fun _ => nofun
  | done hd hstate hfilled hfinished => exact ⟨fun _ => ⟨_, rfl⟩, fun _ => hfinished⟩

/-- A fresh decoder reads gzip members. -/
theorem reads : ReadsFormat format Decoder.new.feedChunks Decoder.finished (·.output.get) := by
  refine .of_stands (Stands []) Decoder.feed Decoder.feedChunks (fun _ => rfl) ?_ ?_ ?_ ?_ new_stands
  · intro d d' data hfeed chunks
    rw [Decoder.feedChunks, hfeed]
  · intro d d' data e hfeed chunks
    rw [Decoder.feedChunks, hfeed]
  · intro d p h data
    have hfeed := feed_spec h data
    generalize d.feed data = r at hfeed ⊢
    cases hfeed with
    | ok hq h' => exact .inl ⟨_, _, rfl, hq, h'⟩
    | err hq _ => exact .inr ⟨⟨_, _, rfl⟩, hq⟩
  · intro d p h data
    constructor
    · rintro ⟨hfinished, rfl⟩
      obtain ⟨taken, rfl⟩ := h.finished_iff.mp hfinished
      exact congrArg Phase.done h.isDone.1.output_eq
    · rintro rfl
      exact ⟨h.finished_iff.mpr ⟨_, rfl⟩, h.isDone.1.output_eq.symm⟩

end Noflate.Gzip
