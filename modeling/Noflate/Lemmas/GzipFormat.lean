import Noflate.Gzip
import Noflate.Rfc1952
import Noflate.Lemmas.Draining

/-!
# Gzip as a framed format

The header of a gzip member read one byte at a time, and the format of a member over the deflate body. What it takes for a header
is what RFC 1952 says (`isHeader_iff`).
-/

namespace Noflate.Gzip

open BitString Framing
open Rfc1952 (flag)

/-- Where a reader stands in the header. -/
inductive HeaderState where
  | fixed (bytes : List UInt8)
  | extraLength (flags : UInt8) (bytes : List UInt8)
  | extra (flags : UInt8) (length : Nat) (bytes : List UInt8)
  | name (flags : UInt8)
  | comment (flags : UInt8)
  | headerCrc (bytes : List UInt8)

namespace HeaderState

/-- Behind the comment. -/
def afterComment (flags : UInt8) : Option HeaderState := if flag flags 1 then some (.headerCrc []) else none

/-- Behind the name. -/
def afterName (flags : UInt8) : Option HeaderState := if flag flags 4 then some (.comment flags) else afterComment flags

/-- Behind the extra field. -/
def afterExtra (flags : UInt8) : Option HeaderState := if flag flags 3 then some (.name flags) else afterName flags

/-- Behind the length of the extra field. -/
def afterLength (flags : UInt8) (bytes : List UInt8) : Option HeaderState :=
  if leNat bytes = 0 then afterExtra flags else some (.extra flags (leNat bytes) [])

/-- Behind the ten fixed bytes. -/
def afterFixed (flags : UInt8) : Option HeaderState := if flag flags 2 then some (.extraLength flags []) else afterExtra flags

/-- The ten fixed bytes may be bad. -/
def checkFixed (bytes : List UInt8) : Option (Option HeaderState) :=
  if bytes.take 3 = [0x1F, 0x8B, 8] then some (afterFixed (bytes.getD 3 0)) else none

/-- Read a byte of the header. -/
def step : HeaderState → UInt8 → Option (Option HeaderState)
  | .fixed bytes, b =>
    if (bytes ++ [b]).length < 10 then some (some (.fixed (bytes ++ [b]))) else checkFixed (bytes ++ [b])
  | .extraLength flags bytes, b =>
    if (bytes ++ [b]).length < 2 then some (some (.extraLength flags (bytes ++ [b])))
    else some (afterLength flags (bytes ++ [b]))
  | .extra flags length bytes, b =>
    if (bytes ++ [b]).length < length then some (some (.extra flags length (bytes ++ [b]))) else some (afterExtra flags)
  | .name flags, b => some (if b = 0 then afterName flags else some (.name flags))
  | .comment flags, b => some (if b = 0 then afterComment flags else some (.comment flags))
  | .headerCrc bytes, b => if (bytes ++ [b]).length < 2 then some (some (.headerCrc (bytes ++ [b]))) else some none

end HeaderState

open HeaderState

theorem length_trailer (data : List UInt8) : (Rfc1952.trailer data).length = 8 := by
  rw [Rfc1952.trailer, List.length_append, length_leBytes, length_leBytes]

theorem trailer_ne_nil (data : List UInt8) : Rfc1952.trailer data ≠ [] :=
  List.ne_nil_of_length_pos (by rw [length_trailer]; exact Nat.succ_pos 7)

/-- The format of a gzip member. -/
def format : Format UInt8 HeaderState (List UInt8) := containerFormat (.fixed []) HeaderState.step Rfc1952.trailer trailer_ne_nil

theorem collects_fixed : format.Collects .fixed 10 checkFixed := fun _ _ _ => rfl

theorem collects_extraLength (flags : UInt8) : format.Collects (.extraLength flags) 2 fun bytes => some (afterLength flags bytes) :=
  fun _ _ _ => rfl

theorem collects_extra (flags : UInt8) (length : Nat) :
    format.Collects (.extra flags length) length fun _ => some (afterExtra flags) := fun _ _ _ => rfl

theorem passesTo_name (flags : UInt8) : format.PassesTo (.name flags) 0 (afterName flags) := fun _ => rfl

theorem passesTo_comment (flags : UInt8) : format.PassesTo (.comment flags) 0 (afterComment flags) := fun _ => rfl

theorem collects_headerCrc : format.Collects .headerCrc 2 fun _ => some none := fun _ _ _ => rfl

/-! ## What is behind each field -/

theorem isBehind_afterComment {flags : UInt8} {bytes : List UInt8} :
    format.IsBehind (afterComment flags) bytes ↔ Rfc1952.HeaderCrc (flag flags 1) bytes := by
  unfold afterComment Rfc1952.HeaderCrc
  by_cases h : flag flags 1 = true
  · rw [if_pos h, if_pos h]
    change format.IsHeader (.headerCrc []) bytes ↔ _
    rw [collects_headerCrc.isHeader_iff (show ([] : List UInt8).length < 2 from Nat.succ_pos 1)]
    constructor
    · rintro ⟨more, rest, o, rfl, hlen, ho, hrest⟩
      obtain rfl := Option.some.inj ho
      obtain rfl : rest = [] := hrest
      rwa [List.append_nil]
    · intro hlen
      exact ⟨bytes, [], none, (List.append_nil _).symm, hlen, rfl, rfl⟩
  · rw [if_neg h, if_neg h]
    exact Iff.rfl

/-- A zero-terminated field, if it is there, and what is behind it. -/
theorem isBehind_text {present : Bool} {state : HeaderState} {after : Option HeaderState} (hp : format.PassesTo state 0 after)
    {bytes : List UInt8} :
    format.IsBehind (if present then some state else after) bytes ↔
      ∃ text rest, bytes = text ++ rest ∧ Rfc1952.ZeroTerminated present text ∧ format.IsBehind after rest := by
  unfold Rfc1952.ZeroTerminated
  cases present with
  | false =>
    simp only [Bool.false_eq_true, if_false]
    constructor
    · exact fun h => ⟨[], bytes, rfl, rfl, h⟩
    · rintro ⟨text, rest, rfl, rfl, h⟩
      exact h
  | true =>
    simp only [if_true]
    change format.IsHeader state bytes ↔ _
    rw [hp.isHeader_iff]
    constructor
    · rintro ⟨text, rest, rfl, htext, h⟩
      exact ⟨_, rest, rfl, ⟨text, rfl, htext⟩, h⟩
    · rintro ⟨_, rest, rfl, ⟨text, rfl, htext⟩, h⟩
      exact ⟨text, rest, rfl, htext, h⟩

theorem isBehind_afterName {flags : UInt8} {bytes : List UInt8} :
    format.IsBehind (afterName flags) bytes ↔ ∃ comment rest, bytes = comment ++ rest ∧
      Rfc1952.ZeroTerminated (flag flags 4) comment ∧ format.IsBehind (afterComment flags) rest :=
  isBehind_text (passesTo_comment flags)

theorem isBehind_afterExtra {flags : UInt8} {bytes : List UInt8} :
    format.IsBehind (afterExtra flags) bytes ↔ ∃ name rest, bytes = name ++ rest ∧
      Rfc1952.ZeroTerminated (flag flags 3) name ∧ format.IsBehind (afterName flags) rest :=
  isBehind_text (passesTo_name flags)

theorem isBehind_afterLength {flags : UInt8} {length bytes : List UInt8} :
    format.IsBehind (afterLength flags length) bytes ↔ ∃ extra rest, bytes = extra ++ rest ∧ extra.length = leNat length ∧
      format.IsBehind (afterExtra flags) rest := by
  unfold afterLength
  by_cases h : leNat length = 0
  · rw [if_pos h, h]
    constructor
    · exact fun hb => ⟨[], bytes, rfl, rfl, hb⟩
    · rintro ⟨extra, rest, rfl, hlen, hb⟩
      rw [List.eq_nil_of_length_eq_zero hlen]
      exact hb
  · rw [if_neg h]
    change format.IsHeader (.extra flags (leNat length) []) bytes ↔ _
    rw [(collects_extra flags _).isHeader_iff (Nat.pos_of_ne_zero h)]
    constructor
    · rintro ⟨extra, rest, o, rfl, hlen, ho, hb⟩
      obtain rfl := Option.some.inj ho
      exact ⟨extra, rest, rfl, hlen, hb⟩
    · rintro ⟨extra, rest, rfl, hlen, hb⟩
      exact ⟨extra, rest, _, rfl, hlen, rfl, hb⟩

theorem isBehind_afterFixed {flags : UInt8} {bytes : List UInt8} :
    format.IsBehind (afterFixed flags) bytes ↔ ∃ extra rest, bytes = extra ++ rest ∧
      Rfc1952.ExtraField (flag flags 2) extra ∧ format.IsBehind (afterExtra flags) rest := by
  unfold afterFixed Rfc1952.ExtraField
  by_cases h : flag flags 2 = true
  · rw [if_pos h]
    simp only [if_pos h]
    change format.IsHeader (.extraLength flags []) bytes ↔ _
    rw [(collects_extraLength flags).isHeader_iff (show ([] : List UInt8).length < 2 from Nat.succ_pos 1)]
    constructor
    · rintro ⟨length, rest, o, rfl, hlen, ho, hb⟩
      obtain rfl := Option.some.inj ho
      obtain ⟨lo, hi, rfl⟩ := List.length_eq_two.mp hlen
      obtain ⟨extra, rest, rfl, hextra, hb⟩ := isBehind_afterLength.mp hb
      exact ⟨lo :: hi :: extra, rest, rfl, ⟨lo, hi, extra, rfl, by rw [hextra]; rfl⟩, hb⟩
    · rintro ⟨_, rest, rfl, ⟨lo, hi, extra, rfl, hextra⟩, hb⟩
      exact ⟨[lo, hi], extra ++ rest, _, rfl, rfl, rfl, isBehind_afterLength.mpr ⟨extra, rest, rfl, hextra, hb⟩⟩
  · rw [if_neg h]
    simp only [if_neg h]
    constructor
    · exact fun hb => ⟨[], bytes, rfl, rfl, hb⟩
    · rintro ⟨_, rest, rfl, rfl, hb⟩
      exact hb

/-- The header that is read is a header. -/
theorem isHeader_iff {bytes : List UInt8} : format.IsHeader format.start bytes ↔ Rfc1952.Header bytes := by
  change format.IsHeader (.fixed []) bytes ↔ _
  rw [collects_fixed.isHeader_iff (show ([] : List UInt8).length < 10 from Nat.succ_pos 9)]
  unfold Rfc1952.Header
  constructor
  · rintro ⟨fixed, rest, o, rfl, hlen, ho, hb⟩
    rw [List.nil_append] at hlen ho
    unfold checkFixed at ho
    by_cases hmagic : fixed.take 3 = [0x1F, 0x8B, 8]
    · rw [if_pos hmagic] at ho
      obtain rfl := Option.some.inj ho
      obtain ⟨flags, more, hmore⟩ : ∃ flags more, fixed.drop 3 = flags :: more :=
        List.exists_cons_of_length_pos (by rw [List.length_drop, hlen]; decide)
      have hfixed : fixed = [0x1F, 0x8B, 8, flags] ++ more := by
        rw [← List.take_append_drop 3 fixed, hmagic, hmore]
        rfl
      subst hfixed
      obtain ⟨extra, rest, rfl, hextra, hb⟩ := isBehind_afterFixed.mp hb
      obtain ⟨name, rest, rfl, hname, hb⟩ := isBehind_afterExtra.mp hb
      obtain ⟨comment, hcrc, rfl, hcomment, hb⟩ := isBehind_afterName.mp hb
      refine ⟨flags, more, extra, name, comment, hcrc, ?_, ?_, hextra, hname, hcomment, isBehind_afterComment.mp hb⟩
      · simp only [List.append_assoc]
      · rw [List.length_append] at hlen
        exact Nat.add_left_cancel hlen
    · rw [if_neg hmagic] at ho
      cases ho
  · rintro ⟨flags, more, extra, name, comment, hcrc, rfl, hmore, hextra, hname, hcomment, hcheck⟩
    refine ⟨[0x1F, 0x8B, 8, flags] ++ more, extra ++ (name ++ (comment ++ hcrc)), _, ?_, ?_, rfl, ?_⟩
    · simp only [List.append_assoc]
    · rw [List.nil_append, List.length_append, hmore]
      rfl
    · exact isBehind_afterFixed.mpr ⟨extra, _, rfl, hextra, isBehind_afterExtra.mpr ⟨name, _, rfl, hname,
        isBehind_afterName.mpr ⟨comment, _, rfl, hcomment, isBehind_afterComment.mpr hcheck⟩⟩⟩

end Noflate.Gzip
