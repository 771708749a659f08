import Noflate.General.Readers
import Noflate.Lemmas.Completeness
import Noflate.Lemmas.Decompress

/-!
# The reference reads no further than it takes

Every reader of the reference is exact, so a stream has its meaning whatever whole bytes are behind it, and without them
(`inflate_shorten`). With what the machine does over bits that have a meaning, a machine that halts in front of some bytes halts
without them (`halted_shorten`), and waits for input on any shorter string (`waiting_of_short`).
-/

namespace Noflate

open BitString Resumable Readers

/-- A reader of the reference that is exact, as to whole bytes behind what it leaves. -/
abbrev ExactBits {α : Type} (f : List Bool → Option (α × List Bool)) : Prop := Exact (fun x => x.length % 8 = 0) f

/-! ## Fields and symbols -/

theorem exact_readField (n : Nat) : ExactBits (Rfc1951.readField n) := by
  constructor
  · intro bits v rest h
    obtain ⟨-, -, rfl⟩ := readField_eq_some_iff.mp h
    exact List.drop_suffix _ _
  · intro bits x v rest _ h
    have hlen := readField_length h
    rw [List.length_append, List.length_append] at hlen
    have hn : n ≤ bits.length := by omega
    obtain ⟨-, rfl, hrest⟩ := readField_eq_some_iff.mp h
    rw [List.drop_append_of_le_length hn] at hrest
    rw [List.take_append_of_le_length hn]
    exact readField_eq_some_iff.mpr ⟨hn, rfl, List.append_cancel_right hrest⟩

theorem exact_readSymbol (lengths : List Nat) : ExactBits (Rfc1951.readSymbol lengths) := by
  constructor
  · intro bits s rest h
    obtain ⟨w, -, rfl⟩ := readSymbol_iff.mp h
    exact List.drop_suffix _ _
  · intro bits x s rest _ h
    obtain ⟨w, hw, hrest⟩ := readSymbol_iff.mp h
    have hle : w ≤ bits.length := by
      have hlen := congrArg List.length hrest
      have htotal := hw.width_le
      rw [List.length_append] at htotal
      rw [List.length_drop, List.length_append, List.length_append] at hlen
      omega
    have hcode := hw.code_eq
    rw [List.take_append_of_le_length hle] at hcode
    rw [List.drop_append_of_le_length hle] at hrest
    exact readSymbol_iff.mpr ⟨w, ⟨hw.length_eq, hw.pos, hle, hcode⟩, List.append_cancel_right hrest⟩

/-! ## Tokens -/

theorem exact_readToken (literal distance : List Nat) : ExactBits (Rfc1951.readToken literal distance) := by
  unfold Rfc1951.readToken
  refine (exact_readSymbol literal).bind fun sym => ?_
  refine .ite _ (.pure _) (.ite _ (.pure _) (.bindValue fun length => ?_))
  refine (exact_readField _).bind fun extra => (exact_readSymbol distance).bind fun distSym => .bindValue fun dist => ?_
  exact (exact_readField _).bind fun distExtra => .pure _

theorem exact_readTokens (literal distance : List Nat) (n : Nat) (output : List UInt8) :
    ExactBits fun bits => Rfc1951.readTokens literal distance n bits output := by
  induction n generalizing output with
  | zero => exact .fail
  | succ n ih =>
    simp only [Rfc1951.readTokens]
    refine (exact_readToken literal distance).bind fun token => ?_
    cases token with
    | literal byte => exact ih _
    | copy length dist => exact .bindValue fun output => ih output
    | endOfBlock => exact .pure _

/-! ## Stored blocks -/

theorem exact_readBytes (n : Nat) (output : List UInt8) : ExactBits fun bits => Rfc1951.readBytes n bits output := by
  induction n generalizing output with
  | zero => exact .pure _
  | succ n ih =>
    simp only [Rfc1951.readBytes]
    exact (exact_readField 8).bind fun byte => ih (output ++ [UInt8.ofNat byte])

/-- What a stored block is behind the byte boundary. -/
def readAligned (output : List UInt8) (bits : List Bool) : Option (List UInt8 × List Bool) :=
  (Rfc1951.readField 16 bits).bind fun (len, bits) =>
    (Rfc1951.readField 16 bits).bind fun (nlen, bits) =>
      if len + nlen = 2 ^ 16 - 1 then Rfc1951.readBytes len bits output else none

theorem exact_readStored (output : List UInt8) : ExactBits fun bits => Rfc1951.readStored bits output := by
  have hbody : ExactBits (readAligned output) :=
    (exact_readField 16).bind fun len => (exact_readField 16).bind fun nlen => .ite _ (exact_readBytes len output) .fail
  constructor
  · intro bits history rest h
    exact (hbody.suffix h).trans (List.drop_suffix _ _)
  · intro bits x history rest hx h
    have hmod : (bits ++ x).length % 8 = bits.length % 8 := by
      rw [List.length_append, Nat.add_mod, hx, Nat.add_zero, Nat.mod_mod]
    unfold Rfc1951.readStored at h
    rw [hmod, List.drop_append_of_le_length (Nat.mod_le _ _)] at h
    exact hbody.shorten hx h

/-! ## Code sets -/

theorem exact_readCodeLengthCode (slots lengths : List Nat) :
    ExactBits fun bits => Rfc1951.readCodeLengthCode slots bits lengths := by
  induction slots generalizing lengths with
  | nil => exact .pure _
  | cons slot slots ih =>
    simp only [Rfc1951.readCodeLengthCode]
    exact (exact_readField 3).bind fun length => ih (lengths.set slot length)

theorem exact_readCodeLength (codeLengthCode lengths : List Nat) : ExactBits (readCodeLength codeLengthCode lengths) := by
  unfold readCodeLength
  refine (exact_readSymbol codeLengthCode).bind fun sym => ?_
  refine .ite _ (.pure _) (.ite _ ?_ (.ite _ ?_ (.ite _ ?_ .fail)))
  · refine (exact_readField 2).bind fun extra => ?_
    cases lengths.getLast? with
    | none => exact .fail
    | some last => exact .pure _
  · simp only [Option.map_eq_bind]
    exact (exact_readField 3).bind fun extra => .pure (List.replicate (extra + 3) 0)
  · simp only [Option.map_eq_bind]
    exact (exact_readField 7).bind fun extra => .pure (List.replicate (extra + 11) 0)

theorem exact_readCodeLengths (codeLengthCode : List Nat) (total n : Nat) (lengths : List Nat) :
    ExactBits fun bits => Rfc1951.readCodeLengths codeLengthCode total n bits lengths := by
  have hdone : ∀ {n lengths}, total ≤ lengths.length →
      ExactBits fun bits => Rfc1951.readCodeLengths codeLengthCode total n bits lengths := by
    intro n lengths hge
    simp only [readCodeLengths_done _ _ hge]
    exact .ite _ (.pure _) .fail
  induction n generalizing lengths with
  | zero =>
    rcases Nat.lt_or_ge lengths.length total with hlt | hge
    · have hnone : (fun bits => Rfc1951.readCodeLengths codeLengthCode total 0 bits lengths) = fun _ => none := by
        funext bits
        rw [Rfc1951.readCodeLengths.eq_def]
        simp only [if_neg (Nat.ne_of_lt hlt), if_neg (Nat.not_lt.mpr hlt.le)]
      rw [hnone]
      exact .fail
    · exact hdone hge
  | succ n ih =>
    rcases Nat.lt_or_ge lengths.length total with hlt | hge
    · simp only [readCodeLengths_succ _ _ hlt]
      exact (exact_readCodeLength codeLengthCode lengths).bind fun added => ih (lengths ++ added)
    · exact hdone hge

theorem exact_readCodeSets : ExactBits Rfc1951.readCodeSets := by
  unfold Rfc1951.readCodeSets
  refine (exact_readField 5).bind fun hlit => (exact_readField 5).bind fun hdist => (exact_readField 4).bind fun hclen => ?_
  refine (exact_readCodeLengthCode _ _).bind fun codeLength => ?_
  exact (exact_readCodeLengths _ _ _ _).bind fun lengths => .pure _

/-! ## Blocks and streams -/

/-- A block of tokens, with as many rounds as there are bits. -/
theorem exact_tokens (literal distance : List Nat) (output : List UInt8) :
    ExactBits fun bits => Rfc1951.readTokens literal distance bits.length bits output := by
  constructor
  · intro bits history rest h
    exact (exact_readTokens literal distance _ output).suffix h
  · intro bits x history rest hx h
    have hle : bits.length ≤ (bits ++ x).length := by
      rw [List.length_append]
      exact Nat.le_add_right _ _
    have h' := (exact_readTokens literal distance _ output).shorten hx h
    rwa [readTokens_fuel hle] at h'

/-- What a block says, apart from the bits behind it. -/
def blockOf (block : Rfc1951.Block) : (Bool × List UInt8 × Option Rfc1951.CodeSets) × List Bool :=
  ((block.isFinal, block.output, block.codeSets), block.rest)

/-- What a block of a type says, apart from the bits behind it. -/
def readOfType (output : List UInt8) (final type : Nat) (bits : List Bool) :
    Option ((Bool × List UInt8 × Option Rfc1951.CodeSets) × List Bool) :=
  match type with
  | 0 => (Rfc1951.readStored bits output).bind fun (output, rest) => some ((final != 0, output, none), rest)
  | 1 => (Rfc1951.readTokens Rfc1951.fixedLiteral Rfc1951.fixedDistance bits.length bits output).bind
      fun (output, rest) => some ((final != 0, output, none), rest)
  | 2 => (Rfc1951.readCodeSets bits).bind fun (sets, bits) =>
      (Rfc1951.readTokens sets.literal sets.distance bits.length bits output).bind
        fun (output, rest) => some ((final != 0, output, some sets), rest)
  | _ => none

/-- What a block says, behind the bit and the type of its header. -/
def readHeaded (output : List UInt8) (bits : List Bool) : Option ((Bool × List UInt8 × Option Rfc1951.CodeSets) × List Bool) :=
  (Rfc1951.readField 1 bits).bind fun (final, bits) => (Rfc1951.readField 2 bits).bind fun (type, bits) =>
    readOfType output final type bits

theorem exact_readBlock (output : List UInt8) : ExactBits fun bits => (Rfc1951.readBlock bits output).map blockOf := by
  have hbody : ExactBits (readHeaded output) := by
    refine (exact_readField 1).bind fun final => (exact_readField 2).bind fun type => ?_
    rcases type with _ | _ | _ | type
    · exact (exact_readStored output).bind fun _ => .pure _
    · exact (exact_tokens _ _ output).bind fun _ => .pure _
    · exact exact_readCodeSets.bind fun sets => (exact_tokens _ _ output).bind fun _ => .pure _
    · exact .fail
  convert hbody using 2 with bits
  unfold Rfc1951.readBlock readHeaded readOfType
  cases Rfc1951.readField 1 bits with
  | none => rfl
  | some x =>
    obtain ⟨final, bits⟩ := x
    simp only [Option.bind_eq_bind, Option.bind_some]
    cases Rfc1951.readField 2 bits with
    | none => rfl
    | some y =>
      obtain ⟨type, bits⟩ := y
      simp only [Option.bind_some]
      rcases type with _ | _ | _ | type
      · cases Rfc1951.readStored bits output <;> rfl
      · cases Rfc1951.readTokens Rfc1951.fixedLiteral Rfc1951.fixedDistance bits.length bits output <;> rfl
      · cases Rfc1951.readCodeSets bits with
        | none => rfl
        | some z =>
          obtain ⟨sets, bits⟩ := z
          simp only [Option.bind_some]
          cases Rfc1951.readTokens sets.literal sets.distance bits.length bits output <;> rfl
      · rfl

/-- What a stream stands for, apart from the bits behind it. -/
def meaningOf (m : Rfc1951.Meaning) : (List UInt8 × List Rfc1951.CodeSets) × List Bool := ((m.output, m.codeSets), m.rest)

theorem exact_readBlocks (n : Nat) (output : List UInt8) (codeSets : List Rfc1951.CodeSets) :
    ExactBits fun bits => (Rfc1951.readBlocks n bits output codeSets).map meaningOf := by
  induction n generalizing output codeSets with
  | zero => exact .fail
  | succ n ih =>
    have hbody : ExactBits fun bits => ((Rfc1951.readBlock bits output).map blockOf).bind
        fun ((isFinal, output, sets), bits) => if isFinal then some ((output, codeSets ++ sets.toList), bits)
          else (Rfc1951.readBlocks n bits output (codeSets ++ sets.toList)).map meaningOf :=
      (exact_readBlock output).bind fun _ => .ite _ (.pure _) (ih _ _)
    convert hbody using 2 with bits
    rw [Rfc1951.readBlocks]
    cases Rfc1951.readBlock bits output with
    | none => rfl
    | some block =>
      simp only [Option.bind_eq_bind, Option.bind_some, Option.map_some, blockOf]
      cases block.isFinal <;> rfl

/-- A stream means the same without whole bytes that are left behind it. -/
theorem inflate_shorten {bits x : List Bool} {output : List UInt8} {codeSets : List Rfc1951.CodeSets} {rest : List Bool}
    (hx : x.length % 8 = 0) (h : Rfc1951.inflate (bits ++ x) = some { output, codeSets, rest := rest ++ x }) :
    Rfc1951.inflate bits = some { output, codeSets, rest } := by
  unfold Rfc1951.inflate at h ⊢
  have hmap : (Rfc1951.readBlocks (bits ++ x).length (bits ++ x) [] []).map meaningOf =
      some ((output, codeSets), rest ++ x) := by
    rw [h]
    rfl
  have hle : bits.length ≤ (bits ++ x).length := by
    rw [List.length_append]
    exact Nat.le_add_right _ _
  have h' := (exact_readBlocks _ _ _).shorten hx hmap
  rw [readBlocks_fuel hle] at h'
  obtain ⟨m, hm, heq⟩ := Option.map_eq_some_iff.mp h'
  rw [hm]
  obtain ⟨output', codeSets', rest'⟩ := m
  simp only [meaningOf, Prod.mk.injEq] at heq
  obtain ⟨⟨rfl, rfl⟩, rfl⟩ := heq
  rfl

/-! ## The machine without what is behind a stream -/

/-- The machine stops somewhere on every byte string; where it halts, the final block is decoded. -/
theorem exists_stop (bytes : List UInt8) :
    ∃ verdict c, itemMachine.Runs (startItem bytes) c ∧ itemMachine.Stops c verdict ∧ (verdict = .halted → c.1.1 = .finished) := by
  obtain ⟨verdict, c, hr, hstop, ⟨-, hfin, -⟩ | ⟨rfl, -⟩ | ⟨rfl, -⟩⟩ := decompress_spec bytes
  · exact ⟨verdict, c, hr, hstop, fun _ => hfin⟩
  · exact ⟨_, c, hr, hstop, nofun⟩
  · exact ⟨_, c, hr, hstop, nofun⟩

/-- A machine that halts in front of some bytes halts without them. -/
theorem halted_shorten {bytes : List UInt8} (more : List UInt8) {output : List UInt8} {rest : List Bool}
    (h : itemMachine.Runs (startItem (bytes ++ more)) ((.finished, output), rest ++ ofBytes more)) :
    itemMachine.Runs (startItem bytes) ((.finished, output), rest) := by
  obtain ⟨codeSets, hm, hheld⟩ := inflate_of_halted h
  rw [ofBytes_append] at hm
  obtain ⟨verdict, c, hr, hstop, -⟩ := exists_stop bytes
  obtain ⟨-, rfl⟩ := halted_of_inflate (inflate_shorten (admissible_ofBytes more) hm) hheld hr hstop
  exact hr

/-- A machine that halts in the last byte of a byte string waits for input on any shorter one. -/
theorem waiting_of_short {bytes more : List UInt8} {output : List UInt8} {rest : List Bool} (hmore : more ≠ [])
    (hrest : rest.length < 8) (h : itemMachine.Runs (startItem (bytes ++ more)) ((.finished, output), rest))
    {c : ItemState × List Bool} {verdict : Verdict} (hr : itemMachine.Runs (startItem bytes) c)
    (hstop : itemMachine.Stops c verdict) : verdict = .waiting := by
  by_contra hne
  have happ := hr.append itemMachine_mono (admissible_ofBytes more)
  rw [← startItem_append] at happ
  have hc := (Machine.stop_unique happ (hstop.append itemMachine_mono hne (admissible_ofBytes more)) h stops_halted).1
  -- then the bytes behind are left, and they are more than what is left
  have hlen := congrArg (fun c => c.2.length) hc
  simp only [List.length_append, length_ofBytes] at hlen
  have hpos := List.length_pos_iff.mpr hmore
  omega

end Noflate
