import Noflate.Lemmas.Symbols

/-!
# The machine under more input

What the machine does with some bits it also does with whole bytes behind them (`itemMachine_mono`): a read looks only at the
bits it consumes, or peeks at, and the number of bits to the byte boundary is the same. So how the input is cut into pieces does
not matter to it.
-/

namespace Noflate

open BitString Resumable

/-- The result of a parse with more bits behind what it left. -/
def Parse.append {α : Type} (x : List Bool) : Parse α → Parse α
  | .more => .more
  | .fail => .fail
  | .got a rest => .got a (rest ++ x)

/-- A parser that does not want for bits does the same with the bits `x` behind. -/
def Extends {α : Type} (x : List Bool) (p : List Bool → Parse α) : Prop :=
  ∀ bits, p bits ≠ .more → p (bits ++ x) = (p bits).append x

/-- A move that does not want for bits is the same with the bits `x` behind. -/
def ExtendsNext {σ : Type} (x : List Bool) (p : List Bool → Next σ Bool) : Prop :=
  ∀ bits, p bits ≠ .more → p (bits ++ x) = (p bits).append x

section

variable {α β σ : Type} {x : List Bool}

theorem Extends.fail : Extends x (fun _ => (.fail : Parse α)) := fun _ _ => rfl

theorem Extends.got (a : α) : Extends x (fun bits => .got a bits) := fun _ _ => rfl

theorem Extends.andThen {p : List Bool → Parse α} {f : α → List Bool → Parse β} (hp : Extends x p)
    (hf : ∀ a, Extends x (f a)) : Extends x (fun bits => (p bits).andThen f) := by
  intro bits h
  cases hb : p bits with
  | more => simp [hb] at h
  | fail => simp [hp bits (by simp [hb]), hb, Parse.append]
  | got a rest =>
    simp only [hb, Parse.andThen_got] at h
    simp only [hp bits (by simp [hb]), hb, Parse.append, Parse.andThen_got]
    exact hf a rest h

/-- A parser behind a test that there are enough bits. -/
theorem Extends.guard {p : List Bool → Parse α} (n : Nat) (hp : Extends x p) :
    Extends x (fun bits => if bits.length < n then .more else p bits) := by
  intro bits h
  by_cases hn : bits.length < n
  · simp [hn] at h
  · have hn' : ¬(bits ++ x).length < n := by
      rw [List.length_append]
      omega
    simp only [if_neg hn, if_neg hn'] at h ⊢
    exact hp bits h

theorem Extends.ite {p q : List Bool → Parse α} (c : Prop) [Decidable c] (hp : Extends x p) (hq : Extends x q) :
    Extends x (fun bits => if c then p bits else q bits) := by
  by_cases hc : c
  · simpa only [if_pos hc] using hp
  · simpa only [if_neg hc] using hq

theorem ExtendsNext.fail : ExtendsNext x (fun _ => (.fail : Next σ Bool)) := fun _ _ => rfl

theorem ExtendsNext.next (s : σ) : ExtendsNext x (fun bits => .next s bits) := fun _ _ => rfl

theorem Extends.toNext {p : List Bool → Parse α} {f : α → List Bool → Next σ Bool} (hp : Extends x p)
    (hf : ∀ a, ExtendsNext x (f a)) : ExtendsNext x (fun bits => (p bits).toNext f) := by
  intro bits h
  cases hb : p bits with
  | more => simp [hb] at h
  | fail => simp [hp bits (by simp [hb]), hb, Parse.append, Next.append]
  | got a rest =>
    simp only [hb, Parse.toNext_got] at h
    simp only [hp bits (by simp [hb]), hb, Parse.append, Parse.toNext_got]
    exact hf a rest h

theorem ExtendsNext.guard {p : List Bool → Next σ Bool} (n : Nat) (hp : ExtendsNext x p) :
    ExtendsNext x (fun bits => if bits.length < n then .more else p bits) := by
  intro bits h
  by_cases hn : bits.length < n
  · simp [hn] at h
  · have hn' : ¬(bits ++ x).length < n := by
      rw [List.length_append]
      omega
    simp only [if_neg hn, if_neg hn'] at h ⊢
    exact hp bits h

theorem ExtendsNext.ite {p q : List Bool → Next σ Bool} (c : Prop) [Decidable c] (hp : ExtendsNext x p)
    (hq : ExtendsNext x q) : ExtendsNext x (fun bits => if c then p bits else q bits) := by
  by_cases hc : c
  · simpa only [if_pos hc] using hp
  · simpa only [if_neg hc] using hq

/-- A call of the program that does not read. -/
theorem ExtendsNext.exec {p : α → List Bool → Next σ Bool} (y : Exec α) (hp : ∀ a, ExtendsNext x (p a)) :
    ExtendsNext x (fun bits => y.toNext (fun a => p a bits)) := by
  cases y with
  | ok a => exact hp a
  | err e => exact ExtendsNext.fail
  | panic => exact ExtendsNext.fail
  | diverge => exact ExtendsNext.fail

end

/-! ## The parsers -/

theorem extends_field (x : List Bool) (n : Nat) : Extends x (parseField n) := by
  intro bits h
  unfold parseField at h ⊢
  by_cases hn : bits.length < n
  · rw [if_pos hn] at h
    exact absurd rfl h
  · have hn' : ¬(bits ++ x).length < n := by
      rw [List.length_append]
      omega
    rw [if_neg hn, if_neg hn', List.take_append_of_le_length (by omega), List.drop_append_of_le_length (by omega),
      Parse.append]

theorem extends_symbol (x : List Bool) (dec : HuffmanDecoder) : Extends x dec.parse := by
  intro bits h
  have happ := dec.parseLoop_append 33 dec.safelyPeekBits bits x h
  unfold HuffmanDecoder.parse at h ⊢
  rw [happ]
  cases dec.parseLoop 33 dec.safelyPeekBits bits <;> rfl

theorem extends_distance (x : List Bool) (distance : HuffmanDecoder) : Extends x (parseDistance distance) := by
  refine Extends.andThen (extends_symbol x distance) fun sym => ?_
  cases distanceTable[sym]? with
  | none => exact Extends.fail
  | some e => exact Extends.andThen (extends_field x e.2) fun extra => Extends.got _

theorem extends_token (x : List Bool) (literal distance : HuffmanDecoder) : Extends x (parseToken literal distance) := by
  refine Extends.guard _ (Extends.andThen (extends_symbol x literal) fun sym => ?_)
  refine Extends.ite _ (Extends.got _) (Extends.ite _ (Extends.got _) ?_)
  cases lengthTable[sym - 257]? with
  | none => exact Extends.fail
  | some e =>
    exact Extends.andThen (extends_field x e.2) fun extra =>
      Extends.andThen (extends_distance x distance) fun dist => Extends.got _

theorem extends_codeLength (x : List Bool) (bitwidthDecoder : HuffmanDecoder) (lengths : List Nat) :
    Extends x (parseCodeLength bitwidthDecoder lengths) := by
  refine Extends.andThen (extends_symbol x bitwidthDecoder) fun code => ?_
  refine Extends.ite _ (Extends.got _) (Extends.ite _ ?_ (Extends.ite _ ?_ (Extends.ite _ ?_ Extends.fail)))
  · refine Extends.andThen (extends_field x 2) fun v => ?_
    cases lengths.getLast? with
    | none => exact Extends.fail
    | some last => exact Extends.got _
  · exact Extends.andThen (extends_field x 3) fun v => Extends.got _
  · exact Extends.andThen (extends_field x 7) fun v => Extends.got _

/-- The header of a stored block, with whole bytes behind: the byte boundary is where it was. -/
theorem extends_storedHeader {x : List Bool} (hx : x.length % 8 = 0) : Extends x parseStoredHeader := by
  intro bits h
  have hmod : (bits ++ x).length % 8 = bits.length % 8 := by
    rw [List.length_append]
    omega
  unfold parseStoredHeader at h ⊢
  rw [hmod]
  by_cases hn : bits.length < bits.length % 8 + 32
  · rw [if_pos hn] at h
    exact absurd rfl h
  · have hn' : ¬(bits ++ x).length < bits.length % 8 + 32 := by
      rw [List.length_append]
      omega
    rw [if_neg hn] at h ⊢
    rw [if_neg hn', List.drop_append_of_le_length (by omega)]
    have hfields : Extends x (fun bits => (parseField 16 bits).andThen fun len bits =>
        (parseField 16 bits).andThen fun nlen bits =>
        if 0xFFFF - len ≠ nlen then .fail else .got len bits) := by
      refine Extends.andThen (extends_field x 16) fun len => Extends.andThen (extends_field x 16) fun nlen => ?_
      exact Extends.ite _ Extends.fail (Extends.got _)
    exact hfields _ h

/-! ## The machine -/

theorem not_waiting_iff {s : ItemState} {bits : List Bool} :
    ¬itemMachine.Stops (s, bits) .waiting ↔ itemStep s bits ≠ .more := by
  unfold Machine.Stops itemMachine
  simp only
  cases itemStep s bits <;> simp [Next.verdict]

theorem extends_blockHeader (x : List Bool) (output : List UInt8) : ExtendsNext x (itemStep (.blockHeader, output)) := by
  intro bits h
  unfold itemStep at h ⊢
  by_cases hn : bits.length < 3
  · simp [hn] at h
  · have hn' : ¬(bits ++ x).length < 3 := by
      rw [List.length_append]
      omega
    have h1 : (bits ++ x).take 1 = bits.take 1 := List.take_append_of_le_length (by omega)
    have h2 : ((bits ++ x).drop 1).take 2 = (bits.drop 1).take 2 := by
      rw [List.drop_append_of_le_length (by omega), List.take_append_of_le_length (by rw [List.length_drop]; omega)]
    have h3 : (bits ++ x).drop 3 = bits.drop 3 ++ x := List.drop_append_of_le_length (by omega)
    simp only [if_neg hn, if_neg hn', h1, h2, h3]
    split
    · rfl
    · generalize HuffmanDecoder.fromCodeLengths fixedLiteralCodeLengths none (some endOfBlock) = literal
      generalize HuffmanDecoder.fromCodeLengths fixedDistanceCodeLengths (some 7) none = distance
      cases literal <;> cases distance <;> rfl
    · rfl
    · rfl

/-- What the machine does, it does with whole bytes behind. -/
theorem itemMachine_mono : itemMachine.Mono (fun x => x.length % 8 = 0) := by
  rintro ⟨s, output⟩ bits x hx h
  rw [not_waiting_iff] at h
  have key : ExtendsNext x (itemStep (s, output)) := by
    cases s with
    | blockHeader => exact extends_blockHeader x output
    | storedAlignAndLen isFinal => exact Extends.toNext (extends_storedHeader hx) fun len => ExtendsNext.next _
    | storedBody remaining isFinal =>
      exact ExtendsNext.ite _ (ExtendsNext.next _) (Extends.toNext (extends_field x 8) fun byte => ExtendsNext.next _)
    | dynamicHeader isFinal =>
      refine ExtendsNext.guard _ (Extends.toNext (extends_field x 5) fun hlit => ?_)
      refine Extends.toNext (extends_field x 5) fun hdist => Extends.toNext (extends_field x 4) fun hclen => ?_
      exact ExtendsNext.ite _ ExtendsNext.fail (ExtendsNext.next _)
    | dynamicBitwidthTable isFinal hlit hdist hclen orderIdx codeLengths =>
      refine ExtendsNext.ite _ (Extends.toNext (extends_field x 3) fun width => ?_) ?_
      · exact ExtendsNext.exec _ fun slot => ExtendsNext.next _
      · exact ExtendsNext.exec _ fun bitwidthDecoder => ExtendsNext.next _
    | dynamicCodeLengths isFinal hlit hdist bitwidthDecoder lengths targetLen =>
      refine ExtendsNext.ite _ (Extends.toNext (extends_codeLength x bitwidthDecoder lengths) fun added => ?_) ?_
      · exact ExtendsNext.ite _ ExtendsNext.fail (ExtendsNext.next _)
      · exact ExtendsNext.exec _ fun literal => ExtendsNext.exec _ fun distance => ExtendsNext.next _
    | symbolLoop isFinal literal distance =>
      refine Extends.toNext (extends_token x literal distance) fun token => ?_
      cases token with
      | literal byte => exact ExtendsNext.next _
      | endOfBlock => exact ExtendsNext.next _
      | copy length dist =>
        simp only
        cases Rfc1951.copyBytes dist length output with
        | none => exact ExtendsNext.fail
        | some output => exact ExtendsNext.next _
    | finished => exact fun _ _ => rfl
    | transient => exact fun _ _ => rfl
  exact key bits h

/-! ## The output only grows -/

/-- A list is another with `n` elements or fewer behind it. -/
def Appends {α : Type} (n : Nat) (xs ys : List α) : Prop := xs <+: ys ∧ ys.length ≤ xs.length + n

theorem Appends.refl {α : Type} (n : Nat) (xs : List α) : Appends n xs xs := ⟨List.prefix_refl _, Nat.le_add_right _ _⟩

theorem Appends.singleton {α : Type} {n : Nat} (hn : 1 ≤ n) (xs : List α) (x : α) : Appends n xs (xs ++ [x]) := by
  refine ⟨List.prefix_append _ _, ?_⟩
  rw [List.length_append, List.length_singleton]
  exact Nat.add_le_add_left hn _

theorem copyBytes_appends {distance length : Nat} {output history : List UInt8}
    (h : Rfc1951.copyBytes distance length output = some history) : Appends length output history := by
  induction length generalizing output with
  | zero =>
    rw [Rfc1951.copyBytes, Option.some.injEq] at h
    rw [h]
    exact Appends.refl _ _
  | succ length ih =>
    rw [Rfc1951.copyBytes] at h
    by_cases hd : 0 < distance ∧ distance ≤ output.length
    · rw [if_pos hd] at h
      obtain ⟨h1, h2⟩ := ih h
      rw [List.length_append, List.length_singleton] at h2
      exact ⟨(List.prefix_append _ _).trans h1, by omega⟩
    · rw [if_neg hd] at h
      cases h

/-- The length of a parsed match. -/
theorem parseToken_copy {literal distance : HuffmanDecoder} {bits rest : List Bool} {length dist : Nat}
    (h : parseToken literal distance bits = .got (.copy length dist) rest) : length ≤ maxMatch := by
  unfold parseToken at h
  split at h
  · cases h
  · obtain ⟨sym, bits₁, -, h⟩ := Parse.andThen_eq_got h
    split at h
    · cases h
    · split at h
      · cases h
      · split at h
        · cases h
        · rename_i base extraBits he
          obtain ⟨extra, bits₂, h1, h⟩ := Parse.andThen_eq_got h
          obtain ⟨dist', bits₃, -, h⟩ := Parse.andThen_eq_got h
          obtain ⟨htoken, -⟩ := Parse.got.inj h
          obtain ⟨rfl, -⟩ := Rfc1951.Token.copy.inj htoken
          obtain ⟨-, -, hb⟩ := lengthTable_bounds _ (List.mem_of_getElem? he)
          unfold parseField at h1
          split at h1
          · cases h1
          · obtain ⟨rfl, -⟩ := Parse.got.inj h1
            have hlt := toNat_lt (bits₁.take extraBits)
            rw [List.length_take_of_le (by omega)] at hlt
            simp only at hb
            unfold maxMatch
            omega

/-- A parse that goes on ended with a value. -/
theorem Parse.toNext_eq_next {α σ : Type} {x : Parse α} {f : α → List Bool → Next σ Bool} {s : σ} {rest : List Bool}
    (h : x.toNext f = .next s rest) : ∃ a bits, x = .got a bits ∧ f a bits = .next s rest := by
  cases x with
  | more => cases h
  | fail => cases h
  | got a bits => exact ⟨a, bits, rfl, h⟩

/-- A call of the program that goes on ended with a value. -/
theorem Exec.toNext_eq_next {α σ : Type} {x : Exec α} {f : α → Next σ Bool} {s : σ} {rest : List Bool}
    (h : x.toNext f = .next s rest) : ∃ a, x = .ok a ∧ f a = .next s rest := by
  cases x with
  | ok a => exact ⟨a, rfl, h⟩
  | err e => cases h
  | panic => cases h
  | diverge => cases h

/-- How many bytes a move from a state puts out at most: one of a stored block, a match among symbols. -/
def DecodeState.growth : DecodeState → Nat
  | .storedBody remaining _ => min remaining 1
  | .symbolLoop _ _ _ => maxMatch
  | _ => 0

/-- A move keeps the output or appends to it. -/
theorem itemStep_output {s s' : ItemState} {bits bits' : List Bool} (h : itemStep s bits = .next s' bits') :
    Appends s.1.growth s.2 s'.2 := by
  obtain ⟨state, output⟩ := s
  cases state with
  | blockHeader =>
    simp only [itemStep] at h
    split at h
    · cases h
    · split at h
      · obtain ⟨rfl, -⟩ := Next.next.inj h
        exact Appends.refl _ _
      · obtain ⟨literal, -, h⟩ := Exec.toNext_eq_next h
        obtain ⟨distance, -, h⟩ := Exec.toNext_eq_next h
        obtain ⟨rfl, -⟩ := Next.next.inj h
        exact Appends.refl _ _
      · obtain ⟨rfl, -⟩ := Next.next.inj h
        exact Appends.refl _ _
      · cases h
  | storedAlignAndLen isFinal =>
    obtain ⟨len, rest, -, h⟩ := Parse.toNext_eq_next h
    obtain ⟨rfl, -⟩ := Next.next.inj h
    exact Appends.refl _ _
  | storedBody remaining isFinal =>
    simp only [itemStep] at h
    split at h
    · obtain ⟨rfl, -⟩ := Next.next.inj h
      exact Appends.refl _ _
    · obtain ⟨byte, rest, -, h⟩ := Parse.toNext_eq_next h
      obtain ⟨rfl, -⟩ := Next.next.inj h
      exact Appends.singleton (by simp only [DecodeState.growth]; omega) _ _
  | dynamicHeader isFinal =>
    simp only [itemStep] at h
    split at h
    · cases h
    · obtain ⟨hlit, bits, -, h⟩ := Parse.toNext_eq_next h
      obtain ⟨hdist, bits, -, h⟩ := Parse.toNext_eq_next h
      obtain ⟨hclen, bits, -, h⟩ := Parse.toNext_eq_next h
      split at h
      · cases h
      · obtain ⟨rfl, -⟩ := Next.next.inj h
        exact Appends.refl _ _
  | dynamicBitwidthTable isFinal hlit hdist hclen orderIdx codeLengths =>
    simp only [itemStep] at h
    split at h
    · obtain ⟨width, bits, -, h⟩ := Parse.toNext_eq_next h
      obtain ⟨slot, -, h⟩ := Exec.toNext_eq_next h
      obtain ⟨rfl, -⟩ := Next.next.inj h
      exact Appends.refl _ _
    · obtain ⟨bitwidthDecoder, -, h⟩ := Exec.toNext_eq_next h
      obtain ⟨rfl, -⟩ := Next.next.inj h
      exact Appends.refl _ _
  | dynamicCodeLengths isFinal hlit hdist bitwidthDecoder lengths targetLen =>
    simp only [itemStep] at h
    split at h
    · obtain ⟨added, bits, -, h⟩ := Parse.toNext_eq_next h
      split at h
      · cases h
      · obtain ⟨rfl, -⟩ := Next.next.inj h
        exact Appends.refl _ _
    · obtain ⟨literal, -, h⟩ := Exec.toNext_eq_next h
      obtain ⟨distance, -, h⟩ := Exec.toNext_eq_next h
      obtain ⟨rfl, -⟩ := Next.next.inj h
      exact Appends.refl _ _
  | symbolLoop isFinal literal distance =>
    obtain ⟨token, rest, htoken, h⟩ := Parse.toNext_eq_next h
    cases token with
    | literal byte =>
      obtain ⟨rfl, -⟩ := Next.next.inj h
      exact Appends.singleton (show 1 ≤ maxMatch by decide) _ _
    | endOfBlock =>
      obtain ⟨rfl, -⟩ := Next.next.inj h
      exact Appends.refl _ _
    | copy length dist =>
      simp only at h
      cases hc : Rfc1951.copyBytes dist length output with
      | none =>
        rw [hc] at h
        cases h
      | some history =>
        rw [hc] at h
        obtain ⟨rfl, -⟩ := Next.next.inj h
        obtain ⟨h1, h2⟩ := copyBytes_appends hc
        exact ⟨h1, h2.trans (Nat.add_le_add_left (parseToken_copy htoken) _)⟩
  | finished => cases h
  | transient => cases h

/-- A run keeps the output or appends to it. -/
theorem runs_output {a b : ItemState × List Bool} (h : itemMachine.Runs a b) : a.1.2 <+: b.1.2 := by
  refine Machine.Runs.invariant (P := fun c => a.1.2 <+: c.1.2) ?_ h (List.prefix_refl _)
  intro c c' hmove hc
  exact hc.trans (itemStep_output hmove).1

end Noflate
