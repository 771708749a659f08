import Noflate.Lemmas.Blocks
import Noflate.Lemmas.Exactness

/-!
# Streams of blocks

Blocks one behind the other (`Blocks`): the reference reads them one after the other (`readBlocks_closed`, `inflate_closed`), and the
machine gets through those that are not the last without looking at what is behind them (`runs_open`). For that, a block that is
not the last is compared with the same block as the last one: the machine makes the same moves (`moves_opened`), and for the last
block it is known that it halts at its end.
-/

namespace Noflate

open BitString Resumable
open Rfc1951 (CodeSets Meaning Reference)

/-- Sound blocks of a stream, one behind the other from a bit on. -/
inductive Blocks : Nat → List EmittedBlock → Prop where
  | nil {offset : Nat} : Blocks offset []
  | cons {offset : Nat} {b : EmittedBlock} {bs : List EmittedBlock} (h : b.Sound offset)
      (h' : Blocks (offset + b.bits.length) bs) : Blocks offset (b :: bs)

/-- The bits of blocks. -/
def blockBits (bs : List EmittedBlock) : List Bool := bs.flatMap EmittedBlock.bits

/-- The bytes blocks stand for. -/
def blockPayload (bs : List EmittedBlock) : List UInt8 := bs.flatMap EmittedBlock.payload

/-- The code sets blocks transmit. -/
def blockSets (bs : List EmittedBlock) : List CodeSets := bs.flatMap fun b => b.codeSets.toList

/-- Blocks none of which is the last of a stream. -/
def Open (bs : List EmittedBlock) : Prop := ∀ b ∈ bs, b.isFinal = false

section

variable {offset : Nat} {b : EmittedBlock} {bs bs' : List EmittedBlock}

theorem blockBits_cons : blockBits (b :: bs) = b.bits ++ blockBits bs := List.flatMap_cons

theorem blockPayload_cons : blockPayload (b :: bs) = b.payload ++ blockPayload bs := List.flatMap_cons

theorem blockSets_cons : blockSets (b :: bs) = b.codeSets.toList ++ blockSets bs := List.flatMap_cons

theorem blockBits_append : blockBits (bs ++ bs') = blockBits bs ++ blockBits bs' := List.flatMap_append

theorem blockPayload_append : blockPayload (bs ++ bs') = blockPayload bs ++ blockPayload bs' := List.flatMap_append

theorem blockBits_singleton : blockBits [b] = b.bits := List.append_nil _

theorem blockPayload_singleton : blockPayload [b] = b.payload := List.append_nil _

theorem blockSets_singleton : blockSets [b] = b.codeSets.toList := List.append_nil _

theorem Open.nil : Open [] := fun _ h => (nomatch h)

theorem Open.cons (h : b.isFinal = false) (h' : Open bs) : Open (b :: bs) := by
  intro b' hb
  rcases List.mem_cons.mp hb with rfl | hb
  · exact h
  · exact h' b' hb

theorem Open.append (h : Open bs) (h' : Open bs') : Open (bs ++ bs') := by
  intro b hb
  rcases List.mem_append.mp hb with hb | hb
  · exact h b hb
  · exact h' b hb

/-- For what a block is it does not matter how many bytes are before it. -/
theorem EmittedBlock.Sound.congr {offset' : Nat} (h : b.Sound offset) (hmod : offset % 8 = offset' % 8) : b.Sound offset' := by
  have hal : ∀ {rest}, Aligned (offset' + b.bits.length) rest → Aligned (offset + b.bits.length) rest :=
    fun h' => h'.congr (by omega)
  exact ⟨fun f history rest h' => h.reads f history rest (hal h'), fun f rest h' => h.traced f rest (hal h'), h.strict, h.size_eq,
    h.within⟩

theorem Blocks.congr {offset' : Nat} (h : Blocks offset bs) (hmod : offset % 8 = offset' % 8) : Blocks offset' bs := by
  induction h generalizing offset' with
  | nil => exact .nil
  | cons h _ ih => exact .cons (h.congr hmod) (ih (by omega))

theorem Blocks.append (h : Blocks offset bs) (h' : Blocks (offset + (blockBits bs).length) bs') : Blocks offset (bs ++ bs') := by
  induction h with
  | nil => exact h'
  | cons h _ ih =>
    rw [blockBits_cons, List.length_append, ← Nat.add_assoc] at h'
    exact .cons h (ih h')

theorem Blocks.singleton (h : b.Sound offset) : Blocks offset [b] := .cons h .nil

/-- A sound block is read. -/
theorem EmittedBlock.Sound.readBlock (h : b.Sound offset) {rest : List Bool} (hrest : Aligned (offset + b.bits.length) rest)
    (history : List UInt8) : Rfc1951.readBlock (b.bits ++ rest) history =
      some { isFinal := b.isFinal, output := history ++ b.payload, codeSets := b.codeSets, rest } :=
  h.reads b.isFinal history rest hrest

/-- The code sets of sound blocks are strict. -/
theorem Blocks.strict (h : Blocks offset bs) : ∀ sets ∈ blockSets bs, sets.Strict := by
  induction h with
  | nil => exact fun sets hs => (nomatch hs)
  | cons h _ ih =>
    intro sets hs
    rw [blockSets_cons] at hs
    rcases List.mem_append.mp hs with hs | hs
    · exact h.strict sets (Option.mem_toList.mp hs)
    · exact ih sets hs

/-- Blocks with one more at their end. -/
theorem Blocks.split (h : Blocks offset (bs ++ [b])) : Blocks offset bs ∧ b.Sound (offset + (blockBits bs).length) := by
  induction bs generalizing offset with
  | nil =>
    cases h with
    | cons h _ => exact ⟨.nil, h⟩
  | cons b' bs ih =>
    cases h with
    | cons h h' =>
      obtain ⟨h1, h2⟩ := ih h'
      refine ⟨.cons h h1, ?_⟩
      rw [blockBits_cons, List.length_append, ← Nat.add_assoc]
      exact h2

/-! ## Reading -/

/-- Blocks of which the last one is the last of the stream. -/
theorem readBlocks_closed (h : Blocks offset (bs ++ [b])) (hopen : Open bs) (hfinal : b.isFinal = true) {rest : List Bool}
    (hrest : Aligned (offset + (blockBits (bs ++ [b])).length) rest) (history : List UInt8) (codeSets : List CodeSets) :
    Rfc1951.readBlocks (blockBits (bs ++ [b]) ++ rest).length (blockBits (bs ++ [b]) ++ rest) history codeSets =
      some { output := history ++ blockPayload (bs ++ [b]), codeSets := codeSets ++ blockSets (bs ++ [b]), rest } := by
  induction bs generalizing offset history codeSets with
  | nil =>
    cases h with
    | cons h _ =>
      rw [List.nil_append, blockBits_singleton] at hrest ⊢
      rw [readBlocks_eq, h.readBlock hrest, Option.bind_some, blockPayload_singleton, blockSets_singleton]
      simp only [hfinal, afterBlock, if_true]
  | cons b' bs ih =>
    cases h with
    | cons h h' =>
      have hfirst := hopen b' List.mem_cons_self
      rw [List.cons_append, blockBits_cons, List.length_append, ← Nat.add_assoc] at hrest
      rw [List.cons_append, blockBits_cons, List.append_assoc, readBlocks_eq, h.readBlock (Aligned.append.mpr hrest),
        Option.bind_some]
      simp only [hfirst, afterBlock, Bool.false_eq_true, if_false]
      rw [ih h' (fun b'' hb => hopen b'' (List.mem_cons_of_mem _ hb)) hrest, blockPayload_cons, blockSets_cons, List.append_assoc,
        List.append_assoc]

/-- A stream of blocks stands for their bytes. -/
theorem inflate_closed (h : Blocks 0 (bs ++ [b])) (hopen : Open bs) (hfinal : b.isFinal = true) {rest : List Bool}
    (hrest : Aligned (blockBits (bs ++ [b])).length rest) :
    Rfc1951.inflate (blockBits (bs ++ [b]) ++ rest) =
      some { output := blockPayload (bs ++ [b]), codeSets := blockSets (bs ++ [b]), rest } := by
  unfold Rfc1951.inflate
  rw [readBlocks_closed h hopen hfinal (by rwa [Nat.zero_add]), List.nil_append, List.nil_append]

/-- Strict code sets are such as the decoder's tables hold. -/
theorem held_of_strict {sets : CodeSets} (h : sets.Strict) : Held sets := by
  have hraise : ∀ {M : Nat} {lengths : List Nat}, M ≤ 15 → (∀ w ∈ lengths, w ≤ M) → kraftSum M lengths = 2 ^ M →
      Rfc1951.NotOversubscribed lengths := by
    intro M lengths hM hle hsum
    have hscale : kraftSum 15 lengths = 2 ^ (15 - M) * kraftSum M lengths := by
      unfold kraftSum
      rw [← List.sum_map_mul_left]
      congr 1
      refine List.map_congr_left ?_
      intro w hw
      have := hle w (List.mem_of_mem_filter hw)
      rw [← Nat.pow_add]
      congr 1
      omega
    rw [hsum, ← Nat.pow_add, Nat.sub_add_cancel hM] at hscale
    exact hscale.le
  have hsingle : ∀ {lengths : List Nat} {s : Nat}, SingleCode lengths s → Rfc1951.NotOversubscribed lengths := by
    intro lengths s hs
    have hmem : ∀ t, t ∈ [s] ↔ 0 < lengths.getD t 0 := by
      intro t
      rw [List.mem_singleton]
      constructor
      · rintro rfl
        rw [hs.1]
        exact Nat.one_pos
      · intro ht
        by_contra hne
        rw [hs.2 t hne] at ht
        exact Nat.lt_irrefl 0 ht
    have hsum := kraftSum_eq 15 (List.nodup_singleton s) hmem
    rw [List.map_singleton, List.sum_singleton, hs.1] at hsum
    exact hsum.le.trans (by decide)
  refine ⟨hraise (by decide) h.codeLength_le h.codeLength_complete, ?_, ?_, h.distance_count.2, ?_⟩
  · exact h.literal_complete.elim hsingle fun hsum => hraise le_rfl h.literal_le hsum
  · exact h.distance_complete.elim (fun ⟨s, hs⟩ => hsingle hs) fun hsum => hraise le_rfl h.distance_le hsum
  · rcases h.distance_complete with ⟨s, hs⟩ | hsum
    · have hcode : HasCode sets.distance s := by
        unfold HasCode
        rw [hs.1]
        exact Nat.one_pos
      exact ⟨_, List.mem_of_getElem? hcode.getElem?, hcode⟩
    · by_contra hnone
      push Not at hnone
      have hfilter : sets.distance.filter (fun w => 0 < w) = [] := by
        rw [List.filter_eq_nil_iff]
        intro w hw
        have := hnone w hw
        simpa using this
      unfold kraftSum at hsum
      rw [hfilter] at hsum
      cases hsum

end

/-! ## The machine at a block that is not the last -/

/-- A state among the last block, as one among a block that is not. -/
def DecodeState.opened : DecodeState → DecodeState
  | .storedAlignAndLen _ => .storedAlignAndLen false
  | .storedBody remaining _ => .storedBody remaining false
  | .dynamicHeader _ => .dynamicHeader false
  | .dynamicBitwidthTable _ hlit hdist hclen orderIdx codeLengths => .dynamicBitwidthTable false hlit hdist hclen orderIdx codeLengths
  | .dynamicCodeLengths _ hlit hdist bitwidthDecoder lengths targetLen =>
    .dynamicCodeLengths false hlit hdist bitwidthDecoder lengths targetLen
  | .symbolLoop _ literal distance => .symbolLoop false literal distance
  | .finished => .blockHeader
  | s => s

/-- A state among the last block of a stream. -/
def DecodeState.Closing : DecodeState → Prop
  | .storedAlignAndLen isFinal => isFinal = true
  | .storedBody _ isFinal => isFinal = true
  | .dynamicHeader isFinal => isFinal = true
  | .dynamicBitwidthTable isFinal .. => isFinal = true
  | .dynamicCodeLengths isFinal .. => isFinal = true
  | .symbolLoop isFinal .. => isFinal = true
  | .finished => True
  | _ => False

/-- What a move among the last block is to one among a block that is not: the same, with the states opened. -/
inductive OpensTo : Next ItemState Bool → Next ItemState Bool → Prop where
  | more : OpensTo .more .more
  | fail : OpensTo .fail .fail
  | next {s s' : DecodeState} {output : List UInt8} {bits : List Bool} (h : s.Closing) (h' : s' = s.opened) :
      OpensTo (.next (s, output) bits) (.next (s', output) bits)

theorem OpensTo.parse {α : Type} {p : Parse α} {f g : α → List Bool → Next ItemState Bool}
    (h : ∀ a rest, OpensTo (f a rest) (g a rest)) : OpensTo (p.toNext f) (p.toNext g) := by
  cases p with
  | more => exact .more
  | fail => exact .fail
  | got a rest => exact h a rest

theorem OpensTo.exec {α : Type} {x : Exec α} {f g : α → Next ItemState Bool} (h : ∀ a, OpensTo (f a) (g a)) :
    OpensTo (x.toNext f) (x.toNext g) := by
  cases x with
  | ok a => exact h a
  | err e => exact .fail
  | panic => exact .fail
  | diverge => exact .fail

theorem OpensTo.ite {c : Prop} [Decidable c] {x x' y y' : Next ItemState Bool} (h : OpensTo x x') (h' : OpensTo y y') :
    OpensTo (if c then x else y) (if c then x' else y') := by
  by_cases hc : c
  · rw [if_pos hc, if_pos hc]
    exact h
  · rw [if_neg hc, if_neg hc]
    exact h'

/-- The machine at the first bit of a block. -/
theorem itemStep_header (output : List UInt8) (bits : List Bool) :
    OpensTo (itemStep (.blockHeader, output) (true :: bits)) (itemStep (.blockHeader, output) (false :: bits)) := by
  have hdrop : ∀ f : Bool, (f :: bits).drop 1 = bits := fun _ => rfl
  have htake : ∀ f : Bool, (toNat ((f :: bits).take 1) != 0) = f := by
    intro f
    cases f <;> rfl
  simp only [itemStep, hdrop, htake, List.length_cons]
  refine .ite .more ?_
  generalize toNat (bits.take 2) = type
  rcases type with _ | _ | _ | type
  · exact .next rfl rfl
  · exact .exec fun literal => .exec fun distance => .next rfl rfl
  · exact .next rfl rfl
  · exact .fail

/-- The machine among the last block. -/
theorem itemStep_closing {s : DecodeState} (h : s.Closing) (hne : s ≠ .finished) (output : List UInt8) (bits : List Bool) :
    OpensTo (itemStep (s, output) bits) (itemStep (s.opened, output) bits) := by
  cases s with
  | blockHeader => exact h.elim
  | storedAlignAndLen isFinal =>
    obtain rfl : isFinal = true := h
    exact .parse fun len rest => .next rfl rfl
  | storedBody remaining isFinal =>
    obtain rfl : isFinal = true := h
    exact .ite (.next trivial rfl) (.parse fun byte rest => .next rfl rfl)
  | dynamicHeader isFinal =>
    obtain rfl : isFinal = true := h
    refine .ite .more (.parse fun hlit bits => .parse fun hdist bits => .parse fun hclen bits => ?_)
    exact .ite .fail (.next rfl rfl)
  | dynamicBitwidthTable isFinal hlit hdist hclen orderIdx codeLengths =>
    obtain rfl : isFinal = true := h
    exact .ite (.parse fun width bits => .exec fun slot => .next rfl rfl) (.exec fun bitwidthDecoder => .next rfl rfl)
  | dynamicCodeLengths isFinal hlit hdist bitwidthDecoder lengths targetLen =>
    obtain rfl : isFinal = true := h
    refine .ite (.parse fun added bits => .ite .fail (.next rfl rfl)) (.exec fun literal => ?_)
    exact .exec fun distance => .next rfl rfl
  | symbolLoop isFinal literal distance =>
    obtain rfl : isFinal = true := h
    refine .parse fun token rest => ?_
    cases token with
    | literal byte => exact .next rfl rfl
    | endOfBlock => exact .next trivial rfl
    | copy length dist =>
      cases hcopy : Rfc1951.copyBytes dist length output with
      | none =>
        simp only [hcopy]
        exact .fail
      | some output' =>
        simp only [hcopy]
        exact .next rfl rfl
  | finished => exact absurd rfl hne
  | transient => exact h.elim

/-- A move among the last block is one among a block that is not. -/
theorem moves_opened {s s' : DecodeState} {output output' : List UInt8} {bits bits' : List Bool} (h : s.Closing)
    (hmove : itemMachine.Moves ((s, output), bits) ((s', output'), bits')) :
    itemMachine.Moves ((s.opened, output), bits) ((s'.opened, output'), bits') ∧ s'.Closing := by
  have hstep : itemStep (s, output) bits = .next (s', output') bits' := hmove
  have hne : s ≠ .finished := by
    rintro rfl
    cases hstep
  have hopens := itemStep_closing h hne output bits
  rw [hstep] at hopens
  generalize hx : itemStep (s.opened, output) bits = x at hopens
  cases hopens with
  | next hc ho =>
    rw [ho] at hx
    exact ⟨hx, hc⟩

/-- A run to the end of the last block is one to the end of a block that is not the last. -/
theorem runs_opened {s : DecodeState} {output output' : List UInt8} {bits rest : List Bool} (h : s.Closing)
    (hr : itemMachine.Runs ((s, output), bits) ((.finished, output'), rest)) :
    itemMachine.Runs ((s.opened, output), bits) ((.blockHeader, output'), rest) := by
  have hrun : ∀ c, itemMachine.Runs ((s, output), bits) c →
      itemMachine.Runs ((s.opened, output), bits) ((c.1.1.opened, c.1.2), c.2) ∧ c.1.1.Closing := by
    intro c hc
    induction hc with
    | refl => exact ⟨.refl _, h⟩
    | tail _ hmove ih =>
      obtain ⟨h1, h2⟩ := moves_opened ih.2 hmove
      exact ⟨ih.1.tail h1, h2⟩
  exact (hrun _ hr).1

/-- The same from the first bit of the block. -/
theorem runs_block_opened {output output' : List UInt8} {bits rest : List Bool}
    (hr : itemMachine.Runs ((.blockHeader, output), true :: bits) ((.finished, output'), rest)) :
    itemMachine.Runs ((.blockHeader, output), false :: bits) ((.blockHeader, output'), rest) := by
  rcases Relation.ReflTransGen.cases_head hr with heq | ⟨⟨⟨s, output₁⟩, bits₁⟩, hmove, hr'⟩
  · cases heq
  · have hstep : itemStep (.blockHeader, output) (true :: bits) = .next (s, output₁) bits₁ := hmove
    have hopens := itemStep_header output bits
    rw [hstep] at hopens
    generalize hx : itemStep (.blockHeader, output) (false :: bits) = x at hopens
    cases hopens with
    | next hc ho =>
      rw [ho] at hx
      exact .head (moves_of_next hx) (runs_opened hc hr')

/-! ## The machine over blocks -/

/-- Bits in whole bytes are those of a byte string. -/
theorem exists_ofBytes {bits : List Bool} (h : bits.length % 8 = 0) : ∃ bytes, bits = ofBytes bytes := by
  obtain ⟨n, hn⟩ : ∃ n, bits.length = 8 * n := ⟨bits.length / 8, by omega⟩
  clear h
  induction n generalizing bits with
  | zero => exact ⟨[], List.eq_nil_of_length_eq_zero hn⟩
  | succ n ih =>
    obtain ⟨bytes, hbytes⟩ := ih (show (bits.drop 8).length = 8 * n by rw [List.length_drop]; omega)
    have hlen : (bits.take 8).length = 8 := List.length_take_of_le (by omega)
    have hlt : toNat (bits.take 8) < 2 ^ 8 := by
      have := toNat_lt (bits.take 8)
      rwa [hlen] at this
    refine ⟨UInt8.ofNat (toNat (bits.take 8)) :: bytes, ?_⟩
    have htake := ofNat_toNat (bits.take 8)
    rw [hlen] at htake
    rw [ofBytes_cons, BitWriter.ofNat_eight_ofNat, htake, ← hbytes, List.take_append_drop]

/-- A stream of blocks up to its last one: the machine halts at the end. -/
theorem runs_closed {bs : List EmittedBlock} {b : EmittedBlock} (h : Blocks 0 (bs ++ [b])) (hopen : Open bs)
    (hfinal : b.isFinal = true) {rest : List Bool} (hrest : Aligned (blockBits (bs ++ [b])).length rest) :
    itemMachine.Runs ((.blockHeader, []), blockBits (bs ++ [b]) ++ rest) ((.finished, blockPayload (bs ++ [b])), rest) := by
  have hm := inflate_closed h hopen hfinal hrest
  obtain ⟨bytes, hbytes⟩ := exists_ofBytes (show (blockBits (bs ++ [b]) ++ rest).length % 8 = 0 by
    unfold Aligned at hrest
    rw [List.length_append]
    exact hrest)
  obtain ⟨verdict, c, hr, hstop, -⟩ := exists_stop bytes
  unfold startItem at hr
  rw [← hbytes] at hr
  obtain ⟨-, rfl⟩ := halted_of_inflate hm (fun sets hs => held_of_strict (h.strict sets hs)) hr hstop
  exact hr

/-- Blocks that are not the last: the machine gets through them, whatever is behind them. -/
theorem runs_open {bs : List EmittedBlock} (h : Blocks 0 bs) (hopen : Open bs) {rest : List Bool}
    (hrest : Aligned (blockBits bs).length rest) :
    itemMachine.Runs ((.blockHeader, []), blockBits bs ++ rest) ((.blockHeader, blockPayload bs), rest) := by
  induction bs using List.reverseRecOn generalizing rest with
  | nil => exact .refl _
  | append_singleton bs b ih =>
    obtain ⟨hbs, hb⟩ : Blocks 0 bs ∧ b.Sound (0 + (blockBits bs).length) := h.split
    have hopen' : Open bs := fun b' hb' => hopen b' (List.mem_append_left _ hb')
    have hnot : b.isFinal = false := hopen b (List.mem_append_right _ (List.mem_singleton_self b))
    have hbits : b.bits = false :: b.tail := by
      unfold EmittedBlock.bits
      rw [hnot]
    have hrest' : Aligned (blockBits bs).length (b.bits ++ rest) := by
      rw [Aligned.append, ← List.length_append, ← blockBits_singleton, ← blockBits_append]
      exact hrest
    -- the same stream with the block as its last one
    have hclosed := runs_closed (hbs.append (.singleton (hb.ending true))) hopen' (show (b.ending true).isFinal = true from rfl)
      (show Aligned (blockBits (bs ++ [b.ending true])).length rest by
        rw [blockBits_append, blockBits_singleton, List.length_append]
        exact Aligned.append.mp hrest')
    rw [blockBits_append, blockBits_singleton, blockPayload_append, blockPayload_singleton, List.append_assoc] at hclosed ⊢
    have hto :=
      (ih hbs hopen' (show Aligned (blockBits bs).length ((b.ending true).bits ++ rest) from hrest')).to_stop hclosed stops_halted
    refine (ih hbs hopen' hrest').trans ?_
    rw [hbits]
    exact runs_block_opened hto

end Noflate
