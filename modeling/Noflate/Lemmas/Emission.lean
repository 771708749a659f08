import Noflate.Encoding
import Noflate.Lemmas.Emitting

/-!
# What the encoder is for

`Emission` is the encoder without its buffers, its tables and its bits: the blocks it has emitted and the bytes that are still to be
emitted. Every call on an encoder in use is the call on the emission it stands for (`Refines.call`), so a run is too (`run_refines`):
that is all the rest of the development needs to know of the encoder. The history and what the caller has consumed are not in it.
-/

namespace Noflate

open BitString

/-- An emission: the blocks, the bytes that are pending, whether the last block has been emitted, and whether a call has reported
an error. -/
structure Emission where
  options : EncodeOptions
  blocks : List EmittedBlock
  pending : List UInt8
  finishing : Bool
  failed : Bool

namespace Emission

/-- Nothing emitted. -/
def start (options : EncodeOptions) : Emission := { options, blocks := [], pending := [], finishing := false, failed := false }

/-- The bits of an emission. Behind the last block they are filled up to a whole byte. -/
def bits (e : Emission) : List Bool := blockBits e.blocks ++ Encoder.closing e.finishing (blockBits e.blocks)

theorem bits_open {e : Emission} (hf : e.finishing = false) : e.bits = blockBits e.blocks := by
  rw [Emission.bits, hf, Encoder.closing, if_neg Bool.false_ne_true, List.append_nil]

/-- The bits of an emission in whole bytes. -/
theorem bits_padded (e : Emission) : e.bits ++ pad e.bits = blockBits e.blocks ++ pad (blockBits e.blocks) := by
  unfold Emission.bits Encoder.closing
  split
  · have hnil : pad (blockBits e.blocks ++ pad (blockBits e.blocks)) = [] := by
      conv_lhs => rw [pad, length_append_pad]
      rfl
    rw [hnil, List.append_nil]
  · rw [List.append_nil]

/-- The bytes an emission stands for: those of its blocks, and those still to be emitted. -/
def payload (e : Emission) : List UInt8 := blockPayload e.blocks ++ e.pending

/-- A chunk is emitted as blocks of a kind. -/
noncomputable def emitAs (e : Emission) (kind : BlockKind) (chunk : List UInt8) (isFinal : Bool) : Emission :=
  { e with blocks := e.blocks ++ chunkBlocks kind chunk isFinal (blockBits e.blocks).length }

/-- A chunk is emitted as the options say. -/
noncomputable def emit (e : Emission) (chunk : List UInt8) (isFinal : Bool) : Emission := e.emitAs e.options.blockKind chunk isFinal

/-- As many blocks as are full are emitted. -/
noncomputable def cut (limit : Nat) (e : Emission) : Emission :=
  if 0 < limit ∧ limit ≤ e.pending.length then
    cut limit (emit { e with pending := e.pending.drop limit } (e.pending.take limit) false)
  else e
termination_by e.pending.length
decreasing_by
  show (e.pending.drop limit).length < e.pending.length
  rw [List.length_drop]
  omega

theorem cut_full {limit : Nat} {e : Emission} (h : 0 < limit ∧ limit ≤ e.pending.length) :
    cut limit e = cut limit (emit { e with pending := e.pending.drop limit } (e.pending.take limit) false) := by
  rw [cut, if_pos h]

theorem cut_rest {limit : Nat} {e : Emission} (h : ¬(0 < limit ∧ limit ≤ e.pending.length)) : cut limit e = e := by
  rw [cut, if_neg h]

/-- Blocks are emitted as the options say when there is much input. -/
noncomputable def cutAll (e : Emission) : Emission :=
  match e.options.maxBlockInputBytes with
  | some limit => cut limit e
  | none => e

/-- What is pending is emitted, if there is something. -/
noncomputable def flush (e : Emission) : Emission := if e.pending = [] then e else emit { e with pending := [] } e.pending false

/-- A call. -/
noncomputable def call (e : Emission) : Command → Emission
  | .feed data => if e.finishing then { e with failed := true } else cutAll { e with pending := e.pending ++ data }
  | .syncFlush => if e.finishing then { e with failed := true } else e.flush.emitAs .stored [] false
  | .finish => if e.finishing then e else { emit { e with pending := [] } e.pending true with finishing := true }
  | .resetHistory => e
  | .advance _ => e

/-- Calls, one after the other. -/
noncomputable def run (commands : List Command) (e : Emission) : Emission := commands.foldl call e

/-! ## Soundness -/

/-- A sound emission: its blocks are, none of them is the last before it is finished, and then the last one is. -/
structure Sound (e : Emission) : Prop where
  blocks_sound : Blocks 0 e.blocks
  opened : e.finishing = false → Open e.blocks
  ended : e.finishing = true → Ending true e.blocks ∧ e.pending = []

section

variable {e : Emission}

theorem start_sound (options : EncodeOptions) : (start options).Sound :=
  ⟨.nil, fun _ => .nil, fun h => (nomatch h)⟩

/-- Blocks for a chunk behind those of a sound emission that is not finished. -/
theorem Sound.emitAs (h : e.Sound) (hf : e.finishing = false) (kind : BlockKind) (chunk : List UInt8) :
    (e.emitAs kind chunk false).Sound ∧ blockPayload (e.emitAs kind chunk false).blocks = blockPayload e.blocks ++ chunk := by
  obtain ⟨h1, h2, h3⟩ := chunkBlocks_spec kind chunk false (blockBits e.blocks).length
  refine ⟨⟨h.blocks_sound.append (by rwa [Nat.zero_add]), fun _ => (h.opened hf).append h3.opened, ?_⟩, ?_⟩
  · intro ht
    cases hf.symm.trans ht
  · unfold Emission.emitAs
    rw [blockPayload_append, h2]

theorem Sound.cut (h : e.Sound) (hf : e.finishing = false) (limit : Nat) :
    (cut limit e).Sound ∧ (cut limit e).payload = e.payload ∧ (cut limit e).finishing = false := by
  induction e using cut.induct limit with
  | case1 e hc ih =>
    have hs : Sound { e with pending := e.pending.drop limit } := ⟨h.blocks_sound, h.opened, fun ht => nomatch hf.symm.trans ht⟩
    obtain ⟨h1, h2⟩ := hs.emitAs hf e.options.blockKind (e.pending.take limit)
    obtain ⟨h3, h4, h5⟩ := ih h1 hf
    rw [cut_full hc]
    refine ⟨h3, h4.trans ?_, h5⟩
    unfold payload
    rw [Emission.emit, h2, List.append_assoc]
    congr 1
    exact List.take_append_drop _ _
  | case2 e hc =>
    rw [cut_rest hc]
    exact ⟨h, rfl, hf⟩

theorem Sound.cutAll (h : e.Sound) (hf : e.finishing = false) :
    e.cutAll.Sound ∧ e.cutAll.payload = e.payload ∧ e.cutAll.finishing = false := by
  unfold Emission.cutAll
  cases e.options.maxBlockInputBytes with
  | none => exact ⟨h, rfl, hf⟩
  | some limit => exact h.cut hf limit

theorem Sound.flush (h : e.Sound) (hf : e.finishing = false) :
    e.flush.Sound ∧ e.flush.payload = e.payload ∧ e.flush.pending = [] ∧ e.flush.finishing = false := by
  unfold Emission.flush
  by_cases hp : e.pending = []
  · rw [if_pos hp]
    exact ⟨h, rfl, hp, hf⟩
  · have hs : Sound { e with pending := [] } := ⟨h.blocks_sound, h.opened, fun ht => nomatch hf.symm.trans ht⟩
    obtain ⟨h1, h2⟩ := hs.emitAs hf e.options.blockKind e.pending
    rw [if_neg hp]
    refine ⟨h1, ?_, rfl, hf⟩
    unfold payload
    rw [Emission.emit, h2]
    exact List.append_nil _

/-- What a call accepts: bytes before the end, none behind it. -/
def accepts (e : Emission) : Command → List UInt8
  | .feed data => if e.finishing then [] else data
  | .syncFlush => []
  | .resetHistory => []
  | .finish => []
  | .advance _ => []

/-- A call on a sound emission leaves a sound one, which stands for the bytes accepted besides. -/
theorem Sound.call (h : e.Sound) (c : Command) : (e.call c).Sound ∧ (e.call c).payload = e.payload ++ e.accepts c := by
  cases hf : e.finishing with
  | true =>
    have hfail : Sound { e with failed := true } := ⟨h.blocks_sound, h.opened, h.ended⟩
    cases c with
    | feed data =>
      rw [Emission.call, accepts, if_pos hf, if_pos hf, List.append_nil]
      exact ⟨hfail, rfl⟩
    | syncFlush =>
      rw [Emission.call, accepts, if_pos hf, List.append_nil]
      exact ⟨hfail, rfl⟩
    | finish =>
      rw [Emission.call, accepts, if_pos hf, List.append_nil]
      exact ⟨h, rfl⟩
    | resetHistory => exact ⟨h, (List.append_nil _).symm⟩
    | advance n => exact ⟨h, (List.append_nil _).symm⟩
  | false =>
    have hnot : ¬e.finishing = true := by
      rw [hf]
      exact Bool.false_ne_true
    cases c with
    | feed data =>
      have hs : Sound { e with pending := e.pending ++ data } := ⟨h.blocks_sound, h.opened, fun ht => absurd ht hnot⟩
      rw [Emission.call, accepts, if_neg hnot, if_neg hnot]
      obtain ⟨h1, h2, -⟩ := hs.cutAll hf
      refine ⟨h1, h2.trans ?_⟩
      exact (List.append_assoc _ _ _).symm
    | syncFlush =>
      obtain ⟨h1, h2, h3, h4⟩ := h.flush hf
      obtain ⟨h5, h6⟩ := h1.emitAs h4 .stored []
      rw [Emission.call, accepts, if_neg hnot, List.append_nil]
      refine ⟨h5, ?_⟩
      rw [← h2]
      unfold payload
      rw [h6, List.append_nil]
      rfl
    | finish =>
      obtain ⟨h1, h2, h3⟩ := chunkBlocks_spec e.options.blockKind e.pending true (blockBits e.blocks).length
      obtain ⟨front, b, h4, h5, h6⟩ := h3
      rw [Emission.call, accepts, if_neg hnot, List.append_nil]
      refine ⟨⟨h.blocks_sound.append (by rwa [Nat.zero_add]), fun ht => (nomatch ht), fun _ => ⟨?_, rfl⟩⟩, ?_⟩
      · refine ⟨e.blocks ++ front, b, ?_, (h.opened hf).append h5, h6⟩
        rw [List.append_assoc, ← h4]
        rfl
      · show blockPayload (e.blocks ++ _) ++ [] = _
        rw [List.append_nil, blockPayload_append, h2]
        rfl
    | resetHistory => exact ⟨h, (List.append_nil _).symm⟩
    | advance n => exact ⟨h, (List.append_nil _).symm⟩

/-- Calls on a sound emission leave a sound one. -/
theorem Sound.run (h : e.Sound) (commands : List Command) : (Emission.run commands e).Sound := by
  induction commands generalizing e with
  | nil => exact h
  | cons c commands ih => exact ih (h.call c).1

/-- Emitting what is full changes the blocks and what is pending. -/
theorem cut_frame (limit : Nat) (e : Emission) :
    (cut limit e).options = e.options ∧ (cut limit e).finishing = e.finishing ∧ (cut limit e).failed = e.failed := by
  induction e using cut.induct limit with
  | case1 e hc ih =>
    rw [cut_full hc]
    exact ih
  | case2 e hc =>
    rw [cut_rest hc]
    exact ⟨rfl, rfl, rfl⟩

/-- A call on an emission that is not finished reports no error, and only `finish` finishes. -/
theorem call_frame {e : Emission} (hf : e.finishing = false) (c : Command) :
    (e.call c).options = e.options ∧ ((e.call c).finishing = true ↔ c = .finish) ∧ (e.call c).failed = e.failed := by
  have hnot : ¬e.finishing = true := by
    rw [hf]
    exact Bool.false_ne_true
  cases c with
  | feed data =>
    rw [Emission.call, if_neg hnot]
    unfold Emission.cutAll
    have hframe : ∀ e' : Emission, e'.options = e.options → e'.finishing = e.finishing → e'.failed = e.failed →
        e'.options = e.options ∧ (e'.finishing = true ↔ Command.feed data = .finish) ∧ e'.failed = e.failed :=
      fun e' h1 h2 h3 => ⟨h1, ⟨fun h => absurd (h2.symm.trans h) hnot, fun h => (nomatch h)⟩, h3⟩
    cases e.options.maxBlockInputBytes with
    | none => exact hframe _ rfl rfl rfl
    | some limit =>
      obtain ⟨h1, h2, h3⟩ := cut_frame limit { e with pending := e.pending ++ data }
      exact hframe _ h1 h2 h3
  | syncFlush =>
    rw [Emission.call, if_neg hnot]
    unfold Emission.flush
    split
    · exact ⟨rfl, ⟨fun h => absurd h hnot, fun h => (nomatch h)⟩, rfl⟩
    · exact ⟨rfl, ⟨fun h => absurd h hnot, fun h => (nomatch h)⟩, rfl⟩
  | finish =>
    rw [Emission.call, if_neg hnot]
    exact ⟨rfl, ⟨fun _ => rfl, fun _ => rfl⟩, rfl⟩
  | resetHistory => exact ⟨rfl, ⟨fun h => absurd h hnot, fun h => (nomatch h)⟩, rfl⟩
  | advance n => exact ⟨rfl, ⟨fun h => absurd h hnot, fun h => (nomatch h)⟩, rfl⟩

/-- Calls none of which finishes: they report no error, and leave a sound emission that is not finished and stands for all bytes
fed. -/
theorem Sound.run_open (h : e.Sound) (hf : e.finishing = false) {commands : List Command} (hc : .finish ∉ commands) :
    (Emission.run commands e).finishing = false ∧ (Emission.run commands e).failed = e.failed ∧
      (Emission.run commands e).payload = e.payload ++ Noflate.payload commands := by
  induction commands generalizing e with
  | nil => exact ⟨hf, rfl, (List.append_nil _).symm⟩
  | cons c commands ih =>
    obtain ⟨-, hfin, hfail⟩ := call_frame hf c
    have hf' : (e.call c).finishing = false :=
      Bool.eq_false_iff.mpr fun ht => hc (hfin.mp ht ▸ List.mem_cons_self)
    obtain ⟨h1, h2, h3⟩ := ih (h.call c).1 hf' fun hm => hc (List.mem_cons_of_mem _ hm)
    refine ⟨h1, h2.trans hfail, h3.trans ?_⟩
    rw [(h.call c).2, List.append_assoc]
    congr 1
    cases c with
    | feed data => rw [accepts, hf, if_neg Bool.false_ne_true, payload_feed]
    | syncFlush => rfl
    | finish => rfl
    | resetHistory => rfl
    | advance n => rfl

/-- The blocks emitted stay. -/
theorem call_extends (e : Emission) (c : Command) : ∃ new, (e.call c).blocks = e.blocks ++ new := by
  have hcut : ∀ (limit : Nat) (e : Emission), ∃ new, (Emission.cut limit e).blocks = e.blocks ++ new := by
    intro limit e
    induction e using cut.induct limit with
    | case1 e hc ih =>
      obtain ⟨new, hnew⟩ := ih
      rw [cut_full hc, hnew]
      exact ⟨_, List.append_assoc _ _ _⟩
    | case2 e hc =>
      rw [cut_rest hc]
      exact ⟨[], (List.append_nil _).symm⟩
  cases c with
  | feed data =>
    rw [Emission.call]
    split
    · exact ⟨[], (List.append_nil _).symm⟩
    · unfold Emission.cutAll
      cases e.options.maxBlockInputBytes with
      | none => exact ⟨[], (List.append_nil _).symm⟩
      | some limit => exact hcut limit _
  | syncFlush =>
    rw [Emission.call]
    split
    · exact ⟨[], (List.append_nil _).symm⟩
    · unfold Emission.flush
      split
      · exact ⟨_, rfl⟩
      · exact ⟨_, List.append_assoc _ _ _⟩
  | finish =>
    rw [Emission.call]
    split
    · exact ⟨[], (List.append_nil _).symm⟩
    · exact ⟨_, rfl⟩
  | resetHistory => exact ⟨[], (List.append_nil _).symm⟩
  | advance n => exact ⟨[], (List.append_nil _).symm⟩

theorem run_extends (commands : List Command) (e : Emission) : ∃ new, (Emission.run commands e).blocks = e.blocks ++ new := by
  induction commands generalizing e with
  | nil => exact ⟨[], (List.append_nil _).symm⟩
  | cons c commands ih =>
    obtain ⟨new, hnew⟩ := call_extends e c
    obtain ⟨new', hnew'⟩ := ih (e.call c)
    refine ⟨new ++ new', hnew'.trans ?_⟩
    rw [hnew, List.append_assoc]

/-- The bits emitted before the last block stay. -/
theorem run_bits_extends (hf : e.finishing = false) (commands : List Command) :
    ∃ more, (Emission.run commands e).bits = e.bits ++ more := by
  obtain ⟨new, hnew⟩ := run_extends commands e
  refine ⟨blockBits new ++ Encoder.closing (Emission.run commands e).finishing (blockBits (Emission.run commands e).blocks), ?_⟩
  rw [Emission.bits, Emission.bits, hnew, blockBits_append, hf]
  unfold Encoder.closing
  simp only [Bool.false_eq_true, if_false, List.append_nil, List.append_assoc]

/-- A flush that is not refused: nothing is pending, and the last block is an empty stored block. -/
theorem call_syncFlush (hf : e.finishing = false) :
    (e.call .syncFlush).blocks = e.flush.blocks ++ [storedBlock (blockBits e.flush.blocks).length false []] ∧
      (e.call .syncFlush).pending = [] := by
  have hnot : ¬e.finishing = true := by
    rw [hf]
    exact Bool.false_ne_true
  have hpending : e.flush.pending = [] := by
    unfold Emission.flush
    split
    · assumption
    · rfl
  rw [Emission.call, if_neg hnot]
  refine ⟨?_, hpending⟩
  rw [Emission.emitAs, chunkBlocks_stored_nil]

/-- Whole bytes are emitted up to a flush. -/
theorem syncFlush_aligned (hf : e.finishing = false) : (blockBits (e.call .syncFlush).blocks).length % 8 = 0 := by
  rw [(call_syncFlush hf).1, blockBits_append, blockBits_singleton, List.length_append]
  exact storedBlock_length _ _ _

/-- An emission is finished when it was, or by `finish`. -/
theorem call_finishing (e : Emission) (c : Command) : (e.call c).finishing = true ↔ e.finishing = true ∨ c = .finish := by
  by_cases ht : e.finishing = true
  · refine ⟨fun _ => .inl ht, fun _ => ?_⟩
    cases c with
    | feed data => rwa [Emission.call, if_pos ht]
    | syncFlush => rwa [Emission.call, if_pos ht]
    | finish => rwa [Emission.call, if_pos ht]
    | resetHistory => exact ht
    | advance n => exact ht
  · rw [(call_frame (Bool.eq_false_iff.mpr ht) c).2.1]
    exact ⟨.inr, fun h => h.resolve_left ht⟩

theorem run_finishing (commands : List Command) (e : Emission) :
    (Emission.run commands e).finishing = true ↔ e.finishing = true ∨ .finish ∈ commands := by
  induction commands generalizing e with
  | nil => exact ⟨.inl, fun h => h.resolve_right List.not_mem_nil⟩
  | cons c commands ih => exact (ih (e.call c)).trans (by rw [call_finishing, List.mem_cons, or_assoc, eq_comm (a := c)])

/-- Nothing is emitted behind the last block. -/
theorem call_blocks_finished (hf : e.finishing = true) (c : Command) : (e.call c).blocks = e.blocks := by
  cases c with
  | feed data => rw [Emission.call, if_pos hf]
  | syncFlush => rw [Emission.call, if_pos hf]
  | finish => rw [Emission.call, if_pos hf]
  | resetHistory => rfl
  | advance n => rfl

theorem run_blocks_finished (hf : e.finishing = true) (commands : List Command) : (Emission.run commands e).blocks = e.blocks := by
  induction commands generalizing e with
  | nil => rfl
  | cons c commands ih => exact (ih ((call_finishing e c).mpr (.inl hf))).trans (call_blocks_finished hf c)

theorem call_options (e : Emission) (c : Command) : (e.call c).options = e.options := by
  by_cases ht : e.finishing = true
  · cases c with
    | feed data => rw [Emission.call, if_pos ht]
    | syncFlush => rw [Emission.call, if_pos ht]
    | finish => rw [Emission.call, if_pos ht]
    | resetHistory => rfl
    | advance n => rfl
  · exact (call_frame (Bool.eq_false_iff.mpr ht) c).1

theorem run_options (commands : List Command) (e : Emission) : (Emission.run commands e).options = e.options := by
  induction commands generalizing e with
  | nil => rfl
  | cons c commands ih => exact (ih (e.call c)).trans (call_options e c)

theorem run_append (commands commands' : List Command) (e : Emission) :
    Emission.run (commands ++ commands') e = Emission.run commands' (Emission.run commands e) := List.foldl_append

theorem run_singleton (c : Command) (e : Emission) : Emission.run [c] e = e.call c := rfl

end

end Emission

end Noflate
