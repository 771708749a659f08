import Noflate.Layout
import Noflate.Lemmas.EncoderRuns

/-!
# The blocks of a layout

The blocks that an encoder emits are those of the pieces it has cut, one piece after the other (`Emission.Laid.run`): what else the
encoder keeps does not matter to them. And the pieces are accounted for: they hold the bytes accepted, none of them is larger than a
block takes, and there are no more of them than the bytes and the flushes ask for (`Layout.Sound.run`).
-/

namespace Noflate

open BitString

/-- The blocks of pieces, from a bit on. -/
noncomputable def pieceBlocks : Nat → List Piece → List EmittedBlock
  | _, [] => []
  | offset, p :: pieces =>
    let bs := chunkBlocks p.kind p.chunk p.isFinal offset
    bs ++ pieceBlocks (offset + (blockBits bs).length) pieces

theorem pieceBlocks_append (offset : Nat) (pieces pieces' : List Piece) :
    pieceBlocks offset (pieces ++ pieces') =
      pieceBlocks offset pieces ++ pieceBlocks (offset + (blockBits (pieceBlocks offset pieces)).length) pieces' := by
  induction pieces generalizing offset with
  | nil => rfl
  | cons p pieces ih =>
    rw [List.cons_append, pieceBlocks, pieceBlocks, ih, List.append_assoc, blockBits_append, List.length_append, ← Nat.add_assoc]

theorem pieceBlocks_singleton (offset : Nat) (p : Piece) :
    pieceBlocks offset [p] = chunkBlocks p.kind p.chunk p.isFinal offset := List.append_nil _

namespace Emission

/-- An emission is laid out: its blocks are those of the pieces, and what it holds is the same. -/
structure Laid (e : Emission) (l : Layout) : Prop where
  blocks_eq : e.blocks = pieceBlocks 0 l.pieces
  pending_eq : e.pending = l.pending
  finishing_eq : e.finishing = l.finishing

/-- Nothing is laid out at the start. -/
theorem start_laid (options : EncodeOptions) : (start options).Laid Layout.start := ⟨rfl, rfl, rfl⟩

namespace Laid

variable {e : Emission} {l : Layout}

/-- A piece is emitted. -/
theorem emitAs (h : e.Laid l) (kind : BlockKind) (chunk : List UInt8) (isFinal : Bool) :
    (e.emitAs kind chunk isFinal).blocks = pieceBlocks 0 (l.pieces ++ [⟨kind, chunk, isFinal⟩]) := by
  rw [pieceBlocks_append, pieceBlocks_singleton, ← h.blocks_eq, Nat.zero_add]
  rfl

/-- The full chunks are emitted. -/
theorem cut (h : e.Laid l) (limit : Nat) :
    (e.cut limit).Laid { l with
      pieces := l.pieces ++ (fullChunks limit e.pending).map fun chunk => ⟨e.options.blockKind, chunk, false⟩
      pending := lastChunk limit e.pending } := by
  induction e using cut.induct limit generalizing l with
  | case1 e hc ih =>
    obtain ⟨h1, h2⟩ := fullChunks_step hc
    have hnext := ih (l := { l with
      pieces := l.pieces ++ [⟨e.options.blockKind, e.pending.take limit, false⟩], pending := e.pending.drop limit })
      ⟨emitAs (e := { e with pending := e.pending.drop limit }) (l := { l with pending := e.pending.drop limit })
        ⟨h.blocks_eq, rfl, h.finishing_eq⟩ _ _ _, rfl, h.finishing_eq⟩
    rw [cut_full hc, h1, h2, List.map_cons]
    rw [List.append_assoc] at hnext
    exact hnext
  | case2 e hc =>
    obtain ⟨h1, h2⟩ := fullChunks_rest hc
    rw [cut_rest hc, h1, h2, List.map_nil, List.append_nil]
    exact ⟨h.blocks_eq, rfl, h.finishing_eq⟩

/-- A call. -/
theorem call (h : e.Laid l) (c : Command) : (e.call c).Laid (l.call e.options c) := by
  have hfin : e.finishing = l.finishing := h.finishing_eq
  by_cases ht : e.finishing = true
  · have ht' : l.finishing = true := hfin.symm.trans ht
    cases c with
    | feed data =>
      rw [Emission.call, if_pos ht, Layout.call, if_pos ht']
      exact ⟨h.blocks_eq, h.pending_eq, hfin⟩
    | syncFlush =>
      rw [Emission.call, if_pos ht, Layout.call, if_pos ht']
      exact ⟨h.blocks_eq, h.pending_eq, hfin⟩
    | finish =>
      rw [Emission.call, if_pos ht, Layout.call, if_pos ht']
      exact h
    | resetHistory => exact h
    | advance n => exact h
  · have ht' : ¬l.finishing = true := fun h0 => ht (hfin.trans h0)
    have hclear : Laid { e with pending := [] } { l with pending := [] } := ⟨h.blocks_eq, rfl, hfin⟩
    cases c with
    | feed data =>
      rw [Emission.call, if_neg ht, Layout.call, if_neg ht', ← h.pending_eq]
      have hfed : Laid { e with pending := e.pending ++ data } { l with pending := e.pending ++ data } := ⟨h.blocks_eq, rfl, hfin⟩
      unfold Emission.cutAll
      cases hmax : e.options.maxBlockInputBytes with
      | none => exact hfed
      | some limit => exact hfed.cut limit
    | syncFlush =>
      rw [Emission.call, if_neg ht, Layout.call, if_neg ht', ← h.pending_eq]
      unfold Emission.flush
      by_cases hp : e.pending = []
      · rw [if_pos hp, if_pos hp]
        exact ⟨h.emitAs _ _ _, hp, hfin⟩
      · rw [if_neg hp, if_neg hp, ← List.append_assoc]
        have hflushed : Laid (Emission.emit { e with pending := [] } e.pending false)
            { l with pieces := l.pieces ++ [⟨e.options.blockKind, e.pending, false⟩], pending := [] } :=
          ⟨hclear.emitAs _ _ _, rfl, hfin⟩
        exact ⟨hflushed.emitAs _ _ _, rfl, hfin⟩
    | finish =>
      rw [Emission.call, if_neg ht, Layout.call, if_neg ht', ← h.pending_eq]
      exact ⟨hclear.emitAs _ _ _, rfl, rfl⟩
    | resetHistory => exact h
    | advance n => exact h

theorem run (h : e.Laid l) (commands : List Command) : (Emission.run commands e).Laid (l.run e.options commands) := by
  induction commands generalizing e l with
  | nil => exact h
  | cons c commands ih =>
    have hnext := ih (h.call c)
    rw [Emission.call_options] at hnext
    exact hnext

end Laid

end Emission

/-- The blocks of pieces hold their bytes. -/
theorem blockPayload_pieceBlocks (offset : Nat) (pieces : List Piece) :
    blockPayload (pieceBlocks offset pieces) = Layout.bytes pieces := by
  induction pieces generalizing offset with
  | nil => rfl
  | cons p pieces ih =>
    rw [pieceBlocks, blockPayload_append, (chunkBlocks_spec _ _ _ _).2.1, ih]
    rfl

/-! ## What is accepted -/

section

variable {c : Command} {commands : List Command}

/-- The bytes a call feeds. -/
def Command.data : Command → List UInt8
  | .feed data => data
  | .syncFlush => []
  | .resetHistory => []
  | .finish => []
  | .advance _ => []

/-- A call before the end is accepted. -/
theorem accepted_cons (hc : c ≠ .finish) : accepted (c :: commands) = c.data ++ accepted commands := by
  unfold accepted
  rw [List.takeWhile_cons_of_pos (by simpa using hc)]
  cases c with
  | feed data => rfl
  | _ => rfl

/-- A flush before the end counts. -/
theorem flushes_cons (hc : c ≠ .finish) : flushes (c :: commands) = (if c = .syncFlush then 1 else 0) + flushes commands := by
  unfold flushes
  rw [List.takeWhile_cons_of_pos (by simpa using hc), List.count_cons, Nat.add_comm]
  simp only [beq_iff_eq]

end

/-! ## What is cut -/

namespace Layout

variable {options : EncodeOptions} {bytes : List UInt8} {flushes : Nat} {l : Layout}

/-- Behind the last piece nothing is cut. -/
theorem call_finished (hf : l.finishing = true) (c : Command) : l.call options c = l := by
  cases c with
  | feed data => rw [call, if_pos hf]
  | syncFlush => rw [call, if_pos hf]
  | finish => rw [call, if_pos hf]
  | resetHistory => rfl
  | advance n => rfl

/-- Only `finish` cuts the last piece off. -/
theorem call_finishing (hf : l.finishing = false) (c : Command) : (l.call options c).finishing = true ↔ c = .finish := by
  have hopen : ¬l.finishing = true := by rw [hf]; exact Bool.false_ne_true
  cases c with
  | feed data =>
    rw [call, if_neg hopen]
    split <;> simp [hf]
  | syncFlush => simp [call, hf]
  | finish => simp [call, hf]
  | resetHistory => simp [call, hf]
  | advance n => simp [call, hf]

theorem bytes_append (pieces pieces' : List Piece) : Layout.bytes (pieces ++ pieces') = Layout.bytes pieces ++ Layout.bytes pieces' :=
  List.flatMap_append

theorem bytes_map (kind : BlockKind) (chunks : List (List UInt8)) :
    Layout.bytes (chunks.map fun chunk => ⟨kind, chunk, false⟩) = chunks.flatten := by
  rw [Layout.bytes, List.flatMap_map]
  exact List.flatMap_id

/-- How many pieces there may be that are no full ones: two for a flush, and the last one. -/
def odd (flushes : Nat) (finishing : Bool) : Nat := 2 * flushes + finishing.toNat

/-- What a layout is, behind so many bytes and flushes. -/
structure Sound (options : EncodeOptions) (bytes : List UInt8) (flushes : Nat) (l : Layout) : Prop where
  bytes_eq : Layout.bytes l.pieces ++ l.pending = bytes
  ended : l.finishing = true → l.pending = []
  kinds : ∀ p ∈ l.pieces, p.kind = options.blockKind ∨ p.kind = .stored ∧ p.chunk = []
  chunk_le : ∀ limit ∈ options.maxBlockInputBytes, (∀ p ∈ l.pieces, p.chunk.length ≤ limit) ∧ l.pending.length < limit
  count_le : ∀ limit ∈ options.maxBlockInputBytes,
    limit * l.pieces.length + l.pending.length ≤ bytes.length + limit * odd flushes l.finishing
  count_le_odd : options.maxBlockInputBytes = none → l.pieces.length ≤ odd flushes l.finishing

/-- Nothing is cut at the start. -/
theorem start_sound (options : EncodeOptions) : start.Sound options [] 0 := by
  refine ⟨rfl, fun _ => rfl, fun p hp => absurd hp List.not_mem_nil,
    fun limit hlimit => ⟨fun p hp => absurd hp List.not_mem_nil, options.positive limit hlimit⟩, ?_, ?_⟩
  · intro limit _
    exact Nat.zero_le _
  · intro _
    exact Nat.zero_le _

namespace Sound

/-- The full chunks are cut off. -/
theorem cut (h : l.Sound options bytes flushes) (hf : l.finishing = false) (data : List UInt8) {limit : Nat}
    (hmax : options.maxBlockInputBytes = some limit) :
    Sound options (bytes ++ data) flushes { l with
      pieces := l.pieces ++ (fullChunks limit (l.pending ++ data)).map fun chunk => ⟨options.blockKind, chunk, false⟩
      pending := lastChunk limit (l.pending ++ data) } := by
  have hmem : limit ∈ options.maxBlockInputBytes := hmax
  have hunique : ∀ limit' ∈ options.maxBlockInputBytes, limit' = limit := fun limit' h' => (Option.some.inj (hmax.symm.trans h')).symm
  obtain ⟨hflat, hfull, hlast⟩ := fullChunks_spec (options.positive limit hmem) (l.pending ++ data)
  refine ⟨?_, fun ht => absurd (hf.symm.trans ht) Bool.false_ne_true, ?_, ?_, ?_,
    fun hnone => absurd (hmax.symm.trans hnone) (by simp)⟩
  · show Layout.bytes _ ++ lastChunk limit (l.pending ++ data) = _
    rw [bytes_append, bytes_map, List.append_assoc, hflat, ← List.append_assoc, h.bytes_eq]
  · intro p hp
    rcases List.mem_append.mp hp with hp | hp
    · exact h.kinds p hp
    · obtain ⟨chunk, -, rfl⟩ := List.mem_map.mp hp
      exact .inl rfl
  · intro limit' h'
    obtain rfl := hunique limit' h'
    refine ⟨?_, hlast⟩
    intro p hp
    rcases List.mem_append.mp hp with hp | hp
    · exact (h.chunk_le limit' hmem).1 p hp
    · obtain ⟨chunk, hchunk, rfl⟩ := List.mem_map.mp hp
      exact (hfull chunk hchunk).le
  · intro limit' h'
    obtain rfl := hunique limit' h'
    have hcount := h.count_le limit' hmem
    have hlen := congrArg List.length hflat
    have hsum : (fullChunks limit' (l.pending ++ data)).flatten.length = limit' * (fullChunks limit' (l.pending ++ data)).length := by
      rw [List.length_flatten, List.map_congr_left (g := fun _ => limit') hfull, List.map_const', List.sum_replicate_nat, Nat.mul_comm]
    simp only [List.length_append, List.length_map] at hlen hcount ⊢
    rw [Nat.mul_add]
    omega

/-- All that is pending is cut off, in pieces that hold it or nothing, and no more of them than there may be. -/
theorem cutAll (h : l.Sound options bytes flushes) {added : List Piece} {flushes' : Nat} {finishing : Bool}
    (hbytes : Layout.bytes added = l.pending)
    (hadded : ∀ p ∈ added, p.kind = options.blockKind ∧ p.chunk = l.pending ∨ p.kind = .stored ∧ p.chunk = [])
    (hlen : odd flushes l.finishing + added.length ≤ odd flushes' finishing) :
    Sound options bytes flushes' { pieces := l.pieces ++ added, pending := [], finishing } := by
  refine ⟨?_, fun _ => rfl, ?_, fun limit hlimit => ⟨?_, options.positive limit hlimit⟩, fun limit hlimit => ?_, fun hnone => ?_⟩
  · rw [List.append_nil, bytes_append, hbytes]
    exact h.bytes_eq
  · intro p hp
    rcases List.mem_append.mp hp with hp | hp
    · exact h.kinds p hp
    · exact (hadded p hp).imp And.left id
  · intro p hp
    obtain ⟨hpieces, hpending⟩ := h.chunk_le limit hlimit
    rcases List.mem_append.mp hp with hp | hp
    · exact hpieces p hp
    · rcases hadded p hp with ⟨-, hchunk⟩ | ⟨-, hchunk⟩
      · rw [hchunk]
        exact hpending.le
      · rw [hchunk]
        exact Nat.zero_le _
  · have hcount := h.count_le limit hlimit
    have hmul := Nat.mul_le_mul_left limit hlen
    show limit * (l.pieces ++ added).length + 0 ≤ bytes.length + limit * odd flushes' finishing
    rw [List.length_append, Nat.mul_add]
    rw [Nat.mul_add] at hmul
    omega
  · have hcount := h.count_le_odd hnone
    show (l.pieces ++ added).length ≤ odd flushes' finishing
    rw [List.length_append]
    omega

/-- A feed cuts full chunks off, or none where there is no limit. -/
theorem feed (h : l.Sound options bytes flushes) (hf : l.finishing = false) (data : List UInt8) :
    (l.call options (.feed data)).Sound options (bytes ++ data) flushes := by
  have hopen : ¬l.finishing = true := by rw [hf]; exact Bool.false_ne_true
  rw [Layout.call, if_neg hopen]
  cases hmax : options.maxBlockInputBytes with
  | some limit => exact h.cut hf data hmax
  | none =>
    have hno : ∀ limit, limit ∉ options.maxBlockInputBytes := fun limit hlimit => by
      cases hmax.symm.trans hlimit
    refine ⟨?_, fun ht => absurd ht hopen, h.kinds, fun limit hlimit => absurd hlimit (hno limit),
      fun limit hlimit => absurd hlimit (hno limit), h.count_le_odd⟩
    show Layout.bytes l.pieces ++ (l.pending ++ data) = _
    rw [← List.append_assoc, h.bytes_eq]

/-- A flush cuts off what is pending, if there is something, and an empty piece. -/
theorem syncFlush (h : l.Sound options bytes flushes) (hf : l.finishing = false) :
    (l.call options .syncFlush).Sound options bytes (flushes + 1) := by
  have hopen : ¬l.finishing = true := by rw [hf]; exact Bool.false_ne_true
  rw [Layout.call, if_neg hopen]
  refine h.cutAll ?_ ?_ ?_
  · by_cases hp : l.pending = []
    · rw [if_pos hp, hp]
      rfl
    · rw [if_neg hp]
      simp [Layout.bytes]
  · intro p hp
    rcases List.mem_append.mp hp with hp | hp
    · by_cases hpending : l.pending = []
      · rw [if_pos hpending] at hp
        exact absurd hp List.not_mem_nil
      · rw [if_neg hpending] at hp
        rw [List.mem_singleton.mp hp]
        exact .inl ⟨rfl, rfl⟩
    · rw [List.mem_singleton.mp hp]
      exact .inr ⟨rfl, rfl⟩
  · have hlen : ((if l.pending = [] then ([] : List Piece) else [⟨options.blockKind, l.pending, false⟩]) ++
        [(⟨.stored, [], false⟩ : Piece)]).length ≤ 2 := by
      split <;> simp
    unfold odd
    omega

/-- The last piece is what is pending. -/
theorem finish (h : l.Sound options bytes flushes) (hf : l.finishing = false) :
    (l.call options .finish).Sound options bytes flushes := by
  have hopen : ¬l.finishing = true := by rw [hf]; exact Bool.false_ne_true
  rw [Layout.call, if_neg hopen]
  refine h.cutAll ?_ ?_ ?_
  · simp [Layout.bytes]
  · intro p hp
    rw [List.mem_singleton.mp hp]
    exact .inl ⟨rfl, rfl⟩
  · rw [hf]
    exact le_rfl

/-- A call. -/
theorem call (h : l.Sound options bytes flushes) (c : Command) :
    (l.call options c).Sound options (if l.finishing then bytes else bytes ++ c.data)
      (if l.finishing then flushes else flushes + if c = .syncFlush then 1 else 0) := by
  by_cases ht : l.finishing = true
  · rw [call_finished ht, if_pos ht, if_pos ht]
    exact h
  · have hf : l.finishing = false := Bool.eq_false_iff.mpr ht
    rw [if_neg ht, if_neg ht]
    cases c with
    | feed data =>
      rw [if_neg (by simp), Nat.add_zero]
      exact h.feed hf data
    | syncFlush =>
      rw [if_pos rfl, Command.data, List.append_nil]
      exact h.syncFlush hf
    | finish =>
      rw [if_neg (by simp), Command.data, List.append_nil, Nat.add_zero]
      exact h.finish hf
    | resetHistory =>
      rw [Command.data, List.append_nil]
      exact h
    | advance n =>
      rw [Command.data, List.append_nil]
      exact h

/-- Calls. Behind the end none of them is accepted. -/
theorem run (h : l.Sound options bytes flushes) (commands : List Command) :
    (l.run options commands).Sound options (if l.finishing then bytes else bytes ++ accepted commands)
      (if l.finishing then flushes else flushes + Noflate.flushes commands) := by
  induction commands generalizing bytes flushes l with
  | nil =>
    have hbytes : bytes ++ accepted [] = bytes := List.append_nil _
    rw [hbytes, show flushes + Noflate.flushes [] = flushes from rfl, ite_self, ite_self]
    exact h
  | cons c commands ih =>
    have hnext := ih (h.call c)
    have hrun : l.run options (c :: commands) = (l.call options c).run options commands := rfl
    rw [hrun]
    by_cases ht : l.finishing = true
    · rw [call_finished ht, if_pos ht, if_pos ht, if_pos ht, if_pos ht] at hnext
      rw [call_finished ht, if_pos ht, if_pos ht]
      exact hnext
    · have hends : (l.call options c).finishing = true ↔ c = .finish := call_finishing (Bool.eq_false_iff.mpr ht) c
      rw [if_neg ht, if_neg ht] at hnext ⊢
      by_cases hc : c = .finish
      · rw [if_pos (hends.mpr hc), if_pos (hends.mpr hc)] at hnext
        subst hc
        exact hnext
      · have hopen : ¬(l.call options c).finishing = true := fun h' => hc (hends.mp h')
        rw [if_neg hopen, if_neg hopen, List.append_assoc, Nat.add_assoc, ← accepted_cons hc, ← flushes_cons hc] at hnext
        exact hnext

end Sound

/-- What calls cut from the start on. -/
theorem run_start (options : EncodeOptions) (commands : List Command) :
    (start.run options commands).Sound options (accepted commands) (Noflate.flushes commands) := by
  have hopen : ¬start.finishing = true := Bool.false_ne_true
  have h := (start_sound options).run commands
  rw [if_neg hopen, if_neg hopen, List.nil_append, Nat.zero_add] at h
  exact h

end Layout

/-- The bytes an emission stands for are those that were accepted. -/
theorem Emission.run_payload (options : EncodeOptions) (commands : List Command) :
    (Emission.run commands (Emission.start options)).payload = accepted commands := by
  have hlaid := (Emission.start_laid options).run commands
  have hsound := Layout.run_start options commands
  rw [Emission.payload, hlaid.blocks_eq, hlaid.pending_eq, blockPayload_pieceBlocks]
  exact hsound.bytes_eq

end Noflate
