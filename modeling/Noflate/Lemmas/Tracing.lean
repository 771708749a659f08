import Noflate.Lemmas.EncoderRuns

/-!
# Where back-references reach

The back-references of a stream are those of its blocks (`mem_blockReferences`), and no block reaches back beyond its own start. An
encoder that emits stored blocks, or blocks no longer than the shortest match, emits no back-reference at all (`Plain.run`).
-/

namespace Noflate

open BitString
open Rfc1951 (Reference)

/-! ## The back-references of blocks -/

/-- Bits that are filled up with are no block. -/
theorem readBlockTokens_pad (bits : List Bool) : Rfc1951.readBlockTokens (pad bits) = none := by
  have hall : ∀ n, n < 8 → Rfc1951.readBlockTokens (List.replicate n false) = none := by decide +kernel
  exact hall _ (Nat.mod_lt _ (by decide))

/-- A back-reference that is read from sound blocks is one of one of them, at its place in the output. -/
theorem mem_blockReferences {offset : Nat} {bs : List EmittedBlock} (h : Blocks offset bs) {rest : List Bool}
    (hrest : Aligned (offset + (blockBits bs).length) rest) (hnone : Rfc1951.readBlockTokens rest = none) {fuel position : Nat}
    {ref : Reference} (href : ref ∈ Rfc1951.blockReferences fuel offset position (blockBits bs ++ rest)) :
    ∃ front b back, bs = front ++ b :: back ∧ b.Sound (offset + (blockBits front).length) ∧
      ref ∈ Rfc1951.tokenReferences (offset + (blockBits front).length) (position + (blockPayload front).length) b.tokens := by
  induction h generalizing fuel position with
  | nil =>
    have hbits : blockBits [] ++ rest = rest := rfl
    rw [hbits] at href
    cases fuel with
    | zero => cases href
    | succ fuel =>
      rw [Rfc1951.blockReferences, hnone] at href
      cases href
  | @cons offset b bs h _ ih =>
    rw [blockBits_cons, List.length_append, ← Nat.add_assoc] at hrest
    cases fuel with
    | zero => cases href
    | succ fuel =>
      have htraced := h.traced b.isFinal (blockBits bs ++ rest) (Aligned.append.mpr hrest)
      have hsame : (b.ending b.isFinal).bits = b.bits := rfl
      rw [hsame] at htraced
      rw [blockBits_cons, List.append_assoc, Rfc1951.blockReferences, htraced] at href
      rcases List.mem_append.mp href with href | href
      · exact ⟨[], b, bs, rfl, h, href⟩
      · by_cases hf : b.isFinal = true
        · rw [if_pos hf] at href
          cases href
        · rw [if_neg hf, List.length_append, Nat.add_sub_cancel, h.size_eq] at href
          obtain ⟨front, b', back, rfl, hsound, hmem⟩ := ih hrest href
          refine ⟨b :: front, b', back, rfl, ?_⟩
          rw [blockBits_cons, blockPayload_cons, List.length_append, List.length_append, ← Nat.add_assoc, ← Nat.add_assoc]
          exact ⟨hsound, hmem⟩

/-- A back-reference carries the start of the block it is in. -/
theorem tokenReferences_block {block position : Nat} {tokens : List Rfc1951.Token} :
    ∀ ref ∈ Rfc1951.tokenReferences block position tokens, ref.block = block := by
  induction tokens generalizing position with
  | nil => exact fun ref href => (nomatch href)
  | cons token tokens ih =>
    intro ref href
    cases token with
    | literal byte => exact ih ref href
    | endOfBlock => exact ih ref href
    | copy length distance =>
      rcases List.mem_cons.mp href with rfl | href
      · rfl
      · exact ih ref href

/-- A back-reference copies at least as many bytes as the shortest match, into the bytes of its block. -/
theorem tokenReferences_room {symbols : List Lz77Code} (hrange : ∀ sym ∈ symbols, sym.InRange) {output output' : List UInt8}
    (h : expand output symbols = some output') (block position : Nat) :
    ∀ ref ∈ Rfc1951.tokenReferences block (position + output.length) (symbols.map Lz77Code.token),
      0 < ref.distance ∧ ref.position + minMatch ≤ position + output'.length := by
  induction symbols generalizing output with
  | nil => exact fun ref href => (nomatch href)
  | cons sym symbols ih =>
    unfold expand at h
    rw [List.foldlM_cons] at h
    obtain ⟨output₁, h1, h2⟩ := Option.bind_eq_some_iff.mp h
    have hroom := ih (fun s hs => hrange s (List.mem_cons_of_mem _ hs)) h2
    rw [List.map_cons]
    cases sym with
    | literal byte =>
      obtain rfl := Option.some.inj h1
      rw [List.length_append, List.length_singleton] at hroom
      exact hroom
    | pointer length distance =>
      obtain ⟨hmin, -, hdist, -⟩ := hrange _ List.mem_cons_self
      obtain ⟨hlen, -⟩ := copyBytes_length h1
      intro ref href
      rcases List.mem_cons.mp href with rfl | href
      · have hle := (tokenReferences_expand (fun s hs => hrange s (List.mem_cons_of_mem _ hs)) h2 0 0).1
        refine ⟨hdist, ?_⟩
        show position + output.length + minMatch ≤ position + output'.length
        omega
      · refine hroom ref ?_
        rwa [hlen, ← Nat.add_assoc]

/-! ## Blocks without back-references -/

/-- A block without back-references. -/
def EmittedBlock.RefersNowhere (b : EmittedBlock) : Prop := ∀ block position, Rfc1951.tokenReferences block position b.tokens = []

/-- There is no back-reference in a stored block, and none in as few bytes as the shortest match has. -/
theorem chunkBlocks_refersNowhere {kind : BlockKind} {chunk : List UInt8} (h : kind = .stored ∨ chunk.length ≤ minMatch)
    (isFinal : Bool) (offset : Nat) : ∀ b ∈ chunkBlocks kind chunk isFinal offset, b.RefersNowhere := by
  have hstored : ∀ (parts : List (List UInt8)) (offset : Nat), ∀ b ∈ storedBlocks isFinal offset parts, b.RefersNowhere := by
    intro parts
    induction parts with
    | nil => exact fun offset b hb => (nomatch hb)
    | cons part parts ih =>
      intro offset b hb
      rcases List.mem_cons.mp hb with rfl | hb
      · exact fun block position => tokenReferences_literals block position part
      · exact ih _ b hb
  have hcoded : chunk.length ≤ minMatch → ∀ block position,
      Rfc1951.tokenReferences block position ((MatchFinder.tokens chunk).map Lz77Code.token) = [] := by
    intro hlen block position
    refine List.eq_nil_iff_forall_not_mem.mpr fun ref href => ?_
    have hspec := MatchFinder.tokens_spec chunk
    have hexp := hspec.expand_eq []
    rw [List.nil_append] at hexp
    obtain ⟨h1, h2⟩ := tokenReferences_room hspec.in_range hexp block position ref href
    have h3 := (tokenReferences_expand hspec.in_range hexp block position).2 ref href
    omega
  cases kind with
  | stored => exact hstored _ _
  | fixed =>
    rcases h with h | h
    · cases h
    · intro b hb
      rw [List.mem_singleton.mp hb]
      exact hcoded h
  | dynamic =>
    rcases h with h | h
    · cases h
    · intro b hb
      rw [List.mem_singleton.mp hb]
      exact hcoded h

/-- Options with which no back-reference is emitted. -/
def EncodeOptions.Plain (options : EncodeOptions) : Prop :=
  options.blockKind = .stored ∨ ∃ limit ∈ options.maxBlockInputBytes, limit ≤ minMatch

namespace Emission

/-- A back-reference in a block that is emitted behind those of an emission reaches back to the end of their bytes at most. -/
theorem references_behind {e : Emission} (h : e.Sound) (commands : List Command) {ref : Reference}
    (href : ref ∈ Rfc1951.references ((Emission.run commands e).bits ++ pad (Emission.run commands e).bits))
    (hblock : (blockBits e.blocks).length ≤ ref.block) :
    e.finishing = false ∧ (∃ b ∈ (Emission.run commands e).blocks, ¬b.RefersNowhere) ∧
      (blockPayload e.blocks).length + ref.distance ≤ ref.position := by
  have hsound := (h.run commands).blocks_sound
  obtain ⟨new, hnew⟩ := run_extends commands e
  rw [bits_padded] at href
  have hrest : Aligned (0 + (blockBits (Emission.run commands e).blocks).length) (pad (blockBits (Emission.run commands e).blocks)) := by
    unfold Aligned
    rw [Nat.zero_add, ← List.length_append]
    exact length_append_pad _
  obtain ⟨front, b, back, hb, hs, hmem⟩ := mem_blockReferences hsound hrest (readBlockTokens_pad _) href
  rw [Nat.zero_add] at hs hmem
  have hstart := tokenReferences_block ref hmem
  have hwithin := hs.within _ _ ref hmem
  -- The block starts behind the ones before it, so it is one of those that were emitted later.
  have hlater : ∃ mid, front = e.blocks ++ mid ∧ new ≠ [] := by
    rcases List.append_eq_append_iff.mp (hnew.symm.trans hb) with ⟨mid, h1, h2⟩ | ⟨mid, h1, h2⟩
    · refine ⟨mid, h1, fun hn => ?_⟩
      rw [hn] at h2
      exact List.append_ne_nil_of_right_ne_nil mid (List.cons_ne_nil b back) h2.symm
    · cases mid with
      | nil =>
        refine ⟨[], by rw [h1, List.append_nil, List.append_nil], fun hn => ?_⟩
        rw [hn] at h2
        cases h2
      | cons b' mid =>
        obtain ⟨rfl, -⟩ := List.cons.inj h2
        rw [h1, blockBits_append, blockBits_cons, EmittedBlock.bits, List.cons_append, List.length_append, List.length_cons,
          ← hstart] at hblock
        omega
  obtain ⟨mid, rfl, hne⟩ := hlater
  refine ⟨?_, ⟨b, by rw [hb]; exact List.mem_append_right _ List.mem_cons_self, fun hnone => ?_⟩, ?_⟩
  · refine Bool.eq_false_iff.mpr fun hf => hne ?_
    rw [run_blocks_finished hf] at hnew
    exact List.self_eq_append_right.mp hnew
  · rw [hnone] at hmem
    cases hmem
  · rw [blockPayload_append, List.length_append] at hwithin
    omega

/-- An emission without back-references, where none can come. -/
structure Plain (e : Emission) : Prop where
  options_plain : e.options.Plain
  blocks_plain : ∀ b ∈ e.blocks, b.RefersNowhere
  pending_short : e.options.blockKind = .stored ∨ e.pending.length ≤ minMatch

theorem start_plain {options : EncodeOptions} (h : options.Plain) : (start options).Plain :=
  ⟨h, fun _ hb => (nomatch hb), .inr (Nat.zero_le _)⟩

namespace Plain

variable {e : Emission}

/-- One chunk more. -/
theorem emitAs (h : e.Plain) {kind : BlockKind} {chunk : List UInt8} (hchunk : kind = .stored ∨ chunk.length ≤ minMatch)
    (isFinal : Bool) : (e.emitAs kind chunk isFinal).Plain := by
  refine ⟨h.options_plain, ?_, h.pending_short⟩
  intro b hb
  rcases List.mem_append.mp hb with hb | hb
  · exact h.blocks_plain b hb
  · exact chunkBlocks_refersNowhere hchunk isFinal _ b hb

/-- Nothing is pending. -/
theorem clear (h : e.Plain) : Plain { e with pending := [] } := ⟨h.options_plain, h.blocks_plain, .inr (Nat.zero_le _)⟩

/-- Blocks are cut from what is pending, however much it is. -/
theorem cut {limit : Nat} (hpos : 0 < limit) (hlimit : e.options.blockKind = .stored ∨ limit ≤ minMatch) (hoptions : e.options.Plain)
    (hblocks : ∀ b ∈ e.blocks, b.RefersNowhere) : (e.cut limit).Plain := by
  induction e using cut.induct limit with
  | case1 e hc ih =>
    rw [cut_full hc]
    refine ih hlimit hoptions ?_
    intro b hb
    rcases List.mem_append.mp hb with hb | hb
    · exact hblocks b hb
    · refine chunkBlocks_refersNowhere (hlimit.imp_right fun hle => ?_) false _ b hb
      exact (List.length_take_le _ _).trans hle
  | case2 e hc =>
    rw [cut_rest hc]
    refine ⟨hoptions, hblocks, hlimit.imp_right fun hle => ?_⟩
    omega

theorem cutAll (hoptions : e.options.Plain) (hblocks : ∀ b ∈ e.blocks, b.RefersNowhere) : e.cutAll.Plain := by
  unfold Emission.cutAll
  cases hmax : e.options.maxBlockInputBytes with
  | none =>
    have hstored : e.options.blockKind = .stored := by
      rcases hoptions with h | ⟨limit, hmem, -⟩
      · exact h
      · rw [hmax] at hmem
        cases hmem
    exact ⟨hoptions, hblocks, .inl hstored⟩
  | some limit =>
    refine cut (e.options.positive limit (by rw [hmax]; rfl)) ?_ hoptions hblocks
    rcases hoptions with h | ⟨limit', hmem, hle⟩
    · exact .inl h
    · rw [hmax] at hmem
      obtain rfl := Option.some.inj hmem
      exact .inr hle

/-- A call leaves an emission without back-references. -/
theorem call (h : e.Plain) (c : Command) : (e.call c).Plain := by
  have hfailed : Plain { e with failed := true } := ⟨h.options_plain, h.blocks_plain, h.pending_short⟩
  have hflush : e.flush.Plain := by
    unfold Emission.flush
    split
    · exact h
    · exact h.clear.emitAs h.pending_short false
  cases c with
  | feed data =>
    rw [Emission.call]
    split
    · exact hfailed
    · exact cutAll h.options_plain h.blocks_plain
  | syncFlush =>
    rw [Emission.call]
    split
    · exact hfailed
    · exact hflush.emitAs (.inl rfl) false
  | finish =>
    rw [Emission.call]
    split
    · exact h
    · have hemit := h.clear.emitAs h.pending_short true
      exact ⟨hemit.options_plain, hemit.blocks_plain, hemit.pending_short⟩
  | resetHistory => exact h
  | advance n => exact h

/-- Calls leave an emission without back-references. -/
theorem run (h : e.Plain) (commands : List Command) : (Emission.run commands e).Plain := by
  induction commands generalizing e with
  | nil => exact h
  | cons c commands ih => exact ih (h.call c)

end Plain

end Emission

end Noflate
