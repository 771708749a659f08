import Noflate.Greedy
import Noflate.Lemmas.Freshness

/-!
# The hash chains

The chains of the match finder hold what the plain search runs through the input for: the head of a hash is the last position that has
it, and the entry of a position the one before it with the same hash (`Chains`). That holds of the entries a search can reach, though
the table of entries is a ring that is used again and again. The loop along a chain then compares the candidates of the plain search in
their order (`chainLoop_eq`), and what it leaves out is never longer (`candidateLength_eq`).
-/

namespace Noflate

open Greedy

/-! ## The byte-wise comparison -/

/-- Comparing byte by byte up to a maximum gives the bytes that agree, up to the maximum. -/
theorem Greedy.commonPrefix_eq (max : Nat) (xs ys : List UInt8) : commonPrefix max xs ys = min max (agree xs ys) := by
  induction max generalizing xs ys with
  | zero => exact (Nat.zero_min _).symm
  | succ max ih =>
    cases xs with
    | nil => rfl
    | cons x xs =>
      cases ys with
      | nil => rfl
      | cons y ys =>
        rw [commonPrefix, agree]
        by_cases hxy : x = y
        · rw [if_pos hxy, if_pos hxy, ih, Nat.succ_min_succ]
        · rw [if_neg hxy, if_neg hxy, Nat.min_zero]

/-- The match of the plain search in terms of the bytes that agree. -/
theorem Greedy.matchLength_eq (input : List UInt8) (cursor candidate : Nat) :
    matchLength input cursor candidate =
      min (min (input.length - cursor) maxMatch) (agree (input.drop candidate) (input.drop cursor)) := by
  rw [matchLength, commonPrefix_eq, Nat.min_comm 258]
  rfl

theorem Greedy.matchLength_le (input : List UInt8) (cursor candidate : Nat) :
    matchLength input cursor candidate ≤ min (input.length - cursor) maxMatch := by
  rw [matchLength_eq]
  exact Nat.min_le_left _ _

/-- A byte that differs bounds what agrees. -/
theorem agree_le_of_ne {xs ys : List UInt8} {k : Nat} (h : xs[k]? ≠ ys[k]?) : agree xs ys ≤ k := by
  refine Nat.le_of_not_lt fun hlt => h ?_
  exact getElem?_of_lt_agree hlt

/-! ## Chains of positions -/

/-- The positions before `n` with three bytes to hash and a given hash, the latest first. -/
def chain (input : List UInt8) (h : Nat) : Nat → List Nat
  | 0 => []
  | n + 1 => if n + minMatch ≤ input.length ∧ hashAt input n = h then n :: chain input h n else chain input h n

variable {input : List UInt8}

/-- The first position of a chain, and the chain behind it. -/
theorem chain_eq_cons {h n p : Nat} {rest : List Nat} (hc : chain input h n = p :: rest) :
    p < n ∧ p + minMatch ≤ input.length ∧ hashAt input p = h ∧ rest = chain input h p := by
  induction n with
  | zero => cases hc
  | succ n ih =>
    rw [chain] at hc
    by_cases hn : n + minMatch ≤ input.length ∧ hashAt input n = h
    · rw [if_pos hn] at hc
      obtain ⟨rfl, rfl⟩ := List.cons.inj hc
      exact ⟨Nat.lt_succ_self n, hn.1, hn.2, rfl⟩
    · rw [if_neg hn] at hc
      obtain ⟨h1, h2⟩ := ih hc
      exact ⟨Nat.lt_succ_of_lt h1, h2⟩

theorem lt_of_mem_chain {h n p : Nat} (hp : p ∈ chain input h n) : p < n := by
  induction n with
  | zero => cases hp
  | succ n ih =>
    rw [chain] at hp
    split at hp
    · rcases List.mem_cons.mp hp with rfl | hp
      · exact Nat.lt_succ_self p
      · exact Nat.lt_succ_of_lt (ih hp)
    · exact Nat.lt_succ_of_lt (ih hp)

/-- Whether an earlier position is in the window of a position. -/
def inWindow (cursor p : Nat) : Bool := cursor ≤ p + windowSize

/-- At a position with three bytes to hash the chain of its hash holds all candidates of the plain search. -/
theorem Greedy.candidates_eq {cursor : Nat} (hcursor : cursor + minMatch ≤ input.length) :
    candidates input cursor =
      ((chain input (hashAt input cursor) cursor).filter (inWindow cursor)).take maxChainLen := by
  have hchain : ∀ n ≤ cursor, (List.range n).reverse.filter (fun p => hashAt input p = hashAt input cursor) =
      chain input (hashAt input cursor) n := by
    intro n
    induction n with
    | zero =>
      intro _
      rfl
    | succ n ih =>
      intro hn
      have hlong : n + minMatch ≤ input.length := by omega
      rw [List.range_succ, List.reverse_append, List.reverse_singleton, List.singleton_append, List.filter_cons,
        ih (by omega), chain]
      by_cases hsame : hashAt input n = hashAt input cursor
      · rw [if_pos (decide_eq_true hsame), if_pos ⟨hlong, hsame⟩]
      · rw [if_neg (by simp [hsame]), if_neg (fun hc => hsame hc.2)]
  rw [candidates, ← hchain cursor (Nat.le_refl _), List.filter_filter]
  congr 2
  funext p
  rw [Bool.decide_and, Bool.and_comm]
  rfl

/-- Of a chain whose first position is out of the window, none is in the window. -/
theorem filter_chain_eq_nil {h n p cursor : Nat} {rest : List Nat} (hc : chain input h n = p :: rest)
    (hout : ¬cursor ≤ p + windowSize) : (p :: rest).filter (inWindow cursor) = [] := by
  obtain ⟨-, -, -, rfl⟩ := chain_eq_cons hc
  rw [List.filter_eq_nil_iff]
  intro q hq
  rcases List.mem_cons.mp hq with rfl | hq
  · simpa [inWindow] using hout
  · have hlt := lt_of_mem_chain hq
    simp only [inWindow, decide_eq_true_eq]
    omega

/-! ## What the tables hold -/

/-- The entry for the first position of a chain. -/
def firstEntry (positions : List Nat) : Nat := positions.head?.getD nil

/-- The tables hold the chains of the positions before `n`: the heads, and for each position within the window the one behind it. -/
structure MatchFinder.Chains (input : List UInt8) (n : Nat) (m : MatchFinder) : Prop where
  head_eq : ∀ h < hashSize, m.head[h]? = some (firstEntry (chain input h n))
  prev_eq : ∀ p < n, n ≤ p + windowSize → p + minMatch ≤ input.length →
    m.prev[p &&& (windowSize - 1)]? = some (firstEntry (chain input (hashAt input p) p))

theorem hash3_eq {pos : Nat} (h : pos + minMatch ≤ input.length) : hash3 input pos = .ok (hashAt input pos) := by
  unfold minMatch at h
  have h0 : pos < input.length := by omega
  have h1 : pos + 1 < input.length := by omega
  have h2 : pos + 2 < input.length := by omega
  rw [hash3, Exec.index_of_lt h0, Exec.index_of_lt h1, Exec.index_of_lt h2, Exec.ok_bind, Exec.ok_bind, Exec.ok_bind, hashAt,
    List.getD_eq_getElem _ _ h0, List.getD_eq_getElem _ _ h1, List.getD_eq_getElem _ _ h2]

theorem hashAt_lt (input : List UInt8) (pos : Nat) : hashAt input pos < hashSize := by
  have hmask : hashMask = 2 ^ 15 - 1 := rfl
  rw [hashAt, hmask, Nat.and_two_pow_sub_one_eq_mod]
  exact Nat.mod_lt _ (Nat.two_pow_pos 15)

namespace MatchFinder

variable {m : MatchFinder}

/-- At the beginning of a call all chains are empty, whatever the entries of the positions are. -/
theorem Wf.chains (h : m.Wf) (input : List UInt8) : (m.prepare input).Chains input 0 := by
  refine ⟨?_, ?_⟩
  · intro k hk
    rw [h.head_prepare, List.getElem?_replicate_of_lt hk]
    rfl
  · intro p hp
    exact absurd hp (Nat.not_lt_zero p)

/-- A position put in front of its chain. Its entry is that of the position a window back, which no search reaches any more. -/
theorem Chains.insert {n : Nat} (h : m.Chains input n) (hm : m.Sized input) (hn : n + minMatch ≤ input.length)
    (hlt : n < 2 ^ 32) : ∃ m', m.insert input n = .ok m' ∧ m'.Sized input ∧ m'.Chains input (n + 1) := by
  obtain ⟨m', h1, h2⟩ := hm.insert hn
  refine ⟨m', h1, h2, ?_⟩
  have hk : hashAt input n < m.head.length := by
    rw [hm.head_length]
    exact hashAt_lt input n
  have hindex : n &&& (windowSize - 1) < m.prev.length := by
    refine and_window_lt (n := input.length) ?_ hm.prev_length
    unfold minMatch at hn
    omega
  have hfirst : m.head[hashAt input n] = firstEntry (chain input (hashAt input n) n) := by
    have hget := h.head_eq _ (hashAt_lt input n)
    rw [List.getElem?_eq_getElem hk] at hget
    exact Option.some.inj hget
  rw [MatchFinder.insert, hash3_eq hn, Exec.ok_bind, Exec.index_of_lt hk, Exec.ok_bind, Exec.assign_of_lt _ hindex,
    Exec.ok_bind, Exec.assign_of_lt _ hk, Exec.ok_bind] at h1
  obtain rfl := Exec.ok.inj h1
  refine ⟨?_, ?_⟩
  · intro k hk'
    simp only
    rw [chain]
    by_cases hsame : hashAt input n = k
    · subst hsame
      rw [List.getElem?_set_self hk, if_pos ⟨hn, rfl⟩, Nat.mod_eq_of_lt hlt]
      rfl
    · rw [List.getElem?_set_ne hsame, if_neg (fun hc => hsame hc.2)]
      exact h.head_eq k hk'
  · intro p hp hwindow hlen
    simp only
    rcases Nat.lt_or_ge p n with hpn | hge
    · rw [List.getElem?_set_ne (Ne.symm (and_window_ne hpn (by omega)))]
      exact h.prev_eq p hpn (by omega) hlen
    · obtain rfl : p = n := by omega
      rw [List.getElem?_set_self hindex, hfirst]

/-- A position with too few bytes behind it is in no chain. -/
theorem Chains.skip {n : Nat} (h : m.Chains input n) (hn : ¬n + minMatch ≤ input.length) : m.Chains input (n + 1) := by
  refine ⟨?_, ?_⟩
  · intro k hk
    rw [chain, if_neg (fun hc => hn hc.1)]
    exact h.head_eq k hk
  · intro p hp hwindow hlen
    refine h.prev_eq p ?_ (by omega) hlen
    refine Nat.lt_of_le_of_ne (by omega) ?_
    rintro rfl
    exact hn hlen

/-- The positions inside a match, put into their chains. -/
theorem Chains.insertLoop (cursor rounds i : Nat) (h : m.Chains input (cursor + i)) (hm : m.Sized input)
    (hlt : input.length < 2 ^ 32) :
    ∃ m', MatchFinder.insertLoop input cursor rounds i m = .ok m' ∧ m'.Sized input ∧ m'.Chains input (cursor + i + rounds) := by
  induction rounds generalizing i m with
  | zero => exact ⟨m, rfl, hm, h⟩
  | succ rounds ih =>
    have hcursor : cursor + i + (rounds + 1) = cursor + (i + 1) + rounds := by omega
    rw [MatchFinder.insertLoop, hcursor]
    by_cases hc : cursor + i + minMatch ≤ input.length
    · have hpos : cursor + i < 2 ^ 32 := by
        unfold minMatch at hc
        omega
      obtain ⟨m₁, h1, h2, h3⟩ := h.insert hm hc hpos
      rw [if_pos hc, h1, Exec.ok_bind]
      exact ih (i + 1) h3 h2
    · rw [if_neg hc]
      exact ih (i + 1) (h.skip hc) hm

/-! ## The loop along a chain -/

/-- What is worth comparing: the length that is found for a candidate is that of the plain search, or neither is longer than the best
match so far. -/
theorem candidateLength_eq {candidate cursor bestLength : Nat} (hc : candidate < cursor) (hlt : cursor + bestLength < input.length) :
    ∃ length, candidateLength input candidate cursor (min (input.length - cursor) maxMatch) bestLength = .ok length ∧
      (length = matchLength input cursor candidate ∨ (length = 0 ∧ matchLength input cursor candidate ≤ bestLength)) := by
  have hx : candidate + bestLength < input.length := by omega
  have hagree : ∀ k, (hx : candidate + k < input.length) → (hy : cursor + k < input.length) →
      input[candidate + k] ≠ input[cursor + k] → matchLength input cursor candidate ≤ k := by
    intro k hx hy hne
    rw [matchLength_eq]
    refine Nat.le_trans (Nat.min_le_right _ _) (agree_le_of_ne ?_)
    rw [List.getElem?_drop, List.getElem?_drop, List.getElem?_eq_getElem hx, List.getElem?_eq_getElem hy]
    exact fun heq => hne (Option.some.inj heq)
  have hprefix := longestCommonPrefix_eq (min (input.length - cursor) maxMatch) hc
    (show cursor ≤ input.length by omega)
  rw [← matchLength_eq] at hprefix
  unfold candidateLength worthwhile
  by_cases h0 : bestLength = 0
  · rw [if_pos h0, Exec.ok_bind, if_pos rfl]
    exact ⟨_, hprefix, .inl rfl⟩
  · rw [if_neg h0, Exec.index_of_lt hx, Exec.ok_bind, Exec.index_of_lt hlt, Exec.ok_bind]
    by_cases hbest : input[candidate + bestLength] = input[cursor + bestLength]
    · rw [if_pos hbest, Exec.index_of_lt (show candidate < input.length by omega), Exec.ok_bind,
        Exec.index_of_lt (show cursor < input.length by omega), Exec.ok_bind, Exec.ok_bind]
      by_cases hfirst : input[candidate] = input[cursor]
      · rw [if_pos (beq_iff_eq.mpr hfirst)]
        exact ⟨_, hprefix, .inl rfl⟩
      · rw [if_neg (fun hc => hfirst (beq_iff_eq.mp hc))]
        exact ⟨0, rfl, .inr ⟨rfl, Nat.le_trans (hagree 0 (by omega) (by omega) hfirst) (Nat.zero_le _)⟩⟩
    · rw [if_neg hbest, Exec.ok_bind, if_neg Bool.false_ne_true]
      exact ⟨0, rfl, .inr ⟨rfl, hagree bestLength hx hlt hbest⟩⟩

/-- The best match so far as the loop keeps it: none as long as it is too short. -/
def kept (best : Nat × Nat) : Nat × Nat := if minMatch ≤ best.1 then best else (0, 0)

theorem kept_fst_le (best : Nat × Nat) : (kept best).1 ≤ best.1 := by
  unfold kept
  split
  · exact Nat.le_refl _
  · exact Nat.zero_le _

/-- A match that the loop takes is the longer one for the plain search. -/
theorem longer_of_better {cursor candidate : Nat} {best : Nat × Nat} (h3 : minMatch ≤ matchLength input cursor candidate)
    (hlt : (kept best).1 < matchLength input cursor candidate) :
    longer input cursor best candidate = (matchLength input cursor candidate, cursor - candidate) := by
  refine if_pos ?_
  unfold kept at hlt
  split at hlt
  · exact hlt
  · omega

/-- A match that the loop does not take is shorter, or too short. -/
theorem kept_longer_of_not_better {cursor candidate : Nat} {best : Nat × Nat}
    (h : ¬(minMatch ≤ matchLength input cursor candidate ∧ (kept best).1 < matchLength input cursor candidate)) :
    kept (longer input cursor best candidate) = kept best := by
  unfold longer
  by_cases hlt : best.1 < matchLength input cursor candidate
  · have hshort : ¬minMatch ≤ matchLength input cursor candidate :=
      fun h3 => h ⟨h3, Nat.lt_of_le_of_lt (kept_fst_le best) hlt⟩
    have hbest : ¬minMatch ≤ best.1 := by omega
    rw [if_pos hlt, kept, kept, if_neg hshort, if_neg hbest]
  · rw [if_neg hlt]

/-- No match is longer than one of the greatest length. -/
theorem foldl_longer_of_max {cursor distance : Nat} (positions : List Nat) :
    positions.foldl (longer input cursor) (min (input.length - cursor) maxMatch, distance) =
      (min (input.length - cursor) maxMatch, distance) := by
  induction positions with
  | nil => rfl
  | cons p positions ih =>
    rw [List.foldl_cons, longer, if_neg (Nat.not_lt.mpr (matchLength_le input cursor p)), ih]

/-- The loop along a chain is the plain search among the positions of the chain that are in the window. -/
theorem chainLoop_eq {cursor : Nat} (hchains : m.Chains input cursor)
    (hcursor : cursor + minMatch ≤ input.length) (hnil : input.length < nil) (rounds : Nat) {n : Nat} (hn : n ≤ cursor)
    (best : Nat × Nat) (hbest : best.1 < min (input.length - cursor) maxMatch) :
    chainLoop input m.prev cursor (cursor - windowSize) (min (input.length - cursor) maxMatch) rounds
      (firstEntry (chain input (hashAt input cursor) n)) (kept best).1 (kept best).2 =
      .ok (kept ((((chain input (hashAt input cursor) n).filter (inWindow cursor)).take rounds).foldl
        (longer input cursor) best)) := by
  induction rounds generalizing n best with
  | zero => rfl
  | succ rounds ih =>
    rw [chainLoop]
    cases hchain : chain input (hashAt input cursor) n with
    | nil =>
      rw [if_neg (fun hc => hc.1 rfl)]
      rfl
    | cons p rest =>
      obtain ⟨hpn, hlen, hsame, hrest⟩ := chain_eq_cons hchain
      have hp : p < cursor := Nat.lt_of_lt_of_le hpn hn
      have hpnil : p ≠ nil := by
        unfold minMatch at hlen
        omega
      have hentry : firstEntry (p :: rest) = p := rfl
      rw [hentry]
      by_cases hwindow : cursor ≤ p + windowSize
      · have hprev := hchains.prev_eq p hp hwindow hlen
        rw [hsame, ← hrest] at hprev
        have hkept := kept_fst_le best
        obtain ⟨length, hlength, heq⟩ := candidateLength_eq hp (show cursor + (kept best).1 < input.length by omega)
        have hin : inWindow cursor p = true := decide_eq_true hwindow
        rw [if_pos ⟨hpnil, by omega, hp⟩, List.filter_cons_of_pos hin, List.take_succ_cons, List.foldl_cons]
        simp only
        rw [hlength, Exec.ok_bind]
        by_cases hbetter : minMatch ≤ length ∧ (kept best).1 < length
        · obtain rfl : length = matchLength input cursor p := by
            rcases heq with heq | ⟨rfl, -⟩
            · exact heq
            · exact absurd hbetter.2 (Nat.not_lt_zero _)
          have hkeep : kept (matchLength input cursor p, cursor - p) = (matchLength input cursor p, cursor - p) :=
            if_pos hbetter.1
          rw [if_pos hbetter, longer_of_better hbetter.1 hbetter.2]
          by_cases hmax : matchLength input cursor p = min (input.length - cursor) maxMatch
          · rw [if_pos hmax, hmax, foldl_longer_of_max, ← hmax, hkeep]
          · have hlt : matchLength input cursor p < min (input.length - cursor) maxMatch :=
              Nat.lt_of_le_of_ne (matchLength_le input cursor p) hmax
            have hih := ih (Nat.le_of_lt hp) (matchLength input cursor p, cursor - p) hlt
            rw [hkeep, ← hrest] at hih
            rw [if_neg hmax, Exec.index_of_getElem? hprev, Exec.ok_bind]
            exact hih
        · have hnot : ¬(minMatch ≤ matchLength input cursor p ∧ (kept best).1 < matchLength input cursor p) := by
            rcases heq with rfl | ⟨-, hle⟩
            · exact hbetter
            · exact fun hc => absurd hc.2 (Nat.not_lt.mpr hle)
          have hsame := kept_longer_of_not_better hnot
          have hlt : (longer input cursor best p).1 < min (input.length - cursor) maxMatch := by
            unfold longer
            split
            · have hshort : ¬minMatch ≤ matchLength input cursor p :=
                fun h3 => hnot ⟨h3, Nat.lt_of_le_of_lt hkept (by assumption)⟩
              unfold minMatch at hshort hcursor
              unfold maxMatch
              simp only
              omega
            · exact hbest
          have hih := ih (Nat.le_of_lt hp) _ hlt
          rw [hsame, ← hrest] at hih
          rw [if_neg hbetter, Exec.index_of_getElem? hprev, Exec.ok_bind]
          exact hih
      · rw [if_neg (by omega), filter_chain_eq_nil hchain hwindow]
        rfl

/-- The search at a position with three bytes to hash finds the match of the plain search, if that is long enough. -/
theorem chainLoop_eq_longest {cursor : Nat} (hchains : m.Chains input cursor)
    (hcursor : cursor + minMatch ≤ input.length) (hnil : input.length < nil) :
    chainLoop input m.prev cursor (cursor - windowSize) (min (input.length - cursor) maxMatch) maxChainLen
      (firstEntry (chain input (hashAt input cursor) cursor)) 0 0 = .ok (kept (longest input cursor)) := by
  have hmax : 0 < min (input.length - cursor) maxMatch := by
    unfold minMatch at hcursor
    unfold maxMatch
    omega
  rw [longest, candidates_eq hcursor]
  exact chainLoop_eq hchains hcursor hnil maxChainLen (Nat.le_refl _) (0, 0) hmax

/-! ## The loop over the input -/

/-- With fewer than three bytes left the plain search has literals only. -/
theorem tokensFrom_of_short (rounds : Nat) {cursor : Nat} (hshort : input.length < cursor + minMatch)
    (hrounds : input.length ≤ cursor + rounds) : tokensFrom input rounds cursor = (input.drop cursor).map .literal := by
  induction rounds generalizing cursor with
  | zero => rw [List.drop_of_length_le (by omega), tokensFrom, List.map_nil]
  | succ rounds ih =>
    unfold minMatch at hshort ih
    rw [tokensFrom]
    by_cases hc : cursor < input.length
    · rw [if_pos hc, if_pos (by omega), ih (by omega) (by omega), List.drop_eq_getElem_cons hc, List.map_cons,
        List.getD_eq_getElem _ _ hc]
    · rw [if_neg hc, List.drop_of_length_le (by omega), List.map_nil]

/-- The loop over the input adds the tokens of the plain search. -/
theorem symbolLoop_eq (fuel rounds : Nat) {cursor : Nat} (symbols : List Lz77Code) (hm : m.Sized input)
    (hchains : m.Chains input cursor) (hnil : input.length < nil) (hfuel : input.length - cursor < fuel)
    (hrounds : input.length ≤ cursor + rounds) :
    ∃ m', symbolLoop input fuel cursor m symbols = .ok (m', symbols ++ tokensFrom input rounds cursor) := by
  have hlt32 : input.length < 2 ^ 32 := by
    unfold nil at hnil
    omega
  induction fuel generalizing cursor m symbols rounds with
  | zero => exact absurd hfuel (Nat.not_lt_zero _)
  | succ fuel ih =>
    rw [symbolLoop]
    by_cases hc : cursor < input.length
    · obtain ⟨rounds, rfl⟩ : ∃ k, rounds = k + 1 := ⟨rounds - 1, by omega⟩
      rw [if_pos hc, tokensFrom, if_pos hc, List.getD_eq_getElem _ _ hc]
      by_cases hshort : input.length < cursor + minMatch
      · have hfew : input.length - cursor < 3 := by
          unfold minMatch at hshort
          omega
        obtain ⟨m', hrest⟩ := ih rounds (symbols ++ [.literal input[cursor]]) hm
          (hchains.skip (Nat.not_le.mpr hshort)) (by omega) (by omega)
        refine ⟨m', ?_⟩
        rw [if_pos hshort, Exec.index_of_lt hc, Exec.ok_bind, if_pos hfew, hrest, List.append_assoc, List.singleton_append]
      · have hlong : cursor + minMatch ≤ input.length := Nat.le_of_not_lt hshort
        have hmany : ¬input.length - cursor < 3 := by
          unfold minMatch at hlong
          omega
        have hchain := chainLoop_eq_longest hchains hlong hnil
        obtain ⟨m₁, hinsert, hm₁, hchains₁⟩ := hchains.insert hm hlong (Nat.lt_trans hc hlt32)
        rw [if_neg hshort, hash3_eq hlong, Exec.ok_bind, if_neg hmany]
        simp only
        rw [Exec.index_of_getElem? (hchains.head_eq _ (hashAt_lt input cursor)), Exec.ok_bind, hchain, Exec.ok_bind, hinsert, Exec.ok_bind]
        by_cases hfound : 3 ≤ (longest input cursor).1
        · have hkept : kept (longest input cursor) = longest input cursor := if_pos hfound
          have hnext : cursor + 1 + ((longest input cursor).1 - 1) = cursor + (longest input cursor).1 := by omega
          obtain ⟨m₂, hloop, hm₂, hchains₂⟩ := hchains₁.insertLoop cursor ((longest input cursor).1 - 1) 1 hm₁ hlt32
          rw [hnext] at hchains₂
          obtain ⟨m', hrest⟩ := ih rounds
            (symbols ++ [.pointer (longest input cursor).1 (longest input cursor).2]) hm₂ hchains₂ (by omega) (by omega)
          refine ⟨m', ?_⟩
          rw [hkept, if_pos (show minMatch ≤ (longest input cursor).1 from hfound), hloop, Exec.ok_bind, if_pos hfound, hrest,
            List.append_assoc, List.singleton_append]
        · have hkept : kept (longest input cursor) = (0, 0) := if_neg hfound
          obtain ⟨m', hrest⟩ := ih rounds (symbols ++ [.literal input[cursor]]) hm₁ hchains₁ (by omega) (by omega)
          refine ⟨m', ?_⟩
          rw [hkept, if_neg (by decide), Exec.index_of_lt hc, Exec.ok_bind, if_neg hfound, hrest, List.append_assoc,
            List.singleton_append]
    · have hend : tokensFrom input rounds cursor = [] := by
        cases rounds with
        | zero => rfl
        | succ rounds => rw [tokensFrom, if_neg hc]
      rw [if_neg hc, hend, List.append_nil]
      exact ⟨m, rfl⟩

/-- The tokens of the match finder are those of the plain search. -/
theorem fillSymbols_eq_tokens (h : m.Wf) {input : List UInt8} (hlt : input.length < nil) :
    ∃ m', m.fillSymbols input = .ok (m', Greedy.tokens input) := by
  unfold fillSymbols
  by_cases hshort : input.length < minMatch
  · rw [if_pos hshort, Greedy.tokens, tokensFrom_of_short _ (by omega) (by omega), List.drop_zero]
    exact ⟨m, rfl⟩
  · rw [if_neg hshort]
    exact symbolLoop_eq (input.length + 1) input.length [] (h.prepare input) (h.chains input) hlt (by omega) (by omega)

end MatchFinder

end Noflate
