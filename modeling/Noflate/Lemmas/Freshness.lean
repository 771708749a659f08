import Noflate.Lemmas.Matching

/-!
# The match finder and what it was used for before

`prev` is not cleared between calls, and no search reads an entry that is left from an earlier one: two match finders that agree on
the heads of the chains and on the entries of the positions within the window (`Agree`) find the same matches (`chainLoop_congr`),
and go on agreeing when a position is put into its chain (`Agree.insert`). So the tokens of an input are `tokens` of it alone
(`fillSymbols_eq`).
-/

namespace Noflate

namespace MatchFinder

/-- Two match finders hold the same of what a search at a position can reach: the heads of the chains, and the entries of the
positions within the window that were put into a chain. -/
structure Agree (input : List UInt8) (cursor : Nat) (m m' : MatchFinder) : Prop where
  head_eq : m.head = m'.head
  prev_eq : ∀ p < cursor, cursor ≤ p + windowSize → p + minMatch ≤ input.length →
    m.prev[p &&& (windowSize - 1)]? = m'.prev[p &&& (windowSize - 1)]?

variable {input : List UInt8} {m m' : MatchFinder}

/-- Two positions that are less than the window apart have different entries. -/
theorem and_window_ne {p q : Nat} (hlt : p < q) (hle : q < p + windowSize) : p &&& (windowSize - 1) ≠ q &&& (windowSize - 1) := by
  have hp : p &&& (windowSize - 1) = p % 2 ^ 15 := Nat.and_two_pow_sub_one_eq_mod p 15
  have hq : q &&& (windowSize - 1) = q % 2 ^ 15 := Nat.and_two_pow_sub_one_eq_mod q 15
  have hw : windowSize = 2 ^ 15 := rfl
  rw [hp, hq]
  omega

/-- What a search finds depends on the entries of the positions within the window only. -/
theorem chainLoop_congr {prev prev' : List Nat} {cursor maxLength : Nat}
    (h : ∀ p < cursor, cursor - windowSize ≤ p → prev[p &&& (windowSize - 1)]? = prev'[p &&& (windowSize - 1)]?)
    (rounds chainPos bestLength bestDistance : Nat) :
    chainLoop input prev cursor (cursor - windowSize) maxLength rounds chainPos bestLength bestDistance =
      chainLoop input prev' cursor (cursor - windowSize) maxLength rounds chainPos bestLength bestDistance := by
  induction rounds generalizing chainPos bestLength bestDistance with
  | zero => rfl
  | succ rounds ih =>
    rw [chainLoop, chainLoop]
    by_cases hc : chainPos ≠ nil ∧ cursor - windowSize ≤ chainPos ∧ chainPos < cursor
    · have hnext : Exec.index prev (chainPos &&& (windowSize - 1)) = Exec.index prev' (chainPos &&& (windowSize - 1)) := by
        unfold Exec.index
        rw [h chainPos hc.2.2 hc.2.1]
      rw [if_pos hc, if_pos hc]
      simp only [hnext, ih]
    · rw [if_neg hc, if_neg hc]

/-- A position put into its chain in both. -/
theorem Agree.insert {pos : Nat} (h : Agree input pos m m') (hm : m.Sized input) (hm' : m'.Sized input)
    (hpos : pos + minMatch ≤ input.length) :
    ∃ m₁ m₁', m.insert input pos = .ok m₁ ∧ m'.insert input pos = .ok m₁' ∧ m₁.Sized input ∧ m₁'.Sized input ∧
      Agree input (pos + 1) m₁ m₁' := by
  obtain ⟨m₁, h1, h2⟩ := hm.insert hpos
  obtain ⟨m₁', h1', h2'⟩ := hm'.insert hpos
  refine ⟨m₁, m₁', h1, h1', h2, h2', ?_⟩
  obtain ⟨k, hk, hlt⟩ := hash3_ok hpos
  have hlt' := hlt
  rw [← hm.head_length] at hlt
  rw [← hm'.head_length] at hlt'
  have hindex : ∀ {m : MatchFinder}, m.Sized input → pos &&& (windowSize - 1) < m.prev.length := by
    intro m hm
    refine and_window_lt (n := input.length) ?_ hm.prev_length
    unfold minMatch at hpos
    omega
  rw [MatchFinder.insert, hk, Exec.ok_bind, Exec.index_of_lt hlt, Exec.ok_bind, Exec.assign_of_lt _ (hindex hm),
    Exec.ok_bind, Exec.assign_of_lt _ hlt, Exec.ok_bind] at h1
  rw [MatchFinder.insert, hk, Exec.ok_bind, Exec.index_of_lt hlt', Exec.ok_bind, Exec.assign_of_lt _ (hindex hm'),
    Exec.ok_bind, Exec.assign_of_lt _ hlt', Exec.ok_bind] at h1'
  obtain rfl := Exec.ok.inj h1
  obtain rfl := Exec.ok.inj h1'
  have hfirst : m.head[k] = m'.head[k] := by
    have hget := congrArg (fun head : List Nat => head[k]?) h.head_eq
    simp only [List.getElem?_eq_getElem hlt, List.getElem?_eq_getElem hlt'] at hget
    exact Option.some.inj hget
  refine ⟨by simp only [h.head_eq], ?_⟩
  intro p hp hwindow hlen
  simp only
  rcases Nat.lt_or_ge p pos with hlt | hge
  · have hne := and_window_ne hlt (by omega)
    rw [List.getElem?_set_ne (Ne.symm hne), List.getElem?_set_ne (Ne.symm hne)]
    exact h.prev_eq p hlt (by omega) hlen
  · obtain rfl : p = pos := by omega
    rw [List.getElem?_set_self (hindex hm), List.getElem?_set_self (hindex hm'), hfirst]

/-- A position that has too few bytes behind it is not put into a chain. -/
theorem Agree.skip {pos : Nat} (h : Agree input pos m m') (hpos : ¬pos + minMatch ≤ input.length) :
    Agree input (pos + 1) m m' := by
  refine ⟨h.head_eq, ?_⟩
  intro p hp hwindow hlen
  refine h.prev_eq p ?_ (by omega) hlen
  refine Nat.lt_of_le_of_ne (by omega) ?_
  rintro rfl
  exact hpos hlen

theorem Agree.insertLoop (cursor rounds i : Nat) (h : Agree input (cursor + i) m m') (hm : m.Sized input) (hm' : m'.Sized input) :
    ∃ m₁ m₁', MatchFinder.insertLoop input cursor rounds i m = .ok m₁ ∧ MatchFinder.insertLoop input cursor rounds i m' = .ok m₁' ∧
      m₁.Sized input ∧ m₁'.Sized input ∧ Agree input (cursor + i + rounds) m₁ m₁' := by
  induction rounds generalizing i m m' with
  | zero => exact ⟨m, m', rfl, rfl, hm, hm', h⟩
  | succ rounds ih =>
    rw [MatchFinder.insertLoop, MatchFinder.insertLoop]
    have hcursor : cursor + i + (rounds + 1) = cursor + (i + 1) + rounds := by omega
    rw [hcursor]
    by_cases hc : cursor + i + minMatch ≤ input.length
    · obtain ⟨m₁, m₁', h1, h1', h2, h2', h3⟩ := h.insert hm hm' hc
      rw [if_pos hc, if_pos hc, h1, h1', Exec.ok_bind, Exec.ok_bind]
      exact ih (i + 1) h3 h2 h2'
    · rw [if_neg hc, if_neg hc]
      exact ih (i + 1) (h.skip hc) hm hm'

/-- Match finders that agree go on to the same tokens. -/
theorem symbolLoop_congr (fuel : Nat) {cursor : Nat} {symbols : List Lz77Code} (h : Agree input cursor m m') (hm : m.Sized input)
    (hm' : m'.Sized input) {r r' : MatchFinder} {symbols₁ symbols₁' : List Lz77Code}
    (h1 : symbolLoop input fuel cursor m symbols = .ok (r, symbols₁))
    (h1' : symbolLoop input fuel cursor m' symbols = .ok (r', symbols₁')) : symbols₁ = symbols₁' := by
  induction fuel generalizing cursor m m' symbols with
  | zero => cases h1
  | succ fuel ih =>
    rw [symbolLoop] at h1 h1'
    by_cases hc : cursor < input.length
    · rw [if_pos hc] at h1 h1'
      by_cases hshort : input.length < cursor + minMatch
      · rw [if_pos hshort, Exec.index_of_lt hc, Exec.ok_bind] at h1 h1'
        exact ih (h.skip (Nat.not_le.mpr hshort)) hm hm' h1 h1'
      · have hlong : cursor + minMatch ≤ input.length := Nat.le_of_not_lt hshort
        have hprev : ∀ p < cursor, cursor - windowSize ≤ p →
            m.prev[p &&& (windowSize - 1)]? = m'.prev[p &&& (windowSize - 1)]? :=
          fun p hp hwindow => h.prev_eq p hp (by omega) (by omega)
        rw [if_neg hshort] at h1 h1'
        simp only at h1 h1'
        obtain ⟨k, hk, h1⟩ := Exec.bind_eq_ok.mp h1
        obtain ⟨chainPos, hfirst, h1⟩ := Exec.bind_eq_ok.mp h1
        obtain ⟨⟨length, distance⟩, hchain, h1⟩ := Exec.bind_eq_ok.mp h1
        rw [hk, Exec.ok_bind, ← h.head_eq, hfirst, Exec.ok_bind, ← chainLoop_congr hprev, hchain, Exec.ok_bind] at h1'
        obtain ⟨m₁, m₁', hi, hi', hs, hs', ha⟩ := h.insert hm hm' hlong
        simp only [hi, Exec.ok_bind] at h1
        simp only [hi', Exec.ok_bind] at h1'
        by_cases hfound : minMatch ≤ length
        · obtain ⟨m₂, m₂', hl, hl', hs₂, hs₂', ha₂⟩ := ha.insertLoop cursor (length - 1) 1 hs hs'
          rw [if_pos hfound, hl, Exec.ok_bind] at h1
          rw [if_pos hfound, hl', Exec.ok_bind] at h1'
          have hnext : cursor + 1 + (length - 1) = cursor + length := by
            unfold minMatch at hfound
            omega
          rw [hnext] at ha₂
          exact ih ha₂ hs₂ hs₂' h1 h1'
        · rw [if_neg hfound, Exec.index_of_lt hc, Exec.ok_bind] at h1 h1'
          exact ih ha hs hs' h1 h1'
    · rw [if_neg hc] at h1 h1'
      cases h1
      cases h1'
      rfl

/-- At the beginning of a call the chains are empty. -/
theorem Wf.head_prepare (h : m.Wf) (input : List UInt8) : (m.prepare input).head = List.replicate hashSize nil := by
  unfold MatchFinder.prepare
  simp only
  split
  · rfl
  · rename_i hne
    rcases h with h | ⟨hlen, hdirty⟩
    · rw [h] at hne
      exact absurd rfl hne
    · rw [if_pos hdirty, List.map_const', hlen]

/-- The tokens of an input. -/
def tokens (input : List UInt8) : List Lz77Code :=
  match new.fillSymbols input with
  | .ok (_, symbols) => symbols
  | _ => []

/-- The tokens of an input do not depend on what the match finder was used for before. -/
theorem fillSymbols_eq (h : m.Wf) (input : List UInt8) :
    ∃ m', m.fillSymbols input = .ok (m', tokens input) ∧ m'.Wf := by
  obtain ⟨m₁, symbols, h1, h2, -⟩ := fillSymbols_spec h input
  obtain ⟨m₂, symbols', h1', -, -⟩ := fillSymbols_spec new_wf input
  have heq : symbols = symbols' := by
    unfold fillSymbols at h1 h1'
    by_cases hshort : input.length < minMatch
    · rw [if_pos hshort] at h1 h1'
      cases h1
      cases h1'
      rfl
    · rw [if_neg hshort] at h1 h1'
      refine symbolLoop_congr _ ⟨?_, fun p hp => absurd hp (Nat.not_lt_zero p)⟩ (h.prepare input) (new_wf.prepare input) h1 h1'
      rw [h.head_prepare, new_wf.head_prepare]
  refine ⟨m₁, ?_, h2⟩
  unfold tokens
  rw [h1', h1, heq]

/-- The tokens of an input are in range and stand for it. -/
theorem tokens_spec (input : List UInt8) : Tokens (tokens input) input := by
  obtain ⟨m, symbols, h1, -, h3⟩ := fillSymbols_spec new_wf input
  unfold tokens
  rw [h1]
  exact h3

end MatchFinder

end Noflate
