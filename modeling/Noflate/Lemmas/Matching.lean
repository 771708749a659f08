import Noflate.Lz77
import Noflate.Rfc1951

/-!
# The tokens of the match finder

What the match finder compares is the number of bytes that agree at two positions of the input (`agree`), and it says it exactly
(`longestCommonPrefix_eq`). Of the hash chains only their sizes are needed here: whatever positions they hold, a candidate is looked
at only when it is in the window, and it becomes a match only when its bytes have been compared. So the tokens stand for the input
(`fillSymbols_spec`).
-/

namespace Noflate

open BitString

/-! ## Bytes that agree -/

/-- How many elements at the front of two lists agree. -/
def agree {α : Type} [DecidableEq α] : List α → List α → Nat
  | a :: as, b :: bs => if a = b then agree as bs + 1 else 0
  | _, _ => 0

section

variable {α : Type} [DecidableEq α]

theorem agree_le (xs ys : List α) : agree xs ys ≤ xs.length ∧ agree xs ys ≤ ys.length := by
  induction xs generalizing ys with
  | nil => exact ⟨Nat.zero_le _, Nat.zero_le _⟩
  | cons a as ih =>
    cases ys with
    | nil => exact ⟨Nat.zero_le _, Nat.zero_le _⟩
    | cons b bs =>
      have h := ih bs
      rw [agree, List.length_cons, List.length_cons]
      split
      · omega
      · omega

/-- The elements that agree are the same. -/
theorem getElem?_of_lt_agree {xs ys : List α} {k : Nat} (h : k < agree xs ys) : xs[k]? = ys[k]? := by
  induction xs generalizing ys k with
  | nil => exact absurd h (Nat.not_lt_zero k)
  | cons a as ih =>
    cases ys with
    | nil => exact absurd h (Nat.not_lt_zero k)
    | cons b bs =>
      rw [agree] at h
      split at h
      · rename_i hab
        cases k with
        | zero => rw [List.getElem?_cons_zero, List.getElem?_cons_zero, hab]
        | succ k =>
          rw [List.getElem?_cons_succ, List.getElem?_cons_succ]
          exact ih (Nat.lt_of_succ_lt_succ h)
      · exact absurd h (Nat.not_lt_zero k)

/-- Elements that agree can be left out. -/
theorem agree_drop {xs ys : List α} {k : Nat} (h : k ≤ agree xs ys) :
    agree xs ys = k + agree (xs.drop k) (ys.drop k) := by
  induction k generalizing xs ys with
  | zero => rw [List.drop_zero, List.drop_zero, Nat.zero_add]
  | succ k ih =>
    cases xs with
    | nil => exact absurd h (Nat.not_succ_le_zero k)
    | cons a as =>
      cases ys with
      | nil => exact absurd h (Nat.not_succ_le_zero k)
      | cons b bs =>
        rw [agree] at h ⊢
        split at h
        · rename_i hab
          rw [if_pos hab, List.drop_succ_cons, List.drop_succ_cons, ih (Nat.le_of_succ_le_succ h)]
          omega
        · exact absurd h (Nat.not_succ_le_zero k)

/-- Lists whose beginnings differ agree on less than these, and as the beginnings do. -/
theorem agree_take {xs ys : List α} {n : Nat} (hx : n ≤ xs.length) (hy : n ≤ ys.length) :
    (xs.take n = ys.take n → n ≤ agree xs ys) ∧
      (xs.take n ≠ ys.take n → agree xs ys = agree (xs.take n) (ys.take n) ∧ agree xs ys < n) := by
  induction n generalizing xs ys with
  | zero =>
    rw [List.take_zero, List.take_zero]
    exact ⟨fun _ => Nat.zero_le _, fun h => absurd rfl h⟩
  | succ n ih =>
    cases xs with
    | nil => exact absurd hx (Nat.not_succ_le_zero n)
    | cons a as =>
      cases ys with
      | nil => exact absurd hy (Nat.not_succ_le_zero n)
      | cons b bs =>
        rw [List.length_cons] at hx hy
        have h := ih (Nat.le_of_succ_le_succ hx) (Nat.le_of_succ_le_succ hy)
        rw [List.take_succ_cons, List.take_succ_cons, agree, agree]
        by_cases hab : a = b
        · subst hab
          rw [if_pos rfl, if_pos rfl, List.cons.injEq]
          refine ⟨fun heq => Nat.succ_le_succ (h.1 heq.2), fun hne => ?_⟩
          obtain ⟨h1, h2⟩ := h.2 (fun heq => hne (by rw [heq]))
          exact ⟨congrArg (· + 1) h1, Nat.succ_lt_succ h2⟩
        · rw [if_neg hab, if_neg hab]
          exact ⟨fun heq => absurd (List.cons.inj heq).1 hab, fun _ => ⟨rfl, Nat.succ_pos n⟩⟩

end

/-! ## Eight bytes at a time -/

/-- The zero bits of a number whose low bits are zero. -/
theorem trailingZeros_add (k m : Nat) {v : Nat} (h : v % 2 ^ k = 0) :
    trailingZeros (k + m) v = k + trailingZeros m (v / 2 ^ k) := by
  induction k generalizing v with
  | zero => rw [Nat.zero_add, Nat.zero_add, Nat.pow_zero, Nat.div_one]
  | succ k ih =>
    rw [Nat.pow_succ'] at h ⊢
    have hmod : v % 2 = 0 := by
      have := Nat.mod_mul_right_mod v 2 (2 ^ k)
      rw [h] at this
      exact this.symm
    have hdiv : v / 2 % 2 ^ k = 0 := by
      rw [Nat.mod_mul, hmod] at h
      omega
    have hne : ¬v % 2 = 1 := by omega
    rw [show k + 1 + m = k + m + 1 by omega, trailingZeros, if_neg hne, ih hdiv, Nat.div_div_eq_div_mul]
    omega

/-- The zero bits of a number whose low bits are not all zero. -/
theorem trailingZeros_lt (k m : Nat) {v : Nat} (h : v % 2 ^ k ≠ 0) : trailingZeros (k + m) v < k := by
  induction k generalizing v with
  | zero => exact absurd (Nat.mod_one v) h
  | succ k ih =>
    rw [show k + 1 + m = k + m + 1 by omega, trailingZeros]
    by_cases hodd : v % 2 = 1
    · rw [if_pos hodd]
      exact Nat.succ_pos k
    · have hdiv : v / 2 % 2 ^ k ≠ 0 := by
        intro h0
        rw [Nat.pow_succ', Nat.mod_mul, h0] at h
        omega
      rw [if_neg hodd]
      exact Nat.succ_lt_succ (ih hdiv)

/-- Two byte strings of one length as numbers: where the numbers differ first, the byte strings do. -/
theorem trailingZeros_xor {xs ys : List UInt8} (hlen : xs.length = ys.length) :
    leNat xs ^^^ leNat ys ≠ 0 → trailingZeros (8 * xs.length) (leNat xs ^^^ leNat ys) / 8 = agree xs ys := by
  induction xs generalizing ys with
  | nil =>
    intro h
    obtain rfl := List.eq_nil_of_length_eq_zero hlen.symm
    exact absurd rfl h
  | cons x xs ih =>
    intro h
    cases ys with
    | nil => cases hlen
    | cons y ys =>
      have hlen' : xs.length = ys.length := Nat.succ.inj hlen
      have hx := x.toNat_lt
      have hy := y.toNat_lt
      have hmod : (leNat (x :: xs) ^^^ leNat (y :: ys)) % 2 ^ 8 = x.toNat ^^^ y.toNat := by
        rw [Nat.xor_mod_two_pow, leNat, leNat]
        congr 1
        · omega
        · omega
      have hdiv : (leNat (x :: xs) ^^^ leNat (y :: ys)) / 2 ^ 8 = leNat xs ^^^ leNat ys := by
        rw [Nat.xor_div_two_pow, leNat, leNat]
        congr 1
        · omega
        · omega
      have h8 : 8 * (x :: xs).length = 8 + 8 * xs.length := by
        rw [List.length_cons]
        omega
      rw [h8, agree]
      by_cases hxy : x = y
      · subst hxy
        have h0 : (leNat (x :: xs) ^^^ leNat (x :: ys)) % 2 ^ 8 = 0 := by rw [hmod, Nat.xor_self]
        have hne : leNat xs ^^^ leNat ys ≠ 0 := by
          intro h0'
          rw [h0'] at hdiv
          omega
        rw [if_pos rfl, trailingZeros_add 8 _ h0, hdiv, ← ih hlen' hne]
        omega
      · have hne : (leNat (x :: xs) ^^^ leNat (y :: ys)) % 2 ^ 8 ≠ 0 := by
          rw [hmod, Ne, Nat.xor_eq_zero_iff]
          exact fun heq => hxy (UInt8.toNat_inj.mp heq)
        have := trailingZeros_lt 8 (8 * xs.length) hne
        rw [if_neg hxy]
        omega

/-- Byte strings of one length are the same exactly when their numbers are. -/
theorem leNat_xor_eq_zero_iff {xs ys : List UInt8} (hlen : xs.length = ys.length) :
    leNat xs ^^^ leNat ys = 0 ↔ xs = ys := by
  rw [Nat.xor_eq_zero_iff]
  constructor
  · intro h
    rw [← leBytes_leNat xs, ← leBytes_leNat ys, hlen, h]
  · rintro rfl
    rfl

section

variable {input : List UInt8} {a b bounded : Nat}

theorem loadWord_of_le {pos : Nat} (h : pos + 8 ≤ input.length) :
    loadWord input pos = .ok (leNat ((input.drop pos).take 8)) := if_pos h

/-- The loop over words: it ends at the first byte that does not agree, or with fewer than eight bytes left to compare. -/
theorem wordLoop_spec (fuel i : Nat) (hab : a < b) (hb : b + bounded ≤ input.length) (hi : i ≤ bounded)
    (hagree : i ≤ agree (input.drop a) (input.drop b)) (hfuel : bounded < i + fuel) :
    ∃ j found, wordLoop input a b bounded fuel i = .ok (j, found) ∧ j ≤ bounded ∧
      j ≤ agree (input.drop a) (input.drop b) ∧ (found = true → j = agree (input.drop a) (input.drop b)) := by
  induction fuel generalizing i with
  | zero => exact absurd hfuel (by omega)
  | succ fuel ih =>
    rw [wordLoop]
    by_cases hc : i + 8 ≤ bounded
    · have hdrop := agree_drop hagree
      rw [List.drop_drop, List.drop_drop] at hdrop
      have hlx : 8 ≤ (input.drop (a + i)).length := by
        rw [List.length_drop]
        omega
      have hly : 8 ≤ (input.drop (b + i)).length := by
        rw [List.length_drop]
        omega
      have hlen : ((input.drop (a + i)).take 8).length = ((input.drop (b + i)).take 8).length := by
        rw [List.length_take_of_le hlx, List.length_take_of_le hly]
      have htake := agree_take hlx hly
      rw [if_pos hc, loadWord_of_le (by omega), loadWord_of_le (by omega), Exec.ok_bind, Exec.ok_bind]
      by_cases hdiff : leNat ((input.drop (a + i)).take 8) ^^^ leNat ((input.drop (b + i)).take 8) = 0
      · have hle := htake.1 ((leNat_xor_eq_zero_iff hlen).mp hdiff)
        simp only [hdiff, ne_eq, not_true, if_false]
        exact ih (i + 8) hc (by omega) (by omega)
      · obtain ⟨h1, h2⟩ := htake.2 (fun heq => hdiff ((leNat_xor_eq_zero_iff hlen).mpr heq))
        have hz := trailingZeros_xor hlen hdiff
        rw [List.length_take_of_le hlx, ← h1] at hz
        simp only [hdiff, ne_eq, not_false_eq_true, if_true]
        rw [hz]
        exact ⟨_, true, rfl, by omega, by omega, fun _ => hdrop.symm⟩
    · rw [if_neg hc]
      exact ⟨i, false, rfl, hi, hagree, fun h => nomatch h⟩

/-- The loop over bytes ends at the first byte that does not agree, or at the bound. -/
theorem byteLoop_spec (fuel i : Nat) (hab : a < b) (hb : b + bounded ≤ input.length) (hi : i ≤ bounded)
    (hagree : i ≤ agree (input.drop a) (input.drop b)) (hfuel : bounded < i + fuel) :
    byteLoop input a b bounded fuel i = .ok (min bounded (agree (input.drop a) (input.drop b))) := by
  induction fuel generalizing i with
  | zero => exact absurd hfuel (by omega)
  | succ fuel ih =>
    rw [byteLoop]
    by_cases hc : i < bounded
    · have hax : a + i < input.length := by omega
      have hbx : b + i < input.length := by omega
      have hdrop := agree_drop hagree
      rw [List.drop_drop, List.drop_drop, List.drop_eq_getElem_cons hax, List.drop_eq_getElem_cons hbx, agree] at hdrop
      rw [if_pos hc, Exec.index_of_lt hax, Exec.index_of_lt hbx, Exec.ok_bind, Exec.ok_bind]
      by_cases heq : input[a + i] = input[b + i]
      · rw [if_pos heq] at hdrop ⊢
        exact ih (i + 1) hc (by omega) (by omega)
      · rw [if_neg heq] at hdrop ⊢
        rw [Nat.min_eq_right (by omega), hdrop, Nat.add_zero]
    · rw [if_neg hc, Nat.min_eq_left (by omega), show i = bounded by omega]

/-- The longest common prefix of two positions: as many bytes as agree, up to the maximum. -/
theorem longestCommonPrefix_eq (max : Nat) (hab : a < b) (hb : b ≤ input.length) :
    longestCommonPrefix input a b max = .ok (min max (agree (input.drop a) (input.drop b))) := by
  have hnp : ¬(b ≤ a ∨ input.length < b) := by omega
  have hle := (agree_le (input.drop a) (input.drop b)).2
  rw [List.length_drop] at hle
  have hbound : b + min max (input.length - b) ≤ input.length := by omega
  obtain ⟨j, found, h1, h2, h3, h4⟩ := wordLoop_spec (min max (input.length - b) + 1) 0 hab hbound (Nat.zero_le _)
    (Nat.zero_le _) (by omega)
  rw [longestCommonPrefix, if_neg hnp]
  simp only [h1, Exec.ok_bind]
  cases found with
  | true =>
    have hj := h4 rfl
    simp only [if_true]
    rw [show j = min max (agree (input.drop a) (input.drop b)) by omega]
  | false =>
    have hbytes := byteLoop_spec (min max (input.length - b) + 1) j hab hbound h2 h3 (by omega)
    simp only [Bool.false_eq_true, if_false]
    rw [hbytes]
    congr 1
    omega

end

/-! ## Tokens and what they stand for -/

/-- A token in range: the length and the distance of a back-reference have symbols. -/
def Lz77Code.InRange : Lz77Code → Prop
  | .literal _ => True
  | .pointer length distance => minMatch ≤ length ∧ length ≤ maxMatch ∧ 1 ≤ distance ∧ distance ≤ windowSize

/-- What a token adds to an output. -/
def Lz77Code.expand (output : List UInt8) : Lz77Code → Option (List UInt8)
  | .literal byte => some (output ++ [byte])
  | .pointer length distance => Rfc1951.copyBytes distance length output

/-- What tokens add to an output. -/
def expand (output : List UInt8) (symbols : List Lz77Code) : Option (List UInt8) := symbols.foldlM Lz77Code.expand output

/-- The tokens are in range and stand for a byte string, behind any output. -/
structure Tokens (symbols : List Lz77Code) (bytes : List UInt8) : Prop where
  in_range : ∀ sym ∈ symbols, sym.InRange
  expand_eq : ∀ output, expand output symbols = some (output ++ bytes)

theorem Tokens.nil : Tokens [] [] := ⟨fun _ h => (nomatch h), fun output => by rw [List.append_nil]; rfl⟩

/-- One token more. -/
theorem Tokens.snoc {symbols : List Lz77Code} {bytes more : List UInt8} {sym : Lz77Code} (h : Tokens symbols bytes)
    (hrange : sym.InRange) (hsym : ∀ output, sym.expand (output ++ bytes) = some (output ++ (bytes ++ more))) :
    Tokens (symbols ++ [sym]) (bytes ++ more) := by
  refine ⟨?_, ?_⟩
  · intro s hs
    rcases List.mem_append.mp hs with hs | hs
    · exact h.in_range s hs
    · rw [List.mem_singleton.mp hs]
      exact hrange
  · intro output
    have hexp := h.expand_eq output
    unfold expand at hexp ⊢
    rw [List.foldlM_append, hexp, Option.bind_eq_bind, Option.bind_some, List.foldlM_cons, hsym]
    rfl

/-- One literal more. -/
theorem Tokens.literal {symbols : List Lz77Code} {input : List UInt8} {cursor : Nat} (h : Tokens symbols (input.take cursor))
    (hlt : cursor < input.length) : Tokens (symbols ++ [.literal input[cursor]]) (input.take (cursor + 1)) := by
  rw [← List.take_concat_get' input cursor hlt]
  exact h.snoc trivial (fun output => by rw [Lz77Code.expand, List.append_assoc])

/-- Copying bytes that agree with those that come next gives what comes next. -/
theorem copyBytes_of_agree {input : List UInt8} {cursor distance length : Nat} (h1 : 1 ≤ distance) (h2 : distance ≤ cursor)
    (hlen : cursor + length ≤ input.length) (h : length ≤ agree (input.drop (cursor - distance)) (input.drop cursor))
    (output : List UInt8) :
    Rfc1951.copyBytes distance length (output ++ input.take cursor) = some (output ++ input.take (cursor + length)) := by
  induction length generalizing cursor with
  | zero => rfl
  | succ length ih =>
    have hlt : cursor < input.length := by omega
    have htake : (input.take cursor).length = cursor := List.length_take_of_le hlt.le
    have hback : cursor - distance < input.length := by omega
    have hcond : 0 < distance ∧ distance ≤ (output ++ input.take cursor).length := by
      rw [List.length_append, htake]
      omega
    have hsame : input[cursor - distance] = input[cursor] := by
      have h0 := getElem?_of_lt_agree (Nat.lt_of_lt_of_le (Nat.succ_pos length) h)
      rw [List.getElem?_drop, List.getElem?_drop, Nat.add_zero, Nat.add_zero, List.getElem?_eq_getElem hback,
        List.getElem?_eq_getElem hlt] at h0
      exact Option.some.inj h0
    have hbyte : (output ++ input.take cursor).getD ((output ++ input.take cursor).length - distance) 0 = input[cursor] := by
      rw [List.length_append, htake, List.getD_eq_getElem?_getD, List.getElem?_append_right (by omega),
        show output.length + cursor - distance - output.length = cursor - distance by omega,
        List.getElem?_take_of_lt (by omega), List.getElem?_eq_getElem hback, Option.getD_some, hsame]
    have hrest : length ≤ agree (input.drop (cursor + 1 - distance)) (input.drop (cursor + 1)) := by
      have hd := agree_drop (k := 1) (Nat.le_trans (Nat.le_add_left 1 length) h)
      rw [List.drop_drop, List.drop_drop] at hd
      rw [show cursor + 1 - distance = cursor - distance + 1 by omega]
      omega
    rw [Rfc1951.copyBytes, if_pos hcond, hbyte, List.append_assoc, List.take_concat_get' input cursor hlt,
      ih (by omega) (by omega) hrest]
    congr 3
    omega

/-! ## The loops of the match finder -/

/-- A match at a position: as long as its bytes agree, and in range. No match has length zero. -/
def IsMatch (input : List UInt8) (cursor length distance : Nat) : Prop :=
  length = 0 ∨ (minMatch ≤ length ∧ length ≤ maxMatch ∧ 1 ≤ distance ∧ distance ≤ windowSize ∧ distance ≤ cursor ∧
    cursor + length ≤ input.length ∧ length ≤ agree (input.drop (cursor - distance)) (input.drop cursor))

/-- The tables are large enough for an input, and are marked as used. -/
structure MatchFinder.Sized (m : MatchFinder) (input : List UInt8) : Prop where
  head_length : m.head.length = hashSize
  prev_length : min input.length windowSize ≤ m.prev.length
  dirty : m.headDirty = true

/-- Between calls `head` is not allocated, or is as large as there are hashes and marked as used. -/
def MatchFinder.Wf (m : MatchFinder) : Prop := m.head = [] ∨ (m.head.length = hashSize ∧ m.headDirty = true)

theorem MatchFinder.new_wf : MatchFinder.new.Wf := .inl rfl

/-- The index of a position in `prev` is in range. -/
theorem and_window_lt {n pos k : Nat} (hpos : pos < n) (hk : min n windowSize ≤ k) : pos &&& (windowSize - 1) < k := by
  have hmod : pos &&& (windowSize - 1) = pos % 2 ^ 15 := Nat.and_two_pow_sub_one_eq_mod pos 15
  have hle := Nat.mod_le pos (2 ^ 15)
  have hlt := Nat.mod_lt pos (Nat.two_pow_pos 15)
  rw [hmod]
  unfold windowSize at hk
  omega

/-- The hash of three bytes of the input is an index of `head`. -/
theorem hash3_ok {input : List UInt8} {pos : Nat} (h : pos + minMatch ≤ input.length) :
    ∃ k, hash3 input pos = .ok k ∧ k < hashSize := by
  unfold minMatch at h
  have hmask : hashMask = 2 ^ 15 - 1 := rfl
  refine ⟨_, by rw [hash3, Exec.index_of_lt (show pos < input.length by omega),
    Exec.index_of_lt (show pos + 1 < input.length by omega), Exec.index_of_lt (show pos + 2 < input.length by omega),
    Exec.ok_bind, Exec.ok_bind, Exec.ok_bind], ?_⟩
  rw [hmask, Nat.and_two_pow_sub_one_eq_mod]
  exact Nat.mod_lt _ (Nat.two_pow_pos 15)

namespace MatchFinder

variable {input : List UInt8} {m : MatchFinder}

theorem Sized.insert (h : m.Sized input) {pos : Nat} (hpos : pos + minMatch ≤ input.length) :
    ∃ m', m.insert input pos = .ok m' ∧ m'.Sized input := by
  obtain ⟨k, hk, hlt⟩ := hash3_ok hpos
  rw [← h.head_length] at hlt
  have hprev : pos &&& (windowSize - 1) < m.prev.length := by
    refine and_window_lt (n := input.length) ?_ h.prev_length
    unfold minMatch at hpos
    omega
  refine ⟨_, by rw [MatchFinder.insert, hk, Exec.ok_bind, Exec.index_of_lt hlt, Exec.ok_bind, Exec.assign_of_lt _ hprev,
    Exec.ok_bind, Exec.assign_of_lt _ hlt, Exec.ok_bind], ⟨?_, ?_, ?_⟩⟩
  · rw [List.length_set]
    exact h.head_length
  · rw [List.length_set]
    exact h.prev_length
  · exact h.dirty

theorem Sized.insertLoop (cursor rounds i : Nat) (h : m.Sized input) :
    ∃ m', MatchFinder.insertLoop input cursor rounds i m = .ok m' ∧ m'.Sized input := by
  induction rounds generalizing i m with
  | zero => exact ⟨m, rfl, h⟩
  | succ rounds ih =>
    rw [MatchFinder.insertLoop]
    by_cases hc : cursor + i + minMatch ≤ input.length
    · obtain ⟨m', h1, h2⟩ := h.insert hc
      rw [if_pos hc, h1, Exec.ok_bind]
      exact ih (i + 1) h2
    · rw [if_neg hc]
      exact ih (i + 1) h

theorem worthwhile_ok {candidate cursor bestLength : Nat} (hc : candidate < cursor) (hlt : cursor + bestLength < input.length) :
    ∃ worth, worthwhile input candidate cursor bestLength = .ok worth := by
  unfold worthwhile
  by_cases h0 : bestLength = 0
  · exact ⟨true, if_pos h0⟩
  · rw [if_neg h0, Exec.index_of_lt (show candidate + bestLength < input.length by omega), Exec.index_of_lt hlt,
      Exec.ok_bind, Exec.ok_bind]
    split
    · rw [Exec.index_of_lt (show candidate < input.length by omega), Exec.index_of_lt (show cursor < input.length by omega)]
      exact ⟨_, rfl⟩
    · exact ⟨false, rfl⟩

/-- A candidate that is long enough is a match. -/
theorem candidateLength_spec {candidate cursor bestLength : Nat} (hc : candidate < cursor) (hwindow : cursor - windowSize ≤ candidate)
    (hlt : cursor + bestLength < input.length) :
    ∃ length, candidateLength input candidate cursor (min (input.length - cursor) maxMatch) bestLength = .ok length ∧
      length ≤ min (input.length - cursor) maxMatch ∧
      (minMatch ≤ length → IsMatch input cursor length (cursor - candidate)) := by
  obtain ⟨worth, hworth⟩ := worthwhile_ok hc hlt
  rw [candidateLength, hworth, Exec.ok_bind]
  cases worth with
  | false => exact ⟨0, rfl, Nat.zero_le _, fun h => absurd h (by decide)⟩
  | true =>
    refine ⟨_, longestCommonPrefix_eq _ hc (by omega), Nat.min_le_left _ _, fun h3 => .inr ⟨h3, ?_⟩⟩
    rw [show cursor - (cursor - candidate) = candidate by omega]
    omega

/-- The loop along a chain finds a match or none, whatever positions the chain holds. -/
theorem chainLoop_spec {prev : List Nat} {cursor : Nat} (hprev : min input.length windowSize ≤ prev.length)
    (hcursor : cursor + minMatch ≤ input.length) (rounds chainPos : Nat) {bestLength bestDistance : Nat}
    (hbest : IsMatch input cursor bestLength bestDistance) (hlt : bestLength < min (input.length - cursor) maxMatch) :
    ∃ length distance, chainLoop input prev cursor (cursor - windowSize) (min (input.length - cursor) maxMatch) rounds chainPos
      bestLength bestDistance = .ok (length, distance) ∧ IsMatch input cursor length distance := by
  induction rounds generalizing chainPos bestLength bestDistance with
  | zero => exact ⟨_, _, rfl, hbest⟩
  | succ rounds ih =>
    rw [chainLoop]
    by_cases hc : chainPos ≠ nil ∧ cursor - windowSize ≤ chainPos ∧ chainPos < cursor
    · obtain ⟨length, hlength, hle, hcand⟩ := candidateLength_spec hc.2.2 hc.2.1
        (show cursor + bestLength < input.length by omega)
      have hnext : chainPos &&& (windowSize - 1) < prev.length :=
        and_window_lt (show chainPos < input.length by omega) hprev
      rw [if_pos hc]
      simp only
      rw [hlength, Exec.ok_bind]
      by_cases hbetter : minMatch ≤ length ∧ bestLength < length
      · rw [if_pos hbetter]
        by_cases hmax : length = min (input.length - cursor) maxMatch
        · rw [if_pos hmax]
          exact ⟨_, _, rfl, hcand hbetter.1⟩
        · rw [if_neg hmax, Exec.index_of_lt hnext, Exec.ok_bind]
          exact ih _ (hcand hbetter.1) (Nat.lt_of_le_of_ne hle hmax)
      · rw [if_neg hbetter, Exec.index_of_lt hnext, Exec.ok_bind]
        exact ih _ hbest hlt
    · rw [if_neg hc]
      exact ⟨_, _, rfl, hbest⟩

/-- The loop over the input: from tokens for what is before the cursor, tokens for the whole input. -/
theorem symbolLoop_spec (fuel : Nat) {cursor : Nat} {symbols : List Lz77Code} (hm : m.Sized input)
    (hcursor : cursor ≤ input.length) (hfuel : input.length < cursor + fuel) (h : Tokens symbols (input.take cursor)) :
    ∃ m' symbols', symbolLoop input fuel cursor m symbols = .ok (m', symbols') ∧ m'.Sized input ∧ Tokens symbols' input := by
  induction fuel generalizing cursor m symbols with
  | zero => exact absurd hfuel (by omega)
  | succ fuel ih =>
    rw [symbolLoop]
    by_cases hc : cursor < input.length
    · rw [if_pos hc]
      by_cases hshort : input.length < cursor + minMatch
      · rw [if_pos hshort, Exec.index_of_lt hc, Exec.ok_bind]
        exact ih hm hc (by omega) (h.literal hc)
      · have hlong : cursor + minMatch ≤ input.length := Nat.le_of_not_lt hshort
        obtain ⟨k, hk, hkh⟩ := hash3_ok hlong
        rw [← hm.head_length] at hkh
        have hmax : 0 < min (input.length - cursor) maxMatch := by
          unfold maxMatch
          omega
        obtain ⟨length, distance, hchain, hmatch⟩ := chainLoop_spec hm.prev_length hlong maxChainLen m.head[k]
          (show IsMatch input cursor 0 0 from .inl rfl) hmax
        obtain ⟨m₁, hinsert, hm₁⟩ := hm.insert hlong
        rw [if_neg hshort, hk, Exec.ok_bind]
        simp only
        rw [Exec.index_of_lt hkh, Exec.ok_bind, hchain, Exec.ok_bind]
        simp only
        rw [hinsert, Exec.ok_bind]
        by_cases hfound : minMatch ≤ length
        · obtain ⟨m₂, hloop, hm₂⟩ := hm₁.insertLoop cursor (length - 1) 1
          rw [if_pos hfound, hloop, Exec.ok_bind]
          rcases hmatch with h0 | ⟨h3, h258, h1, hwindow, hback, hend, hagree⟩
          · unfold minMatch at hfound
            omega
          · have htake : input.take cursor ++ (input.drop cursor).take length = input.take (cursor + length) :=
              (List.take_add).symm
            refine ih hm₂ hend ?_ ?_
            · unfold minMatch at h3
              omega
            · rw [← htake]
              refine h.snoc ⟨h3, h258, h1, hwindow⟩ ?_
              intro output
              rw [htake]
              exact copyBytes_of_agree h1 hback hend hagree output
        · rw [if_neg hfound, Exec.index_of_lt hc, Exec.ok_bind]
          exact ih hm₁ hc (by omega) (h.literal hc)
    · rw [if_neg hc]
      have hall : input.take cursor = input := List.take_of_length_le (Nat.le_of_not_lt hc)
      rw [hall] at h
      exact ⟨m, symbols, rfl, hm, h⟩

theorem Wf.prepare (h : m.Wf) (input : List UInt8) : (m.prepare input).Sized input := by
  refine ⟨?_, ?_, rfl⟩
  · unfold MatchFinder.prepare
    simp only
    split
    · exact List.length_replicate
    · rename_i hne
      have hlen : m.head.length = hashSize := by
        rcases h with h | h
        · rw [h] at hne
          exact absurd rfl hne
        · exact h.1
      split
      · rw [List.length_map, hlen]
      · exact hlen
  · unfold MatchFinder.prepare
    simp only
    split
    · rw [List.length_append, List.length_replicate]
      omega
    · omega

theorem tokens_of_literals (input : List UInt8) : Tokens (input.map .literal) input := by
  refine ⟨?_, ?_⟩
  · intro sym hsym
    obtain ⟨byte, -, rfl⟩ := List.mem_map.mp hsym
    exact trivial
  · intro output
    induction input generalizing output with
    | nil =>
      rw [List.append_nil]
      rfl
    | cons byte input ih =>
      have := ih (output ++ [byte])
      rw [List.append_assoc] at this
      exact this

/-- The tokens of an input are in range and stand for it, whatever the match finder was used for before. -/
theorem fillSymbols_spec (h : m.Wf) (input : List UInt8) :
    ∃ m' symbols, m.fillSymbols input = .ok (m', symbols) ∧ m'.Wf ∧ Tokens symbols input := by
  unfold fillSymbols
  by_cases hshort : input.length < minMatch
  · rw [if_pos hshort]
    exact ⟨m, _, rfl, h, tokens_of_literals input⟩
  · rw [if_neg hshort]
    obtain ⟨m', symbols, h1, h2, h3⟩ := symbolLoop_spec (input.length + 1) (h.prepare input) (Nat.zero_le _) (by omega)
      (by rw [List.take_zero]; exact .nil)
    exact ⟨m', symbols, h1, .inr ⟨h2.head_length, h2.dirty⟩, h3⟩

end MatchFinder

end Noflate
