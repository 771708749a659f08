import Mathlib.Logic.Function.Iterate
import Noflate.Error
import Noflate.Decode
import Noflate.Lemmas.Copying
import Noflate.Lemmas.HashChains

/-!
# Back-references

The decoder copies a back-reference as one byte at a time would, although it copies in slices that double (`copy_bytewise`). The
tokens of the match finder stand for the input, and their back-references stay inside what has been produced
(`fillSymbols_lossless`); for an input whose positions fit into the tables they are those of the plain greedy search
(`fillSymbols_greedy`).
-/

namespace Noflate

/-! ## The copy -/

/-- Append the byte that is so many positions back. -/
def appendBack (distance : Nat) (output : List UInt8) : List UInt8 := output ++ [output.getD (output.length - distance) 0]

/-- The reference copies by appending byte after byte. -/
theorem copyBytes_eq_iterate {distance : Nat} (length : Nat) {output : List UInt8} (h0 : 0 < distance)
    (h : distance ≤ output.length) : Rfc1951.copyBytes distance length output = some ((appendBack distance)^[length] output) := by
  induction length generalizing output with
  | zero => rfl
  | succ length ih =>
    have hle : distance ≤ (appendBack distance output).length := by
      rw [appendBack, List.length_append]
      omega
    rw [Rfc1951.copyBytes, if_pos ⟨h0, h⟩, Function.iterate_succ_apply]
    exact ih hle

/-- For every output, distance and length: a distance of zero or beyond the output is an error and leaves the output of the step as
it was; every other copy appends the bytes that appending the byte at the distance, again and again, appends. -/
theorem copy_bytewise (output : List UInt8) (distance length : Nat) :
    copyFromDistance output distance length =
      (if distance = 0 ∨ output.length < distance then
        .err (.invalidData ("too long backward reference: output_len=" ++ toString output.length ++ ", distance=" ++
          toString distance))
      else .ok ((appendBack distance)^[length] output)) ∧
    ∀ (env : StepEnv) (k : List UInt8 → Stepping), env.output = output →
      env.calling (copyFromDistance env.output distance length) k =
        if distance = 0 ∨ output.length < distance then
          (.err (.invalidData ("too long backward reference: output_len=" ++ toString output.length ++ ", distance=" ++
            toString distance)), env)
        else k ((appendBack distance)^[length] output) := by
  have hcopy : copyFromDistance output distance length =
      if distance = 0 ∨ output.length < distance then
        .err (.invalidData ("too long backward reference: output_len=" ++ toString output.length ++ ", distance=" ++
          toString distance))
      else .ok ((appendBack distance)^[length] output) := by
    by_cases hguard : distance = 0 ∨ output.length < distance
    · rw [copyFromDistance, if_pos hguard, if_pos hguard]
    · have h0 : 0 < distance := by omega
      have hle : distance ≤ output.length := by omega
      have hbytes := copyBytes_eq length h0 hle
      rw [copyBytes_eq_iterate length h0 hle] at hbytes
      rw [if_neg hguard, copyFromDistance_eq h0 hle, Option.some.inj hbytes]
  refine ⟨hcopy, ?_⟩
  intro env k henv
  rw [henv, hcopy]
  by_cases hguard : distance = 0 ∨ output.length < distance
  · rw [if_pos hguard, if_pos hguard]
    rfl
  · rw [if_neg hguard, if_neg hguard]
    rfl

/-! ## The tokens -/

namespace MatchFinder

/-- A match finder after it has been used for some inputs. -/
def usedFor (earlier : List (List UInt8)) : Exec MatchFinder :=
  earlier.foldlM (fun m input => do
    let result ← m.fillSymbols input
    .ok result.1) new

/-- Every use of a match finder succeeds and leaves it ready for the next. -/
theorem usedFor_wf (earlier : List (List UInt8)) : ∃ m, usedFor earlier = .ok m ∧ m.Wf := by
  have hrun : ∀ (earlier : List (List UInt8)) (m : MatchFinder), m.Wf → ∃ m', earlier.foldlM (fun m input => do
      let result ← m.fillSymbols input
      .ok result.1) m = Exec.ok m' ∧ m'.Wf := by
    intro earlier
    induction earlier with
    | nil =>
      intro m hm
      exact ⟨m, rfl, hm⟩
    | cons input earlier ih =>
      intro m hm
      obtain ⟨m₁, symbols, h1, h2, -⟩ := fillSymbols_spec hm input
      rw [List.foldlM_cons, h1, Exec.ok_bind, Exec.ok_bind]
      exact ih m₁ h2
  exact hrun earlier new new_wf

end MatchFinder

/-- A reference that copies something copies from inside the output. -/
theorem distance_le_of_expand {output output' : List UInt8} {length distance : Nat} (hlength : 0 < length)
    (h : Lz77Code.expand output (.pointer length distance) = some output') : distance ≤ output.length := by
  by_cases hreach : 0 < distance ∧ distance ≤ output.length
  · exact hreach.2
  · rw [Lz77Code.expand, copyBytes_none hlength hreach] at h
    cases h

/-- For every input, and for a match finder used for whatever inputs before: the call and all before it succeed, so that none of
their indices is out of range; the tokens expand to the input, every back-reference copied byte by byte out of the output so far; and
the length of every back-reference is from 3 to 258, its distance from 1 to 32768 and no more than what has been produced. -/
theorem fillSymbols_lossless (earlier : List (List UInt8)) (input : List UInt8) :
    ∃ m m' symbols, MatchFinder.usedFor earlier = .ok m ∧ m.fillSymbols input = .ok (m', symbols) ∧
      expand [] symbols = some input ∧
      ∀ front length distance back, symbols = front ++ .pointer length distance :: back →
        ∃ produced, expand [] front = some produced ∧ 3 ≤ length ∧ length ≤ 258 ∧
          1 ≤ distance ∧ distance ≤ min 32768 produced.length := by
  obtain ⟨m, hm, hwf⟩ := MatchFinder.usedFor_wf earlier
  obtain ⟨m', symbols, hfill, -, htokens⟩ := MatchFinder.fillSymbols_spec hwf input
  have hexpand : expand [] symbols = some input := htokens.expand_eq []
  refine ⟨m, m', symbols, hm, hfill, hexpand, ?_⟩
  rintro front length distance back rfl
  obtain ⟨h3, h258, h1, hwindow⟩ := htokens.in_range (.pointer length distance) (by simp)
  unfold expand at hexpand
  rw [List.foldlM_append] at hexpand
  obtain ⟨produced, hfront, hrest⟩ := Option.bind_eq_some_iff.mp hexpand
  rw [List.foldlM_cons] at hrest
  obtain ⟨output, hpointer, hback⟩ := Option.bind_eq_some_iff.mp hrest
  have hreach := distance_le_of_expand (Nat.lt_of_lt_of_le (by decide) h3) hpointer
  exact ⟨produced, hfront, h3, h258, h1, Nat.le_min.mpr ⟨hwindow, hreach⟩⟩

/-- For every input of less than `2 ^ 32 - 1` bytes, and for a match finder used for whatever inputs before: the tokens are those of
the plain greedy search. -/
theorem fillSymbols_greedy (earlier : List (List UInt8)) (input : List UInt8) (hlt : input.length < 2 ^ 32 - 1) :
    ∃ m m', MatchFinder.usedFor earlier = .ok m ∧ m.fillSymbols input = .ok (m', Greedy.tokens input) := by
  obtain ⟨m, hm, hwf⟩ := MatchFinder.usedFor_wf earlier
  obtain ⟨m', hfill⟩ := MatchFinder.fillSymbols_eq_tokens hwf hlt
  exact ⟨m, m', hm, hfill⟩

/-- A match that overlaps its own output, found by a match finder that has been used. -/
theorem fillSymbols_greedy_overlap :
    ∃ m m', MatchFinder.usedFor [[97, 97, 97]] = .ok m ∧
      m.fillSymbols [97, 97, 97, 97] = .ok (m', [.literal 97, .pointer 3 1]) :=
  fillSymbols_greedy [[97, 97, 97]] [97, 97, 97, 97] (by decide)

end Noflate
