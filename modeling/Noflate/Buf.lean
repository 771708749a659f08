import Noflate.Error
import Mathlib.Order.Basic
import Mathlib.Algebra.Order.Group.Nat

/-!
# The internal buffer

A byte vector that is appended to at the end and consumed from the front. The consumed prefix stays in the vector until the
vector is empty or, on an append, longer than a threshold. What is read is `Buf.get`; the lemmas below say that compacting is
not seen there.
-/

namespace Noflate

/-- A buffer: the bytes and how many of them have been consumed. -/
structure Buf where
  bytes : List UInt8
  offset : Nat
  offset_le : offset ≤ bytes.length

namespace Buf

/-- Compact an append once the underlying vector exceeds this size. -/
def compactThreshold : Nat := 1024 * 1024

/-- The empty buffer. -/
def new : Buf := ⟨[], 0, le_rfl⟩

/-- The bytes not consumed yet. -/
def get (b : Buf) : List UInt8 := b.bytes.drop b.offset

/-- Drop the consumed prefix once the vector is over the threshold. -/
def maybeCompact (b : Buf) : Buf :=
  if compactThreshold < b.bytes.length ∧ 0 < b.offset then ⟨b.bytes.drop b.offset, 0, Nat.zero_le _⟩ else b

/-- Append bytes. -/
def feed (b : Buf) (buf : List UInt8) : Buf :=
  maybeCompact ⟨b.bytes ++ buf, b.offset, by
    rw [List.length_append]
    exact b.offset_le.trans (Nat.le_add_right _ _)⟩

/-- Consume `n` bytes; consuming more than there are is a failed assertion. -/
def advance (b : Buf) (n : Nat) : Exec Buf :=
  if h : b.offset + n ≤ b.bytes.length then
    if b.offset + n = b.bytes.length then .ok new else .ok ⟨b.bytes, b.offset + n, h⟩
  else .panic

@[simp] theorem get_new : new.get = [] := rfl

@[simp] theorem get_maybeCompact (b : Buf) : b.maybeCompact.get = b.get := by
  rw [maybeCompact]
  split
  · rfl
  · rfl

@[simp] theorem get_feed (b : Buf) (buf : List UInt8) : (b.feed buf).get = b.get ++ buf := by
  rw [feed, get_maybeCompact, get, get, List.drop_append_of_le_length b.offset_le]

theorem length_get (b : Buf) : b.get.length = b.bytes.length - b.offset := by
  rw [get, List.length_drop]

/-- Consuming bytes that are there drops them from what is read. -/
theorem advance_ok {b : Buf} {n : Nat} (h : n ≤ b.get.length) : ∃ b', b.advance n = .ok b' ∧ b'.get = b.get.drop n := by
  have hle : b.offset + n ≤ b.bytes.length := by
    rw [length_get] at h
    have := b.offset_le
    omega
  rw [advance, dif_pos hle]
  by_cases he : b.offset + n = b.bytes.length
  · refine ⟨new, if_pos he, ?_⟩
    rw [get_new, get, List.drop_drop, he, List.drop_length]
  · refine ⟨_, if_neg he, ?_⟩
    rw [get, get, List.drop_drop]

/-- Consuming that comes back: the bytes are there. -/
theorem le_of_advance {b b' : Buf} {n : Nat} (h : b.advance n = .ok b') : n ≤ b.get.length ∧ b'.get = b.get.drop n := by
  have hle : n ≤ b.get.length := by
    rw [advance] at h
    split at h
    · rename_i hn
      rw [length_get]
      omega
    · cases h
  obtain ⟨b'', h1, h2⟩ := advance_ok hle
  obtain rfl := Exec.ok.inj (h.symm.trans h1)
  exact ⟨hle, h2⟩

end Buf

end Noflate
