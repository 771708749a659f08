import Mathlib.Algebra.Group.Nat.Defs
import Mathlib.Data.List.Basic

/-!
# Errors, and how a call ends

`Error` is the error type of the library. A call of the library ends in one of four ways: it returns a value, it returns an
error, it panics (an `unreachable!` arm, an index out of range, an arithmetic overflow, a failed assertion), or it never
returns. `Exec` keeps the four apart, so that a statement that a call returns says that it neither panics nor loops.
-/

namespace Noflate

/-- Errors returned by the encoder and decoder. -/
inductive Error where
  | invalidData (message : String)
  | unsupported (message : String)
  deriving DecidableEq, Repr

/-- How a call ends: with a value, with an error, in a panic, or not at all (a loop that does not end). -/
inductive Exec (α : Type) where
  | ok (a : α)
  | err (e : Error)
  | panic
  | diverge
  deriving DecidableEq, Repr

namespace Exec

/-- The `?` operator: go on with the value, or end as the first call ended. -/
def bind {α β : Type} (x : Exec α) (f : α → Exec β) : Exec β :=
  match x with
  | .ok a => f a
  | .err e => .err e
  | .panic => .panic
  | .diverge => .diverge

instance : Monad Exec where
  pure := Exec.ok
  bind := Exec.bind

@[simp] theorem pure_eq {α : Type} (a : α) : (pure a : Exec α) = .ok a := rfl

@[simp] theorem ok_bind {α β : Type} (a : α) (f : α → Exec β) : (Exec.ok a >>= f) = f a := rfl

@[simp] theorem err_bind {α β : Type} (e : Error) (f : α → Exec β) : (Exec.err e >>= f) = .err e := rfl

@[simp] theorem panic_bind {α β : Type} (f : α → Exec β) : (Exec.panic >>= f) = .panic := rfl

@[simp] theorem diverge_bind {α β : Type} (f : α → Exec β) : (Exec.diverge >>= f) = .diverge := rfl

/-- A composed call that returns a value: its first part returned one, and the rest returned the result. -/
theorem bind_eq_ok {α β : Type} {x : Exec α} {f : α → Exec β} {b : β} :
    (x >>= f) = .ok b ↔ ∃ a, x = .ok a ∧ f a = .ok b := by
  cases x <;> simp

/-- The `?` operator on a call that leaves a state: the state, or how the call ended. -/
def leaving {σ : Type} (x : Exec Unit × σ) : Exec σ :=
  match x with
  | (.ok (), s) => .ok s
  | (.err e, _) => .err e
  | (.panic, _) => .panic
  | (.diverge, _) => .diverge

@[simp] theorem leaving_ok {σ : Type} (s : σ) : leaving (.ok (), s) = .ok s := rfl

@[simp] theorem leaving_err {σ : Type} (e : Error) (s : σ) : leaving (.err e, s) = .err e := rfl

/-- Whether a call returns a value that passes a test. -/
def returns {α : Type} (x : Exec α) (p : α → Bool) : Bool :=
  match x with
  | .ok a => p a
  | _ => false

theorem returns_iff {α : Type} {x : Exec α} {p : α → Bool} : x.returns p = true ↔ ∃ a, x = .ok a ∧ p a = true := by
  cases x <;> simp [returns]

/-- An index into a vector: a panic when it is out of range. -/
def index {α : Type} (xs : List α) (i : Nat) : Exec α :=
  match xs[i]? with
  | some a => .ok a
  | none => .panic

theorem index_of_lt {α : Type} {xs : List α} {i : Nat} (h : i < xs.length) : index xs i = .ok xs[i] := by
  simp [index, h]

theorem index_of_getElem? {α : Type} {xs : List α} {i : Nat} {a : α} (h : xs[i]? = some a) : index xs i = .ok a := by
  simp [index, h]

/-- An assignment to an index of a vector: a panic when it is out of range. -/
def assign {α : Type} (xs : List α) (i : Nat) (a : α) : Exec (List α) :=
  if i < xs.length then .ok (xs.set i a) else .panic

theorem assign_of_lt {α : Type} {xs : List α} {i : Nat} (a : α) (h : i < xs.length) :
    assign xs i a = .ok (xs.set i a) := by
  simp [assign, h]

/-- A sum of numbers of so many bits: a panic when it does not fit into them. -/
def checkedAdd (bits a b : Nat) : Exec Nat := if a + b < 2 ^ bits then .ok (a + b) else .panic

theorem checkedAdd_of_lt {bits a b : Nat} (h : a + b < 2 ^ bits) : checkedAdd bits a b = .ok (a + b) := if_pos h

end Exec

/-- The message of the error a read past the end of the input gives. -/
def eofMessage : String := "unexpected end of deflate stream"

/-- The error a read past the end of the input gives. -/
def eofError : Error := .invalidData eofMessage

end Noflate
