import Noflate.Decode
import Noflate.General.Resumable

/-!
# A decoder in use

A caller of the streaming decoder feeds compressed bytes, looks at the output and consumes it. `Session` is a decoder together with
what its caller has consumed so far; `Session.run` makes a sequence of calls. `Session.settle` is what a caller does at the end of
the input: drain the output and resume with empty feeds until an error, the end of the stream, or no further progress.
-/

namespace Noflate

/-- A call on a decoder, or on the encoder of a container. -/
inductive Call where
  | feed (data : List UInt8)
  | advance (n : Nat)
  deriving DecidableEq, Repr

/-- The bytes that calls feed. -/
def fedBytes (calls : List Call) : List UInt8 :=
  calls.flatMap fun
    | .feed data => data
    | .advance _ => []

/-- A decoder in use: the bytes its caller has consumed, and whether a call of `feed` has reported an error. -/
structure Session where
  decoder : Decoder
  taken : List UInt8
  failed : Bool

namespace Session

/-- A fresh decoder. -/
def start : Session := { decoder := Decoder.new, taken := [], failed := false }

/-- All the bytes the decoder has made available. -/
def output (s : Session) : List UInt8 := s.taken ++ s.decoder.unread

/-- Make a call. An error of `feed` is noted and the decoder is still there to be used; a panic is not. -/
def call (s : Session) : Call → Exec Session
  | .feed data =>
    match s.decoder.feed data with
    | (.ok (), d) => .ok { s with decoder := d }
    | (.err _, d) => .ok { s with decoder := d, failed := true }
    | (.panic, _) => .panic
    | (.diverge, _) => .diverge
  | .advance n => do
    let d ← s.decoder.advance n
    .ok { s with decoder := d, taken := s.taken ++ s.decoder.unread.take n }

/-- Make calls, one after the other. -/
def run : List Call → Session → Exec Session
  | [], s => .ok s
  | c :: calls, s => do
    let s ← s.call c
    run calls s

/-- The loop of `settle`. -/
def settleLoop : Nat → Session → Exec (Resumable.Verdict × Session)
  | 0, _ => .diverge
  | fuel + 1, s => do
    let s ← s.call (.advance s.decoder.unread.length)
    if s.failed then .ok (.failed, s)
    else if s.decoder.finished then .ok (.halted, s)
    else
      let beforeRemaining := s.decoder.remainingInput.length
      let s ← s.call (.feed [])
      if !s.failed && s.decoder.unread.isEmpty && s.decoder.remainingInput.length == beforeRemaining && !s.decoder.finished then
        .ok (.waiting, s)
      else settleLoop fuel s

/-- Drain the output and resume with empty feeds, until an error, the end of the stream, or no further progress. -/
def settle (s : Session) : Exec (Resumable.Verdict × Session) := settleLoop (s.decoder.driveFuel + 2) s

/-- The verdict and the whole output of a sequence of calls on a fresh decoder, settled at its end. -/
def outcome (calls : List Call) : Exec (Resumable.Verdict × List UInt8) := do
  let s ← run calls start
  let (verdict, s) ← s.settle
  .ok (verdict, s.output)

/-- A fresh decoder that is given a byte string and settled finishes, with an output and with nothing left over. -/
def FinishesOn (bytes output : List UInt8) : Prop :=
  ∃ s, (run [.feed bytes] start >>= settle) = .ok (.halted, s) ∧ s.decoder.finished = true ∧ s.decoder.remainingInput = [] ∧
    s.output = output

/-- A call that the decoder's contract allows: no feed after an error, none of any byte after the end of the stream, and no more
output consumed than there is. -/
def Permits (s : Session) : Call → Prop
  | .feed data => s.failed = false ∧ (s.decoder.finished = true → data = [])
  | .advance n => n ≤ s.decoder.unread.length

instance (s : Session) (c : Call) : Decidable (s.Permits c) :=
  match c with
  | .feed data => inferInstanceAs (Decidable (s.failed = false ∧ (s.decoder.finished = true → data = [])))
  | .advance n => inferInstanceAs (Decidable (n ≤ s.decoder.unread.length))

/-- Calls each of which has a property of the session it is made in. -/
def Along (P : Session → Call → Prop) : Session → List Call → Prop
  | _, [] => True
  | s, c :: calls =>
    P s c ∧
      match s.call c with
      | .ok s' => Along P s' calls
      | _ => True

/-- Calls that are permitted, each where it is made. -/
def Permitted : Session → List Call → Prop := Along Permits

/-- A call that, if it consumes output, consumes no more than there is. -/
def ConsumesInRange (s : Session) : Call → Prop
  | .feed _ => True
  | .advance n => n ≤ s.decoder.unread.length

instance (s : Session) (c : Call) : Decidable (s.ConsumesInRange c) :=
  match c with
  | .feed _ => inferInstanceAs (Decidable True)
  | .advance n => inferInstanceAs (Decidable (n ≤ s.decoder.unread.length))

/-- Calls of which every `advance` is in range, where it is made. -/
def InRange : Session → List Call → Prop := Along ConsumesInRange

theorem along_cons {P : Session → Call → Prop} {s : Session} {c : Call} {calls : List Call} :
    Along P s (c :: calls) ↔ P s c ∧ ∀ s', s.call c = .ok s' → Along P s' calls := by
  rw [Along]
  cases s.call c with
  | ok s' => simp
  | err e => simp
  | panic => simp
  | diverge => simp

/-- Whether calls have a property along the way can be computed. -/
def decidableAlong {P : Session → Call → Prop} (dec : ∀ s c, Decidable (P s c)) :
    (s : Session) → (calls : List Call) → Decidable (Along P s calls)
  | _, [] => .isTrue trivial
  | s, c :: calls =>
    match dec s c with
    | .isFalse h => .isFalse fun hp => h hp.1
    | .isTrue h =>
      match hc : s.call c with
      | .ok s' =>
        match decidableAlong dec s' calls with
        | .isTrue h' => .isTrue (along_cons.mpr ⟨h, fun s'' hs => by cases hc.symm.trans hs; exact h'⟩)
        | .isFalse h' => .isFalse fun hp => h' ((along_cons.mp hp).2 s' hc)
      | .err _ => .isTrue (along_cons.mpr ⟨h, fun s'' hs => nomatch hc.symm.trans hs⟩)
      | .panic => .isTrue (along_cons.mpr ⟨h, fun s'' hs => nomatch hc.symm.trans hs⟩)
      | .diverge => .isTrue (along_cons.mpr ⟨h, fun s'' hs => nomatch hc.symm.trans hs⟩)

instance (s : Session) (calls : List Call) : Decidable (Permitted s calls) := decidableAlong (fun _ _ => inferInstance) s calls

instance (s : Session) (calls : List Call) : Decidable (InRange s calls) := decidableAlong (fun _ _ => inferInstance) s calls

theorem run_nil (s : Session) : run [] s = .ok s := rfl

theorem run_cons (c : Call) (calls : List Call) (s : Session) : run (c :: calls) s = s.call c >>= run calls := rfl

theorem run_append (calls calls' : List Call) (s : Session) : run (calls ++ calls') s = run calls s >>= run calls' := by
  induction calls generalizing s with
  | nil => rfl
  | cons c calls ih =>
    rw [List.cons_append, run_cons, run_cons]
    cases s.call c with
    | ok s' =>
      simp only [Exec.ok_bind]
      exact ih s'
    | err e => rfl
    | panic => rfl
    | diverge => rfl

end Session

@[simp] theorem fedBytes_nil : fedBytes [] = [] := rfl

@[simp] theorem fedBytes_feed (data : List UInt8) (calls : List Call) :
    fedBytes (.feed data :: calls) = data ++ fedBytes calls := rfl

@[simp] theorem fedBytes_advance (n : Nat) (calls : List Call) : fedBytes (.advance n :: calls) = fedBytes calls := rfl

theorem fedBytes_append (calls calls' : List Call) : fedBytes (calls ++ calls') = fedBytes calls ++ fedBytes calls' := by
  simp [fedBytes]

end Noflate
