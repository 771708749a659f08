import Mathlib.Logic.Relation

/-!
# Resumable machines

A machine that reads a list of input items from the front and can be stopped wherever its input ends. One step from a state and
the input at hand either needs more input, fails, halts, or goes on to a next state with the input that is left. When what a
step does with some input it also does with more input (`Machine.Mono`), cutting the input into pieces changes nothing: the
states a run reaches are determined by all the input together, and so is where and how it stops (`Machine.stop_unique`).
-/

namespace Resumable

/-- What a step does: it needs more input, fails, halts, or goes on. -/
inductive Next (σ β : Type) where
  | more
  | fail
  | halt
  | next (s : σ) (rest : List β)

/-- The step with more input behind what it left. -/
def Next.append {σ β : Type} (x : List β) : Next σ β → Next σ β
  | .more => .more
  | .fail => .fail
  | .halt => .halt
  | .next s rest => .next s (rest ++ x)

/-- How a run stopped: for want of input, in a failure, or at the end. -/
inductive Verdict where
  | waiting
  | failed
  | halted
  deriving DecidableEq, Repr

/-- The verdict of a step that does not go on. -/
def Next.verdict {σ β : Type} : Next σ β → Option Verdict
  | .more => some .waiting
  | .fail => some .failed
  | .halt => some .halted
  | .next _ _ => none

/-- A machine is its step function. -/
structure Machine (σ β : Type) where
  step : σ → List β → Next σ β

namespace Machine

variable {σ β : Type} (m : Machine σ β)

/-- The machine goes on from one state and its input to the next. -/
def Moves (c c' : σ × List β) : Prop := m.step c.1 c.2 = .next c'.1 c'.2

/-- The machine gets from one state and its input to another in any number of steps. -/
def Runs : σ × List β → σ × List β → Prop := Relation.ReflTransGen m.Moves

/-- The machine gets from one state and its input to another by moves that all start inside a set of places. -/
def RunsWithin (P : σ × List β → Prop) : σ × List β → σ × List β → Prop :=
  Relation.ReflTransGen (fun a b => P a ∧ m.Moves a b)

/-- The machine stops in a state with its input, with a verdict. -/
def Stops (c : σ × List β) (v : Verdict) : Prop := (m.step c.1 c.2).verdict = some v

/-- A step that does not want for input does the same when more input, of an admissible kind, is behind it. -/
def Mono (admissible : List β → Prop) : Prop :=
  ∀ s bs x, admissible x → ¬m.Stops (s, bs) .waiting → m.step s (bs ++ x) = (m.step s bs).append x

variable {m}

theorem Runs.refl (c : σ × List β) : m.Runs c c := Relation.ReflTransGen.refl

theorem Runs.trans {a b c : σ × List β} (h : m.Runs a b) (h' : m.Runs b c) : m.Runs a c :=
  Relation.ReflTransGen.trans h h'

theorem Runs.single {a b : σ × List β} (h : m.Moves a b) : m.Runs a b := Relation.ReflTransGen.single h

theorem Runs.head {a b c : σ × List β} (h : m.Moves a b) (h' : m.Runs b c) : m.Runs a c :=
  Relation.ReflTransGen.head h h'

theorem Runs.tail {a b c : σ × List β} (h : m.Runs a b) (h' : m.Moves b c) : m.Runs a c :=
  Relation.ReflTransGen.tail h h'

/-- The machine is deterministic. -/
theorem Moves.unique {a b c : σ × List β} (h : m.Moves a b) (h' : m.Moves a c) : b = c := by
  unfold Moves at h h'
  rw [h] at h'
  simp only [Next.next.injEq] at h'
  exact Prod.ext h'.1 h'.2

/-- A stopped machine does not move. -/
theorem Stops.not_moves {a b : σ × List β} {v : Verdict} (h : m.Stops a v) : ¬m.Moves a b := by
  intro hm
  unfold Stops at h
  rw [hm] at h
  cases h

/-- A run from a stopped machine stays there. -/
theorem Stops.runs_eq {a b : σ × List β} {v : Verdict} (h : m.Stops a v) (hr : m.Runs a b) : b = a := by
  rcases Relation.ReflTransGen.cases_head hr with rfl | ⟨c, hc, -⟩
  · rfl
  · exact absurd hc h.not_moves

/-- Of two runs from one place, one is the beginning of the other. -/
theorem Runs.linear {a b c : σ × List β} (h : m.Runs a b) (h' : m.Runs a c) : m.Runs b c ∨ m.Runs c b :=
  Relation.ReflTransGen.total_of_right_unique (fun _ _ _ => Moves.unique) h h'

/-- A run that passes through a place and stops: it stops from there too. -/
theorem Runs.to_stop {a b c : σ × List β} {v : Verdict} (h : m.Runs a b) (h' : m.Runs a c) (hv : m.Stops c v) :
    m.Runs b c := by
  rcases h.linear h' with hbc | hcb
  · exact hbc
  · rw [hv.runs_eq hcb]
    exact Runs.refl c

/-- Where and how a run stops is determined. -/
theorem stop_unique {a b c : σ × List β} {v v' : Verdict} (h : m.Runs a b) (hb : m.Stops b v) (h' : m.Runs a c)
    (hc : m.Stops c v') : b = c ∧ v = v' := by
  have he : c = b := hb.runs_eq (h.to_stop h' hc)
  subst he
  unfold Stops at hb hc
  rw [hb, Option.some.injEq] at hc
  exact ⟨rfl, hc⟩

section Within

variable {P : σ × List β → Prop}

theorem RunsWithin.refl (c : σ × List β) : m.RunsWithin P c c := Relation.ReflTransGen.refl

theorem RunsWithin.trans {a b c : σ × List β} (h : m.RunsWithin P a b) (h' : m.RunsWithin P b c) : m.RunsWithin P a c :=
  Relation.ReflTransGen.trans h h'

theorem RunsWithin.single {a b : σ × List β} (ha : P a) (h : m.Moves a b) : m.RunsWithin P a b :=
  Relation.ReflTransGen.single ⟨ha, h⟩

theorem RunsWithin.head {a b c : σ × List β} (ha : P a) (h : m.Moves a b) (h' : m.RunsWithin P b c) : m.RunsWithin P a c :=
  Relation.ReflTransGen.head ⟨ha, h⟩ h'

theorem RunsWithin.runs {a b : σ × List β} (h : m.RunsWithin P a b) : m.Runs a b := by
  induction h with
  | refl => exact Runs.refl _
  | tail _ hmove ih => exact ih.tail hmove.2

/-- A run inside a set is one inside any larger set. -/
theorem RunsWithin.mono {P' : σ × List β → Prop} (hP : ∀ c, P c → P' c) {a b : σ × List β} (h : m.RunsWithin P a b) :
    m.RunsWithin P' a b := by
  induction h with
  | refl => exact RunsWithin.refl _
  | tail _ hmove ih => exact ih.trans (RunsWithin.single (hP _ hmove.1) hmove.2)

/-- A run inside a set that ended outside it, or where the machine stops, does not go on. -/
theorem RunsWithin.stuck {a b : σ × List β} (ha : P a → ∃ v, m.Stops a v) (h : m.RunsWithin P a b) : b = a := by
  rcases Relation.ReflTransGen.cases_head h with rfl | ⟨c, ⟨hp, hc⟩, -⟩
  · rfl
  · obtain ⟨v, hv⟩ := ha hp
    exact absurd hc hv.not_moves

/-- A run inside a set that passes through a place and cannot go on: it gets there from that place too. -/
theorem RunsWithin.to_end {a b c : σ × List β} (h : m.RunsWithin P a b) (h' : m.RunsWithin P a c)
    (hc : P c → ∃ v, m.Stops c v) : m.RunsWithin P b c := by
  rcases Relation.ReflTransGen.total_of_right_unique (fun _ _ _ h₁ h₂ => Moves.unique h₁.2 h₂.2) h h' with hbc | hcb
  · exact hbc
  · rw [RunsWithin.stuck hc hcb]
    exact RunsWithin.refl c

/-- A run inside a set that passes through a place and stops: it does so from there too. -/
theorem RunsWithin.to_stop {a b c : σ × List β} {v : Verdict} (h : m.RunsWithin P a b) (h' : m.RunsWithin P a c)
    (hv : m.Stops c v) : m.RunsWithin P b c :=
  h.to_end h' fun _ => ⟨v, hv⟩

/-- Two runs from one place that can neither go on are the same: each ended outside the set, or where the machine stops. -/
theorem RunsWithin.end_unique {a b c : σ × List β} (h : m.RunsWithin P a b) (hb : P b → ∃ v, m.Stops b v)
    (h' : m.RunsWithin P a c) (hc : P c → ∃ v, m.Stops c v) : b = c :=
  (RunsWithin.stuck hb (h.to_end h' hc)).symm

/-! ### Testing the places of a run -/

variable (m) in
/-- Go through a run inside a set move by move, for a number of moves, and test each place on it. -/
def tests (P Q : σ × List β → Prop) [DecidablePred P] [DecidablePred Q] : Nat → σ × List β → Bool
  | 0, _ => false
  | fuel + 1, c =>
    decide (Q c) &&
      if P c then
        match m.step c.1 c.2 with
        | .next s rest => tests P Q fuel (s, rest)
        | _ => true
      else true

variable {Q : σ × List β → Prop} [DecidablePred P] [DecidablePred Q]

/-- A test that went through holds of every place. -/
theorem holds_of_tests {fuel : Nat} {a b : σ × List β} (h : m.tests P Q fuel a = true) (hr : m.RunsWithin P a b) : Q b := by
  induction fuel generalizing a with
  | zero => cases h
  | succ fuel ih =>
    rw [tests, Bool.and_eq_true, decide_eq_true_iff] at h
    rcases Relation.ReflTransGen.cases_head hr with rfl | ⟨c, ⟨hp, hmove⟩, hrest⟩
    · exact h.1
    · have hstep : m.step a.1 a.2 = .next c.1 c.2 := hmove
      rw [if_pos hp, hstep] at h
      exact ih h.2 hrest

/-- What holds of every place of a run that ends is found by a test of enough moves. -/
theorem tests_of_holds {a b : σ × List β} (hr : m.RunsWithin P a b) (hb : P b → ∃ v, m.Stops b v)
    (h : ∀ c, m.RunsWithin P a c → Q c) : ∃ fuel, m.tests P Q fuel a = true := by
  induction hr using Relation.ReflTransGen.head_induction_on with
  | refl =>
    refine ⟨1, ?_⟩
    rw [tests, decide_eq_true (h _ (RunsWithin.refl _)), Bool.true_and]
    split
    · rename_i hp
      obtain ⟨v, hv⟩ := hb hp
      split
      · rename_i s rest hstep
        have hmove : m.Moves _ (s, rest) := hstep
        exact absurd hmove hv.not_moves
      · rfl
    · rfl
  | head hmove hrest ih =>
    obtain ⟨fuel, hfuel⟩ := ih fun c hc => h c (RunsWithin.head hmove.1 hmove.2 hc)
    refine ⟨fuel + 1, ?_⟩
    have hstep := hmove.2
    unfold Moves at hstep
    rw [tests, decide_eq_true (h _ (RunsWithin.refl _)), Bool.true_and, if_pos hmove.1, hstep]
    exact hfuel

end Within

section Mono

variable {admissible : List β → Prop}

/-- A move is still made with more input behind it. -/
theorem Moves.append (hm : m.Mono admissible) {a b : σ × List β} (h : m.Moves a b) {x : List β} (hx : admissible x) :
    m.Moves (a.1, a.2 ++ x) (b.1, b.2 ++ x) := by
  have hn : ¬m.Stops a .waiting := fun hs => hs.not_moves h
  unfold Moves at h ⊢
  rw [hm a.1 a.2 x hx hn, h, Next.append]

/-- A run is still made with more input behind it. -/
theorem Runs.append (hm : m.Mono admissible) {a b : σ × List β} (h : m.Runs a b) {x : List β} (hx : admissible x) :
    m.Runs (a.1, a.2 ++ x) (b.1, b.2 ++ x) := by
  induction h with
  | refl => exact Runs.refl _
  | tail _ hmove ih => exact Runs.tail ih (hmove.append hm hx)

/-- A run inside a set is still made with more input behind it, if the set does not look at the input. -/
theorem RunsWithin.append {P : σ × List β → Prop} (hm : m.Mono admissible) {a b : σ × List β} (h : m.RunsWithin P a b)
    {x : List β} (hx : admissible x) (hP : ∀ c, P c → P (c.1, c.2 ++ x)) :
    m.RunsWithin P (a.1, a.2 ++ x) (b.1, b.2 ++ x) := by
  induction h with
  | refl => exact RunsWithin.refl _
  | tail _ hmove ih => exact ih.trans (RunsWithin.single (hP _ hmove.1) (hmove.2.append hm hx))

/-- A machine that failed or halted does so with more input behind it. -/
theorem Stops.append (hm : m.Mono admissible) {a : σ × List β} {v : Verdict} (h : m.Stops a v) (hv : v ≠ .waiting)
    {x : List β} (hx : admissible x) : m.Stops (a.1, a.2 ++ x) v := by
  have hn : ¬m.Stops a .waiting := by
    intro hs
    unfold Stops at h hs
    rw [h, Option.some.injEq] at hs
    exact hv hs
  have hstep := hm a.1 a.2 x hx hn
  unfold Stops at h ⊢
  rw [hstep]
  cases hs : m.step a.1 a.2 with
  | more => rw [hs] at h; exact h
  | fail => rw [hs] at h; exact h
  | halt => rw [hs] at h; exact h
  | next s rest => rw [hs] at h; cases h

end Mono

/-- A property that every move keeps is kept by a run. -/
theorem Runs.invariant {P : σ × List β → Prop} (hstep : ∀ a b, m.Moves a b → P a → P b) {a b : σ × List β}
    (h : m.Runs a b) (ha : P a) : P b := by
  induction h with
  | refl => exact ha
  | tail _ hmove ih => exact hstep _ _ hmove ih

end Machine

end Resumable
