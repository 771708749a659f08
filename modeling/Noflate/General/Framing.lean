import Mathlib.Data.List.Basic

/-!
# Framed streams, one item at a time

A stream that is a header, a body that says itself where it ends, and a trailer that the meaning of the body determines. `Format`
describes such a format, and `Format.step` reads it one item at a time: so a reader that is fed in pieces can be compared with it
whatever the pieces are. `Format.run_done_iff` says which lists are read to the end.
-/

namespace Framing

/-- A format of framed streams over items `β`, whose header is read through states `η` and whose body means an `ο`. A step of the
header fails, completes it, or leads to another state. A body is bad, incomplete, or complete with a meaning, and stays so once it
is bad or complete. -/
structure Format (β η ο : Type) where
  start : η
  header : η → β → Option (Option η)
  body : List β → Option (Option ο)
  trailer : ο → List β
  body_nil : body [] = some none
  body_bad : ∀ {bs}, body bs = none → ∀ more, body (bs ++ more) = none
  body_complete : ∀ {bs o}, body bs = some (some o) → ∀ more, body (bs ++ more) = some (some o)
  trailer_ne_nil : ∀ o, trailer o ≠ []

/-- Where a reader stands: in the header, in the body, in the trailer, or behind it. -/
inductive Phase (β η ο : Type) where
  | header (h : η)
  | body (bs : List β)
  | trailer (o : ο) (bs : List β)
  | done (o : ο)

namespace Format

variable {β η ο : Type} [DecidableEq β] (F : Format β η ο)

/-- The phase behind a step of the header. -/
def behind : Option η → Phase β η ο
  | some h => .header h
  | none => .body []

/-- Read one item; an item may be bad. -/
def step : Phase β η ο → β → Option (Phase β η ο)
  | .header h, b => (F.header h b).map behind
  | .body bs, b =>
    match F.body (bs ++ [b]) with
    | none => none
    | some none => some (.body (bs ++ [b]))
    | some (some o) => some (.trailer o [])
  | .trailer o bs, b =>
    if (bs ++ [b]).length < (F.trailer o).length then some (.trailer o (bs ++ [b]))
    else if bs ++ [b] = F.trailer o then some (.done o)
    else none
  | .done _, _ => none

/-- Read items. -/
def run (p : Phase β η ο) (bs : List β) : Option (Phase β η ο) := bs.foldlM F.step p

@[simp] theorem run_nil (p : Phase β η ο) : F.run p [] = some p := rfl

theorem run_cons (p : Phase β η ο) (b : β) (bs : List β) : F.run p (b :: bs) = (F.step p b).bind fun p => F.run p bs := by
  unfold run
  rw [List.foldlM_cons, Option.bind_eq_bind]

theorem run_append (p : Phase β η ο) (as bs : List β) : F.run p (as ++ bs) = (F.run p as).bind fun p => F.run p bs := by
  unfold run
  rw [List.foldlM_append, Option.bind_eq_bind]

/-- Nothing is read behind the end. -/
theorem run_done {o : ο} {bs : List β} (h : bs ≠ []) : F.run (.done o) bs = none := by
  obtain ⟨b, bs, rfl⟩ := List.exists_cons_of_ne_nil h
  rfl

/-- A list is exactly a header, from a state on. -/
def IsHeader : η → List β → Prop
  | _, [] => False
  | h, b :: bs =>
    match F.header h b with
    | none => False
    | some none => bs = []
    | some (some h') => IsHeader h' bs

/-- A list is exactly a body with a meaning: it is complete, and no shorter one is. -/
structure IsBody (bs : List β) (o : ο) : Prop where
  complete : F.body bs = some (some o)
  shortest : ∀ short more, bs = short ++ more → more ≠ [] → F.body short = some none

/-- A list is exactly what is behind a step of the header. -/
def IsBehind (o : Option η) (bs : List β) : Prop :=
  match o with
  | none => bs = []
  | some h => F.IsHeader h bs

omit [DecidableEq β] in
theorem isHeader_cons {h : η} {b : β} {bs : List β} :
    F.IsHeader h (b :: bs) ↔ ∃ o, F.header h b = some o ∧ F.IsBehind o bs := by
  rw [IsHeader]
  cases F.header h b with
  | none => simp
  | some o =>
    cases o with
    | none => simp [IsBehind]
    | some h' => simp [IsBehind]

theorem run_header_cons (h : η) (b : β) (bs : List β) :
    F.run (.header h) (b :: bs) = ((F.header h b).map behind).bind fun p => F.run p bs := F.run_cons _ _ _

/-! ## Fields of a header -/

/-- States of the header that collect a number of items, and then look at them. -/
def Collects (state : List β → η) (k : Nat) (after : List β → Option (Option η)) : Prop :=
  ∀ pre b, pre.length < k → F.header (state pre) b =
    if (pre ++ [b]).length < k then some (some (state (pre ++ [b]))) else after (pre ++ [b])

/-- A state of the header that passes over items up to a last one. -/
def PassesTo (state : η) (z : β) (after : Option η) : Prop :=
  ∀ b, F.header state b = some (if b = z then after else some state)

section

variable {F} {state : List β → η} {k : Nat} {after : List β → Option (Option η)}

/-- Collecting fewer items than there are to be. -/
theorem Collects.run_lt (hc : F.Collects state k after) {pre piece : List β} (h : (pre ++ piece).length < k) :
    F.run (.header (state pre)) piece = some (.header (state (pre ++ piece))) := by
  induction piece generalizing pre with
  | nil => rw [List.append_nil, run_nil]
  | cons b piece ih =>
    rw [List.append_cons] at h ⊢
    have hshort : (pre ++ [b]).length < k := by
      rw [List.length_append] at h
      omega
    have hpre : pre.length < k := by
      rw [List.length_append] at hshort
      omega
    rw [run_header_cons, hc _ _ hpre, if_pos hshort]
    exact ih h

/-- Collecting the last of the items. -/
theorem Collects.run_eq (hc : F.Collects state k after) {pre piece : List β} (hpre : pre.length < k)
    (h : (pre ++ piece).length = k) : F.run (.header (state pre)) piece = (after (pre ++ piece)).map behind := by
  induction piece generalizing pre with
  | nil =>
    rw [List.append_nil] at h
    exact absurd hpre (Nat.not_lt.mpr (Nat.le_of_eq h.symm))
  | cons b piece ih =>
    rw [List.append_cons] at h ⊢
    rw [run_header_cons, hc _ _ hpre]
    by_cases hshort : (pre ++ [b]).length < k
    · rw [if_pos hshort]
      exact ih hshort h
    · have hnil : piece = [] := by
        rw [List.length_append] at h
        exact List.eq_nil_of_length_eq_zero (by omega)
      subst hnil
      rw [if_neg hshort, List.append_nil]
      cases after (pre ++ [b]) <;> rfl

omit [DecidableEq β] in
theorem Collects.isHeader_iff (hc : F.Collects state k after) {pre bs : List β} (hpre : pre.length < k) :
    F.IsHeader (state pre) bs ↔
      ∃ more rest o, bs = more ++ rest ∧ (pre ++ more).length = k ∧ after (pre ++ more) = some o ∧ F.IsBehind o rest := by
  induction bs generalizing pre with
  | nil =>
    constructor
    · exact fun h => h.elim
    · rintro ⟨more, rest, o, hbs, hlen, -⟩
      rw [(List.append_eq_nil_iff.mp hbs.symm).1, List.append_nil] at hlen
      exact absurd hpre (Nat.not_lt.mpr (Nat.le_of_eq hlen.symm))
  | cons b bs ih =>
    rw [isHeader_cons, hc _ _ hpre]
    -- the first item is the first of those that are collected
    have hcons : ∀ {more rest : List β}, b :: bs = more ++ rest → (pre ++ more).length = k →
        ∃ tail, more = b :: tail ∧ bs = tail ++ rest := by
      intro more rest hbs hlen
      cases more with
      | nil =>
        rw [List.append_nil] at hlen
        exact absurd hpre (Nat.not_lt.mpr (Nat.le_of_eq hlen.symm))
      | cons c tail =>
        obtain ⟨rfl, htail⟩ := List.cons.inj hbs
        exact ⟨tail, rfl, htail⟩
    by_cases hshort : (pre ++ [b]).length < k
    · simp only [if_pos hshort, Option.some.injEq, exists_eq_left', IsBehind]
      rw [ih hshort]
      constructor
      · rintro ⟨more, rest, o, rfl, hlen, hafter, hbehind⟩
        rw [← List.append_cons] at hlen hafter
        exact ⟨b :: more, rest, o, rfl, hlen, hafter, hbehind⟩
      · rintro ⟨more, rest, o, hbs, hlen, hafter, hbehind⟩
        obtain ⟨tail, rfl, htail⟩ := hcons hbs hlen
        rw [List.append_cons] at hlen hafter
        exact ⟨tail, rest, o, htail, hlen, hafter, hbehind⟩
    · rw [if_neg hshort]
      have hk : (pre ++ [b]).length = k := by
        rw [List.length_append, List.length_singleton] at hshort ⊢
        omega
      constructor
      · rintro ⟨o, hafter, hbehind⟩
        exact ⟨[b], bs, o, rfl, hk, hafter, hbehind⟩
      · rintro ⟨more, rest, o, hbs, hlen, hafter, hbehind⟩
        obtain ⟨tail, rfl, htail⟩ := hcons hbs hlen
        have hnil : tail = [] := by
          rw [List.append_cons, List.length_append, hk] at hlen
          exact List.eq_nil_of_length_eq_zero (by omega)
        subst hnil
        obtain rfl : bs = rest := htail
        exact ⟨o, hafter, hbehind⟩

end

section

variable {F} {state : η} {z : β} {after : Option η}

/-- Passing over items that are not the last one. -/
theorem PassesTo.run_notMem (hp : F.PassesTo state z after) {text : List β} (h : z ∉ text) :
    F.run (.header state) text = some (.header state) := by
  induction text with
  | nil => rfl
  | cons b text ih =>
    rw [List.mem_cons, not_or] at h
    rw [run_header_cons, hp, if_neg (Ne.symm h.1)]
    exact ih h.2

/-- Passing over items and the last one. -/
theorem PassesTo.run_last (hp : F.PassesTo state z after) {text : List β} (h : z ∉ text) :
    F.run (.header state) (text ++ [z]) = some (behind after) := by
  rw [run_append, hp.run_notMem h, Option.bind_some, run_header_cons, hp, if_pos rfl]
  rfl

theorem PassesTo.isHeader_iff (hp : F.PassesTo state z after) {bs : List β} :
    F.IsHeader state bs ↔ ∃ text rest, bs = text ++ [z] ++ rest ∧ z ∉ text ∧ F.IsBehind after rest := by
  induction bs with
  | nil =>
    constructor
    · exact fun h => h.elim
    · rintro ⟨text, rest, hbs, -⟩
      simp at hbs
  | cons b bs ih =>
    rw [isHeader_cons, hp]
    simp only [Option.some.injEq, exists_eq_left']
    by_cases hb : b = z
    · rw [if_pos hb, hb]
      constructor
      · intro h
        exact ⟨[], bs, rfl, List.not_mem_nil, h⟩
      · rintro ⟨text, rest, hbs, htext, h⟩
        cases text with
        | nil =>
          obtain rfl := (List.cons.inj hbs).2
          exact h
        | cons c text =>
          obtain ⟨rfl, -⟩ := List.cons.inj hbs
          exact absurd List.mem_cons_self htext
    · rw [if_neg hb]
      change F.IsHeader state bs ↔ _
      rw [ih]
      constructor
      · rintro ⟨text, rest, rfl, htext, h⟩
        refine ⟨b :: text, rest, rfl, ?_, h⟩
        rw [List.mem_cons, not_or]
        exact ⟨Ne.symm hb, htext⟩
      · rintro ⟨text, rest, hbs, htext, h⟩
        cases text with
        | nil => exact absurd (List.cons.inj hbs).1 hb
        | cons c text =>
          obtain ⟨rfl, htail⟩ := List.cons.inj hbs
          rw [List.mem_cons, not_or] at htext
          exact ⟨text, rest, htail, htext.2, h⟩

end

/-! ## Bodies in pieces -/

/-- A body that is still incomplete behind a piece: the piece is read. -/
theorem run_body_incomplete {bs more : List β} (h : F.body (bs ++ more) = some none) :
    F.run (.body bs) more = some (.body (bs ++ more)) := by
  induction more generalizing bs with
  | nil => rw [List.append_nil, run_nil]
  | cons b more ih =>
    rw [List.append_cons] at h ⊢
    have hb : F.body (bs ++ [b]) = some none := by
      cases hs : F.body (bs ++ [b]) with
      | none => rw [F.body_bad hs] at h; cases h
      | some o =>
        cases o with
        | none => rfl
        | some o => rw [F.body_complete hs] at h; cases h
    rw [run_cons, step, hb]
    exact ih h

/-- A body that a piece completes: the trailer follows. -/
theorem run_body_complete {bs more : List β} {o : ο} (h : F.IsBody (bs ++ more) o) (hne : more ≠ []) :
    F.run (.body bs) more = some (.trailer o []) := by
  induction more generalizing bs with
  | nil => exact absurd rfl hne
  | cons b more ih =>
    rw [List.append_cons] at h
    rw [run_cons, step]
    by_cases hm : more = []
    · subst hm
      rw [List.append_nil] at h
      rw [h.complete]
      rfl
    · rw [h.shortest _ _ rfl hm]
      exact ih h hm

/-! ## What is read to the end -/

/-- Less than a trailer. -/
theorem run_trailer_lt {o : ο} {bs rest : List β} (h : (bs ++ rest).length < (F.trailer o).length) :
    F.run (.trailer o bs) rest = some (.trailer o (bs ++ rest)) := by
  induction rest generalizing bs with
  | nil => rw [List.append_nil, run_nil]
  | cons b rest ih =>
    rw [List.append_cons] at h ⊢
    have hshort : (bs ++ [b]).length < (F.trailer o).length := by
      rw [List.length_append] at h
      omega
    rw [run_cons, step, if_pos hshort]
    exact ih h

/-- As much as a trailer. -/
theorem run_trailer_eq {o : ο} {bs rest : List β} (hlt : bs.length < (F.trailer o).length)
    (h : (bs ++ rest).length = (F.trailer o).length) :
    F.run (.trailer o bs) rest = if bs ++ rest = F.trailer o then some (.done o) else none := by
  rcases List.eq_nil_or_concat rest with rfl | ⟨front, b, rfl⟩
  · rw [List.append_nil] at h
    exact absurd hlt (Nat.not_lt.mpr (Nat.le_of_eq h.symm))
  · rw [List.concat_eq_append, ← List.append_assoc] at h ⊢
    have hfront : (bs ++ front).length < (F.trailer o).length := by
      rw [List.length_append, List.length_singleton] at h
      omega
    have hfull : ¬(bs ++ front ++ [b]).length < (F.trailer o).length := Nat.not_lt.mpr (Nat.le_of_eq h.symm)
    rw [run_append, F.run_trailer_lt hfront, Option.bind_some, run_cons, step, if_neg hfull]
    by_cases heq : bs ++ front ++ [b] = F.trailer o
    · rw [if_pos heq]
      rfl
    · rw [if_neg heq]
      rfl

/-- More than a trailer. -/
theorem run_trailer_gt {o : ο} {bs rest : List β} (hlt : bs.length < (F.trailer o).length)
    (h : (F.trailer o).length < (bs ++ rest).length) : F.run (.trailer o bs) rest = none := by
  rw [List.length_append] at h
  obtain ⟨b, more, hmore⟩ : ∃ b more, rest.drop ((F.trailer o).length - bs.length) = b :: more :=
    List.exists_cons_of_length_pos (by rw [List.length_drop]; omega)
  have hlen : (bs ++ rest.take ((F.trailer o).length - bs.length)).length = (F.trailer o).length := by
    rw [List.length_append, List.length_take]
    omega
  rw [← List.take_append_drop ((F.trailer o).length - bs.length) rest, run_append, F.run_trailer_eq hlt hlen, hmore]
  by_cases heq : bs ++ rest.take ((F.trailer o).length - bs.length) = F.trailer o
  · rw [if_pos heq]
    rfl
  · rw [if_neg heq]
    rfl

/-- What is read to the end from the trailer on is the trailer. -/
theorem run_trailer_nil_iff {o o' : ο} {rest : List β} :
    F.run (.trailer o []) rest = some (.done o') ↔ o = o' ∧ rest = F.trailer o := by
  have hlt : ([] : List β).length < (F.trailer o).length := List.length_pos_iff.mpr (F.trailer_ne_nil o)
  rcases Nat.lt_trichotomy rest.length (F.trailer o).length with h | h | h
  · have hshort : F.run (.trailer o []) rest = some (.trailer o rest) := F.run_trailer_lt h
    rw [hshort]
    constructor
    · exact fun h => nomatch h
    · rintro ⟨-, rfl⟩
      exact absurd h (Nat.lt_irrefl _)
  · rw [F.run_trailer_eq hlt h, List.nil_append]
    by_cases heq : rest = F.trailer o
    · rw [if_pos heq]
      simp only [Option.some.injEq, Phase.done.injEq, heq, and_true]
    · rw [if_neg heq]
      exact ⟨fun h => (nomatch h), fun h => absurd h.2 heq⟩
  · rw [F.run_trailer_gt hlt h]
    constructor
    · exact fun h => nomatch h
    · rintro ⟨-, rfl⟩
      exact absurd h (Nat.lt_irrefl _)

/-- What is read to the end from the body on is a body and its trailer. -/
theorem run_body_iff {bs rest : List β} {o : ο} (hbs : F.body bs = some none) :
    F.run (.body bs) rest = some (.done o) ↔ ∃ more, rest = more ++ F.trailer o ∧ F.body (bs ++ more) = some (some o) ∧
      ∀ short long, more = short ++ long → long ≠ [] → F.body (bs ++ short) = some none := by
  induction rest generalizing bs with
  | nil =>
    rw [run_nil]
    constructor
    · exact fun h => nomatch h
    · rintro ⟨more, h, -⟩
      exact absurd (List.append_eq_nil_iff.mp h.symm).2 (F.trailer_ne_nil o)
  | cons b rest ih =>
    rw [run_cons, step]
    constructor
    · intro h
      cases hs : F.body (bs ++ [b]) with
      | none => rw [hs] at h; cases h
      | some x =>
        cases x with
        | none =>
          rw [hs] at h
          obtain ⟨more, rfl, h1, h2⟩ := (ih hs).mp h
          refine ⟨b :: more, rfl, by rw [List.append_cons]; exact h1, fun short long heq hne => ?_⟩
          cases short with
          | nil => rw [List.append_nil]; exact hbs
          | cons c short =>
            obtain ⟨rfl, htail⟩ := List.cons.inj heq
            rw [List.append_cons]
            exact h2 _ _ htail hne
        | some o' =>
          rw [hs] at h
          obtain ⟨rfl, rfl⟩ := F.run_trailer_nil_iff.mp h
          refine ⟨[b], rfl, hs, fun short long heq hne => ?_⟩
          cases short with
          | nil => rw [List.append_nil]; exact hbs
          | cons c short =>
            have hnil := (List.append_eq_nil_iff.mp (List.cons.inj heq).2.symm).2
            exact absurd hnil hne
    · rintro ⟨more, hrest, h1, h2⟩
      cases more with
      | nil =>
        rw [List.append_nil, hbs] at h1
        cases h1
      | cons c more =>
        obtain ⟨rfl, rfl⟩ := List.cons.inj hrest
        rw [List.append_cons] at h1
        cases more with
        | nil =>
          rw [List.append_nil] at h1
          rw [h1]
          exact F.run_trailer_nil_iff.mpr ⟨rfl, rfl⟩
        | cons d more =>
          have hs : F.body (bs ++ [b]) = some none := h2 [b] _ rfl (List.cons_ne_nil _ _)
          rw [hs]
          refine (ih hs).mpr ⟨d :: more, rfl, h1, fun short long heq hne => ?_⟩
          rw [← List.append_cons]
          exact h2 _ _ (congrArg (b :: ·) heq) hne

/-- What is read to the end from the header on is the rest of a header, a body and its trailer. -/
theorem run_header_iff {h : η} {rest : List β} {o : ο} :
    F.run (.header h) rest = some (.done o) ↔
      ∃ header body, F.IsHeader h header ∧ F.IsBody body o ∧ rest = header ++ body ++ F.trailer o := by
  induction rest generalizing h with
  | nil =>
    rw [run_nil]
    constructor
    · exact fun h => nomatch h
    · rintro ⟨header, body, -, -, heq⟩
      exact absurd (List.append_eq_nil_iff.mp heq.symm).2 (F.trailer_ne_nil o)
  | cons b rest ih =>
    rw [run_cons, step]
    constructor
    · intro hr
      cases hs : F.header h b with
      | none => rw [hs] at hr; cases hr
      | some x =>
        rw [hs, Option.map_some, Option.bind_some] at hr
        cases x with
        | none =>
          obtain ⟨body, rfl, h1, h2⟩ := (F.run_body_iff F.body_nil).mp hr
          refine ⟨[b], body, ?_, ⟨h1, fun short long heq hne => ?_⟩, rfl⟩
          · rw [IsHeader, hs]
          · exact h2 _ _ heq hne
        | some h' =>
          obtain ⟨header, body, h1, h2, rfl⟩ := ih.mp hr
          refine ⟨b :: header, body, ?_, h2, rfl⟩
          rw [IsHeader, hs]
          exact h1
    · rintro ⟨header, body, h1, h2, heq⟩
      cases header with
      | nil => exact h1.elim
      | cons c header =>
        rw [List.cons_append, List.cons_append] at heq
        obtain ⟨rfl, rfl⟩ := List.cons.inj heq
        rw [IsHeader] at h1
        cases hs : F.header h b with
        | none => rw [hs] at h1; exact h1.elim
        | some x =>
          rw [hs] at h1
          rw [Option.map_some, Option.bind_some]
          cases x with
          | none =>
            simp only at h1
            subst h1
            exact (F.run_body_iff F.body_nil).mpr ⟨body, rfl, h2.complete, h2.shortest⟩
          | some h' => exact ih.mpr ⟨header, body, h1, h2, rfl⟩

/-- The lists that are read to the end are the headers with a body and its trailer. -/
theorem run_done_iff (bs : List β) (o : ο) :
    F.run (.header F.start) bs = some (.done o) ↔
      ∃ header body, F.IsHeader F.start header ∧ F.IsBody body o ∧ bs = header ++ body ++ F.trailer o :=
  F.run_header_iff

/-- A header is read up to the body. -/
theorem run_isHeader {h : η} {header : List β} (hheader : F.IsHeader h header) : F.run (.header h) header = some (.body []) := by
  induction header generalizing h with
  | nil => exact hheader.elim
  | cons b header ih =>
    obtain ⟨o, ho, hbehind⟩ := F.isHeader_cons.mp hheader
    rw [run_header_cons, ho, Option.map_some, Option.bind_some]
    cases o with
    | none =>
      obtain rfl : header = [] := hbehind
      rfl
    | some h' => exact ih hbehind

/-- A header and a body with a trailer that is not its own. -/
theorem run_wrong_trailer {header body other : List β} {o : ο} (hheader : F.IsHeader F.start header) (hbody : F.IsBody body o)
    (hlen : other.length = (F.trailer o).length) (hne : other ≠ F.trailer o) :
    F.run (.header F.start) (header ++ body ++ other) = none := by
  have hnil : body ≠ [] := by
    rintro rfl
    have hcomplete := hbody.complete
    rw [F.body_nil] at hcomplete
    cases hcomplete
  have hbody' : F.run (.body []) body = some (.trailer o []) := F.run_body_complete hbody hnil
  have hpos : ([] : List β).length < (F.trailer o).length := List.length_pos_iff.mpr (F.trailer_ne_nil o)
  rw [run_append, run_append, F.run_isHeader hheader, Option.bind_some, hbody', Option.bind_some, F.run_trailer_eq hpos hlen,
    List.nil_append, if_neg hne]

/-! ## Bad bodies -/

/-- The first bad item is met in the body. -/
inductive BodyBad : Phase β η ο → List β → Prop
  | here {bs more : List β} {b : β} (hbad : F.body (bs ++ [b]) = none) : BodyBad (.body bs) (b :: more)
  | later {p p' : Phase β η ο} {more : List β} {b : β} (hp : F.step p b = some p') (h : BodyBad p' more) : BodyBad p (b :: more)

section

variable {F} {p p' : Phase β η ο}

/-- A bad item is not read. -/
theorem BodyBad.run_eq {bs : List β} (h : F.BodyBad p bs) : F.run p bs = none := by
  induction h with
  | here hbad =>
    rw [run_cons, step, hbad]
    rfl
  | later hp h ih => rw [run_cons, hp, Option.bind_some, ih]

/-- Behind a piece that is read, the bad item is met in what follows. -/
theorem bodyBad_append_iff {piece rest : List β} (hp : F.run p piece = some p') :
    F.BodyBad p (piece ++ rest) ↔ F.BodyBad p' rest := by
  induction piece generalizing p with
  | nil =>
    obtain rfl := Option.some.inj hp
    exact Iff.rfl
  | cons b piece ih =>
    rw [run_cons] at hp
    obtain ⟨q, hq, hp⟩ := Option.bind_eq_some_iff.mp hp
    rw [← ih hp, List.cons_append]
    constructor
    · intro h
      cases h with
      | here hbad =>
        rw [step, hbad] at hq
        cases hq
      | later hq' h =>
        obtain rfl := Option.some.inj (hq.symm.trans hq')
        exact h
    · exact .later hq

/-- In a piece that is not read to its end, the bad item is met whatever follows. -/
theorem BodyBad.of_append {piece rest : List β} (h : F.BodyBad p (piece ++ rest)) (hp : F.run p piece = none) :
    F.BodyBad p piece := by
  induction piece generalizing p with
  | nil => cases hp
  | cons b piece ih =>
    rw [List.cons_append] at h
    cases h with
    | here hbad => exact .here hbad
    | later hq h =>
      rw [run_cons, hq, Option.bind_some] at hp
      exact .later hq (ih h hp)

/-- Behind the body there is no bad item of it. -/
theorem not_bodyBad_trailer (o : ο) (bs rest : List β) : ¬F.BodyBad (.trailer o bs) rest := by
  induction rest generalizing bs with
  | nil => exact nofun
  | cons b rest ih =>
    intro h
    cases h with
    | later hp h =>
      rw [step] at hp
      split at hp
      · obtain rfl := Option.some.inj hp
        exact ih _ h
      · split at hp
        · obtain rfl := Option.some.inj hp
          cases h with
          | later hp _ => cases hp
        · cases hp

/-- Behind the end neither. -/
theorem not_bodyBad_done (o : ο) (rest : List β) : ¬F.BodyBad (.done o) rest := by
  intro h
  cases h with
  | later hp _ => cases hp

/-- A body that was not complete is bad with more items exactly when its first bad item is among them. -/
theorem bodyBad_body_iff {bs rest : List β} (hbs : F.body bs = some none) :
    F.BodyBad (.body bs) rest ↔ F.body (bs ++ rest) = none := by
  induction rest generalizing bs with
  | nil =>
    rw [List.append_nil, hbs]
    constructor
    · intro h
      cases h
    · intro h
      cases h
  | cons b rest ih =>
    rw [List.append_cons]
    cases hb : F.body (bs ++ [b]) with
    | none => exact ⟨fun _ => F.body_bad hb rest, fun _ => .here hb⟩
    | some o =>
      have hstep : ∀ {q}, F.step (.body bs) b = some q → (F.BodyBad (.body bs) (b :: rest) ↔ F.BodyBad q rest) := by
        intro q hq
        have hone : F.run (.body bs) [b] = some q := by rw [run_cons, hq, Option.bind_some, run_nil]
        exact bodyBad_append_iff hone
      cases o with
      | none => rw [hstep (by rw [step, hb]), ih hb]
      | some o =>
        rw [hstep (by rw [step, hb]), F.body_complete hb]
        exact ⟨fun h => absurd h (not_bodyBad_trailer o [] rest), nofun⟩

/-- Items collected that are bad are met before the body. -/
theorem Collects.not_bodyBad {state : List β → η} {k : Nat} {after : List β → Option (Option η)} (hc : F.Collects state k after)
    {pre piece : List β} (hpre : pre.length < k) (h : (pre ++ piece).length = k) (hafter : after (pre ++ piece) = none)
    (rest : List β) : ¬F.BodyBad (.header (state pre)) (piece ++ rest) := by
  intro hbad
  have hnone : F.run (.header (state pre)) piece = none := by rw [hc.run_eq hpre h, hafter, Option.map_none]
  have hpiece := hbad.of_append hnone
  clear hbad hnone
  induction piece generalizing pre with
  | nil => cases hpiece
  | cons b piece ih =>
    rw [List.append_cons] at h hafter
    cases hpiece with
    | later hp hbad =>
      rw [step, hc _ _ hpre] at hp
      by_cases hshort : (pre ++ [b]).length < k
      · rw [if_pos hshort] at hp
        obtain rfl := Option.some.inj hp
        exact ih hshort h hafter hbad
      · have hnil : piece = [] := by
          rw [List.length_append] at h
          exact List.eq_nil_of_length_eq_zero (by omega)
        subst hnil
        cases hbad

/-- A bad body is met behind a header. -/
theorem bodyBad_header_iff {h : η} {bs : List β} :
    F.BodyBad (.header h) bs ↔ ∃ header body, F.IsHeader h header ∧ F.body body = none ∧ bs = header ++ body := by
  constructor
  · intro hbad
    induction bs generalizing h with
    | nil => cases hbad
    | cons b bs ih =>
      cases hbad with
      | later hp hbad =>
        rw [step] at hp
        obtain ⟨o, ho, rfl⟩ := Option.map_eq_some_iff.mp hp
        cases o with
        | none =>
          refine ⟨[b], bs, F.isHeader_cons.mpr ⟨none, ho, rfl⟩, ?_, rfl⟩
          exact (bodyBad_body_iff F.body_nil).mp hbad
        | some h' =>
          obtain ⟨header, body, h1, h2, rfl⟩ := ih hbad
          exact ⟨b :: header, body, F.isHeader_cons.mpr ⟨some h', ho, h1⟩, h2, rfl⟩
  · rintro ⟨header, body, h1, h2, rfl⟩
    exact (bodyBad_append_iff (F.run_isHeader h1)).mpr ((bodyBad_body_iff F.body_nil).mpr h2)

end

end Format

end Framing
