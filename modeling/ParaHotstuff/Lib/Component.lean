import Mathlib.Data.List.Induction
import Mathlib.Order.Basic
import Mathlib.Tactic.Common

/-! Components that answer one call after another, and rules for whole sequences of calls. -/

namespace ParaHotstuff

/-- A component answers a call with a result and its next state, or throws. -/
structure Component (State Call Answer : Type) where
  answer : State → Call → Option (Answer × State)

namespace Component

variable {State Call Answer Observation : Type} (c : Component State Call Answer)

/-- The state after a call; a call that throws leaves it as it was. -/
def next (s : State) (call : Call) : State :=
  match c.answer s call with
  | some (_, s') => s'
  | none => s

/-- The state after a sequence of calls. -/
def after (s : State) : List Call → State
  | [] => s
  | call :: calls => after (c.next s call) calls

/-- The calls of a sequence, each with the state it finds. -/
def steps (s : State) : List Call → List (State × Call)
  | [] => []
  | call :: calls => (s, call) :: steps (c.next s call) calls

/-- What the calls of a sequence let an observer see, in order. -/
def observed (observe : State → Call → Option Observation) (s : State) (calls : List Call) :
    List Observation :=
  (c.steps s calls).filterMap fun step => observe step.1 step.2

variable {c}

@[simp] theorem next_of_answer {s s' : State} {call : Call} {a : Answer}
    (answered : c.answer s call = some (a, s')) : c.next s call = s' := by
  simp [next, answered]

@[simp] theorem next_of_throw {s : State} {call : Call} (thrown : c.answer s call = none) :
    c.next s call = s := by
  simp [next, thrown]

/-- Two sequences in a row lead where the second leads from the end of the first. -/
theorem after_append (s : State) (calls more : List Call) :
    c.after s (calls ++ more) = c.after (c.after s calls) more := by
  induction calls generalizing s with
  | nil => rfl
  | cons call calls ih => exact ih (c.next s call)

/-- Two sequences in a row let an observer see what each of them does. -/
theorem observed_append (observe : State → Call → Option Observation) (s : State)
    (calls more : List Call) :
    c.observed observe s (calls ++ more)
      = c.observed observe s calls ++ c.observed observe (c.after s calls) more := by
  induction calls generalizing s with
  | nil => rfl
  | cons call calls ih =>
    have rest := ih (c.next s call)
    simp only [observed, List.cons_append, steps, List.filterMap_cons, after] at rest ⊢
    -- The first call shows something or nothing.
    split
    · exact rest
    · rw [rest, List.cons_append]

/-- One more call is found in the state after the others. -/
theorem steps_concat (s : State) (calls : List Call) (call : Call) :
    c.steps s (calls ++ [call]) = c.steps s calls ++ [(c.after s calls, call)] := by
  induction calls generalizing s with
  | nil => rfl
  | cons first calls ih => exact congrArg ((s, first) :: ·) (ih (c.next s first))

/-- The state after one more call. -/
theorem after_concat (s : State) (calls : List Call) (call : Call) :
    c.after s (calls ++ [call]) = c.next (c.after s calls) call := after_append s calls [call]

/-- One more call adds what it lets an observer see. -/
theorem observed_concat (observe : State → Call → Option Observation) (s : State)
    (calls : List Call) (call : Call) :
    c.observed observe s (calls ++ [call])
      = c.observed observe s calls ++ (observe (c.after s calls) call).toList := by
  rw [observed_append]
  cases seen : observe (c.after s calls) call with
  | none => simp [observed, steps, seen]
  | some o => simp [observed, steps, seen]

/-- The steps of a sequence are its calls, each found after some of the calls before it. -/
theorem mem_steps {s : State} {calls : List Call} {step : State × Call} :
    step ∈ c.steps s calls ↔ ∃ before rest, calls = before ++ step.2 :: rest
      ∧ step.1 = c.after s before := by
  induction calls generalizing s with
  | nil => simp [steps]
  | cons call calls ih =>
    constructor
    · intro member
      rcases List.mem_cons.1 member with rfl | later
      · exact ⟨[], calls, rfl, rfl⟩
      · obtain ⟨before, rest, rfl, found⟩ := ih.1 later
        exact ⟨call :: before, rest, rfl, found⟩
    · rintro ⟨before, rest, split, found⟩
      cases before with
      | nil =>
        obtain ⟨rfl, rfl⟩ := List.cons.inj split
        exact List.mem_cons.2 (.inl (Prod.ext found rfl))
      | cons first before =>
        obtain ⟨rfl, rfl⟩ := List.cons.inj split
        exact List.mem_cons.2 (.inr (ih.2 ⟨before, rest, rfl, found⟩))

section Rules

variable {Inv : State → Prop}

/-- What every call keeps holds after every sequence of calls. -/
theorem invariant (step : ∀ s call, Inv s → Inv (c.next s call)) {s : State} (start : Inv s)
    (calls : List Call) : Inv (c.after s calls) := by
  induction calls generalizing s with
  | nil => exact start
  | cons call calls ih => exact ih (step s call start)

/-- What every call keeps holds wherever a call of the sequence begins. -/
theorem invariant_steps (step : ∀ s call, Inv s → Inv (c.next s call)) {s : State}
    (start : Inv s) {calls : List Call} {at' : State × Call} (member : at' ∈ c.steps s calls) :
    Inv at'.1 := by
  obtain ⟨before, _, _, found⟩ := mem_steps.1 member
  rw [found]
  exact invariant step start before

/-- What calls that meet a condition keep holds wherever a call of a sequence of such begins. -/
theorem invariant_meeting {meets : State → Call → Prop}
    (step : ∀ s call, meets s call → Inv s → Inv (c.next s call)) {s : State} (start : Inv s)
    {calls : List Call} (all : ∀ at' ∈ c.steps s calls, meets at'.1 at'.2) {at' : State × Call}
    (member : at' ∈ c.steps s calls) : Inv at'.1 := by
  induction calls generalizing s with
  | nil => cases member
  | cons call calls ih =>
    have first : meets s call := all (s, call) List.mem_cons_self
    rcases List.mem_cons.1 member with rfl | later
    · exact start
    · exact ih (step s call first start)
        (fun other rest => all other (List.mem_cons_of_mem _ rest)) later

/--
The rule of clocks.

If no call turns the clock back, and each observation carries the time of the state it was
made in and moves the clock on, then observations are made in the order of their times.
-/
theorem pairwise_of_clock {Time : Type} [Preorder Time] {clock : State → Time}
    {time : Observation → Time} {observe : State → Call → Option Observation} {s : State}
    {calls : List Call}
    (keeps : ∀ step ∈ c.steps s calls, clock step.1 ≤ clock (c.next step.1 step.2))
    (moves : ∀ step ∈ c.steps s calls, ∀ o, observe step.1 step.2 = some o →
      time o = clock step.1 ∧ clock step.1 < clock (c.next step.1 step.2)) :
    (c.observed observe s calls).Pairwise (time · < time ·)
      ∧ ∀ o ∈ c.observed observe s calls, clock s ≤ time o := by
  -- Whatever is observed later carries at least the time reached so far.
  induction calls generalizing s with
  | nil => exact ⟨List.Pairwise.nil, fun o member => by simp [observed, steps] at member⟩
  | cons call calls ih =>
    have here : (s, call) ∈ c.steps s (call :: calls) := List.mem_cons_self
    have within : ∀ step ∈ c.steps (c.next s call) calls, step ∈ c.steps s (call :: calls) :=
      fun step member => List.mem_cons_of_mem _ member
    obtain ⟨ordered, late⟩ := ih (fun step member => keeps step (within step member))
      fun step member => moves step (within step member)
    have on := keeps _ here
    cases seen : observe s call with
    | none =>
      have same : c.observed observe s (call :: calls)
          = c.observed observe (c.next s call) calls := by
        simp [observed, steps, seen]
      rw [same]
      exact ⟨ordered, fun o member => le_trans on (late o member)⟩
    | some first =>
      have same : c.observed observe s (call :: calls)
          = first :: c.observed observe (c.next s call) calls := by
        simp [observed, steps, seen]
      obtain ⟨now, forward⟩ := moves _ here first seen
      rw [same]
      refine ⟨List.pairwise_cons.2 ⟨fun o member => ?_, ordered⟩, fun o member => ?_⟩
      · rw [now]
        exact lt_of_lt_of_le forward (late o member)
      · rcases List.mem_cons.1 member with rfl | later
        · exact le_of_eq now.symm
        · exact le_trans on (late o later)

/-- What one call does to a number, and what it reports of it: nothing, a new number, or the old one. -/
structure Counts (size : State → Nat) (report : State → Call → Option Nat)
    (again : State → Call → Prop) (c : Component State Call Answer) : Prop where
  step : ∀ s call,
    (size (c.next s call) = size s ∧ (report s call).getD 0 = 0 ∧ ¬ again s call)
    ∨ (size (c.next s call) = size s + 1 ∧ report s call = some (size s + 1) ∧ ¬ again s call)
    ∨ (size (c.next s call) = size s ∧ size s ≠ 0 ∧ report s call = some (size s) ∧ again s call)

/-- A number that grows from 0 has been reported, and nothing beyond it. -/
theorem Counts.reported {size : State → Nat} {report : State → Call → Option Nat}
    {again : State → Call → Prop} (counts : Counts size report again c) {s : State}
    (empty : size s = 0) (calls : List Call) :
    (∀ n ∈ c.observed report s calls, n ≤ size (c.after s calls))
      ∧ (size (c.after s calls) ≠ 0 → size (c.after s calls) ∈ c.observed report s calls) := by
  induction calls using List.reverseRecOn with
  | nil => exact ⟨by simp [observed, steps], fun grown => absurd empty grown⟩
  | append_singleton calls call ih =>
    obtain ⟨below, last⟩ := ih
    rw [after_concat, observed_concat]
    rcases counts.step (c.after s calls) call with
      ⟨same, quiet, -⟩ | ⟨more, seen, -⟩ | ⟨same, -, seen, -⟩
    · rw [same]
      refine ⟨fun n member => ?_, fun grown => List.mem_append_left _ (last grown)⟩
      rcases List.mem_append.1 member with old | new
      · exact below n old
      · -- A report of a call that does not count is 0.
        rw [Option.mem_toList] at new
        rw [new] at quiet
        exact Nat.le_trans (Nat.le_of_eq quiet) (Nat.zero_le _)
    · rw [more, seen]
      refine ⟨fun n member => ?_, fun _ => by simp⟩
      rcases List.mem_append.1 member with old | new
      · exact Nat.le_succ_of_le (below n old)
      · exact Nat.le_of_eq (List.mem_singleton.1 new)
    · rw [same, seen]
      refine ⟨fun n member => ?_, fun grown => List.mem_append_left _ (last grown)⟩
      rcases List.mem_append.1 member with old | new
      · exact below n old
      · exact Nat.le_of_eq (List.mem_singleton.1 new)

/--
The rule of counts.

Where calls count up from 0, no number but 0 is reported twice exactly when no call reports the
old number again.
-/
theorem Counts.count_le_one_iff {size : State → Nat} {report : State → Call → Option Nat}
    {again : State → Call → Prop} (counts : Counts size report again c) {s : State}
    (empty : size s = 0) (calls : List Call) :
    (∀ k, 1 ≤ k → (c.observed report s calls).count k ≤ 1)
      ↔ ∀ step ∈ c.steps s calls, ¬ again step.1 step.2 := by
  -- Induction on the number of calls made, from the last one.
  induction calls using List.reverseRecOn with
  | nil => simp [observed, steps]
  | append_singleton calls call ih =>
    obtain ⟨below, last⟩ := counts.reported empty calls
    rw [observed_concat, steps_concat]
    simp only [List.mem_append, List.mem_singleton, or_imp, forall_and, forall_eq,
      List.count_append]
    rw [← ih]
    rcases counts.step (c.after s calls) call with
      ⟨-, quiet, fresh⟩ | ⟨-, seen, fresh⟩ | ⟨-, grown, seen, stale⟩
    · -- At most a 0 is added, which does not matter.
      have none_counted : ∀ k, 1 ≤ k → (report (c.after s calls) call).toList.count k = 0 := by
        intro k positive
        rw [List.count_eq_zero, Option.mem_toList]
        intro new
        rw [new] at quiet
        exact absurd (show k = 0 from quiet) (Nat.one_le_iff_ne_zero.1 positive)
      constructor
      · intro once
        exact ⟨fun k positive => Nat.le_trans (Nat.le_add_right _ _) (once k positive), fresh⟩
      · rintro ⟨once, -⟩ k positive
        rw [none_counted k positive]
        exact once k positive
    · rw [seen, Option.toList_some]
      constructor
      · intro once
        exact ⟨fun k positive => Nat.le_trans (Nat.le_add_right _ _) (once k positive), fresh⟩
      · rintro ⟨once, -⟩ k positive
        by_cases new : size (c.after s calls) + 1 = k
        · -- The new number is beyond all those reported before.
          have absent : k ∉ c.observed report s calls := fun old =>
            absurd (below k old) (by omega)
          rw [List.count_eq_zero.2 absent, new]
          simp
        · rw [List.count_singleton, if_neg (by simpa using new)]
          exact once k positive
    · -- The number reported again was reported when it was reached.
      rw [seen, Option.toList_some]
      constructor
      · intro once
        have twice := once _ (Nat.one_le_iff_ne_zero.2 grown)
        have before := List.one_le_count_iff.2 (last grown)
        rw [List.count_singleton_self] at twice
        omega
      · rintro ⟨-, fresh⟩
        exact absurd stale fresh

end Rules

end Component

end ParaHotstuff
