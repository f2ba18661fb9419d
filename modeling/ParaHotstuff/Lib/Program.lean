import Mathlib.Logic.Basic
import Mathlib.Tactic.Common

/-! Stateful programs that may stop for good, and the rules of their postconditions. -/

namespace ParaHotstuff

/-- How a program ends: with a result, or stopped for good; its effects stand either way. -/
inductive Outcome (σ α : Type) where
  | done (result : α) (state : σ)
  | halted (state : σ)

namespace Outcome

variable {σ α : Type}

/-- The state a program leaves behind, whether it returned or stopped. -/
def state : Outcome σ α → σ
  | done _ s => s
  | halted s => s

/-- The result, if the program returned one. -/
def result? : Outcome σ α → Option α
  | done a _ => some a
  | halted _ => none

/-- A program that returned is known by its result and the state it left. -/
theorem eq_done {outcome : Outcome σ α} {a : α} (returned : outcome.result? = some a) :
    outcome = .done a outcome.state := by
  cases outcome with
  | done result s =>
    obtain rfl : result = a := Option.some.inj returned
    rfl
  | halted s => cases returned

/-- Whether the program stopped without a result. -/
def stopped : Outcome σ α → Bool
  | done _ _ => false
  | halted _ => true

end Outcome

/-- A program over a state of type `σ` with a result of type `α`. -/
def Program (σ α : Type) : Type := σ → Outcome σ α

namespace Program

variable {σ α β : Type}

/-- Return a result and leave the state as it is. -/
def ret (a : α) : Program σ α := fun s => .done a s

/-- Run one program and hand its result to the next; a stopped program runs nothing further. -/
def andThen (p : Program σ α) (f : α → Program σ β) : Program σ β := fun s =>
  match p s with
  | .done a s' => f a s'
  | .halted s' => .halted s'

instance : Monad (Program σ) where
  pure := ret
  bind := andThen

/-- Read the state. -/
def read : Program σ σ := fun s => .done s s

/-- Replace the state by a function of it. -/
def update (f : σ → σ) : Program σ Unit := fun s => .done () (f s)

/-- Apply a function that returns a result together with the next state. -/
def call (f : σ → α × σ) : Program σ α := fun s => .done (f s).1 (f s).2

/-- Stop for good, keeping every effect so far. -/
def halt : Program σ α := fun s => .halted s

/-- Go on with a value that may be missing, or stop. -/
def ofOption : Option α → Program σ α
  | some a => ret a
  | none => halt

/-- After a program that returned, the next one goes on with its result from where it left. -/
theorem bind_of_done {p : Program σ α} {f : α → Program σ β} {s s' : σ} {a : α}
    (ended : p s = .done a s') : (p >>= f) s = f a s' := by
  change andThen p f s = f a s'
  unfold andThen
  rw [ended]

/-- What holds of a program's result and final state, and of the state if it stopped. -/
def Gives (p : Program σ α) (post : α → σ → Prop) (stop : σ → Prop) (s : σ) : Prop :=
  match p s with
  | .done a s' => post a s'
  | .halted s' => stop s'

/-- A program keeps a property of the state, also when it stops. -/
def Keeps (keep : σ → Prop) (p : Program σ α) : Prop :=
  ∀ s, keep s → p.Gives (fun _ => keep) keep s

section Rules

variable {post : α → σ → Prop} {next : β → σ → Prop} {stop : σ → Prop} {s : σ}

/-- Returning gives the postcondition of the returned value. -/
@[simp] theorem gives_pure (a : α) : Gives (pure a) post stop s ↔ post a s := Iff.rfl

/-- Running two programs in turn gives what the second one gives after the first. -/
@[simp] theorem gives_bind (p : Program σ α) (f : α → Program σ β) :
    Gives (p >>= f) next stop s ↔ p.Gives (fun a s' => (f a).Gives next stop s') stop s := by
  -- Both sides examine the outcome of the first program before anything else.
  change Gives (andThen p f) next stop s ↔ _
  unfold Gives andThen
  cases p s <;> rfl

/-- Reading hands the current state to the postcondition. -/
@[simp] theorem gives_read {post : σ → σ → Prop} : Gives read post stop s ↔ post s s := Iff.rfl

/-- An update hands the changed state to the postcondition. -/
@[simp] theorem gives_update {post : Unit → σ → Prop} (f : σ → σ) :
    Gives (update f) post stop s ↔ post () (f s) := Iff.rfl

/-- A call hands its result and the next state to the postcondition. -/
@[simp] theorem gives_call (f : σ → α × σ) :
    Gives (call f) post stop s ↔ post (f s).1 (f s).2 := Iff.rfl

/-- A program that stops gives the property of stopped states. -/
@[simp] theorem gives_halt : Gives (halt : Program σ α) post stop s ↔ stop s := Iff.rfl

/-- Going on with a value gives the postcondition of that value, if there is one. -/
theorem gives_ofOption {value : Option α} (present : ∀ a, value = some a → post a s)
    (missing : value = none → stop s) : (ofOption value).Gives post stop s := by
  cases value with
  | some a => exact present a rfl
  | none => exact missing rfl

@[simp] theorem gives_ofOption_some (a : α) :
    Gives (ofOption (some a)) post stop s ↔ post a s := Iff.rfl

@[simp] theorem gives_ofOption_none :
    Gives (ofOption (none : Option α)) post stop s ↔ stop s := Iff.rfl

/-- A conditional gives what the chosen branch gives. -/
theorem gives_ite {c : Prop} [Decidable c] {p q : Program σ α}
    (yes : c → p.Gives post stop s) (no : ¬ c → q.Gives post stop s) :
    (if c then p else q).Gives post stop s := by
  by_cases chosen : c
  · simpa [chosen] using yes chosen
  · simpa [chosen] using no chosen

/-- A weaker postcondition follows from a stronger one. -/
theorem Gives.mono {post' : α → σ → Prop} {stop' : σ → Prop} {p : Program σ α}
    (given : p.Gives post stop s) (weaker : ∀ a s', post a s' → post' a s')
    (weakerStop : ∀ s', stop s' → stop' s') : p.Gives post' stop' s := by
  unfold Gives at *
  cases ended : p s with
  | done a s' => simp only [ended] at given ⊢; exact weaker a s' given
  | halted s' => simp only [ended] at given ⊢; exact weakerStop s' given

/-- What a program gives in two ways it gives together. -/
theorem Gives.and {post' : α → σ → Prop} {stop' : σ → Prop} {p : Program σ α}
    (first : p.Gives post stop s) (second : p.Gives post' stop' s) :
    p.Gives (fun a s' => post a s' ∧ post' a s') (fun s' => stop s' ∧ stop' s') s := by
  unfold Gives at *
  cases ended : p s with
  | done a s' => simp only [ended] at first second ⊢; exact ⟨first, second⟩
  | halted s' => simp only [ended] at first second ⊢; exact ⟨first, second⟩

/-- After a program that keeps a property, the next one starts from a state with that property. -/
theorem Keeps.gives_bind {keep : σ → Prop} {p : Program σ α} {f : α → Program σ β}
    (kept : Keeps keep p) (start : keep s)
    (rest : ∀ a s', keep s' → (f a).Gives next keep s') :
    (p >>= f).Gives next keep s := by
  rw [Program.gives_bind]
  exact (kept s start).mono (fun a s' held => rest a s' held) (fun _ held => held)

end Rules

variable {keep : σ → Prop}

/-- Returning keeps every property. -/
theorem keeps_pure (a : α) : Keeps keep (pure a : Program σ α) := fun _ held => held

/-- Stopping keeps every property. -/
theorem keeps_halt : Keeps keep (halt : Program σ α) := fun _ held => held

/-- Two programs that each keep a property keep it in turn. -/
theorem Keeps.bind {p : Program σ α} {f : α → Program σ β}
    (first : Keeps keep p) (second : ∀ a, Keeps keep (f a)) : Keeps keep (p >>= f) :=
  fun _ held => first.gives_bind held fun a s' held' => second a s' held'

/-- Going on with a value that may be missing keeps every property. -/
theorem keeps_ofOption (value : Option α) : Keeps keep (ofOption value) := by
  cases value with
  | some a => exact keeps_pure a
  | none => exact keeps_halt

/-- A conditional keeps what both branches keep. -/
theorem keeps_ite {c : Prop} [Decidable c] {p q : Program σ α} (yes : c → Keeps keep p)
    (no : ¬ c → Keeps keep q) : Keeps keep (if c then p else q) :=
  fun s held => gives_ite (fun chosen => yes chosen s held) (fun other => no other s held)

/-- What a program gives, stopped or not, holds of the state it leaves. -/
theorem Gives.state {p : Program σ α} {s : σ} {left : σ → Prop}
    (given : p.Gives (fun _ => left) left s) : left (p s).state := by
  unfold Gives at given
  cases ended : p s with
  | done a s' => simpa only [ended, Outcome.state] using given
  | halted s' => simpa only [ended, Outcome.state] using given

/-- What holds of the state a program leaves is given, whether it stopped or not. -/
theorem gives_of_state {p : Program σ α} {s : σ} {left : σ → Prop} (holds : left (p s).state) :
    p.Gives (fun _ => left) left s := by
  unfold Gives
  cases ended : p s with
  | done a s' => simpa only [ended, Outcome.state] using holds
  | halted s' => simpa only [ended, Outcome.state] using holds

/-- The state a program leaves has every property the program keeps. -/
theorem Keeps.state {p : Program σ α} {s : σ} (kept : Keeps keep p) (held : keep s) :
    keep (p s).state :=
  (kept s held).state

section Laws

variable {σ α β : Type}

/-- Programs in a row may be grouped as one likes. -/
instance : LawfulMonad (Program σ) :=
  LawfulMonad.mk' _
    (fun p => by
      funext s
      change andThen p ret s = p s
      unfold andThen
      cases p s <;> rfl)
    (fun _ _ => rfl)
    (fun p f g => by
      funext s
      change andThen (andThen p f) g s = andThen p (fun a => andThen (f a) g) s
      unfold andThen
      cases p s <;> rfl)

/-- Whichever branch is taken, the rest comes after it. -/
theorem ite_bind {c : Prop} [Decidable c] (p q : Program σ α) (f : α → Program σ β) :
    (if c then p else q) >>= f = if c then p >>= f else q >>= f := by
  split <;> rfl

/-- It only matters how a program goes on from where its first part can end. -/
theorem bind_eq_of_gives {p : Program σ α} {f g : α → Program σ β} {s : σ}
    (same : p.Gives (fun a s' => f a s' = g a s') (fun _ => True) s) :
    (p >>= f) s = (p >>= g) s := by
  change andThen p f s = andThen p g s
  unfold Gives at same
  unfold andThen
  cases ended : p s with
  | done a s' =>
    rw [ended] at same
    exact same
  | halted s' => rfl

end Laws

end Program

end ParaHotstuff
