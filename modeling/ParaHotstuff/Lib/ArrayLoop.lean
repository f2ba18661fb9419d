import Mathlib.Tactic.Common

/-! Loops that go through an array by a number of elements that is kept apart from it. -/

namespace ParaHotstuff

variable {α β γ : Type}

/--
Go through elements of an array from one on, and gather something from each.

A visit returns, or goes on with what is gathered; the end of the loop makes a result of all. There
is no result once the loop reads past the array.
-/
def readFirst (array : List α) (visit : γ → α → β ⊕ γ) (finish : γ → β) :
    Nat → Nat → γ → Option β
  | 0, _, gathered => some (finish gathered)
  | left + 1, i, gathered => do
    -- Past the array there is no element, and so no result.
    let element ← array[i]?
    match visit gathered element with
    -- A visit may end the loop.
    | .inl result => some result
    | .inr gathered => readFirst array visit finish left (i + 1) gathered

variable {array : List α} {visit : γ → α → β ⊕ γ} {finish : γ → β}

/-- A loop over no more elements than there are has a result. -/
theorem readFirst_isSome {left i : Nat} (within : i + left ≤ array.length) (gathered : γ) :
    (readFirst array visit finish left i gathered).isSome = true := by
  -- Induction on the elements left; each is there.
  induction left generalizing i gathered with
  | zero => rfl
  | succ left ih =>
    have there : i < array.length := by omega
    unfold readFirst
    rw [List.getElem?_eq_getElem there, Option.bind_eq_bind, Option.bind_some]
    split
    · rfl
    · exact ih (by omega) _

/-- A loop that never returns early has a result only if all elements it goes through are there. -/
theorem readFirst_within {more : γ → α → γ} {left i : Nat} {gathered : γ} (here : i ≤ array.length)
    (ended : (readFirst array (fun g a => .inr (more g a)) finish left i gathered).isSome = true) :
    i + left ≤ array.length := by
  -- Induction on the elements left; no visit ends the loop, so the next one is read as well.
  induction left generalizing i gathered with
  | zero => exact here
  | succ left ih =>
    unfold readFirst at ended
    by_cases there : i < array.length
    · rw [List.getElem?_eq_getElem there, Option.bind_eq_bind, Option.bind_some] at ended
      have rest := ih there ended
      omega
    · rw [List.getElem?_eq_none (Nat.le_of_not_lt there)] at ended
      cases ended

/-- What such a loop gathers is gathered from the first elements in turn. -/
theorem readFirst_eq {more : γ → α → γ} {left i : Nat} (within : i + left ≤ array.length)
    (gathered : γ) : readFirst array (fun g a => .inr (more g a)) finish left i gathered
      = some (finish (((array.drop i).take left).foldl more gathered)) := by
  -- Induction on the elements left; the next one is the first of those that are not gathered yet.
  induction left generalizing i gathered with
  | zero => rfl
  | succ left ih =>
    have there : i < array.length := by omega
    unfold readFirst
    rw [List.getElem?_eq_getElem there, Option.bind_eq_bind, Option.bind_some]
    dsimp only
    rw [ih (by omega), List.drop_eq_getElem_cons there, List.take_succ_cons, List.foldl_cons]

end ParaHotstuff
