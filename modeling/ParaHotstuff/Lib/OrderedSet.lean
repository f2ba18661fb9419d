import Mathlib.Data.List.Basic
import Mathlib.Data.List.Nodup
import Mathlib.Tactic.Common

/-! Ordered sets as the lists of their elements, kept in order by insertion. -/

namespace ParaHotstuff

namespace OrderedSet

variable {α : Type} (lt : α → α → Bool)

/-- Insert an element in front of the first larger one; an equivalent element stays alone. -/
def insert (x : α) : List α → List α
  | [] => [x]
  | y :: ys => if lt x y then x :: y :: ys else if lt y x then y :: insert x ys else y :: ys

variable {lt} {x : α} {xs : List α}

/-- Insertion loses no element. -/
theorem mem_insert_of_mem {y : α} (member : y ∈ xs) : y ∈ insert lt x xs := by
  induction xs with
  | nil => simp at member
  | cons z zs ih =>
    unfold insert
    split
    · exact List.mem_cons_of_mem _ member
    · split
      · rcases List.mem_cons.1 member with rfl | later
        · simp
        · exact List.mem_cons_of_mem _ (ih later)
      · exact member

/-- Insertion permutes the new element into the set, or leaves the set as it is. -/
theorem insert_perm_or_eq : (insert lt x xs).Perm (x :: xs) ∨ insert lt x xs = xs := by
  induction xs with
  | nil => exact .inl (by simp [insert])
  | cons z zs ih =>
    unfold insert
    split
    · exact .inl (List.Perm.refl _)
    · split
      · rcases ih with moved | same
        · exact .inl ((moved.cons z).trans (List.Perm.swap x z zs))
        · exact .inr (by rw [same])
      · exact .inr rfl

/-- Only an equivalent element keeps a new one out. -/
theorem insert_perm_of_new (other : ∀ y ∈ xs, lt x y = true ∨ lt y x = true) :
    (insert lt x xs).Perm (x :: xs) := by
  -- At each element passed the new one is either put in front of it or goes on.
  induction xs with
  | nil => simp [insert]
  | cons z zs ih =>
    unfold insert
    split
    · exact List.Perm.refl _
    · rename_i later
      have before : lt z x = true := (other z (by simp)).resolve_left later
      rw [if_pos before]
      have rest := ih fun y member => other y (List.mem_cons_of_mem _ member)
      exact (rest.cons z).trans (List.Perm.swap x z zs)

/-- The set never becomes empty by inserting. -/
theorem insert_ne_nil : insert lt x xs ≠ [] := by
  cases xs with
  | nil => simp [insert]
  | cons z zs =>
    unfold insert
    split
    · simp
    · split <;> simp

end OrderedSet

end ParaHotstuff
