import Mathlib

/-! What many things contain together, added up group by group. -/

namespace ParaHotstuff

namespace Tally

variable {α : Type}

/-- Some of the things contain no more than all of them. -/
theorem sum_le_of_subperm {f : α → Nat} {xs ys : List α} (some_of : xs.Subperm ys) :
    (xs.map f).sum ≤ (ys.map f).sum := by
  -- In the right order they are a sublist.
  obtain ⟨zs, moved, within⟩ := some_of
  rw [← (moved.map f).sum_eq]
  exact (within.map f).sum_le_sum fun x _ => Nat.zero_le x

/-- Things that lie in numbered groups contain what the groups contain one by one. -/
theorem sum_by_group (g f : α → Nat) {n : Nat} {xs : List α} (within : ∀ x ∈ xs, g x < n) :
    (xs.map f).sum = ∑ i ∈ Finset.range n, ((xs.filter fun x => g x = i).map f).sum := by
  induction xs with
  | nil => simp
  | cons x xs ih =>
    -- The first thing counts in its own group only.
    have group : ∀ i, (((x :: xs).filter fun x => g x = i).map f).sum
        = (if g x = i then f x else 0) + ((xs.filter fun x => g x = i).map f).sum := by
      intro i
      by_cases here : g x = i <;> simp [here]
    simp only [group, Finset.sum_add_distrib, Finset.sum_ite_eq, List.map_cons, List.sum_cons]
    rw [if_pos (Finset.mem_range.2 (within x List.mem_cons_self)),
      ih fun y member => within y (List.mem_cons_of_mem _ member)]

/-- Different things that lie in groups, apart from those that contain nothing. -/
theorem sum_le_groups [DecidableEq α] {f : α → Nat} {xs : List α} (distinct : xs.Nodup) {n : Nat}
    {g : α → Nat} (within : ∀ x ∈ xs, g x < n) {groups : Nat → List α}
    (member : ∀ x ∈ xs, f x ≠ 0 → x ∈ groups (g x)) :
    (xs.map f).sum ≤ ∑ i ∈ Finset.range n, ((groups i).map f).sum := by
  -- Only the things that contain something count.
  have some_there : (xs.map f).sum = ((xs.filter fun x => f x ≠ 0).map f).sum := by
    clear distinct within member
    induction xs with
    | nil => rfl
    | cons x xs ih => by_cases nothing : f x = 0 <;> simp [nothing, ih]
  rw [some_there, sum_by_group g f fun x there => within x (List.mem_filter.1 there).1]
  refine Finset.sum_le_sum fun i _ => sum_le_of_subperm (List.subperm_of_subset ?_ fun x there => ?_)
  · exact (distinct.filter _).filter _
  · simp only [List.mem_filter, decide_eq_true_eq] at there
    obtain ⟨⟨there, something⟩, rfl⟩ := there
    exact member x there something

/-- What is counted in different groups is counted once. -/
theorem sum_countP_le {p : Nat → α → Bool} {q : α → Bool}
    (apart : ∀ {i j x}, p i x = true → p j x = true → i = j)
    (counted : ∀ {i x}, p i x = true → q x = true) (n : Nat) (xs : List α) :
    ∑ i ∈ Finset.range n, xs.countP (p i) ≤ xs.countP q := by
  induction xs with
  | nil => simp
  | cons x xs ih =>
    -- The first thing is counted in one group at most.
    have first : ∑ i ∈ Finset.range n, (if p i x = true then 1 else 0) ≤ if q x = true then 1 else 0 := by
      by_cases some_group : ∃ i ∈ Finset.range n, p i x = true
      · obtain ⟨i, member, here⟩ := some_group
        rw [Finset.sum_eq_single_of_mem i member fun j _ other =>
          if_neg fun there => other (apart there here), if_pos here, if_pos (counted here)]
      · rw [Finset.sum_eq_zero fun i member => if_neg fun here => some_group ⟨i, member, here⟩]
        exact Nat.zero_le _
    simp only [List.countP_cons, Finset.sum_add_distrib]
    omega

end Tally

end ParaHotstuff
