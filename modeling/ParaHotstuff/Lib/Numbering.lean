import Mathlib.Data.List.Basic
import Mathlib.Data.Prod.Lex
import Mathlib.Order.Basic

/-! Places that are taken group after group, and in each group one number after the other. -/

namespace ParaHotstuff

namespace GroupNumbering

variable {Group : Type} [LinearOrder Group]

/-- The numbers taken in one group, in the order in which they were taken. -/
def numbers (group : Group) (places : List (Group × Nat)) : List Nat :=
  (places.filter fun place => decide (place.1 = group)).map Prod.snd

/-- A place comes before another one: in an earlier group, or in the same group under a smaller number. -/
def Before : Group × Nat → Group × Nat → Prop := Prod.Lex (· < ·) (· < ·)

/-- The places taken so far, where the last number of the current group may be 0. -/
structure Numbered (places : List (Group × Nat)) (current : Group) (last : Nat) : Prop where
  sorted : places.Pairwise Before
  whole : ∀ group, ∃ count, numbers group places = List.range' 1 count
  reached : ∀ place ∈ places, place.1 ≤ current
  counted : numbers current places = List.range' 1 last

variable {places : List (Group × Nat)} {current group : Group} {last : Nat}

theorem numbered_nil (current : Group) : Numbered [] current 0 :=
  ⟨.nil, fun _ => ⟨0, rfl⟩, nofun, rfl⟩

theorem mem_numbers {place : Group × Nat} (taken : place ∈ places) :
    place.2 ∈ numbers place.1 places := by
  have here : place ∈ places.filter fun other => decide (other.1 = place.1) :=
    List.mem_filter.2 ⟨taken, by simp⟩
  exact List.mem_map.2 ⟨place, here, rfl⟩

/-- A place taken last is the last one of its group, and of no other group. -/
theorem numbers_append (place : Group × Nat) : numbers group (places ++ [place])
    = numbers group places ++ if place.1 = group then [place.2] else [] := by
  unfold numbers
  rw [List.filter_append, List.map_append]
  by_cases same : place.1 = group
  · simp [same]
  · simp [same]

/-- The next number of the current group may be taken. -/
theorem Numbered.next (numbered : Numbered places current last) :
    Numbered (places ++ [(current, last + 1)]) current (last + 1) := by
  have counted : numbers current (places ++ [(current, last + 1)]) = List.range' 1 (last + 1) := by
    rw [numbers_append, if_pos rfl, numbered.counted, List.range'_concat]
    congr 2
    omega
  refine ⟨?_, fun group => ?_, fun place taken => ?_, counted⟩
  · refine List.pairwise_append.2 ⟨numbered.sorted, List.pairwise_singleton _ _, ?_⟩
    intro place taken next member
    obtain rfl := List.mem_singleton.1 member
    -- Earlier places are in earlier groups, or have smaller numbers in the current one.
    obtain ⟨group, number⟩ := place
    rcases lt_or_eq_of_le (numbered.reached _ taken) with earlier | same
    · exact .left _ _ earlier
    · obtain rfl : group = current := same
      have counted : number ∈ List.range' 1 last := numbered.counted ▸ mem_numbers taken
      exact .right _ (by have bounds := List.mem_range'_1.1 counted; omega)
  · by_cases here : current = group
    · subst here
      exact ⟨last + 1, counted⟩
    · obtain ⟨count, before⟩ := numbered.whole group
      exact ⟨count, by rw [numbers_append, if_neg here, List.append_nil, before]⟩
  · rcases List.mem_append.1 taken with old | new
    · exact numbered.reached place old
    · obtain rfl := List.mem_singleton.1 new
      exact le_refl _

/-- A later group may be entered, in which no number was taken yet. -/
theorem Numbered.enter (numbered : Numbered places current last) (later : current < group) :
    Numbered places group 0 where
  sorted := numbered.sorted
  whole := numbered.whole
  reached := fun place taken => ((numbered.reached place taken).trans_lt later).le
  counted := by
    have none_taken : places.filter (fun place => decide (place.1 = group)) = [] := by
      rw [List.filter_eq_nil_iff]
      intro place taken
      have earlier := (numbered.reached place taken).trans_lt later
      simpa using earlier.ne
    unfold numbers
    rw [none_taken]
    rfl

end GroupNumbering

end ParaHotstuff
