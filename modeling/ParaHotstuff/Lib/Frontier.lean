import Mathlib.Algebra.Order.BigOperators.Group.List
import Mathlib.Algebra.Order.Group.Nat
import Mathlib.Data.List.Nodup
import Mathlib.Data.List.Perm.Subperm
import Mathlib.Logic.Function.Basic
import Mathlib.Tactic.Common

/-! How far a scan of numbered slots gets, and whether the order of their arrival matters to it. -/

namespace ParaHotstuff

/-- All slots after one up to another are there, and each step on the way may be taken. -/
structure Reaches (has step : Nat → Prop) (p q : Nat) : Prop where
  le : p ≤ q
  filled : ∀ i, p < i → i ≤ q → has i
  steps : ∀ i, p ≤ i → i < q → step i

/-- A scan gets as far as a slot: the next one is missing, or the step to it may not be taken. -/
structure Furthest (has step : Nat → Prop) (p q : Nat) : Prop extends Reaches has step p q where
  stuck : has (q + 1) → ¬ step q

section Scans

variable {has has' step : Nat → Prop} {p q r : Nat}

namespace Reaches

theorem refl (p : Nat) : Reaches has step p p :=
  ⟨Nat.le_refl p, fun i after within => by omega, fun i after within => by omega⟩

/-- A step to the first slot, and a way on from there. -/
theorem cons (here : has (p + 1)) (first : step p) (on : Reaches has step (p + 1) q) :
    Reaches has step p q := by
  refine ⟨Nat.le_of_succ_le on.le, fun i after within => ?_, fun i after within => ?_⟩
  · rcases Nat.lt_or_eq_of_le (Nat.succ_le_of_lt after) with later | same
    · exact on.filled i later within
    · exact same ▸ here
  · rcases Nat.lt_or_eq_of_le after with later | same
    · exact on.steps i later within
    · exact same ▸ first

/-- One step on. -/
theorem next (reaches : Reaches has step p q) (here : has (q + 1)) (last : step q) :
    Reaches has step p (q + 1) := by
  refine ⟨Nat.le_succ_of_le reaches.le, fun i after within => ?_, fun i after within => ?_⟩
  · rcases Nat.lt_or_eq_of_le within with before | same
    · exact reaches.filled i after (Nat.le_of_lt_succ before)
    · exact same ▸ here
  · rcases Nat.lt_or_eq_of_le (Nat.le_of_lt_succ within) with before | same
    · exact reaches.steps i after before
    · exact same ▸ last

/-- A way with more slots there is still a way. -/
theorem mono (reaches : Reaches has step p q) (more : ∀ i, p < i → i ≤ q → has i → has' i) :
    Reaches has' step p q :=
  ⟨reaches.le, fun i after within => more i after within (reaches.filled i after within),
    reaches.steps⟩

/-- The part of a way up to a slot on it. -/
theorem upTo (reaches : Reaches has step p q) (after : p ≤ r) (within : r ≤ q) :
    Reaches has step p r :=
  ⟨after, fun i later below => reaches.filled i later (Nat.le_trans below within),
    fun i later below => reaches.steps i later (Nat.lt_of_lt_of_le below within)⟩

/-- A way on which the same steps may be taken is the same way. -/
theorem of_steps {step' : Nat → Prop} (reaches : Reaches has step p q)
    (same : ∀ i, p ≤ i → i < q → step i → step' i) : Reaches has step' p q :=
  ⟨reaches.le, reaches.filled, fun i after within =>
    same i after within (reaches.steps i after within)⟩

/-- The rest of a way from a slot on it. -/
theorem rest (reaches : Reaches has step p q) (after : p ≤ r) (within : r ≤ q) :
    Reaches has step r q :=
  ⟨within, fun i later => reaches.filled i (Nat.lt_of_le_of_lt after later),
    fun i later => reaches.steps i (Nat.le_trans after later)⟩

/-- A way passes no more slots than there are. -/
theorem sub_le_length (reaches : Reaches has step p q) (slots : List Nat)
    (listed : ∀ i, has i → i ∈ slots) : q - p ≤ slots.length := by
  -- The slots passed are all different, and each is listed.
  have passed : (List.range' (p + 1) (q - p)).Subperm slots := by
    refine List.subperm_of_subset List.nodup_range' fun i member => listed i ?_
    rw [List.mem_range'_1] at member
    exact reaches.filled i (by omega) (by omega)
  simpa using passed.length_le

end Reaches

namespace Furthest

/-- Whatever can be reached is no further. -/
theorem le_of_reaches (furthest : Furthest has step p q) (reaches : Reaches has step p r) :
    r ≤ q := by
  by_contra beyond
  -- Otherwise the step beyond the furthest slot would be on the way.
  have here := reaches.filled (q + 1) (Nat.lt_succ_of_le furthest.le) (by omega)
  exact furthest.stuck here (reaches.steps q furthest.le (by omega))

theorem unique (furthest : Furthest has step p q) (furthest' : Furthest has step p r) : q = r :=
  Nat.le_antisymm (furthest'.le_of_reaches furthest.toReaches)
    (furthest.le_of_reaches furthest'.toReaches)

/-- A scan of finitely many slots gets somewhere. -/
theorem exists_of_bound {bound : Nat} (bounded : ∀ i, has i → i < bound) (step : Nat → Prop)
    (p : Nat) : ∃ q, Furthest has step p q := by
  -- Induction on the number of slots that may still come.
  generalize left : bound - p = n
  induction n generalizing p with
  | zero =>
    refine ⟨p, .refl p, fun here => ?_⟩
    have := bounded _ here
    omega
  | succ n ih =>
    by_cases on : has (p + 1) ∧ step p
    · obtain ⟨q, furthest⟩ := ih (p + 1) (by omega)
      exact ⟨q, furthest.toReaches.cons on.1 on.2, furthest.stuck⟩
    · exact ⟨p, .refl p, fun here first => on ⟨here, first⟩⟩

/-- A scan without the first slot goes nowhere. -/
theorem eq_of_missing (furthest : Furthest has step p q) (missing : ¬ has (p + 1)) : q = p := by
  rcases Nat.lt_or_eq_of_le furthest.le with on | same
  · exact absurd (furthest.filled (p + 1) (Nat.lt_succ_self p) on) missing
  · exact same.symm

/-- A scan judges only the steps from where it stands on. -/
theorem of_steps {step' : Nat → Prop} (furthest : Furthest has step p q)
    (same : ∀ i, p ≤ i → (step i ↔ step' i)) : Furthest has step' p q where
  le := furthest.le
  filled := furthest.filled
  steps := fun i after within => (same i after).1 (furthest.steps i after within)
  stuck := fun here taken => furthest.stuck here ((same q furthest.le).2 taken)

end Furthest

variable {inc : Nat → Prop}

/-- Steps from a slot on, where the first one is judged differently. -/
abbrev resume (inc step : Nat → Prop) (p : Nat) : Nat → Prop := Function.update step p (inc p)

/-- A way on from a slot depends on how its first step is judged, if there is one. -/
theorem Reaches.resume (reaches : Reaches has step p q) (first : p < q → inc p) :
    Reaches has (resume inc step p) p q := by
  refine ⟨reaches.le, reaches.filled, fun i after within => ?_⟩
  by_cases same : i = p
  · subst same
    simpa using first within
  · simpa [same] using reaches.steps i after within

/--
Resuming a scan gets as far as beginning anew.

More slots may have come since, and both ways to judge the next step agree, if it matters.
-/
theorem Furthest.resumed {s m : Nat} (old : Furthest has step s p)
    (more : ∀ i, has i → has' i) (anew : Furthest has' step s m)
    (agree : has' (p + 1) → (inc p ↔ step p)) : Furthest has' (ParaHotstuff.resume inc step p) p m := by
  have bound : p ≤ m := anew.le_of_reaches (old.toReaches.mono fun i _ _ => more i)
  have way := anew.toReaches.rest old.le bound
  refine ⟨way.resume fun on => ?_, fun here => ?_⟩
  · -- The first step is on the way of the scan from the start.
    exact (agree (anew.filled (p + 1) (by have := old.le; omega) on)).2
      (anew.steps p old.le on)
  · by_cases same : m = p
    · subst same
      simpa using fun first => anew.stuck here ((agree here).1 first)
    · simpa [same] using anew.stuck here

end Scans

/-- There is a bound on the members of a list of slots. -/
theorem exists_bound (slots : List Nat) : ∃ bound, ∀ i ∈ slots, i < bound :=
  ⟨slots.sum + 1, fun _ member => Nat.lt_succ_of_le (List.single_le_sum (by simp) _ member)⟩

section Arrivals

/--
One scan of the slots that are there.

A scan begins at the start, and counts only if it gets beyond a bound; then later scans resume
where it ended. A scan that reaches the last number of its counter, where slot 0 is there too,
turns back to that slot, and counts for nothing.
-/
inductive Scan (s k last : Nat) (step inc has : Nat → Prop) : Option Nat → Option Nat → Prop
  | short {q : Nat} (furthest : Furthest has step s q) (within : q ≤ k) :
    Scan s k last step inc has none none
  | anew {q : Nat} (furthest : Furthest has step s q) (beyond : k < q)
    (ends : q = last → ¬ has 0) : Scan s k last step inc has none (some q)
  | turned (furthest : Furthest has step s last) (beyond : k < last) (turns : has 0) :
    Scan s k last step inc has none none
  | resumed {p q : Nat} (furthest : Furthest has (resume inc step p) p q)
    (ends : q = last → ¬ has 0) : Scan s k last step inc has (some p) (some q)
  | returned {p : Nat} (furthest : Furthest has (resume inc step p) p last) (turns : has 0) :
    Scan s k last step inc has (some p) (some p)

/-- Slots arrive one after the other, the last one first in the list, each followed by a scan. -/
inductive Arrives (s k last : Nat) (step inc : Nat → Prop) : List Nat → Option Nat → Prop
  | nil : Arrives s k last step inc [] none
  | cons {slot : Nat} {slots : List Nat} {x y : Option Nat}
    (before : Arrives s k last step inc slots x)
    (scan : Scan s k last step inc (· ∈ slot :: slots) x y) :
    Arrives s k last step inc (slot :: slots) y

variable {s k last : Nat} {step inc : Nat → Prop} {slots order rest : List Nat} {x y : Option Nat}
variable {i m p : Nat}

theorem Scan.exists_of_bound {has : Nat → Prop} {bound : Nat} (bounded : ∀ i, has i → i < bound)
    (x : Option Nat) : ∃ y, Scan s k last step inc has x y := by
  cases x with
  | none =>
    obtain ⟨q, furthest⟩ := Furthest.exists_of_bound bounded step s
    by_cases beyond : k < q
    · by_cases turns : q = last ∧ has 0
      · obtain ⟨rfl, zero⟩ := turns
        exact ⟨none, .turned furthest beyond zero⟩
      · exact ⟨some q, .anew furthest beyond fun same zero => turns ⟨same, zero⟩⟩
    · exact ⟨none, .short furthest (Nat.not_lt.1 beyond)⟩
  | some p =>
    obtain ⟨q, furthest⟩ := Furthest.exists_of_bound bounded (resume inc step p) p
    by_cases turns : q = last ∧ has 0
    · obtain ⟨rfl, zero⟩ := turns
      exact ⟨some p, .returned furthest zero⟩
    · exact ⟨some q, .resumed furthest fun same zero => turns ⟨same, zero⟩⟩

/-- Slots may arrive in any order. -/
theorem Arrives.exists (order : List Nat) : ∃ x, Arrives s k last step inc order x := by
  induction order with
  | nil => exact ⟨none, .nil⟩
  | cons slot order ih =>
    obtain ⟨x, before⟩ := ih
    obtain ⟨bound, bounded⟩ := exists_bound (slot :: order)
    obtain ⟨y, scan⟩ := Scan.exists_of_bound bounded x
    exact ⟨y, .cons before scan⟩

/-- A scan ends in one way only. -/
theorem Scan.unique {has : Nat → Prop} {z : Option Nat} (scan : Scan s k last step inc has x y)
    (scan' : Scan s k last step inc has x z) : y = z := by
  -- Both scans get as far, so they are of one kind.
  cases scan with
  | short furthest within =>
    cases scan' with
    | short => rfl
    | anew furthest' beyond =>
      obtain rfl := furthest.unique furthest'
      omega
    | turned => rfl
  | anew furthest beyond ends =>
    cases scan' with
    | short furthest' within =>
      obtain rfl := furthest.unique furthest'
      omega
    | anew furthest' => exact congrArg some (furthest.unique furthest')
    | turned furthest' _ turns => exact absurd turns (ends (furthest.unique furthest'))
  | turned furthest beyond turns =>
    cases scan' with
    | short => rfl
    | anew furthest' _ ends => exact absurd turns (ends (furthest'.unique furthest))
    | turned => rfl
  | resumed furthest ends =>
    cases scan' with
    | resumed furthest' => exact congrArg some (furthest.unique furthest')
    | returned furthest' turns => exact absurd turns (ends (furthest.unique furthest'))
  | returned furthest turns =>
    cases scan' with
    | resumed furthest' ends => exact absurd turns (ends (furthest'.unique furthest))
    | returned => rfl

theorem Arrives.unique {y : Option Nat} (arrives : Arrives s k last step inc order x)
    (arrives' : Arrives s k last step inc order y) : x = y := by
  induction arrives generalizing y with
  | nil =>
    cases arrives' with
    | nil => rfl
  | cons before scan ih =>
    cases arrives' with
    | cons before' scan' =>
      obtain rfl := ih before'
      exact scan.unique scan'

/-- The frontier of slots that arrived is where one scan of all of them ends, if that counts. -/
def frontier (k m : Nat) : Option Nat := if k < m then some m else none

/--
If both judgements agree wherever it matters, and no scan turns back, the frontier is that of
one scan.
-/
theorem Arrives.frontier (small : s ≤ k)
    (agree : ∀ i, k < i → Reaches (· ∈ slots) step s i → i + 1 ∈ slots → (inc i ↔ step i))
    (ends : k < last → Reaches (· ∈ slots) step s last → 0 ∉ slots)
    (arrives : Arrives s k last step inc order x) (within : ∀ i ∈ order, i ∈ slots)
    (furthest : Furthest (· ∈ order) step s m) : x = ParaHotstuff.frontier k m := by
  induction arrives generalizing m with
  | nil =>
    obtain rfl := furthest.eq_of_missing (by simp)
    simp [ParaHotstuff.frontier, Nat.not_lt.2 small]
  | @cons slot order x y before scan ih =>
    have sub : ∀ i ∈ order, i ∈ slots := fun i member => within i (List.mem_cons_of_mem _ member)
    -- An earlier scan that got beyond the bound ended where one scan would have.
    have anew : ∀ {p}, x = some p →
        k < p ∧ Furthest (· ∈ slot :: order) (resume inc step p) p m := by
      intro p here
      obtain ⟨bound, bounded⟩ := exists_bound order
      obtain ⟨m', old⟩ := Furthest.exists_of_bound bounded step s
      have before := here.symm.trans (ih sub old)
      unfold ParaHotstuff.frontier at before
      split at before
      · rename_i beyond
        obtain rfl := Option.some.inj before
        exact ⟨beyond, @Furthest.resumed _ _ _ _ inc _ _ old (fun i => List.mem_cons_of_mem slot)
          furthest fun here => agree p beyond (old.toReaches.mono fun i _ _ => sub i)
            (within _ here)⟩
      · cases before
    cases scan with
    | @short q scanned low =>
      obtain rfl := scanned.unique furthest
      simp [ParaHotstuff.frontier, Nat.not_lt.2 low]
    | @anew q scanned beyond =>
      obtain rfl := scanned.unique furthest
      simp [ParaHotstuff.frontier, beyond]
    | turned scanned beyond turns =>
      exact absurd (within 0 turns) (ends beyond (scanned.toReaches.mono fun i _ _ => within i))
    | @resumed p q scanned =>
      obtain ⟨beyond, again⟩ := anew rfl
      obtain rfl := scanned.unique again
      simp [ParaHotstuff.frontier, Nat.lt_of_lt_of_le beyond scanned.le]
    | @returned p scanned turns =>
      obtain ⟨beyond, again⟩ := anew rfl
      obtain rfl := scanned.unique again
      exact absurd (within 0 turns) (ends (Nat.lt_of_lt_of_le beyond scanned.le)
        (furthest.toReaches.mono fun i _ _ => within i))

/-- Without the first slot no scan counts. -/
theorem Arrives.waiting (small : s ≤ k) (arrives : Arrives s k last step inc order x)
    (missing : s + 1 ∉ order) : x = none := by
  induction arrives with
  | nil => rfl
  | @cons slot order x y before scan ih =>
    obtain rfl := ih fun member => missing (List.mem_cons_of_mem _ member)
    cases scan with
    | short furthest within => rfl
    | anew furthest beyond =>
      obtain rfl := furthest.eq_of_missing missing
      omega
    | turned => rfl

/-- The first slot, when it is the last one to come, starts a scan of all that are there. -/
theorem Arrives.started (small : s ≤ k) (missing : s + 1 ∉ order)
    (arrives : Arrives s k last step inc ((s + 1) :: order) x)
    (furthest : Furthest (· ∈ (s + 1) :: order) step s m) (beyond : k < m)
    (ends : m = last → 0 ∉ order) : x = some m := by
  cases arrives with
  | cons before scan =>
    obtain rfl := before.waiting small missing
    cases scan with
    | short scanned within =>
      obtain rfl := scanned.unique furthest
      omega
    | anew scanned beyond => exact congrArg some (scanned.unique furthest)
    | turned scanned _ turns =>
      have early := ends (furthest.unique scanned)
      simp only [List.mem_cons, (Nat.succ_ne_zero s).symm, false_or] at turns
      exact absurd turns early

/-- No scan goes back. -/
theorem Arrives.rises (i : Nat) (rest : List Nat)
    (begun : ∀ x, Arrives s k last step inc order x → ∃ q, x = some q ∧ i ≤ q)
    (arrives : Arrives s k last step inc (rest ++ order) x) : ∃ q, x = some q ∧ i ≤ q := by
  induction rest generalizing x with
  | nil => exact begun x arrives
  | cons slot rest ih =>
    cases arrives with
    | cons before scan =>
      obtain ⟨p, rfl, up⟩ := ih before
      cases scan with
      | @resumed p q furthest => exact ⟨q, rfl, Nat.le_trans up furthest.le⟩
      | returned => exact ⟨p, rfl, up⟩

/-- Where the step to the next slot may not be taken later on, the scans stay. -/
theorem Arrives.stays (refused : ¬ inc i)
    (begun : ∀ x, Arrives s k last step inc order x → x = some i)
    (arrives : Arrives s k last step inc (rest ++ order) x) : x = some i := by
  induction rest generalizing x with
  | nil => exact begun x arrives
  | cons slot rest ih =>
    cases arrives with
    | cons before scan =>
      obtain rfl := ih before
      cases scan with
      | @resumed p q furthest =>
        rcases Nat.lt_or_eq_of_le furthest.le with on | same
        · exact absurd (by simpa using furthest.steps i (Nat.le_refl i) on) refused
        · exact congrArg some same.symm
      | returned => rfl

/-- Where the step to the next slot may be taken later on, the scans go on once it is there. -/
theorem Arrives.goes_on (allowed : inc i)
    (begun : ∀ x, Arrives s k last step inc order x → x = some i) (missing : i + 1 ∉ order)
    (early : 0 ∉ rest ++ order) (arrives : Arrives s k last step inc (rest ++ order) x) :
    ∃ q, x = some q ∧ i ≤ q ∧ (i + 1 ∈ rest → i < q) := by
  induction rest generalizing x with
  | nil => exact ⟨i, begun x arrives, Nat.le_refl i, fun member => by cases member⟩
  | cons slot rest ih =>
    cases arrives with
    | cons before scan =>
      obtain ⟨p, rfl, after, -⟩ := ih (fun zero => early (List.mem_cons_of_mem _ zero)) before
      cases scan with
      | @resumed p q furthest =>
        refine ⟨q, rfl, Nat.le_trans after furthest.le, fun member => ?_⟩
        have here : i + 1 ∈ slot :: rest ++ order := List.mem_append_left _ member
        -- A scan that stands at the slot itself takes the step, and none goes back.
        by_contra short
        obtain rfl : p = i := by
          have := furthest.le
          omega
        obtain rfl : q = p := by
          have := furthest.le
          omega
        exact furthest.stuck here (by simpa using allowed)
      | returned _ turns => exact absurd turns early

/-- The slots that satisfy a test. -/
abbrev slotsWith (slots : List Nat) (test : Nat → Prop) [DecidablePred test] : List Nat :=
  slots.filter fun j => decide (test j)

/-- A list without repetitions is an order of the slots if it has the same members. -/
theorem perm_of_members (distinct : slots.Nodup) (nodup : order.Nodup)
    (same : ∀ j, j ∈ order ↔ j ∈ slots) : order.Perm slots :=
  (List.perm_ext_iff_of_nodup nodup distinct).2 same

/-- If the order of arrival does not matter, no scan turns back. -/
theorem ends_of_order_free (small : s ≤ k) (distinct : slots.Nodup)
    (bounded : ∀ i ∈ slots, i ≤ last)
    (free : ∀ order order' : List Nat, order.Perm slots → order'.Perm slots → ∀ x y,
      Arrives s k last step inc order x → Arrives s k last step inc order' y → x = y)
    (beyond : k < last) (reaches : Reaches (· ∈ slots) step s last) : 0 ∉ slots := by
  intro zero
  have first : s + 1 ∈ slots := reaches.filled (s + 1) (Nat.lt_succ_self s) (by omega)
  -- In one order slot 0 comes first, and the scan that begins with the first slot turns back.
  let rest := slotsWith slots fun j => j ≠ s + 1
  have lacks : s + 1 ∉ rest := by simp [rest]
  have turning : ((s + 1) :: rest).Perm slots := by
    refine perm_of_members distinct (List.nodup_cons.2 ⟨lacks, distinct.filter _⟩) fun j => ?_
    simp only [rest, List.mem_cons, List.mem_filter, decide_eq_true_eq]
    by_cases same : j = s + 1
    · simp [same, first]
    · simp [same]
  -- In the other one slot 0 comes after it.
  let others := slotsWith slots fun j => j ≠ 0 ∧ j ≠ s + 1
  have lacks' : s + 1 ∉ others := by simp [others]
  have last' : (0 :: (s + 1) :: others).Perm slots := by
    refine perm_of_members distinct ?_ fun j => ?_
    · refine List.nodup_cons.2 ⟨by simp [others], List.nodup_cons.2 ⟨lacks', distinct.filter _⟩⟩
    · simp only [others, List.mem_cons, List.mem_filter, decide_eq_true_eq]
      by_cases none' : j = 0
      · simp [none', zero]
      · by_cases same : j = s + 1
        · simp [same, first]
        · simp [none', same]
  obtain ⟨x, arrives⟩ := @Arrives.exists s k last step inc (0 :: (s + 1) :: others)
  obtain ⟨y, arrives'⟩ := @Arrives.exists s k last step inc ((s + 1) :: rest)
  have same := free _ _ last' turning x y arrives arrives'
  obtain ⟨q, found, -⟩ := Arrives.rises last [0] (fun x arrives => by
    refine ⟨last, arrives.started small lacks' ⟨?_, fun on => ?_⟩ beyond ?_, Nat.le_refl _⟩
    · refine reaches.mono fun j after _ member => ?_
      by_cases same : j = s + 1
      · simp [same]
      · have positive : j ≠ 0 := by omega
        simp [others, member, same, positive]
    · have := bounded _ (last'.mem_iff.1 (List.mem_cons_of_mem 0 on))
      omega
    · simp [others]) arrives
  have scanned : Furthest (· ∈ (s + 1) :: rest) step s last := by
    refine ⟨reaches.mono fun j _ _ member => turning.mem_iff.2 member, fun on => ?_⟩
    have := bounded _ (turning.mem_iff.1 on)
    omega
  have back : y = none := by
    cases arrives' with
    | cons before scan =>
      obtain rfl := before.waiting small lacks
      cases scan with
      | short => rfl
      | anew furthest _ ends =>
        exact absurd (turning.mem_iff.2 zero) (ends (furthest.unique scanned))
      | turned => rfl
  rw [found, back] at same
  cases same

/-- If the order of arrival does not matter, a step is always judged as in a scan from the start. -/
theorem agree_of_order_free (small : s ≤ k) (distinct : slots.Nodup)
    (bounded : ∀ i ∈ slots, i ≤ last)
    (free : ∀ order order' : List Nat, order.Perm slots → order'.Perm slots → ∀ x y,
      Arrives s k last step inc order x → Arrives s k last step inc order' y → x = y)
    (beyond : k < i) (reaches : Reaches (· ∈ slots) step s i) (here : i + 1 ∈ slots) :
    inc i ↔ step i := by
  by_contra differ
  have first : s + 1 ∈ slots := reaches.filled (s + 1) (Nat.lt_succ_self s) (by omega)
  have below : i < last := bounded _ here
  -- One order: the slots up to this one, the first of them last; then all others, slot 0 last.
  let zero := slotsWith slots fun j => j = 0
  let low := slotsWith slots fun j => j ≠ 0 ∧ j ≤ i ∧ j ≠ s + 1
  let high := slotsWith slots fun j => i < j
  have lacks : s + 1 ∉ low := by simp [low]
  have begins : ∀ x, Arrives s k last step inc ((s + 1) :: low) x → x = some i := by
    intro x arrives
    refine arrives.started small lacks ⟨reaches.mono fun j after within member => ?_, ?_⟩ beyond
      fun same => absurd same (Nat.ne_of_lt below)
    · by_cases same : j = s + 1
      · simp [same]
      · have positive : j ≠ 0 := by omega
        simp [low, member, within, same, positive]
    · intro member
      simp only [low, List.mem_cons, List.mem_filter, decide_eq_true_eq] at member
      omega
  have parted : (zero ++ high ++ (s + 1) :: low).Perm slots := by
    refine perm_of_members distinct ?_ fun j => ?_
    · refine List.Nodup.append (List.Nodup.append (distinct.filter _) (distinct.filter _) ?_)
        (List.nodup_cons.2 ⟨lacks, distinct.filter _⟩) ?_
      · intro j none' up
        simp only [zero, high, List.mem_filter, decide_eq_true_eq] at none' up
        omega
      · intro j up down
        simp only [zero, high, low, List.mem_append, List.mem_filter, decide_eq_true_eq,
          List.mem_cons] at up down
        omega
    · simp only [zero, high, low, List.mem_append, List.mem_filter, decide_eq_true_eq,
        List.mem_cons]
      by_cases same : j = s + 1
      · simp [same, first]
      · by_cases member : j ∈ slots
        · simp only [member, true_and, same, false_or, iff_true]
          omega
        · simp [member, same]
  obtain ⟨x, arrives⟩ := @Arrives.exists s k last step inc (zero ++ high ++ (s + 1) :: low)
  -- The other order: the first slot last of all, or before slot 0 only.
  by_cases allowed : inc i
  · have refused : ¬ step i := fun taken => differ ⟨fun _ => taken, fun _ => allowed⟩
    let rest := slotsWith slots fun j => j ≠ s + 1
    have without : s + 1 ∉ rest := by simp [rest]
    have perm : ((s + 1) :: rest).Perm slots := by
      refine perm_of_members distinct (List.nodup_cons.2 ⟨without, distinct.filter _⟩)
        fun j => ?_
      simp only [rest, List.mem_cons, List.mem_filter, decide_eq_true_eq]
      by_cases same : j = s + 1
      · simp [same, first]
      · simp [same]
    obtain ⟨y, arrives'⟩ := @Arrives.exists s k last step inc ((s + 1) :: rest)
    have same := free _ _ parted perm x y arrives arrives'
    have ended := arrives'.started small without
      ⟨reaches.mono fun j _ _ member => perm.mem_iff.2 member, fun _ => refused⟩ beyond
      fun same => absurd same (Nat.ne_of_lt below)
    rw [List.append_assoc] at arrives
    obtain ⟨q, found, up⟩ := Arrives.rises (i + 1) zero (fun x arrives => by
      obtain ⟨q, found, -, on⟩ := arrives.goes_on allowed begins (by
        simp only [low, List.mem_cons, List.mem_filter, decide_eq_true_eq]
        omega) (by simp [high, low])
      exact ⟨q, found, on (by simp [high, here])⟩) arrives
    rw [found, ended, Option.some.injEq] at same
    omega
  · have taken : step i := by
      by_contra refused
      exact differ ⟨fun allowed' => absurd allowed' allowed, fun taken => absurd taken refused⟩
    let rest := slotsWith slots fun j => j ≠ 0 ∧ j ≠ s + 1
    have without : s + 1 ∉ rest := by simp [rest]
    have perm : (zero ++ (s + 1) :: rest).Perm slots := by
      refine perm_of_members distinct ?_ fun j => ?_
      · refine List.Nodup.append (distinct.filter _)
          (List.nodup_cons.2 ⟨without, distinct.filter _⟩) ?_
        intro j none' other
        simp only [zero, rest, List.mem_filter, decide_eq_true_eq, List.mem_cons] at none' other
        omega
      · simp only [zero, rest, List.mem_append, List.mem_filter, decide_eq_true_eq, List.mem_cons]
        by_cases same : j = s + 1
        · simp [same, first]
        · by_cases member : j ∈ slots
          · simp only [member, true_and, same, false_or, iff_true]
            omega
          · simp [member, same]
    obtain ⟨y, arrives'⟩ := @Arrives.exists s k last step inc (zero ++ (s + 1) :: rest)
    have same := free _ _ parted perm x y arrives arrives'
    have found := arrives.stays allowed begins
    -- One scan of these slots ends beyond this slot.
    obtain ⟨bound, bounded'⟩ := exists_bound ((s + 1) :: rest)
    obtain ⟨m, furthest⟩ := Furthest.exists_of_bound bounded' step s
    have there : ∀ j, s < j → j ∈ slots → j ∈ (s + 1) :: rest := by
      intro j after member
      by_cases same : j = s + 1
      · simp [same]
      · have positive : j ≠ 0 := by omega
        simp [rest, member, same, positive]
    have reached : Reaches (· ∈ (s + 1) :: rest) step s i :=
      reaches.mono fun j after _ member => there j after member
    have up := furthest.le_of_reaches
      (reached.next (there _ (Nat.lt_succ_of_le reaches.le) here) taken)
    obtain ⟨q, ended, on⟩ := Arrives.rises m zero (fun x arrives =>
      ⟨m, arrives.started small without furthest (by omega) (by simp [rest]), Nat.le_refl m⟩)
      arrives'
    rw [found, ended, Option.some.injEq] at same
    omega

/--
The order in which slots arrive does not matter exactly if a step that is judged later on is
judged as in a scan from the start, wherever such a scan gets beyond the bound, and if no scan
turns back.
-/
theorem order_free_iff (small : s ≤ k) (distinct : slots.Nodup) (bounded : ∀ i ∈ slots, i ≤ last) :
    (∀ order order' : List Nat, order.Perm slots → order'.Perm slots → ∀ x y,
        Arrives s k last step inc order x → Arrives s k last step inc order' y → x = y)
      ↔ ∀ i, k < i → Reaches (· ∈ slots) step s i →
        (i + 1 ∈ slots → (inc i ↔ step i)) ∧ (i = last → 0 ∉ slots) := by
  constructor
  · intro free i beyond reaches
    refine ⟨fun here => agree_of_order_free small distinct bounded free beyond reaches here, ?_⟩
    rintro rfl
    exact ends_of_order_free small distinct bounded free beyond reaches
  · intro agree order order' perm perm' x y arrives arrives'
    obtain ⟨bound, bounded⟩ := exists_bound slots
    obtain ⟨m, furthest⟩ := Furthest.exists_of_bound bounded step s
    -- In either order the frontier is that of one scan of the slots.
    have ends : ∀ {order : List Nat} {x : Option Nat}, order.Perm slots →
        Arrives s k last step inc order x → x = ParaHotstuff.frontier k m := by
      intro order x perm arrives
      have same : (fun i => i ∈ slots) = fun i => i ∈ order :=
        funext fun i => propext perm.mem_iff.symm
      exact arrives.frontier small (fun i beyond reaches => (agree i beyond reaches).1)
        (fun beyond reaches => (agree last beyond reaches).2 rfl)
        (fun i member => perm.mem_iff.1 member) (same ▸ furthest)
    exact (ends perm arrives).trans (ends perm' arrives').symm

end Arrivals

end ParaHotstuff
