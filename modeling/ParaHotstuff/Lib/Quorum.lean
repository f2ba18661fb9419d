import Mathlib.Data.Finset.Card
import Mathlib.Data.Finset.Range

/-! Quorums of numbered parties. -/

namespace ParaHotstuff

/-- A quorum is a set of at least q of the n parties. -/
structure IsQuorum (n q : Nat) (Q : Finset Nat) : Prop where
  within : Q ⊆ Finset.range n
  large : q ≤ Q.card

namespace IsQuorum

variable {n q : Nat} {Q Q' : Finset Nat}

/-- Two quorums of more than half of the parties share one. -/
theorem intersect (majority : n < 2 * q) (first : IsQuorum n q Q) (second : IsQuorum n q Q') :
    ∃ p, p ∈ Q ∧ p ∈ Q' := by
  -- Otherwise their sizes would add up to more than there are parties.
  have many : (Finset.range n).card < Q.card + Q'.card := by
    rw [Finset.card_range]
    have := first.large
    have := second.large
    omega
  obtain ⟨p, shared⟩ :=
    Finset.inter_nonempty_of_card_lt_card_add_card first.within second.within many
  exact ⟨p, Finset.mem_of_mem_inter_left shared, Finset.mem_of_mem_inter_right shared⟩

/-- Two quorums that overlap by more than the faulty parties share one that is not faulty. -/
theorem intersect_outside {f : Nat} {F : Finset Nat} (few : F.card ≤ f) (overlap : n + f < 2 * q)
    (first : IsQuorum n q Q) (second : IsQuorum n q Q') : ∃ p, p ∈ Q ∧ p ∈ Q' ∧ p ∉ F := by
  -- What the quorums share is too large to be faulty altogether.
  have union : (Q ∪ Q').card ≤ n := by
    have within := Finset.card_le_card (Finset.union_subset first.within second.within)
    rwa [Finset.card_range] at within
  have sizes := Finset.card_union_add_card_inter Q Q'
  have shared : F.card < (Q ∩ Q').card := by
    have := first.large
    have := second.large
    omega
  obtain ⟨p, member, outside⟩ := Finset.exists_mem_notMem_of_card_lt_card shared
  exact ⟨p, Finset.mem_of_mem_inter_left member, Finset.mem_of_mem_inter_right member, outside⟩

/-- A quorum of at least one party has a member. -/
theorem nonempty (positive : 0 < q) (quorum : IsQuorum n q Q) : ∃ p, p ∈ Q := by
  have := quorum.large
  exact Finset.card_pos.1 (by omega)

/-- As many distinct parties as a quorum needs form one. -/
theorem of_nodup {ids : List Nat} (distinct : ids.Nodup) (within : ∀ p ∈ ids, p < n)
    (enough : q ≤ ids.length) : IsQuorum n q ids.toFinset where
  within := fun p member => Finset.mem_range.2 (within p (List.mem_toFinset.1 member))
  large := by rwa [List.toFinset_card_of_nodup distinct]

end IsQuorum

end ParaHotstuff
