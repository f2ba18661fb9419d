import Mathlib.Data.List.Basic
import Mathlib.Tactic.Common

/-! Queues that are emptied in batches, and when nothing of a batch is lost. -/

namespace ParaHotstuff

/-- What was taken off the front of a queue in one go, and whether it was delivered. -/
structure Batch (α : Type) where
  taken : List α
  delivered : Bool
deriving DecidableEq, Repr

namespace Batch

variable {α : Type} (real : α → Bool)

/-- The real items that a batch delivers. -/
def kept (b : Batch α) : List α := if b.delivered then b.taken.filter real else []

/-- A batch that loses nothing: it is empty, or it is delivered and all its items are real. -/
def Lossless (b : Batch α) : Prop :=
  b.taken = [] ∨ (b.delivered = true ∧ ∀ x ∈ b.taken, real x = true)

/-- Cut the front of a queue into batches of the same size. -/
def cut (size : Nat) (delivered : Bool) : Nat → List α → List (Batch α)
  | 0, _ => []
  | n + 1, queue => ⟨queue.take size, delivered⟩ :: cut size delivered n (queue.drop size)

variable {real}

theorem kept_sublist (b : Batch α) : (b.kept real).Sublist b.taken := by
  unfold kept
  split
  · exact List.filter_sublist
  · exact List.nil_sublist _

/-- A batch delivers all it has taken exactly when it loses nothing. -/
theorem kept_eq_iff {b : Batch α} : b.kept real = b.taken ↔ b.Lossless real := by
  unfold kept Lossless
  cases b.delivered with
  | true =>
    simp only [if_true, List.filter_eq_self, true_and]
    exact ⟨.inr, fun lossless => lossless.elim (fun empty => by simp [empty]) id⟩
  | false =>
    simp only [Bool.false_eq_true, if_false, false_and, or_false]
    exact eq_comm

/-- Parts joined in order are the same as the whole lists joined exactly when each part is whole. -/
theorem flatMap_eq_iff {β : Type} {f g : β → List α} (parts : ∀ b, (f b).Sublist (g b))
    (bs : List β) : bs.flatMap f = bs.flatMap g ↔ ∀ b ∈ bs, f b = g b := by
  induction bs with
  | nil => simp
  | cons b bs ih =>
    -- What is joined from parts is part of what is joined from the wholes.
    have rest : (bs.flatMap f).Sublist (bs.flatMap g) := by
      clear ih
      induction bs with
      | nil => exact List.Sublist.refl _
      | cons b' bs ih => exact (parts b').append ih
    rw [List.forall_mem_cons, ← ih, List.flatMap_cons, List.flatMap_cons]
    constructor
    · intro same
      -- No part is longer than the whole, so both are of full length.
      have total := congrArg List.length same
      have first := (parts b).length_le
      have others := rest.length_le
      simp only [List.length_append] at total
      have whole : (f b).length = (g b).length := by omega
      have wholes : (bs.flatMap f).length = (bs.flatMap g).length := by omega
      exact ⟨(parts b).eq_of_length whole, rest.eq_of_length wholes⟩
    · rintro ⟨first, others⟩
      rw [first, others]

/-- What entered a queue is what was delivered and what waits exactly when no batch loses anything. -/
theorem conserved_iff {entered pending : List α} {batches : List (Batch α)}
    (queue : entered = batches.flatMap taken ++ pending) :
    entered = batches.flatMap (kept real) ++ pending ↔ ∀ b ∈ batches, b.Lossless real := by
  -- What waits is the same on both sides, so the batches have to agree one by one.
  rw [queue, List.append_left_inj, eq_comm, flatMap_eq_iff kept_sublist]
  exact forall₂_congr fun b _ => kept_eq_iff

end Batch

end ParaHotstuff
