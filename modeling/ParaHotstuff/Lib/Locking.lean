import ParaHotstuff.Lib.Quorum
import Mathlib.Logic.Relation

/-! Why votes that respect locks never certify a block that conflicts with a locked one. -/

namespace ParaHotstuff

/-- A vote for a block, on a justified parent, by a party that holds a lock. -/
structure Vote (Block : Type) where
  view : Nat
  block : Block
  just : Block
  justView : Nat
  lock : Block
  lockView : Nat

/--
The rules under which locks are safe.

Parties vote for blocks, and store certificates of blocks, which locks them. The history is
given by the votes and by the certificates stored.
-/
structure Locking (n q : Nat) {Block : Type} (link : Block → Block → Prop)
    (voted : Nat → Vote Block → Prop) (stored : Nat → Nat → Block → Prop) : Prop where
  /-- A vote goes to an extension of its justified parent. -/
  parent : ∀ {p u}, voted p u → link u.just u.block
  /-- The parent is the locked block or was certified after it. -/
  safe : ∀ {p u}, voted p u → u.just = u.lock ∨ u.lockView < u.justView
  /-- After the first view, a parent newer than the lock was stored in an earlier view. -/
  justified : ∀ {p u}, voted p u → 0 < u.view → u.lockView < u.justView →
    u.justView < u.view ∧ ∃ r, stored r u.justView u.just
  /-- The lock is at least as new as everything the voter stored in earlier views. -/
  newest : ∀ {p u v b}, voted p u → stored p v b → v < u.view →
    v < u.lockView ∨ (v = u.lockView ∧ b = u.lock)
  /-- A lock is a block someone stored, except at the start. -/
  lockStored : ∀ {p u}, voted p u → 0 < u.lockView → ∃ r, stored r u.lockView u.lock
  /-- Only blocks a quorum voted for are stored, and these votes came before any lock of the view. -/
  certified : ∀ {p w b}, stored p w b → ∃ Q, IsQuorum n q Q ∧ ∀ r ∈ Q, ∃ u,
    voted r u ∧ u.view = w ∧ u.block = b ∧ (u.lockView < w ∨ w = 0)

namespace Locking

variable {n q : Nat} {Block : Type} {link : Block → Block → Prop}
variable {voted : Nat → Vote Block → Prop} {stored : Nat → Nat → Block → Prop}

/-- The rules hold of a history with further links but the same votes and certificates. -/
theorem transfer (rules : Locking n q link voted stored) {link' : Block → Block → Prop}
    {voted' : Nat → Vote Block → Prop} {stored' : Nat → Nat → Block → Prop}
    (links : ∀ {a b}, link a b → link' a b) (votes : ∀ {p u}, voted' p u ↔ voted p u)
    (stores : ∀ {p v b}, stored' p v b ↔ stored p v b) : Locking n q link' voted' stored' where
  parent := fun vote => links (rules.parent (votes.1 vote))
  safe := fun vote => rules.safe (votes.1 vote)
  justified := fun vote positive higher =>
    have ⟨earlier, r, store⟩ := rules.justified (votes.1 vote) positive higher
    ⟨earlier, r, stores.2 store⟩
  newest := fun vote store => rules.newest (votes.1 vote) (stores.1 store)
  lockStored := fun vote positive =>
    have ⟨r, store⟩ := rules.lockStored (votes.1 vote) positive
    ⟨r, stores.2 store⟩
  certified := fun store =>
    have ⟨Q, quorum, voters⟩ := rules.certified (stores.1 store)
    ⟨Q, quorum, fun r member =>
      have ⟨u, vote, rest⟩ := voters r member
      ⟨u, votes.2 vote, rest⟩⟩

/-- A block a whole quorum stored is an ancestor of every block stored in a later view. -/
theorem descends (rules : Locking n q link voted stored) (majority : n < 2 * q)
    {Q : Finset Nat} {v : Nat} {b : Block} (quorum : IsQuorum n q Q)
    (locked : ∀ p ∈ Q, stored p v b) {p w : Nat} {c : Block}
    (later : stored p w c) (after : v < w) : Relation.TransGen link b c := by
  -- Strong induction on the later view; one voter for its block belongs to the locked quorum.
  induction w using Nat.strong_induction_on generalizing p c with
  | _ w ih =>
    obtain ⟨Q', voters, votes⟩ := rules.certified later
    obtain ⟨r, member, voter⟩ := quorum.intersect majority voters
    obtain ⟨u, voting, view, rfl, early⟩ := votes r voter
    have parent := rules.parent voting
    have before : v < u.view := by omega
    rcases rules.safe voting with same | higher
    · rcases rules.newest voting (locked r member) before with newer | ⟨_, here⟩
      -- The voter's lock is newer, so it descends from the block by induction.
      · obtain ⟨s, held⟩ := rules.lockStored voting (by omega)
        exact (ih u.lockView (by omega) held newer).tail (same ▸ parent)
      -- The voter is still locked on the block itself.
      · rw [here, ← same]
        exact .single parent
    -- The justified parent was stored after the lock, hence after the block.
    · obtain ⟨earlier, s, held⟩ := rules.justified voting (by omega) higher
      have reached : v < u.justView := by
        rcases rules.newest voting (locked r member) before with newer | ⟨here, _⟩ <;> omega
      exact (ih u.justView (by omega) held reached).tail parent

end Locking

end ParaHotstuff
