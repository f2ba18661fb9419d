import ParaHotstuff.Trusted.Para
import Mathlib.Logic.Function.Basic

/-! How often the component was called for a block decides the phase it signs the block in. -/

namespace ParaHotstuff

namespace TrustedPara

/-- The phase a block is signed in after a number of earlier calls: three phases in turn. -/
def phaseAt (rank : Nat) : Phase1 :=
  if rank % 3 = 0 then PH1_PREPARE else if rank % 3 = 1 then PH1_PRECOMMIT else PH1_COMMIT

/-- One more call moves a block to its next phase. -/
theorem nextPhase_phaseAt (rank : Nat) : nextPhase (phaseAt rank) = phaseAt (rank + 1) := by
  -- The phase depends on the remainder modulo 3 only.
  have below : rank % 3 < 3 := Nat.mod_lt _ (by omega)
  rcases (by omega : rank % 3 = 0 ∨ rank % 3 = 1 ∨ rank % 3 = 2) with zero | one | two
  · have after : (rank + 1) % 3 = 1 := by omega
    simp only [phaseAt, zero, after]; decide
  · have after : (rank + 1) % 3 = 2 := by omega
    simp only [phaseAt, one, after]; decide
  · have after : (rank + 1) % 3 = 0 := by omega
    simp only [phaseAt, two, after]; decide

/-- Blocks are in the same phase exactly when their counts agree modulo 3. -/
theorem phaseAt_eq_iff {rank rank' : Nat} :
    phaseAt rank = phaseAt rank' ↔ rank % 3 = rank' % 3 := by
  constructor
  · intro same
    have below : rank % 3 < 3 := Nat.mod_lt _ (by omega)
    have below' : rank' % 3 < 3 := Nat.mod_lt _ (by omega)
    -- The three phases are three different codes.
    rcases (by omega : rank % 3 = 0 ∨ rank % 3 = 1 ∨ rank % 3 = 2) with a | a | a <;>
      rcases (by omega : rank' % 3 = 0 ∨ rank' % 3 = 1 ∨ rank' % 3 = 2) with b | b | b <;>
      simp only [phaseAt, a, b] at same ⊢ <;> exact absurd same (by decide)
  · intro same
    simp only [phaseAt, same]

/-- The phases of blocks agree with the counts, and the node is in one of its own two phases. -/
structure Ranked (tp : TrustedPara) (count : Digest → Nat) : Prop where
  blocks : ∀ h, tp.phaseOf h = phaseAt (count h.hash)
  node : tp.phase = PH1_NEWVIEW ∨ tp.phase = PH1_PARALLEL

/-- A signature on a block moves that block to its next phase and leaves the others. -/
theorem phaseOf_signBlock {tp : TrustedPara} {count : Digest → Nat}
    (blocks : ∀ h, tp.phaseOf h = phaseAt (count h.hash)) (h1 h2 : Hash) (v2 : View)
    (seqNumber : Nat) (h : Hash) :
    (tp.signBlock h1 h2 v2 seqNumber).2.phaseOf h
      = phaseAt (Function.update count h1.hash (count h1.hash + 1) h.hash) := by
  by_cases same : h.hash = h1.hash
  · -- The block signed for moves on.
    have moved := nextPhase_phaseAt (count h1.hash)
    rw [← blocks h1] at moved
    change ((tp.blockPhases.insert h1.hash (nextPhase (tp.phaseOf h1))).lookup h.hash).getD
      PH1_PREPARE = _
    rw [same, AList.lookup_insert, Function.update_self]
    exact moved
  · have stays := blocks h
    simp only [phaseOf] at stays
    simp [TrustedPara.signBlock, increment_block_phase, phaseOf, same, stays]

/-- After a call for a block its count is one higher. -/
theorem Ranked.signBlock {tp : TrustedPara} {count : Digest → Nat} (ranked : Ranked tp count)
    (h1 h2 : Hash) (v2 : View) (seqNumber : Nat) :
    Ranked (tp.signBlock h1 h2 v2 seqNumber).2
      (Function.update count h1.hash (count h1.hash + 1)) where
  blocks := phaseOf_signBlock ranked.blocks h1 h2 v2 seqNumber
  node := ranked.node

/-- A view that begins has no counts yet. -/
theorem Ranked.begin {tp : TrustedPara} (empty : tp.blockPhases = ∅)
    (node : tp.phase = PH1_NEWVIEW ∨ tp.phase = PH1_PARALLEL) : Ranked tp fun _ => 0 where
  blocks := fun h => by simp [phaseOf, empty, phaseAt]
  node := node

/-- Recording a certificate leaves the counts. -/
theorem Ranked.record [Hashing] {tp : TrustedPara} {count : Digest → Nat} (ranked : Ranked tp count)
    (rd : RDataPara) (getBlockFunc : Nat → PBlock) : Ranked (tp.record rd getBlockFunc) count where
  blocks := fun h => by
    have same := ranked.blocks h
    simpa [phaseOf] using same
  node := by simpa using ranked.node

end TrustedPara

end ParaHotstuff
