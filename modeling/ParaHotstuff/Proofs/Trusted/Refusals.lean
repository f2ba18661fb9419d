import ParaHotstuff.Proofs.Trusted.Locks

/-! When a vote that the component of the chained protocol refuses leaves its state as it was. -/

namespace ParaHotstuff

namespace TrustedCh

/-- The locks and the counter are the same in two states. -/
structure Intact (tp tp' : TrustedCh) : Prop where
  lockh : tp'.lockh = tp.lockh
  lockv : tp'.lockv = tp.lockv
  preph : tp'.preph = tp.preph
  prepv : tp'.prepv = tp.prepv
  view : tp'.view = tp.view
  phase : tp'.phase = tp.phase

theorem Intact.refl (tp : TrustedCh) : Intact tp tp := ⟨rfl, rfl, rfl, rfl, rfl, rfl⟩

variable [Hashing] [SignatureBytes]

/-- If the call is refused with the dummy justification, the state is what it was. -/
def RefusesIntact (tp : TrustedCh) (nodes : Nodes) (block block0 block1 : JBlock) : Prop :=
  ∀ out tp', tp.TEEprepare nodes block block0 block1 = some (out, tp') → out = Just.default →
    Intact tp tp'

/-- What is locked once the chain of a certified parent has been recorded. -/
def lockOf (tp : TrustedCh) (block0 block1 : JBlock) : Hash × View :=
  if block0.just.getCHash == block1.hash then (block0.just.getCHash, block0.just.getCView)
  else (tp.lockh, tp.lockv)

/-- The chain of a block is what the component has prepared and locked already. -/
def Recorded (tp : TrustedCh) (block block0 block1 : JBlock) : Prop :=
  (block.just.getCHash, block.just.getCView) = (tp.preph, tp.prepv)
    ∧ tp.lockOf block0 block1 = (tp.lockh, tp.lockv)

/--
A call whose refusal cannot show.

If the call passes its checks with the certified parent, then its block agrees with the lock
that the chain leads to, or the chain is recorded already.
-/
def Harmless (tp : TrustedCh) (nodes : Nodes) (block block0 block1 : JBlock) : Prop :=
  tp.checks nodes block block0 = true → (block.just.getCHash == block0.hash) = true →
    (block.just.getCHash == (tp.lockOf block0 block1).1) = true
      ∨ (tp.lockOf block0 block1).2 < block.just.getCView
      ∨ tp.Recorded block block0 block1

/-- With the certified parent the chain is prepared, and its lock is taken over. -/
theorem storeChain_of_parent {tp : TrustedCh} {block block0 : JBlock} (block1 : JBlock)
    (parent : (block.just.getCHash == block0.hash) = true) :
    tp.storeChain block.just block0.just block0 block1
      = { tp with
          preph := block.just.getCHash
          prepv := block.just.getCView
          lockh := (tp.lockOf block0 block1).1
          lockv := (tp.lockOf block0 block1).2 } := by
  -- The lock moves only if the grandparent is the block that the parent certifies.
  cases grandparent : block0.just.getCHash == block1.hash <;>
    simp [storeChain, lockOf, parent, grandparent]

/-- Recording a chain leaves the state as it was exactly when the chain is recorded already. -/
theorem intact_storeChain_iff {tp : TrustedCh} {block block0 block1 : JBlock}
    (parent : (block.just.getCHash == block0.hash) = true) :
    Intact tp (tp.storeChain block.just block0.just block0 block1)
      ↔ tp.Recorded block block0 block1 := by
  rw [storeChain_of_parent block1 parent]
  constructor
  · intro same
    exact ⟨Prod.ext same.preph same.prepv, Prod.ext same.lockh same.lockv⟩
  · rintro ⟨prepared, locked⟩
    exact ⟨congrArg Prod.fst locked, congrArg Prod.snd locked, congrArg Prod.fst prepared,
      congrArg Prod.snd prepared, rfl, rfl⟩

omit [Hashing] [SignatureBytes] in
/-- A signed statement is not the dummy justification. -/
theorem sign_ne_default (tp : TrustedCh) (h1 h2 : Hash) (v2 : View) :
    (tp.sign h1 h2 v2).1 ≠ Just.default := by
  intro same
  have set := congrArg Just.set same
  simp [sign, Just.default] at set

/-- A refused vote leaves the state as it was exactly when its refusal cannot show. -/
theorem refusesIntact_iff (tp : TrustedCh) (nodes : Nodes) (block block0 block1 : JBlock) :
    RefusesIntact tp nodes block block0 block1 ↔ Harmless tp nodes block block0 block1 := by
  rcases tp.TEEprepare_cases nodes block block0 block1 with
    ⟨failed, answer⟩ | ⟨passed, ⟨rejected, answer⟩ | ⟨safe, answer⟩⟩
  · -- The checks come before anything is recorded.
    have harmless : Harmless tp nodes block block0 block1 := fun passed => by
      rw [failed] at passed
      cases passed
    refine iff_of_true (fun out tp' called _ => ?_) harmless
    rcases answer with thrown | refused
    · rw [thrown] at called
      cases called
    · rw [refused] at called
      obtain ⟨-, rfl⟩ : Just.default = out ∧ tp = tp' := by simpa using called
      exact Intact.refl tp
  · -- The test fails after the chain is recorded, so what counts is whether that is news.
    have exactly' : RefusesIntact tp nodes block block0 block1
        ↔ Intact tp (tp.storeChain block.just block0.just block0 block1) := by
      constructor
      · intro intact
        exact intact _ _ answer rfl
      · intro intact out tp' called _
        rw [answer] at called
        obtain ⟨-, rfl⟩ : Just.default = out
          ∧ tp.storeChain block.just block0.just block0 block1 = tp' := by simpa using called
        exact intact
    rw [exactly']
    -- Without the certified parent nothing is recorded at all.
    cases parent : block.just.getCHash == block0.hash with
    | false =>
      have same : tp.storeChain block.just block0.just block0 block1 = tp := by
        simp [storeChain, parent]
      rw [same]
      exact iff_of_true (Intact.refl tp) fun _ certified => by
        rw [parent] at certified
        cases certified
    | true =>
      rw [intact_storeChain_iff parent]
      -- The failed test is the one that `Harmless` asks for, so only a recorded chain is left.
      rw [storeChain_of_parent block1 parent] at rejected
      simp only [safeNode, Bool.or_eq_false_iff, decide_eq_false_iff_not] at rejected
      simp [Harmless, passed, parent, rejected.1, rejected.2]
  · -- The vote is signed, so there is no refusal, and the block agrees with the new lock.
    refine iff_of_true (fun out tp' called dummy => ?_) fun _ parent => ?_
    · rw [answer, Option.some.injEq] at called
      have signed : ((tp.storeChain block.just block0.just block0 block1).sign block.hash
          Hash.default 0).1 = out := congrArg Prod.fst called
      -- A signed statement is set, and the dummy is not.
      exact absurd (signed.trans dummy) (sign_ne_default _ _ _ _)
    · rw [storeChain_of_parent block1 parent] at safe
      simp only [safeNode, Bool.or_eq_true, decide_eq_true_eq] at safe
      rcases safe with same | later
      · exact .inl same
      · exact .inr (.inl later)

omit [Hashing] [SignatureBytes] in
/--
A component that locked view 4 and prepared view 5 refuses a block on one of view 3, but what
it has prepared goes back to view 3.
-/
theorem refusesIntact_lowerView :
    let _ := Checksum.hashing
    let _ := Checksum.signatureBytes
    let locked := component.after (init 0 0 Schedule.fourNodes.qsize) [.sign, prepareOf 5 4]
    let parent := JBlock.ofTransactions 3 Just.default 0 []
    ¬ RefusesIntact locked Schedule.fourNodes.nodes
      (JBlock.ofTransactions 1 (newviewOf parent.hash 3) 0 []) parent JBlock.default := by
  intro _ _ locked parent intact
  -- The call returns the dummy justification, and the prepared view has gone down to 3.
  have refused : (locked.TEEprepare Schedule.fourNodes.nodes
      (JBlock.ofTransactions 1 (newviewOf parent.hash 3) 0 []) parent JBlock.default).map
        (fun answer => (answer.1, answer.2.prepv)) = some (Just.default, 3) := by
    decide +kernel
  obtain ⟨⟨out, tp'⟩, answer, seen⟩ := Option.map_eq_some_iff.1 refused
  simp only [Prod.mk.injEq] at seen
  have same := (intact out tp' answer seen.1).prepv
  rw [seen.2] at same
  exact absurd same (by decide +kernel)

end TrustedCh

end ParaHotstuff
