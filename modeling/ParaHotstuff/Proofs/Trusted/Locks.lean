import ParaHotstuff.Trusted.Calls
import ParaHotstuff.Data.Checksum
import ParaHotstuff.Handler.Schedule

/-! When the components of the basic and the chained protocol hold the locks they should. -/

namespace ParaHotstuff

namespace TrustedFun

/-- The certificate a call makes the component store, if it accepts one. -/
def certificate (tf : TrustedFun) : Call → Option RData
  | .store nodes just =>
    match tf.TEEstore nodes just with
    | some (out, _) => if out.set then just.getRData else none
    | none => none
  | _ => none

/-- The certificates a sequence of calls makes the component store, in order. -/
def certificates (tf : TrustedFun) (calls : List Call) : List RData :=
  component.observed certificate tf calls

/-- The block and view of the last certificate; genesis in view 0 if there is none. -/
def mostRecent (certs : List RData) : Hash × View :=
  match certs.getLast? with
  | some rd => (rd.proph, rd.propv)
  | none => (Hash.ofBool true, 0)

/-- What should be locked: the block of the last pre-commit certificate stored. -/
def LockExact (tf : TrustedFun) (calls : List Call) : Prop :=
  ((component.after tf calls).lockh, (component.after tf calls).lockv)
    = mostRecent ((tf.certificates calls).filter (·.phase == PH1_PRECOMMIT))

/-- What should be prepared: the block of the last certificate stored, of either phase. -/
def PreparedExact (tf : TrustedFun) (calls : List Call) : Prop :=
  ((component.after tf calls).preph, (component.after tf calls).prepv)
    = mostRecent (tf.certificates calls)

/-- Every prepare certificate stored is for the block and view that are locked already. -/
def LocksNothingEarly (tf : TrustedFun) (calls : List Call) : Prop :=
  ∀ step ∈ component.steps tf calls, ∀ rd, certificate step.1 step.2 = some rd →
    rd.phase = PH1_PREPARE → (rd.proph, rd.propv) = (step.1.lockh, step.1.lockv)

/-- A certificate stored is both prepared and locked; any other call leaves both as they are. -/
theorem store_cases (tf : TrustedFun) (call : Call) :
    (∃ rd, certificate tf call = some rd ∧ (rd.phase = PH1_PREPARE ∨ rd.phase = PH1_PRECOMMIT)
        ∧ (component.next tf call).preph = rd.proph ∧ (component.next tf call).prepv = rd.propv
        ∧ (component.next tf call).lockh = rd.proph ∧ (component.next tf call).lockv = rd.propv)
      ∨ (certificate tf call = none
        ∧ (component.next tf call).preph = tf.preph ∧ (component.next tf call).prepv = tf.prepv
        ∧ (component.next tf call).lockh = tf.lockh ∧ (component.next tf call).lockv = tf.lockv) := by
  cases call with
  | sign =>
    have next : component.next tf .sign = tf.increment := rfl
    exact .inr ⟨rfl, by simp [next], by simp [next], by simp [next], by simp [next]⟩
  | prepare nodes hash just =>
    rcases answered : tf.TEEprepare nodes hash just with _ | ⟨out, tf'⟩
    · have next : component.next tf (.prepare nodes hash just) = tf :=
        Component.next_of_throw answered
      rw [next]
      exact .inr ⟨rfl, rfl, rfl, rfl, rfl⟩
    have next : component.next tf (.prepare nodes hash just) = tf' :=
      Component.next_of_answer answered
    rw [next]
    cases set : out.set with
    | true =>
      -- An accepted vote only moves the phase on.
      obtain ⟨rd, -, -, -, -, -, signed⟩ := TEEprepare_set answered set
      simp only [TrustedFun.sign, Prod.mk.injEq] at signed
      rw [← signed.2]
      exact .inr ⟨rfl, by simp, by simp, by simp, by simp⟩
    | false =>
      obtain ⟨-, rfl⟩ := TEEprepare_unset answered set
      exact .inr ⟨rfl, rfl, rfl, rfl, rfl⟩
  | store nodes just =>
    rcases answered : tf.TEEstore nodes just with _ | ⟨out, tf'⟩
    · have next : component.next tf (.store nodes just) = tf := Component.next_of_throw answered
      rw [next]
      exact .inr ⟨by simp [certificate, answered], rfl, rfl, rfl, rfl⟩
    have next : component.next tf (.store nodes just) = tf' := Component.next_of_answer answered
    rw [next]
    cases set : out.set with
    | true =>
      obtain ⟨rd, tagged, -, -, -, phase, signed⟩ := TEEstore_set answered set
      simp only [TrustedFun.sign, storeBlock_eq, Prod.mk.injEq] at signed
      rw [← signed.2]
      exact .inl ⟨rd, by simp [certificate, answered, set, tagged], phase,
        by simp, by simp, by simp, by simp⟩
    | false =>
      obtain ⟨-, rfl⟩ := TEEstore_unset answered set
      exact .inr ⟨by simp [certificate, answered, set], rfl, rfl, rfl, rfl⟩

/-- One more certificate is the most recent one. -/
theorem mostRecent_append (certs : List RData) (rd : RData) :
    mostRecent (certs ++ [rd]) = (rd.proph, rd.propv) := by
  simp [mostRecent]

/-- The certificates of one more call. -/
theorem certificates_append (tf : TrustedFun) (calls : List Call) (call : Call) :
    tf.certificates (calls ++ [call])
      = tf.certificates calls ++ (certificate (component.after tf calls) call).toList :=
  Component.observed_concat certificate tf calls call

/-- From the start the last certificate stored, of either phase, is both prepared and locked. -/
theorem stored_mostRecent (id : PID) (priv : KEY) (q : Nat) (calls : List Call) :
    PreparedExact (init id priv q) calls
      ∧ ((component.after (init id priv q) calls).lockh,
          (component.after (init id priv q) calls).lockv)
        = mostRecent ((init id priv q).certificates calls) := by
  -- Induction on the number of calls made, from the last one.
  induction calls using List.reverseRecOn with
  | nil => exact ⟨rfl, rfl⟩
  | append_singleton calls call ih =>
    obtain ⟨prepared, locked⟩ := ih
    simp only [PreparedExact, Component.after_concat, certificates_append] at prepared ⊢
    rcases store_cases (component.after (init id priv q) calls) call with
      ⟨rd, stored, -, preph, prepv, lockh, lockv⟩ | ⟨other, preph, prepv, lockh, lockv⟩
    · rw [stored, preph, prepv, lockh, lockv, Option.toList_some, mostRecent_append]
      exact ⟨rfl, rfl⟩
    · simp only [other, Option.toList_none, List.append_nil, preph, prepv, lockh, lockv]
      exact ⟨prepared, locked⟩

/--
The component always remembers the last certificate as prepared.

It holds the right lock throughout a sequence of calls exactly when each prepare certificate
of the sequence is for what is locked already.
-/
theorem lockExact_iff (id : PID) (priv : KEY) (q : Nat) (calls : List Call) :
    (∀ made, made <+: calls → PreparedExact (init id priv q) made)
    ∧ ((∀ made, made <+: calls → LockExact (init id priv q) made)
      ↔ LocksNothingEarly (init id priv q) calls) := by
  refine ⟨fun made _ => (stored_mostRecent id priv q made).1, ?_, ?_⟩
  · intro exact step member rd stored phase
    -- The pre-commit certificates are the same before and after a prepare certificate.
    obtain ⟨made, rest, split, found⟩ := Component.mem_steps.1 member
    have before := exact made ⟨step.2 :: rest, split.symm⟩
    have after := exact (made ++ [step.2]) ⟨rest, by simp [split]⟩
    simp only [LockExact, Component.after_concat, certificates_append, ← found, stored] at before after
    have other : (rd.phase == PH1_PRECOMMIT) = false := by rw [phase]; decide
    simp only [Option.toList_some, List.filter_append, List.filter_cons, other,
      List.filter_nil, List.append_nil, Bool.false_eq_true, if_false] at after
    rcases store_cases step.1 step.2 with
      ⟨rd', stored', -, -, -, lockh, lockv⟩ | ⟨none', -⟩
    · obtain rfl := Option.some.inj (stored.symm.trans stored')
      rw [lockh, lockv] at after
      rw [before, ← after]
    · rw [stored] at none'
      cases none'
  · intro early made
    -- Induction on the calls made so far.
    induction made using List.reverseRecOn with
    | nil => exact fun _ => rfl
    | append_singleton made call ih =>
      intro within
      obtain ⟨rest, split⟩ := within
      have before := ih ⟨call :: rest, by rw [← split]; simp⟩
      simp only [LockExact, Component.after_concat, certificates_append, List.filter_append] at before ⊢
      rcases store_cases (component.after (init id priv q) made) call with
        ⟨rd, stored, phase, -, -, lockh, lockv⟩ | ⟨other, -, -, lockh, lockv⟩
      · simp only [stored, Option.toList_some, lockh, lockv]
        rcases phase with phase | phase
        · -- A prepare certificate is for the locked block, so nothing changes.
          have member : (component.after (init id priv q) made, call)
              ∈ component.steps (init id priv q) calls :=
            Component.mem_steps.2 ⟨made, rest, by rw [← split]; simp, rfl⟩
          have other : (rd.phase == PH1_PRECOMMIT) = false := by rw [phase]; decide
          simp only [List.filter_cons, other, List.filter_nil, List.append_nil,
            Bool.false_eq_true, if_false]
          rw [← before]
          exact early _ member rd stored phase
        · have same : (rd.phase == PH1_PRECOMMIT) = true := by rw [phase]; decide
          simp only [List.filter_cons, same, List.filter_nil, if_true, mostRecent_append]
      · simpa only [other, Option.toList_none, List.filter_nil, List.append_nil, lockh, lockv]
          using before

/-- A prepare certificate of view 0, signed by three nodes, for a block that is not genesis. -/
def prepareCertificate : Just :=
  let rd : RData := ⟨⟨Checksum.digest [1], true⟩, 0, Hash.default, 0, PH1_PREPARE⟩
  Just.ofRData rd ([1, 2, 3].map fun p => Sign.ofText p p rd.toString)

/-- One prepare certificate moves the lock of a component that has seen no pre-commit certificate. -/
theorem lockExact_prepareCertificate :
    ¬ LockExact (init 0 0 Schedule.fourNodes.qsize)
      [.store Schedule.fourNodes.nodes prepareCertificate] := by
  unfold LockExact
  decide +kernel

end TrustedFun

namespace TrustedCh

variable [Hashing] [SignatureBytes]

/-- A block that a call signs passes the test against the lock held before the call. -/
def SignsSafely (tp : TrustedCh) (call : Call) : Prop :=
  match call with
  | .sign => True
  | .prepare _ block _ _ =>
    (component.statement tp call).isSome = true → tp.safeNode block.just = true

/-- What respecting the lock means: it never moves back, and votes satisfy the test against it. -/
structure KeepsLocks (tp : TrustedCh) (calls : List Call) : Prop where
  /-- The prepared and the locked view do not decrease along the calls. -/
  monotone : ∀ made more, made ++ more <+: calls →
    (component.after tp made).prepv ≤ (component.after tp (made ++ more)).prepv
      ∧ (component.after tp made).lockv ≤ (component.after tp (made ++ more)).lockv
  /-- Every call signs safely in the state it finds. -/
  safe : ∀ made call, made ++ [call] <+: calls → SignsSafely (component.after tp made) call

/--
A call that does not take the component back.

If the call passes its checks and gives the block that is certified, then that block is not
older than the prepared one; if it also gives the block certified in that one, then this is
not older than the locked one. A block that certifies itself must pass the test as well.
-/
def GoesForward (tp : TrustedCh) : Call → Prop
  | .sign => True
  | .prepare nodes block block0 block1 =>
    tp.checks nodes block block0 = true → (block.just.getCHash == block0.hash) = true →
      tp.prepv ≤ block.just.getCView
      ∧ ((block0.just.getCHash == block1.hash) = true →
        tp.lockv ≤ block0.just.getCView
        ∧ ((block.just.getCHash == block0.just.getCHash) = true →
          tp.safeNode block.just = true))

/-- What recording a chain does, by which of the given blocks are the certified ones. -/
theorem storeChain_cases (tp : TrustedCh) (just just0 : Just) (block0 block1 : JBlock) :
    ((just.getCHash == block0.hash) = false ∧ tp.storeChain just just0 block0 block1 = tp)
    ∨ ((just.getCHash == block0.hash) = true ∧ (just0.getCHash == block1.hash) = false
      ∧ tp.storeChain just just0 block0 block1
        = { tp with preph := just.getCHash, prepv := just.getCView })
    ∨ ((just.getCHash == block0.hash) = true ∧ (just0.getCHash == block1.hash) = true
      ∧ tp.storeChain just just0 block0 block1
        = { tp with
            preph := just.getCHash
            prepv := just.getCView
            lockh := just0.getCHash
            lockv := just0.getCView }) := by
  cases parent : just.getCHash == block0.hash with
  | false => exact .inl ⟨rfl, by simp [storeChain, parent]⟩
  | true =>
    cases grandparent : just0.getCHash == block1.hash with
    | false => exact .inr (.inl ⟨rfl, rfl, by simp [storeChain, parent, grandparent]⟩)
    | true => exact .inr (.inr ⟨rfl, rfl, by simp [storeChain, parent, grandparent]⟩)

/-- A call that is refused at once goes forward, because it does nothing. -/
theorem goesForward_of_failed {tp : TrustedCh} {nodes : Nodes} {block block0 block1 : JBlock}
    (failed : tp.checks nodes block block0 = false) :
    GoesForward tp (.prepare nodes block block0 block1) := by
  intro passed
  rw [failed] at passed
  cases passed

/-- A call keeps the locks exactly when it goes forward. -/
theorem goesForward_iff (tp : TrustedCh) (call : Call) :
    GoesForward tp call ↔
      tp.prepv ≤ (component.next tp call).prepv ∧ tp.lockv ≤ (component.next tp call).lockv
      ∧ SignsSafely tp call := by
  cases call with
  | sign =>
    have next : component.next tp .sign = tp.increment := rfl
    constructor
    · intro _
      exact ⟨by simp [next], by simp [next], trivial⟩
    · intro _
      trivial
  | prepare nodes block block0 block1 =>
    rcases prepare_cases tp nodes block block0 block1 with
      ⟨failed, silent, next⟩ | ⟨passed, refused, silent, next⟩ | ⟨passed, safe, made, next⟩
    · rw [next]
      constructor
      · intro _
        exact ⟨Nat.le_refl _, Nat.le_refl _, fun made => by simp [silent] at made⟩
      · intro _
        exact goesForward_of_failed failed
    · -- Nothing is signed, but the chain is recorded.
      have quiet : SignsSafely tp (.prepare nodes block block0 block1) := fun made => by
        simp [silent] at made
      rw [next]
      simp only [GoesForward, passed, quiet, and_true, forall_const]
      rcases tp.storeChain_cases block.just block0.just block0 block1 with
        ⟨parent, stored⟩ | ⟨parent, grandparent, stored⟩ | ⟨parent, grandparent, stored⟩
      · simp [parent, stored]
      · simp [parent, grandparent, stored]
      · -- The refused block does not certify what its parent certifies.
        rw [stored] at refused
        simp only [safeNode, Bool.or_eq_false_iff] at refused
        simp [parent, grandparent, stored, refused.1]
    · have signs : SignsSafely tp (.prepare nodes block block0 block1)
          ↔ tp.safeNode block.just = true := by
        simp [SignsSafely, made]
      rw [next]
      simp only [GoesForward, passed, signs, prepv_increment, lockv_increment, forall_const]
      rcases tp.storeChain_cases block.just block0.just block0 block1 with
        ⟨parent, stored⟩ | ⟨parent, grandparent, stored⟩ | ⟨parent, grandparent, stored⟩
      · -- The lock did not move, so the block passed the test against the old one.
        rw [stored] at safe
        simp [parent, stored, safe]
      · rw [stored] at safe
        have held : tp.safeNode block.just = true := safe
        simp [parent, grandparent, stored, held]
      · rw [stored] at safe
        simp only [parent, grandparent, stored, forall_const]
        constructor
        · rintro ⟨prepared, locked, itself⟩
          refine ⟨prepared, locked, ?_⟩
          -- The block passed the test against the new lock, by its hash or by its view.
          simp only [safeNode, Bool.or_eq_true, decide_eq_true_eq] at safe
          rcases safe with same | higher
          · exact itself same
          · simp only [safeNode, Bool.or_eq_true, decide_eq_true_eq]
            exact .inr (Nat.lt_of_le_of_lt locked higher)
        · rintro ⟨prepared, locked, held⟩
          exact ⟨prepared, locked, fun _ => held⟩

/-- Where every call goes forward, the prepared and the locked view do not decrease. -/
theorem monotone_of_goesForward {tp : TrustedCh} {calls : List Call}
    (forward : ∀ step ∈ component.steps tp calls, GoesForward step.1 step.2) :
    tp.prepv ≤ (component.after tp calls).prepv ∧ tp.lockv ≤ (component.after tp calls).lockv := by
  induction calls generalizing tp with
  | nil => exact ⟨Nat.le_refl _, Nat.le_refl _⟩
  | cons call calls ih =>
    obtain ⟨prepared, locked, -⟩ := (goesForward_iff tp call).1 (forward (tp, call)
      List.mem_cons_self)
    obtain ⟨prepared', locked'⟩ := @ih (component.next tp call)
      fun step member => forward step (List.mem_cons_of_mem _ member)
    exact ⟨Nat.le_trans prepared prepared', Nat.le_trans locked locked'⟩

/-- Throughout a sequence of calls the locks are kept exactly when every call goes forward. -/
theorem keepsLocks_iff (id : PID) (priv : KEY) (q : Nat) (calls : List Call) :
    KeepsLocks (init id priv q) calls ↔
      ∀ step ∈ component.steps (init id priv q) calls, GoesForward step.1 step.2 := by
  constructor
  · rintro ⟨monotone, safe⟩ step member
    obtain ⟨made, rest, split, found⟩ := Component.mem_steps.1 member
    have within : made ++ [step.2] <+: calls := ⟨rest, by simp [split]⟩
    obtain ⟨prepared, locked⟩ := monotone made [step.2] within
    rw [Component.after_append, ← found] at prepared locked
    have signed := safe made step.2 within
    rw [← found] at signed
    exact (goesForward_iff step.1 step.2).2 ⟨prepared, locked, signed⟩
  · intro forward
    constructor
    · rintro made more ⟨rest, split⟩
      rw [Component.after_append]
      -- The calls made later are steps of the whole sequence.
      apply monotone_of_goesForward
      intro step member
      obtain ⟨earlier, later, divided, found⟩ := Component.mem_steps.1 member
      refine forward step (Component.mem_steps.2 ⟨made ++ earlier, later ++ rest, ?_, ?_⟩)
      · rw [← split, divided]
        simp
      · rw [found, Component.after_append]
    · rintro made call ⟨rest, split⟩
      have member : (component.after (init id priv q) made, call)
          ∈ component.steps (init id priv q) calls :=
        Component.mem_steps.2 ⟨made, rest, by rw [← split]; simp, rfl⟩
      exact ((goesForward_iff _ call).1 (forward _ member)).2.2

omit [Hashing] [SignatureBytes] in
/-- A new-view justification of view 0 by node 1 that certifies a block in some view. -/
def newviewOf (h : Hash) (v : View) : Just :=
  let rd : RData := ⟨Hash.ofBool false, 0, h, v, PH1_NEWVIEW⟩
  Just.ofRData rd [Sign.ofText 1 1 rd.toString]

/-- A call to prepare for a block that certifies a block of view v, and that one a block of view w. -/
def prepareOf (v w : View) : Call :=
  let block1 := JBlock.default
  let block0 := JBlock.ofTransactions v (newviewOf block1.hash w) 0 []
  .prepare Schedule.fourNodes.nodes
    (JBlock.ofTransactions 1 (newviewOf block0.hash v) 0 []) block0 block1

omit [Hashing] [SignatureBytes] in
/-- In view 1, a block on a lower certified view takes the prepared and the locked view back. -/
theorem keepsLocks_lowerView :
    let _ := Checksum.hashing
    let _ := Checksum.signatureBytes
    ¬ KeepsLocks (init 0 0 Schedule.fourNodes.qsize) [.sign, prepareOf 5 4, prepareOf 3 2] := by
  intro _ _ kept
  have back := (kept.monotone [.sign, prepareOf 5 4] [prepareOf 3 2] ⟨[], rfl⟩).2
  exact absurd back (by decide +kernel)

end TrustedCh

end ParaHotstuff
