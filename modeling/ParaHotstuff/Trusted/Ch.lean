import ParaHotstuff.Data.Block

/-! The trusted component of the chained protocol. -/

namespace ParaHotstuff

/-- The state of the trusted component of the chained protocol. -/
structure TrustedCh where
  lockh : Hash
  lockv : View
  preph : Hash
  prepv : View
  view : View
  phase : Phase1
  id : PID
  priv : KEY
  qsize : Nat
deriving DecidableEq, Repr

namespace TrustedCh

/-- The component starts at view 0 with the genesis block both locked and prepared. -/
def init [Hashing] [SignatureBytes] (id : PID) (priv : KEY) (q : Nat) : TrustedCh where
  lockh := JBlock.default.hash
  lockv := 0
  preph := JBlock.default.hash
  prepv := 0
  view := 0
  phase := PH1_NEWVIEW
  id := id
  priv := priv
  qsize := q

/-- Move to the next phase; the view moves on after the new-view phase, as a 32-bit counter. -/
def increment (tp : TrustedCh) : TrustedCh :=
  if tp.phase == PH1_PREPARE then { tp with phase := PH1_NEWVIEW }
  -- The view ends with its new-view phase.
  else if tp.phase == PH1_NEWVIEW then
    { tp with phase := PH1_PREPARE, view := (tp.view + 1) % wordSize }
  else tp

/-- The component's signature on a statement. -/
def signature (tp : TrustedCh) (r : RData) : Sign := Sign.ofText tp.priv tp.id r.toString

/-- Sign the next statement and move to the next phase. -/
def sign (tp : TrustedCh) (h1 h2 : Hash) (v2 : View) : Just × TrustedCh :=
  let rdata : RData := ⟨h1, tp.view, h2, v2, tp.phase⟩
  (Just.ofRData rdata [tp.signature rdata], tp.increment)

/-- Sign a new-view statement about the last prepared block. -/
def TEEsign (tp : TrustedCh) : Just × TrustedCh :=
  tp.sign (Hash.ofBool false) tp.preph tp.prepv

/-- Prepare the block a justification certifies, and lock the one certified in that block. -/
def storeChain [Hashing] [SignatureBytes] (tp : TrustedCh) (just just0 : Just)
    (block0 block1 : JBlock) : TrustedCh :=
  -- The handler hands over the blocks; the component checks that they are the certified ones.
  if just.getCHash == block0.hash then
    let tp := { tp with preph := just.getCHash, prepv := just.getCView }
    if just0.getCHash == block1.hash then
      { tp with lockh := just0.getCHash, lockv := just0.getCView }
    else tp
  else tp

/-- The test that keeps a vote from conflicting with the lock. -/
def safeNode (tp : TrustedCh) (just : Just) : Bool :=
  just.getCHash == tp.lockh || tp.lockv < just.getCView

/-- Vote for a block, given the blocks its justification and that block's one certify. -/
def TEEprepare [Hashing] [SignatureBytes] (tp : TrustedCh) (nodes : Nodes)
    (block block0 block1 : JBlock) : Option (Just × TrustedCh) :=
  let just := block.just
  let just0 := block0.just
  match just.getRData with
  | none => none
  | some rd =>
    if just.signs.verify nodes rd.toString && tp.view == (rd.propv + 1) % wordSize
        && just.wellFormed tp.qsize && just0.wellFormed tp.qsize then
      -- The lock moves before the test that is to respect it.
      let tp := tp.storeChain just just0 block0 block1
      if tp.safeNode just then some (tp.sign block.hash Hash.default 0)
      else some (Just.default, tp)
    else some (Just.default, tp)

/-- Moving to the next phase changes only the phase and possibly the view. -/
theorem increment_cases (tp : TrustedCh) :
    ∃ phase view, tp.increment = { tp with phase, view } := by
  unfold increment
  split
  · exact ⟨PH1_NEWVIEW, tp.view, rfl⟩
  split
  · exact ⟨PH1_PREPARE, (tp.view + 1) % wordSize, rfl⟩
  · exact ⟨tp.phase, tp.view, rfl⟩

section Fields

variable (tp : TrustedCh)

@[simp] theorem lockh_increment : tp.increment.lockh = tp.lockh := by
  obtain ⟨_, _, moved⟩ := tp.increment_cases; simp [moved]

@[simp] theorem lockv_increment : tp.increment.lockv = tp.lockv := by
  obtain ⟨_, _, moved⟩ := tp.increment_cases; simp [moved]

@[simp] theorem preph_increment : tp.increment.preph = tp.preph := by
  obtain ⟨_, _, moved⟩ := tp.increment_cases; simp [moved]

@[simp] theorem prepv_increment : tp.increment.prepv = tp.prepv := by
  obtain ⟨_, _, moved⟩ := tp.increment_cases; simp [moved]

@[simp] theorem qsize_increment : tp.increment.qsize = tp.qsize := by
  obtain ⟨_, _, moved⟩ := tp.increment_cases; simp [moved]

end Fields

variable [Hashing] [SignatureBytes]

/-- Recording a chain changes what is prepared and locked, and nothing else. -/
theorem storeChain_frame (tp : TrustedCh) (just just0 : Just) (block0 block1 : JBlock) :
    (tp.storeChain just just0 block0 block1).view = tp.view
      ∧ (tp.storeChain just just0 block0 block1).phase = tp.phase := by
  unfold storeChain
  split
  · split <;> exact ⟨rfl, rfl⟩
  · exact ⟨rfl, rfl⟩

/-- The checks a block passes before the component records the chain it extends. -/
def checks (tp : TrustedCh) (nodes : Nodes) (block block0 : JBlock) : Bool :=
  match block.just.getRData with
  | none => false
  | some rd =>
    block.just.signs.verify nodes rd.toString && tp.view == (rd.propv + 1) % wordSize
      && block.just.wellFormed tp.qsize && block0.just.wellFormed tp.qsize

/-- What a call to prepare does: it throws, refuses at once, refuses after recording, or signs. -/
theorem TEEprepare_cases (tp : TrustedCh) (nodes : Nodes) (block block0 block1 : JBlock) :
    (tp.checks nodes block block0 = false
      ∧ (tp.TEEprepare nodes block block0 block1 = none
        ∨ tp.TEEprepare nodes block block0 block1 = some (Just.default, tp)))
    ∨ (tp.checks nodes block block0 = true
      ∧ ((tp.storeChain block.just block0.just block0 block1).safeNode block.just = false
        ∧ tp.TEEprepare nodes block block0 block1
          = some (Just.default, tp.storeChain block.just block0.just block0 block1)
      ∨ (tp.storeChain block.just block0.just block0 block1).safeNode block.just = true
        ∧ tp.TEEprepare nodes block block0 block1
          = some ((tp.storeChain block.just block0.just block0 block1).sign block.hash
            Hash.default 0))) := by
  cases tagged : block.just.getRData with
  | none => exact .inl ⟨by simp [checks, tagged], .inl (by simp [TEEprepare, tagged])⟩
  | some rd =>
    cases passed : tp.checks nodes block block0 with
    | false =>
      refine .inl ⟨rfl, .inr ?_⟩
      simp only [checks, tagged] at passed
      simp [TEEprepare, tagged, passed]
    | true =>
      simp only [checks, tagged] at passed
      refine .inr ⟨rfl, ?_⟩
      cases safe : (tp.storeChain block.just block0.just block0 block1).safeNode block.just with
      | false => exact .inl ⟨rfl, by simp [TEEprepare, tagged, passed, safe]⟩
      | true => exact .inr ⟨rfl, by simp [TEEprepare, tagged, passed, safe]⟩

/-- What an accepting call to prepare has checked, and what it signs. -/
theorem TEEprepare_set {tp tp' : TrustedCh} {nodes : Nodes}
    {block block0 block1 : JBlock} {out : Just}
    (called : tp.TEEprepare nodes block block0 block1 = some (out, tp'))
    (accepted : out.set = true) :
    ∃ rd, block.just.getRData = some rd ∧ block.just.signs.verify nodes rd.toString = true
      ∧ tp.view = (rd.propv + 1) % wordSize ∧ block.just.wellFormed tp.qsize = true
      ∧ block0.just.wellFormed tp.qsize = true
      ∧ (tp.storeChain block.just block0.just block0 block1).safeNode block.just = true
      ∧ (tp.storeChain block.just block0.just block0 block1).sign block.hash Hash.default 0
        = (out, tp') := by
  -- The default justification returned on failure is not set.
  unfold TEEprepare at called
  cases tagged : block.just.getRData with
  | none => simp [tagged] at called
  | some rd =>
    simp only [tagged] at called
    split at called
    · rename_i checks
      simp only [Bool.and_eq_true, beq_iff_eq] at checks
      obtain ⟨⟨⟨verified, view⟩, formed⟩, formed0⟩ := checks
      split at called
      · rename_i safe
        exact ⟨rd, rfl, verified, view, formed, formed0, safe, by simpa using called⟩
      · simp only [Option.some.injEq, Prod.mk.injEq] at called
        rw [← called.1] at accepted
        exact absurd accepted (by decide)
    · simp only [Option.some.injEq, Prod.mk.injEq] at called
      rw [← called.1] at accepted
      exact absurd accepted (by decide)

end TrustedCh

end ParaHotstuff
