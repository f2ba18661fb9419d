import ParaHotstuff.Data.Just

/-! The trusted component of the basic protocol. -/

namespace ParaHotstuff

/-- The state of the trusted component; the fields the source never reads are left out. -/
structure TrustedFun where
  lockh : Hash
  lockv : View
  preph : Hash
  prepv : View
  view : View
  phase : Phase1
  id : PID
  priv : KEY
  qsize : Nat
deriving DecidableEq, Repr

namespace TrustedFun

/-- The component starts at view 0 with genesis both locked and prepared. -/
def init (id : PID) (priv : KEY) (q : Nat) : TrustedFun where
  lockh := Hash.ofBool true
  lockv := 0
  preph := Hash.ofBool true
  prepv := 0
  view := 0
  phase := PH1_NEWVIEW
  id := id
  priv := priv
  qsize := q

/-- Move to the next phase; after the last phase the view moves on, as a 32-bit counter. -/
def increment (tf : TrustedFun) : TrustedFun :=
  if tf.phase == PH1_NEWVIEW then { tf with phase := PH1_PREPARE }
  else if tf.phase == PH1_PREPARE then { tf with phase := PH1_PRECOMMIT }
  else if tf.phase == PH1_PRECOMMIT then { tf with phase := PH1_COMMIT }
  -- The view ends with its commit phase.
  else if tf.phase == PH1_COMMIT then
    { tf with phase := PH1_NEWVIEW, view := (tf.view + 1) % wordSize }
  else tf

/-- The statement the component signs next about two blocks. -/
def statement (tf : TrustedFun) (h1 h2 : Hash) (v2 : View) : RData := ⟨h1, tf.view, h2, v2, tf.phase⟩

/-- The component's signature on a statement. -/
def signature (tf : TrustedFun) (r : RData) : Sign := Sign.ofText tf.priv tf.id r.toString

/-- Sign the next statement and move to the next phase. -/
def sign (tf : TrustedFun) (h1 h2 : Hash) (v2 : View) : Just × TrustedFun :=
  let rdata := tf.statement h1 h2 v2
  -- What is signed names the phase and view before the step.
  (Just.ofRData rdata [tf.signature rdata], tf.increment)

/-- Sign a new-view statement about the last prepared block. -/
def TEEsign (tf : TrustedFun) : Just × TrustedFun :=
  tf.sign (Hash.ofBool false) tf.preph tf.prepv

/-- Whether all signatures of a justification are on its round data. -/
def TEEverify (nodes : Nodes) (signs : Signs) (r : RData) : Bool :=
  signs.verify nodes r.toString

/-- The test that keeps a vote from conflicting with the lock. -/
def safeNode (tf : TrustedFun) (justh : Hash) (justv : View) : Bool :=
  justh == tf.lockh || tf.lockv < justv

/-- Sign a prepare vote for a block on a new-view justification. -/
def TEEprepare (tf : TrustedFun) (nodes : Nodes) (hash : Hash) (just : Just) :
    Option (Just × TrustedFun) :=
  match just.getRData with
  | none => none
  | some rd =>
    if TEEverify nodes just.signs rd && tf.view == rd.propv
        && rd.phase == PH1_NEWVIEW && tf.safeNode rd.justh rd.justv then
      some (tf.sign hash rd.justh rd.justv)
    else some (Just.default, tf)

/-- Record the certified block as prepared and, in either phase, as locked. -/
def storeBlock (tf : TrustedFun) (h : Hash) (v : View) : TrustedFun :=
  -- The source tests the constant PH1_PRECOMMIT here, which is never zero.
  let tf := { tf with preph := h, prepv := v }
  if PH1_PRECOMMIT != 0 then { tf with lockh := h, lockv := v } else tf

/-- Accept a certificate and sign the vote of the next phase. -/
def TEEstore (tf : TrustedFun) (nodes : Nodes) (just : Just) : Option (Just × TrustedFun) :=
  match just.getRData with
  | none => none
  | some rd =>
    if just.signs.length == tf.qsize && TEEverify nodes just.signs rd
        && tf.view == rd.propv
        && (rd.phase == PH1_PREPARE || rd.phase == PH1_PRECOMMIT) then
      -- The statement is in the component's own phase, whatever the phase of the certificate.
      some ((tf.storeBlock rd.proph rd.propv).sign rd.proph Hash.default 0)
    else some (Just.default, tf)

/-- Moving to the next phase changes only the phase and possibly the view. -/
theorem increment_cases (tf : TrustedFun) :
    ∃ phase view, tf.increment = { tf with phase, view }
      ∧ (view = tf.view ∨ view = (tf.view + 1) % wordSize) := by
  unfold increment
  split
  · exact ⟨PH1_PREPARE, tf.view, rfl, .inl rfl⟩
  split
  · exact ⟨PH1_PRECOMMIT, tf.view, rfl, .inl rfl⟩
  split
  · exact ⟨PH1_COMMIT, tf.view, rfl, .inl rfl⟩
  split
  · exact ⟨PH1_NEWVIEW, (tf.view + 1) % wordSize, rfl, .inr rfl⟩
  · exact ⟨tf.phase, tf.view, rfl, .inl rfl⟩

section Fields

variable (tf : TrustedFun)

@[simp] theorem lockh_increment : tf.increment.lockh = tf.lockh := by
  obtain ⟨_, _, moved, _⟩ := tf.increment_cases; simp [moved]

@[simp] theorem lockv_increment : tf.increment.lockv = tf.lockv := by
  obtain ⟨_, _, moved, _⟩ := tf.increment_cases; simp [moved]

@[simp] theorem preph_increment : tf.increment.preph = tf.preph := by
  obtain ⟨_, _, moved, _⟩ := tf.increment_cases; simp [moved]

@[simp] theorem prepv_increment : tf.increment.prepv = tf.prepv := by
  obtain ⟨_, _, moved, _⟩ := tf.increment_cases; simp [moved]

@[simp] theorem id_increment : tf.increment.id = tf.id := by
  obtain ⟨_, _, moved, _⟩ := tf.increment_cases; simp [moved]

@[simp] theorem priv_increment : tf.increment.priv = tf.priv := by
  obtain ⟨_, _, moved, _⟩ := tf.increment_cases; simp [moved]

@[simp] theorem qsize_increment : tf.increment.qsize = tf.qsize := by
  obtain ⟨_, _, moved, _⟩ := tf.increment_cases; simp [moved]

/-- A stored block is both prepared and locked, whatever the phase of its certificate. -/
@[simp] theorem storeBlock_eq (h : Hash) (v : View) :
    tf.storeBlock h v = { tf with preph := h, prepv := v, lockh := h, lockv := v } := rfl

end Fields

/-- The new-view phase is entered only together with the next view. -/
theorem increment_moves (tf : TrustedFun) :
    (tf.increment.view = tf.view ∧ tf.increment.phase ≠ PH1_NEWVIEW)
      ∨ (tf.increment.view = (tf.view + 1) % wordSize ∧ tf.increment.phase = PH1_NEWVIEW) := by
  unfold increment
  split
  · exact .inl ⟨rfl, show PH1_PREPARE ≠ PH1_NEWVIEW by decide⟩
  split
  · exact .inl ⟨rfl, show PH1_PRECOMMIT ≠ PH1_NEWVIEW by decide⟩
  split
  · exact .inl ⟨rfl, show PH1_COMMIT ≠ PH1_NEWVIEW by decide⟩
  split
  · exact .inr ⟨rfl, rfl⟩
  · rename_i other _ _ _
    exact .inl ⟨rfl, by simpa using other⟩

/-- The view stays a 32-bit number. -/
theorem view_increment_lt {tf : TrustedFun} (small : tf.view < wordSize) :
    tf.increment.view < wordSize := by
  obtain ⟨_, view, moved, same | next⟩ := tf.increment_cases
  · simpa only [moved, same] using small
  · simpa only [moved, next] using Nat.mod_lt _ (by decide)

/-- Whether the component votes on a justification, whatever the block. -/
def votesOn (tf : TrustedFun) (nodes : Nodes) (just : Just) : Bool :=
  match just.getRData with
  | none => false
  | some rd =>
    just.signs.verify nodes rd.toString && tf.view == rd.propv && rd.phase == PH1_NEWVIEW
      && tf.safeNode rd.justh rd.justv

/-- What a call to prepare does: it throws, refuses, or signs. -/
theorem TEEprepare_cases (tf : TrustedFun) (nodes : Nodes) (hash : Hash) (just : Just) :
    (tf.votesOn nodes just = false ∧ (tf.TEEprepare nodes hash just = none
        ∨ tf.TEEprepare nodes hash just = some (Just.default, tf)))
      ∨ ∃ rd, just.getRData = some rd ∧ tf.votesOn nodes just = true
        ∧ tf.TEEprepare nodes hash just = some (tf.sign hash rd.justh rd.justv) := by
  cases tagged : just.getRData with
  | none => exact .inl ⟨by simp [votesOn, tagged], .inl (by simp [TEEprepare, tagged])⟩
  | some rd =>
    cases passed : tf.votesOn nodes just with
    | false =>
      refine .inl ⟨rfl, .inr ?_⟩
      simp only [votesOn, tagged] at passed
      simp [TEEprepare, TEEverify, tagged, passed]
    | true =>
      refine .inr ⟨rd, rfl, rfl, ?_⟩
      simp only [votesOn, tagged] at passed
      simp [TEEprepare, TEEverify, tagged, passed]

/-- What a justification the component votes on has passed. -/
theorem votesOn_iff {tf : TrustedFun} {nodes : Nodes} {just : Just} {rd : RData}
    (tagged : just.getRData = some rd) :
    tf.votesOn nodes just = true ↔ just.signs.verify nodes rd.toString = true
      ∧ tf.view = rd.propv ∧ rd.phase = PH1_NEWVIEW
      ∧ (rd.justh.hash = tf.lockh.hash ∨ tf.lockv < rd.justv) := by
  simp only [votesOn, tagged, safeNode, Bool.and_eq_true, beq_iff_eq, Bool.or_eq_true,
    Hash.beq_iff, decide_eq_true_eq, and_assoc]

/-- What an accepting call to prepare has checked, and what it signs. -/
theorem TEEprepare_set {tf tf' : TrustedFun} {nodes : Nodes} {hash : Hash} {just out : Just}
    (called : tf.TEEprepare nodes hash just = some (out, tf')) (accepted : out.set = true) :
    ∃ rd, just.getRData = some rd ∧ just.signs.verify nodes rd.toString = true
      ∧ tf.view = rd.propv ∧ rd.phase = PH1_NEWVIEW
      ∧ (rd.justh.hash = tf.lockh.hash ∨ tf.lockv < rd.justv)
      ∧ tf.sign hash rd.justh rd.justv = (out, tf') := by
  -- The default justification returned on failure is not set.
  unfold TEEprepare at called
  cases tagged : just.getRData with
  | none => simp [tagged] at called
  | some rd =>
    simp only [tagged] at called
    split at called
    · rename_i checks
      simp only [Bool.and_eq_true, beq_iff_eq, safeNode, Bool.or_eq_true, Hash.beq_iff,
        decide_eq_true_eq] at checks
      exact ⟨rd, rfl, checks.1.1.1, checks.1.1.2, checks.1.2, checks.2, by simpa using called⟩
    · simp only [Option.some.injEq, Prod.mk.injEq] at called
      rw [← called.1] at accepted
      exact absurd accepted (by decide)

/-- A refused call to prepare leaves the component as it was. -/
theorem TEEprepare_unset {tf tf' : TrustedFun} {nodes : Nodes} {hash : Hash} {just out : Just}
    (called : tf.TEEprepare nodes hash just = some (out, tf')) (refused : out.set = false) :
    out = Just.default ∧ tf' = tf := by
  unfold TEEprepare at called
  cases tagged : just.getRData with
  | none => simp [tagged] at called
  | some rd =>
    simp only [tagged] at called
    split at called
    · simp only [Option.some.injEq] at called
      have signed : out = (tf.sign hash rd.justh rd.justv).1 := by rw [called]
      rw [signed] at refused
      cases refused
    · simp only [Option.some.injEq, Prod.mk.injEq] at called
      exact ⟨called.1.symm, called.2.symm⟩

/-- What an accepting call to store has checked, and what it signs. -/
theorem TEEstore_set {tf tf' : TrustedFun} {nodes : Nodes} {just out : Just}
    (called : tf.TEEstore nodes just = some (out, tf')) (accepted : out.set = true) :
    ∃ rd, just.getRData = some rd ∧ just.signs.length = tf.qsize
      ∧ just.signs.verify nodes rd.toString = true ∧ tf.view = rd.propv
      ∧ (rd.phase = PH1_PREPARE ∨ rd.phase = PH1_PRECOMMIT)
      ∧ (tf.storeBlock rd.proph rd.propv).sign rd.proph Hash.default 0 = (out, tf') := by
  unfold TEEstore at called
  cases tagged : just.getRData with
  | none => simp [tagged] at called
  | some rd =>
    simp only [tagged] at called
    split at called
    · rename_i checks
      simp only [Bool.and_eq_true, beq_iff_eq, Bool.or_eq_true] at checks
      exact ⟨rd, rfl, checks.1.1.1, checks.1.1.2, checks.1.2, checks.2, by simpa using called⟩
    · simp only [Option.some.injEq, Prod.mk.injEq] at called
      rw [← called.1] at accepted
      exact absurd accepted (by decide)

/-- A refused call to store leaves the component as it was. -/
theorem TEEstore_unset {tf tf' : TrustedFun} {nodes : Nodes} {just out : Just}
    (called : tf.TEEstore nodes just = some (out, tf')) (refused : out.set = false) :
    out = Just.default ∧ tf' = tf := by
  unfold TEEstore at called
  cases tagged : just.getRData with
  | none => simp [tagged] at called
  | some rd =>
    simp only [tagged] at called
    split at called
    · simp only [Option.some.injEq] at called
      have signed : out = ((tf.storeBlock rd.proph rd.propv).sign rd.proph
        Hash.default 0).1 := by rw [called]
      rw [signed] at refused
      cases refused
    · simp only [Option.some.injEq, Prod.mk.injEq] at called
      exact ⟨called.1.symm, called.2.symm⟩

end TrustedFun

end ParaHotstuff
