import ParaHotstuff.Data.Block
import Mathlib.Data.List.AList

/-! The trusted component of the parallel protocol. -/

namespace ParaHotstuff

/-- What the component remembers of a pre-commit certificate of the current view. -/
structure PrecommitData where
  blockHash : Hash
  view : View
deriving DecidableEq, Repr

/-- The state of the trusted component of the parallel protocol. -/
structure TrustedPara where
  latestPreparedHash : Hash
  latestPreparedView : View
  latestPreparedSeqNumber : Nat
  prefixLockedHash : Hash
  prefixLockedView : View
  prefixLockedSeqNumber : Nat
  view : View
  phase : Phase1
  /-- Hashes order and compare by their bytes, so the digest is the key. -/
  blockPhases : AList fun _ : Digest => Phase1
  precommitData : AList fun _ : Nat => PrecommitData
  id : PID
  priv : KEY
  qsize : Nat

namespace TrustedPara

/-- The component starts at view 0 with genesis both locked and prepared. -/
def init (id : PID) (priv : KEY) (q : Nat) : TrustedPara where
  latestPreparedHash := Hash.ofBool true
  latestPreparedView := 0
  latestPreparedSeqNumber := 0
  prefixLockedHash := Hash.ofBool true
  prefixLockedView := 0
  prefixLockedSeqNumber := 0
  view := 0
  phase := PH1_NEWVIEW
  blockPhases := ∅
  precommitData := ∅
  id := id
  priv := priv
  qsize := q

/-- Enter a view at its new-view phase; the lock and its slot number stay as they are. -/
def changeView (tp : TrustedPara) (v : View) : TrustedPara :=
  { tp with view := v, phase := PH1_NEWVIEW, blockPhases := ∅, precommitData := ∅ }

/-- Move on to the next view, as a 32-bit counter; here the locked slot number starts anew. -/
def increment_view (tp : TrustedPara) : TrustedPara :=
  { tp with
    view := (tp.view + 1) % wordSize
    blockPhases := ∅
    precommitData := ∅
    prefixLockedSeqNumber := 0 }

/-- Move to the next phase of the node. -/
def increment_node_phase (tp : TrustedPara) : TrustedPara :=
  if tp.phase == PH1_NEWVIEW then { tp with phase := PH1_PARALLEL }
  else if tp.phase == PH1_RECOVER then { tp with phase := PH1_VERIFY }
  else if tp.phase == PH1_VERIFY then { tp with phase := PH1_PARALLEL }
  else if tp.phase == PH1_PARALLEL then increment_view { tp with phase := PH1_NEWVIEW }
  else tp

/-- Set the phase of the node. -/
def set_phase (tp : TrustedPara) (phase : Phase1) : TrustedPara := { tp with phase }

/-- The phase of a block; a block that was not signed yet is in the prepare phase. -/
def phaseOf (tp : TrustedPara) (h : Hash) : Phase1 := (tp.blockPhases.lookup h.hash).getD PH1_PREPARE

/-- The phase after another one; after the commit phase the phases start over. -/
def nextPhase (ph : Phase1) : Phase1 :=
  if ph == PH1_PREPARE then PH1_PRECOMMIT
  else if ph == PH1_PRECOMMIT then PH1_COMMIT
  else if ph == PH1_COMMIT then PH1_PREPARE
  else ph

/-- Move a block to its next phase. -/
def increment_block_phase (tp : TrustedPara) (h : Hash) : TrustedPara :=
  -- The source first enters a block it does not know, which its only caller has done already.
  { tp with blockPhases := tp.blockPhases.insert h.hash (nextPhase (tp.phaseOf h)) }

/-- The component's signature on a statement. -/
def signature (tp : TrustedPara) (r : RDataPara) : Sign := Sign.ofText tp.priv tp.id r.toString

/-- Sign a statement in the phase of the node, and move that phase on. -/
def sign (tp : TrustedPara) (h1 h2 : Hash) (v2 : View) (seqNumber : Nat) : Just × TrustedPara :=
  let rdata : RDataPara := ⟨h1, tp.view, h2, v2, tp.phase, seqNumber⟩
  (Just.ofRDataPara rdata [tp.signature rdata], tp.increment_node_phase)

/-- The statement the component signs next about a block. -/
def blockStatement (tp : TrustedPara) (h1 h2 : Hash) (v2 : View) (seqNumber : Nat) : RDataPara :=
  ⟨h1, tp.view, h2, v2, tp.phaseOf h1, seqNumber⟩

/-- Sign a statement in the phase of its block, and move that phase on. -/
def signBlock (tp : TrustedPara) (h1 h2 : Hash) (v2 : View) (seqNumber : Nat) :
    Just × TrustedPara :=
  let rdata := tp.blockStatement h1 h2 v2 seqNumber
  (Just.ofRDataPara rdata [tp.signature rdata], tp.increment_block_phase h1)

/-- Sign a new-view statement about the last prepared block. -/
def TEEsign (tp : TrustedPara) : Just × TrustedPara :=
  tp.sign (Hash.ofBool false) tp.latestPreparedHash tp.latestPreparedView tp.latestPreparedSeqNumber

/-- Whether all signatures are on the round data. -/
def TEEverify (nodes : Nodes) (signs : Signs) (r : RDataPara) : Bool :=
  signs.verify nodes r.toString

/-- Whether the locked block is among the listed ones; a view on genesis, or no check, will do. -/
def prefixLockedInHashes (tp : TrustedPara) (justv : View) (blockHashes : List Hash)
    (checkHashes : Bool) : Bool :=
  -- Without the check every list will do, so only the certified view is compared.
  if checkHashes then justv == 0 || blockHashes.any (· == tp.prefixLockedHash) else true

/-- Check the justification a leader builds a view on, against the lock if asked to. -/
def TEEverifyLeaderQC (tp : TrustedPara) (nodes : Nodes) (just : Just) (blockHashes : List Hash)
    (checkHashes : Bool) : Option Just :=
  match just.getRDataPara with
  | none => none
  | some rd =>
    let safety_result := tp.prefixLockedInHashes rd.justv blockHashes checkHashes
      || tp.prefixLockedView < rd.justv
    if TEEverify nodes just.signs rd && tp.view == rd.propv && rd.phase == PH1_NEWVIEW
        && safety_result then
      some just
    else some Just.defaultPara

/-- Sign a vote for a block on a new-view justification. -/
def TEEprepare [Hashing] (tp : TrustedPara) (nodes : Nodes) (block : PBlock) (just : Just) :
    Option (Just × TrustedPara) :=
  match just.getRDataPara with
  | none => none
  | some rd =>
    if TEEverify nodes just.signs rd && tp.view == rd.propv && rd.phase == PH1_NEWVIEW then
      some (tp.signBlock block.hash rd.justh rd.justv block.seqNumber)
    else some (Just.defaultPara, tp)

/-- Whether the component votes on a justification, whatever the block. -/
def votesOn (tp : TrustedPara) (nodes : Nodes) (just : Just) : Bool :=
  match just.getRDataPara with
  | none => false
  | some rd =>
    just.signs.verify nodes rd.toString && tp.view == rd.propv && rd.phase == PH1_NEWVIEW

/-- Record the block of a certificate as prepared, unless a later one is. -/
def storePrepared (tp : TrustedPara) (h : Hash) (v : View) (seq : Nat) : TrustedPara :=
  if tp.latestPreparedView < v || (v == tp.latestPreparedView && tp.latestPreparedSeqNumber < seq)
  then
    { tp with
      latestPreparedHash := h
      latestPreparedView := v
      latestPreparedSeqNumber := seq }
  else tp

/--
Go through the pre-committed slots in order as long as none is missing.

The result is the last slot reached. Every round passes a recorded slot, so the number of
rounds is bounded by the number of slots recorded; the slot number is a 32-bit counter.
-/
def continuousSeq [Hashing] (data : AList fun _ : Nat => PrecommitData)
    (getBlockFunc : Nat → PBlock) (last : Nat) : Nat → Nat → Nat → Hash → Bool → Nat
  | 0, _, highest, _, _ => highest
  | rounds + 1, i, highest, lastValidHash, prevBlockExists =>
    if i ≤ last && (data.lookup i).isSome then
      let block := getBlockFunc i
      let next := (i + 1) % wordSize
      if block.isBlock then
        -- Only a block that is there can fail to extend the one before it.
        if prevBlockExists && 1 < i && !block.extends' lastValidHash then highest
        else continuousSeq data getBlockFunc last rounds next i block.hash true
      else continuousSeq data getBlockFunc last rounds next i lastValidHash false
    else highest

/-- The last slot of the prefix of pre-committed slots that continues the locked one. -/
def highestContinuousSeq [Hashing] (tp : TrustedPara) (getBlockFunc : Nat → PBlock) : Nat :=
  let checkFrom :=
    -- A lock of this view is continued; after one of an earlier view the first slot is next.
    if tp.prefixLockedView == tp.view then (tp.prefixLockedSeqNumber + 1) % wordSize else 1
  continuousSeq tp.precommitData getBlockFunc (tp.precommitData.keys.foldl max 0)
    (tp.precommitData.keys.length + 1) checkFrom 0 tp.prefixLockedHash true

/-- Lock the last block of the prefix, if its slot number is higher than the locked one. -/
def lockPrefix [Hashing] (tp : TrustedPara) (getBlockFunc : Nat → PBlock) : TrustedPara :=
  let highest := tp.highestContinuousSeq getBlockFunc
  match tp.precommitData.lookup highest with
  | some locked =>
    -- Only the slot numbers are compared, not the views.
    if tp.prefixLockedSeqNumber < highest then
      { tp with
        prefixLockedHash := locked.blockHash
        prefixLockedView := locked.view
        prefixLockedSeqNumber := highest }
    else tp
  -- Only slot 0, which is never higher, can be the last one without a record.
  | none => tp

/-- Record an accepted certificate; a pre-commit certificate may move the lock. -/
def record [Hashing] (tp : TrustedPara) (rd : RDataPara) (getBlockFunc : Nat → PBlock) :
    TrustedPara :=
  let tp := tp.storePrepared rd.proph rd.propv rd.seqNumber
  if rd.phase == PH1_PRECOMMIT then
    -- A later certificate for the slot replaces the one recorded before.
    let precommitData := tp.precommitData.insert rd.seqNumber ⟨rd.proph, rd.propv⟩
    lockPrefix { tp with precommitData } getBlockFunc
  else tp

/-- Accept a certificate and sign the statement of the block's next phase. -/
def TEEstore [Hashing] (tp : TrustedPara) (nodes : Nodes) (just : Just)
    (getBlockFunc : Nat → PBlock) : Option (Just × TrustedPara) :=
  match just.getRDataPara with
  | none => none
  | some rd =>
    if just.signs.length == tp.qsize && TEEverify nodes just.signs rd && tp.view == rd.propv
        && (rd.phase == PH1_PREPARE || rd.phase == PH1_PRECOMMIT) then
      some ((tp.record rd getBlockFunc).signBlock rd.proph rd.justh rd.justv rd.seqNumber)
    else some (Just.defaultPara, tp)

section Record

variable (tp : TrustedPara)

/-- The prepared block moves to a certified one, or stays where it is because it is later. -/
theorem storePrepared_cases (h : Hash) (v : View) (seq : Nat) :
    (tp.storePrepared h v seq = tp ∧ (v < tp.latestPreparedView
        ∨ (v = tp.latestPreparedView ∧ seq ≤ tp.latestPreparedSeqNumber)))
      ∨ (tp.storePrepared h v seq
          = { tp with
              latestPreparedHash := h
              latestPreparedView := v
              latestPreparedSeqNumber := seq }
        ∧ (tp.latestPreparedView < v
          ∨ (v = tp.latestPreparedView ∧ tp.latestPreparedSeqNumber < seq))) := by
  unfold storePrepared
  split
  · rename_i later
    simp only [Bool.or_eq_true, decide_eq_true_eq, Bool.and_eq_true, beq_iff_eq] at later
    exact .inr ⟨rfl, later⟩
  · rename_i earlier
    simp only [Bool.or_eq_true, decide_eq_true_eq, Bool.and_eq_true, beq_iff_eq, not_or,
      not_and, Nat.not_lt] at earlier
    refine .inl ⟨rfl, ?_⟩
    rcases Nat.lt_or_eq_of_le earlier.1 with before | same
    · exact .inl before
    · exact .inr ⟨same, earlier.2 same⟩

/-- The lock stays, or moves to a recorded slot with a higher number. -/
theorem lockPrefix_cases [Hashing] (getBlockFunc : Nat → PBlock) :
    tp.lockPrefix getBlockFunc = tp
      ∨ ∃ seq locked, tp.precommitData.lookup seq = some locked
          ∧ tp.prefixLockedSeqNumber < seq
          ∧ tp.lockPrefix getBlockFunc
            = { tp with
                prefixLockedHash := locked.blockHash
                prefixLockedView := locked.view
                prefixLockedSeqNumber := seq } := by
  unfold lockPrefix
  cases held : tp.precommitData.lookup (tp.highestContinuousSeq getBlockFunc) with
  | none => exact .inl (by simp [held])
  | some locked =>
    by_cases higher : tp.prefixLockedSeqNumber < tp.highestContinuousSeq getBlockFunc
    · exact .inr ⟨_, locked, held, higher, by simp [held, higher]⟩
    · exact .inl (by simp [held, higher])

/-- Recording a certificate changes what is prepared, pre-committed and locked, and nothing else. -/
theorem record_frame [Hashing] (rd : RDataPara) (getBlockFunc : Nat → PBlock) :
    (tp.record rd getBlockFunc).view = tp.view ∧ (tp.record rd getBlockFunc).phase = tp.phase
      ∧ (tp.record rd getBlockFunc).blockPhases = tp.blockPhases
      ∧ (tp.record rd getBlockFunc).id = tp.id ∧ (tp.record rd getBlockFunc).priv = tp.priv
      ∧ (tp.record rd getBlockFunc).qsize = tp.qsize := by
  -- First the prepared block, then the pre-committed one and the lock.
  obtain ⟨tp₁, stored, frame₁⟩ : ∃ tp₁, tp.storePrepared rd.proph rd.propv rd.seqNumber = tp₁
      ∧ tp₁.view = tp.view ∧ tp₁.phase = tp.phase ∧ tp₁.blockPhases = tp.blockPhases
      ∧ tp₁.id = tp.id ∧ tp₁.priv = tp.priv ∧ tp₁.qsize = tp.qsize := by
    refine ⟨_, rfl, ?_⟩
    rcases tp.storePrepared_cases rd.proph rd.propv rd.seqNumber with ⟨moved, _⟩ | ⟨moved, _⟩
    · rw [moved]; exact ⟨rfl, rfl, rfl, rfl, rfl, rfl⟩
    · rw [moved]; exact ⟨rfl, rfl, rfl, rfl, rfl, rfl⟩
  simp only [record, stored]
  split
  · rcases lockPrefix_cases { tp₁ with
        precommitData := tp₁.precommitData.insert rd.seqNumber ⟨rd.proph, rd.propv⟩ }
      getBlockFunc with stays | ⟨seq, locked, _, _, moved⟩
    · rw [stays]; exact frame₁
    · rw [moved]; exact frame₁
  · exact frame₁

variable [Hashing] (rd : RDataPara) (getBlockFunc : Nat → PBlock)

@[simp] theorem view_record : (tp.record rd getBlockFunc).view = tp.view :=
  (tp.record_frame rd getBlockFunc).1

@[simp] theorem phase_record : (tp.record rd getBlockFunc).phase = tp.phase :=
  (tp.record_frame rd getBlockFunc).2.1

@[simp] theorem blockPhases_record :
    (tp.record rd getBlockFunc).blockPhases = tp.blockPhases :=
  (tp.record_frame rd getBlockFunc).2.2.1

@[simp] theorem id_record : (tp.record rd getBlockFunc).id = tp.id :=
  (tp.record_frame rd getBlockFunc).2.2.2.1

@[simp] theorem priv_record : (tp.record rd getBlockFunc).priv = tp.priv :=
  (tp.record_frame rd getBlockFunc).2.2.2.2.1

@[simp] theorem qsize_record : (tp.record rd getBlockFunc).qsize = tp.qsize :=
  (tp.record_frame rd getBlockFunc).2.2.2.2.2

end Record

section Accepted

variable {tp tp' : TrustedPara} {nodes : Nodes} {just out : Just}

/-- What an accepting check of a leader's justification has checked. -/
theorem TEEverifyLeaderQC_set {blockHashes : List Hash} {checkHashes : Bool}
    (called : tp.TEEverifyLeaderQC nodes just blockHashes checkHashes = some out)
    (accepted : out.set = true) :
    ∃ rd, just.getRDataPara = some rd ∧ out = just ∧ just.signs.verify nodes rd.toString = true
      ∧ tp.view = rd.propv ∧ rd.phase = PH1_NEWVIEW
      ∧ (checkHashes = true → rd.justv = 0
        ∨ (∃ h ∈ blockHashes, h.hash = tp.prefixLockedHash.hash)
        ∨ tp.prefixLockedView < rd.justv) := by
  -- The default justification returned on failure is not set.
  unfold TEEverifyLeaderQC at called
  cases tagged : just.getRDataPara with
  | none => simp [tagged] at called
  | some rd =>
    simp only [tagged] at called
    split at called
    · rename_i checks
      simp only [Bool.and_eq_true, beq_iff_eq, Bool.or_eq_true, decide_eq_true_eq] at checks
      obtain ⟨⟨⟨verified, view⟩, phase⟩, safe⟩ := checks
      refine ⟨rd, rfl, by simpa using called.symm, verified, view, phase, fun check => ?_⟩
      simp only [prefixLockedInHashes, check, if_true, Bool.or_eq_true, beq_iff_eq,
        List.any_eq_true, Hash.beq_iff] at safe
      rcases safe with (zero | held) | higher
      · exact .inl zero
      · exact .inr (.inl held)
      · exact .inr (.inr higher)
    · simp only [Option.some.injEq] at called
      rw [← called] at accepted
      exact absurd accepted (by decide)

variable [Hashing]

/-- What a call to prepare does: it throws, refuses, or signs. -/
theorem TEEprepare_cases (tp : TrustedPara) (nodes : Nodes) (block : PBlock) (just : Just) :
    (tp.votesOn nodes just = false ∧ (tp.TEEprepare nodes block just = none
        ∨ tp.TEEprepare nodes block just = some (Just.defaultPara, tp)))
      ∨ ∃ rd, just.getRDataPara = some rd ∧ tp.votesOn nodes just = true
        ∧ tp.TEEprepare nodes block just
          = some (tp.signBlock block.hash rd.justh rd.justv block.seqNumber) := by
  cases tagged : just.getRDataPara with
  | none => exact .inl ⟨by simp [votesOn, tagged], .inl (by simp [TEEprepare, tagged])⟩
  | some rd =>
    cases passed : tp.votesOn nodes just with
    | false =>
      refine .inl ⟨rfl, .inr ?_⟩
      simp only [votesOn, tagged] at passed
      simp [TEEprepare, TEEverify, tagged, passed]
    | true =>
      refine .inr ⟨rd, rfl, rfl, ?_⟩
      simp only [votesOn, tagged] at passed
      simp [TEEprepare, TEEverify, tagged, passed]

/-- What an accepting call to prepare has checked, and what it signs. -/
theorem TEEprepare_set {block : PBlock} (called : tp.TEEprepare nodes block just = some (out, tp'))
    (accepted : out.set = true) :
    ∃ rd, just.getRDataPara = some rd ∧ just.signs.verify nodes rd.toString = true
      ∧ tp.view = rd.propv ∧ rd.phase = PH1_NEWVIEW
      ∧ tp.signBlock block.hash rd.justh rd.justv block.seqNumber = (out, tp') := by
  unfold TEEprepare at called
  cases tagged : just.getRDataPara with
  | none => simp [tagged] at called
  | some rd =>
    simp only [tagged] at called
    split at called
    · rename_i checks
      simp only [Bool.and_eq_true, beq_iff_eq] at checks
      exact ⟨rd, rfl, checks.1.1, checks.1.2, checks.2, by simpa using called⟩
    · simp only [Option.some.injEq, Prod.mk.injEq] at called
      rw [← called.1] at accepted
      exact absurd accepted (by decide)

/-- A refused call to prepare leaves the component as it was. -/
theorem TEEprepare_unset {block : PBlock}
    (called : tp.TEEprepare nodes block just = some (out, tp')) (refused : out.set = false) :
    out = Just.defaultPara ∧ tp' = tp := by
  unfold TEEprepare at called
  cases tagged : just.getRDataPara with
  | none => simp [tagged] at called
  | some rd =>
    simp only [tagged] at called
    split at called
    · simp only [Option.some.injEq] at called
      have signed : out = (tp.signBlock block.hash rd.justh rd.justv block.seqNumber).1 := by
        rw [called]
      rw [signed] at refused
      cases refused
    · simp only [Option.some.injEq, Prod.mk.injEq] at called
      exact ⟨called.1.symm, called.2.symm⟩

/-- What an accepting call to store has checked, and what it signs. -/
theorem TEEstore_set {getBlockFunc : Nat → PBlock}
    (called : tp.TEEstore nodes just getBlockFunc = some (out, tp')) (accepted : out.set = true) :
    ∃ rd, just.getRDataPara = some rd ∧ just.signs.length = tp.qsize
      ∧ just.signs.verify nodes rd.toString = true ∧ tp.view = rd.propv
      ∧ (rd.phase = PH1_PREPARE ∨ rd.phase = PH1_PRECOMMIT)
      ∧ (tp.record rd getBlockFunc).signBlock rd.proph rd.justh rd.justv rd.seqNumber
        = (out, tp') := by
  unfold TEEstore at called
  cases tagged : just.getRDataPara with
  | none => simp [tagged] at called
  | some rd =>
    simp only [tagged] at called
    split at called
    · rename_i checks
      simp only [Bool.and_eq_true, beq_iff_eq, Bool.or_eq_true] at checks
      exact ⟨rd, rfl, checks.1.1.1, checks.1.1.2, checks.1.2, checks.2, by simpa using called⟩
    · simp only [Option.some.injEq, Prod.mk.injEq] at called
      rw [← called.1] at accepted
      exact absurd accepted (by decide)

/-- A refused call to store leaves the component as it was. -/
theorem TEEstore_unset {getBlockFunc : Nat → PBlock}
    (called : tp.TEEstore nodes just getBlockFunc = some (out, tp')) (refused : out.set = false) :
    out = Just.defaultPara ∧ tp' = tp := by
  unfold TEEstore at called
  cases tagged : just.getRDataPara with
  | none => simp [tagged] at called
  | some rd =>
    simp only [tagged] at called
    split at called
    · simp only [Option.some.injEq] at called
      have signed : out = ((tp.record rd getBlockFunc).signBlock rd.proph rd.justh rd.justv
          rd.seqNumber).1 := by
        rw [called]
      rw [signed] at refused
      cases refused
    · simp only [Option.some.injEq, Prod.mk.injEq] at called
      exact ⟨called.1.symm, called.2.symm⟩

end Accepted

end TrustedPara

end ParaHotstuff
