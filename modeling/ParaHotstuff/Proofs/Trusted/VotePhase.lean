import ParaHotstuff.Proofs.Trusted.Equivocation

/-! When the component of the parallel protocol votes in the phase its argument calls for. -/

namespace ParaHotstuff

namespace TrustedPara

/-- The public operations of the component: its calls, and the functions that move its phase. -/
inductive Operation where
  | call (call : Call)
  | increment_node_phase
  | increment_view
  | set_phase (phase : Phase1)

variable [Hashing]

/-- The component after an operation. -/
def apply (tp : TrustedPara) : Operation → TrustedPara
  | .call call => tp.next call
  | .increment_node_phase => tp.increment_node_phase
  | .increment_view => tp.increment_view
  | .set_phase phase => tp.set_phase phase

omit [Hashing] in
/-- Whether an operation enters a view, where the component forgets the phases of blocks. -/
def entersView (tp : TrustedPara) : Operation → Bool
  | .call call => tp.begins call
  | .increment_node_phase => tp.phase == PH1_PARALLEL
  | .increment_view => true
  | .set_phase _ => false

/-- The block an operation makes the component sign, if it accepts a call for one. -/
def blockSigned (tp : TrustedPara) : Operation → Option Digest
  | .call call => (tp.blockOf call).map Prod.fst
  | _ => none

/-- How often each block was signed since the view was entered, after one more operation. -/
def countOf (tp : TrustedPara) (count : Digest → Nat) (op : Operation) : Digest → Nat :=
  match tp.blockSigned op with
  | some block => Function.update count block (count block + 1)
  | none => if tp.entersView op then fun _ => 0 else count

/-- The component after a sequence of operations. -/
def reached (tp : TrustedPara) : List Operation → TrustedPara
  | [] => tp
  | op :: ops => (tp.apply op).reached ops

/-- How often each block was signed in the last view of a sequence of operations. -/
def signedCount (tp : TrustedPara) (count : Digest → Nat) : List Operation → Digest → Nat
  | [] => count
  | op :: ops => (tp.apply op).signedCount (tp.countOf count op) ops

/--
The votes a call should give: the prepare vote for a block, and for a certificate the vote
of the phase after the one certified, for the same block, view and slot.
-/
def VotesAsCertified (tp : TrustedPara) : Call → Prop
  | .prepare nodes block just => accepts (tp.TEEprepare nodes block just) = true →
    ∃ r, tp.statement (.prepare nodes block just) = some r ∧ r.phase = PH1_PREPARE
      ∧ r.proph = block.hash ∧ r.seqNumber = block.seqNumber
  | .store nodes just getBlockFunc => ∀ rd, just.getRDataPara = some rd →
    accepts (tp.TEEstore nodes just getBlockFunc) = true →
      ∃ r, tp.statement (.store nodes just getBlockFunc) = some r
        ∧ r.proph = rd.proph ∧ r.propv = rd.propv ∧ r.seqNumber = rd.seqNumber
        ∧ (rd.phase = PH1_PREPARE → r.phase = PH1_PRECOMMIT)
        ∧ (rd.phase = PH1_PRECOMMIT → r.phase = PH1_COMMIT)
  | _ => True

/-- The votes for a block come in turn: so often, modulo 3, it was signed before this call. -/
def InTurn (tp : TrustedPara) (count : Digest → Nat) : Call → Prop
  | .prepare nodes block just => accepts (tp.TEEprepare nodes block just) = true →
    count block.hash.hash % 3 = 0
  | .store nodes just getBlockFunc => ∀ rd, just.getRDataPara = some rd →
    accepts (tp.TEEstore nodes just getBlockFunc) = true →
      (rd.phase = PH1_PREPARE → count rd.proph.hash % 3 = 1)
      ∧ (rd.phase = PH1_PRECOMMIT → count rd.proph.hash % 3 = 2)
  | _ => True

/-- One operation keeps the phases of all blocks where their counts say. -/
theorem phaseOf_apply {tp : TrustedPara} {count : Digest → Nat}
    (blocks : ∀ h, tp.phaseOf h = phaseAt (count h.hash)) (op : Operation) (h : Hash) :
    (tp.apply op).phaseOf h = phaseAt (tp.countOf count op h.hash) := by
  -- A view that is entered begins without phases, as the counts begin at zero.
  have entered : ∀ tp' : TrustedPara, tp'.blockPhases = ∅ → tp'.phaseOf h = phaseAt 0 := by
    intro tp' empty
    simp [phaseOf, empty, phaseAt]
  -- The phase of the node decides whether moving it on enters a view.
  have moved : tp.increment_node_phase.phaseOf h
      = phaseAt ((if tp.phase == PH1_PARALLEL then fun _ => 0 else count) h.hash) := by
    by_cases parallel : tp.phase = PH1_PARALLEL
    · rw [parallel, beq_self_eq_true, if_pos rfl]
      apply entered
      simp only [increment_node_phase, parallel]
      rfl
    · have stays : tp.increment_node_phase.blockPhases = tp.blockPhases := by
        unfold increment_node_phase
        split
        · rfl
        split
        · rfl
        split
        · rfl
        split
        · rename_i same
          exact absurd (eq_of_beq same) parallel
        · rfl
      rw [if_neg (by simpa using parallel), ← blocks h]
      simp only [phaseOf, stays]
  cases op with
  | call call =>
    cases called : tp.blockOf call with
    | some result =>
      obtain ⟨block, seq⟩ := result
      obtain ⟨tp₁, h1, h2, v2, phases, -, -, rfl, -, next⟩ := block_call called
      have blocks₁ : ∀ h, tp₁.phaseOf h = phaseAt (count h.hash) := by
        intro h
        have same := blocks h
        simpa only [phaseOf, phases] using same
      simp only [apply, next, countOf, blockSigned, called, Option.map_some]
      exact phaseOf_signBlock blocks₁ h1 h2 v2 seq h
    | none =>
      simp only [apply, countOf, blockSigned, called, Option.map_none]
      rcases other_call called with rfl | ⟨v, rfl⟩ | ⟨-, same, on⟩
      · exact moved
      · exact entered _ rfl
      · have stays : tp.entersView (.call call) = false := on
        simp only [same, stays, Bool.false_eq_true, if_false]
        exact blocks h
  | increment_node_phase => exact moved
  | increment_view => exact entered _ rfl
  | set_phase phase => exact blocks h

/-- After any operations the phases of all blocks are where their counts say. -/
theorem phaseOf_reached {tp : TrustedPara} {count : Digest → Nat}
    (blocks : ∀ h, tp.phaseOf h = phaseAt (count h.hash)) (ops : List Operation) (h : Hash) :
    (tp.reached ops).phaseOf h = phaseAt (tp.signedCount count ops h.hash) := by
  induction ops generalizing tp count with
  | nil => exact blocks h
  | cons op ops ih => exact ih (phaseOf_apply blocks op)

omit [Hashing] in
/-- The three phases of a block by its count. -/
theorem phaseAt_iff (rank : Nat) :
    (phaseAt rank = PH1_PREPARE ↔ rank % 3 = 0) ∧ (phaseAt rank = PH1_PRECOMMIT ↔ rank % 3 = 1)
      ∧ (phaseAt rank = PH1_COMMIT ↔ rank % 3 = 2) := by
  -- Each phase is the one at a count below three.
  exact ⟨@phaseAt_eq_iff rank 0, @phaseAt_eq_iff rank 1, @phaseAt_eq_iff rank 2⟩

/--
In every reachable state an accepted call votes as its argument calls for exactly when its
block's turn has come.
-/
theorem votesAsCertified_iff (id : PID) (priv : KEY) (q : Nat) (ops : List Operation)
    (call : Call) :
    VotesAsCertified ((init id priv q).reached ops) call ↔
      InTurn ((init id priv q).reached ops) ((init id priv q).signedCount (fun _ => 0) ops)
        call := by
  have fresh : ∀ h, (init id priv q).phaseOf h = phaseAt 0 := fun h => by
    simp [phaseOf, init, phaseAt]
  have blocks := @phaseOf_reached _ (init id priv q) (fun _ => 0) fresh ops
  generalize (init id priv q).reached ops = tp at blocks ⊢
  generalize (init id priv q).signedCount (fun _ => 0) ops = count at blocks ⊢
  cases call with
  | prepare nodes block just =>
    constructor
    · intro votes accepted
      obtain ⟨r, made, phase, -⟩ := votes accepted
      obtain ⟨rd, made', -⟩ := prepare_call accepted
      obtain rfl := Option.some.inj (made.symm.trans made')
      exact (phaseAt_iff _).1.1 ((blocks block.hash).symm.trans phase)
    · intro turn accepted
      obtain ⟨rd, made, -⟩ := prepare_call accepted
      have phase := (blocks block.hash).trans ((phaseAt_iff _).1.2 (turn accepted))
      exact ⟨_, made, phase, rfl, rfl⟩
  | store nodes just getBlockFunc =>
    -- Recording the certificate leaves the view and the phases of blocks.
    have recorded : ∀ rd : RDataPara,
        (tp.record rd getBlockFunc).phaseOf rd.proph = phaseAt (count rd.proph.hash) := by
      intro rd
      have same := blocks rd.proph
      simpa only [phaseOf, blockPhases_record] using same
    constructor
    · intro votes rd tagged accepted
      obtain ⟨r, made, -, -, -, precommit, commit⟩ := votes rd tagged accepted
      obtain ⟨rd', tagged', -, made', -⟩ := store_call accepted
      obtain rfl := Option.some.inj (tagged.symm.trans tagged')
      obtain rfl := Option.some.inj (made.symm.trans made')
      exact ⟨fun phase => (phaseAt_iff _).2.1.1 ((recorded rd).symm.trans (precommit phase)),
        fun phase => (phaseAt_iff _).2.2.1 ((recorded rd).symm.trans (commit phase))⟩
    · intro turn rd tagged accepted
      obtain ⟨prepare, precommit⟩ := turn rd tagged accepted
      obtain ⟨rd', tagged', view, made, -⟩ := store_call accepted
      obtain rfl := Option.some.inj (tagged.symm.trans tagged')
      refine ⟨_, made, rfl, (tp.view_record rd getBlockFunc).trans view, rfl, ?_, ?_⟩
      · intro phase
        exact (recorded rd).trans ((phaseAt_iff _).2.1.2 (prepare phase))
      · intro phase
        exact (recorded rd).trans ((phaseAt_iff _).2.2.2 (precommit phase))
  | sign => exact ⟨fun _ => trivial, fun _ => trivial⟩
  | verifyLeaderQC nodes just blockHashes checkHashes => exact ⟨fun _ => trivial, fun _ => trivial⟩
  | changeView v => exact ⟨fun _ => trivial, fun _ => trivial⟩

/-- A prepare certificate for the first slot of view 0, signed by three nodes. -/
def slotCertificate : Just :=
  let rd : RDataPara := ⟨Hash.default, 0, Hash.default, 0, PH1_PREPARE, 1⟩
  Just.ofRDataPara rd ([1, 2, 3].map fun p => Sign.ofText p p rd.toString)

omit [Hashing] in
/-- A component that never saw the block answers a prepare certificate with a prepare vote. -/
theorem votesAsCertified_slotCertificate :
    let _ := Checksum.hashing
    ¬ VotesAsCertified ((init 0 0 Schedule.fourNodes.qsize).reached [])
      (.store Schedule.fourNodes.nodes slotCertificate fun _ => PBlock.default) := by
  intro _ votes
  obtain ⟨r, made, -, -, -, precommit, -⟩ := votes _ rfl (by decide +kernel)
  have phase := precommit rfl
  have signed : ((((init 0 0 Schedule.fourNodes.qsize).reached []).statement
      (.store Schedule.fourNodes.nodes slotCertificate fun _ => PBlock.default)).map
        (·.phase)) = some PH1_PREPARE := by decide +kernel
  rw [made, Option.map_some, phase] at signed
  exact absurd signed (by decide)

end TrustedPara

end ParaHotstuff
