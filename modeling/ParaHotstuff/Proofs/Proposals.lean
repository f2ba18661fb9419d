import ParaHotstuff.Proofs.Basic.Proposals
import ParaHotstuff.Proofs.Chained.Proposals
import ParaHotstuff.Proofs.Para.Proposals
import ParaHotstuff.Data.Checksum
import ParaHotstuff.Handler.Schedule

/-! When a vote for a proposal rests on a signature of the leader, for the three protocols. -/

namespace ParaHotstuff

open Program

section Served

variable [Hashing] {cfg : Config}

/-- If all proposals a basic node receives name their leader, it votes for the leaders' only. -/
theorem Handler.voted_fromLeader (positive : 0 < cfg.qsize) (depth : Nat) (p : PID)
    (stimuli : List (Stimulus MsgBasic Input))
    (names : ∀ m, Stimulus.message (.ldrPrepare m) ∈ stimuli → Handler.NamesLeader cfg m)
    {q : PID} {r : RData} {block : Block} {lockh : Hash} {lockv : View}
    (voted : BasicEvent.voted q r block lockh lockv
      ∈ ((Handler.protocol cfg depth).serve stimuli ⟨Handler.init cfg p, [], []⟩).state.history)
    (backup : cfg.getLeaderOf r.propv ≠ p) :
    ∃ m, Stimulus.message (.ldrPrepare m) ∈ stimuli ∧ m.prop.block = block
      ∧ Handler.FromLeader cfg m r.propv := by
  obtain ⟨m, arrived, same, rd, tagged, view, verified⟩ :=
    Handler.voted_received positive depth p stimuli voted backup
  have signed : Handler.FromLeader cfg m r.propv :=
    (Handler.authenticated_vote tagged verified view.symm).2 (names m arrived)
  exact ⟨m, arrived, same, signed⟩

/-- If all proposals a chained node receives name their leader, it votes for the leaders' only. -/
theorem HandlerCh.voted_fromLeader [SignatureBytes] (depth : Nat) (p : PID)
    (stimuli : List (Stimulus MsgCh Input))
    (names : ∀ m, Stimulus.message (.ldrPrepare m) ∈ stimuli → HandlerCh.NamesLeader cfg m)
    {q : PID} {r : RData} {block : JBlock}
    (voted : ChEvent.voted q r block
      ∈ ((HandlerCh.protocol cfg depth).serve stimuli
          ⟨HandlerCh.init cfg p, [], []⟩).state.history)
    (backup : cfg.getLeaderOf block.view ≠ p) :
    ∃ m, Stimulus.message (.ldrPrepare m) ∈ stimuli ∧ m.block = block
      ∧ HandlerCh.FromLeader cfg m := by
  obtain ⟨m, arrived, same, checked⟩ := HandlerCh.voted_received depth p stimuli voted backup
  exact ⟨m, arrived, same, checked.fromLeader_iff.2 (names m arrived)⟩

/-- If all proposals a parallel node receives are signed as they should be, so is what it answers. -/
theorem HandlerPara.answered_fromLeader (choices : PID → List Nat) (depth : Nat) (p : PID)
    (stimuli : List (Stimulus MsgPara Input))
    (checked : ∀ m, Stimulus.message (.ldrPrepare m) ∈ stimuli → HandlerPara.Checked cfg m)
    {q : PID} {r : RDataPara} {just verified : Just} {lockh : Hash} {lockv : View}
    (answered : ParaEvent.answered q r just verified lockh lockv
      ∈ ((HandlerPara.protocol cfg depth).serve stimuli
          ⟨HandlerPara.init cfg choices p, [], []⟩).state.history) :
    ∃ m, Stimulus.message (.ldrPrepare m) ∈ stimuli ∧ m.prop.block.hash = r.proph
      ∧ m.prop.block.seqNumber = r.seqNumber ∧ HandlerPara.FromLeader cfg m r.propv := by
  obtain ⟨m, arrived, justified, hash, slot, rd, tagged, view⟩ :=
    HandlerPara.answered_received choices depth p stimuli answered
  subst justified
  obtain ⟨valid, named⟩ := checked m arrived rd tagged
  -- The leader is named among signers whose signatures all verify.
  have signed := (Signs.signedBy_of_verify valid).2 named
  exact ⟨m, arrived, hash, slot, rd, tagged, view, view ▸ signed⟩

end Served

/-- A basic node to which a client has written, so that it is in its prepare phase. -/
def Handler.begun [Hashing] (p : PID) : Handler :=
  ((Handler.protocol Schedule.fourNodes 1).input (.start 0)
    ⟨Handler.init Schedule.fourNodes p, [], []⟩).state.node

/-- A chained node to which a client has written, so that it is in view 1. -/
def HandlerCh.begun [Hashing] [SignatureBytes] (p : PID) : HandlerCh :=
  ((HandlerCh.protocol Schedule.fourNodes 1).input (.start 0)
    ⟨HandlerCh.init Schedule.fourNodes p, [], []⟩).state.node

/-- A proposal for the first view that nobody has signed. -/
def unsignedProposal : MsgLdrPrepare where
  prop := ⟨Just.ofRData ⟨Hash.ofBool false, 0, Hash.ofBool true, 0, PH1_NEWVIEW⟩ [],
    Block.ofTransactions (Hash.ofBool true) 0 []⟩
  signs := []

/-- A proposal for view 1 that node 3 has signed, which does not lead it. -/
def foreignProposal [Hashing] [SignatureBytes] : MsgLdrPrepareCh :=
  let block := JBlock.ofTransactions 1
    (Just.ofRData ⟨Hash.ofBool false, 0, JBlock.default.hash, 0, PH1_NEWVIEW⟩ []) 0 []
  ⟨block, Sign.ofText 3 3 (RData.toString ⟨block.hash, 1, Hash.default, 0, PH1_PREPARE⟩)⟩

/-- A proposal for the first slot of the first view that nobody has signed. -/
def unsignedSlot : MsgLdrPreparePara where
  prop := ⟨Just.defaultPara, PBlock.ofTransactions (Hash.ofBool true) 0 1 []⟩
  signs := []

/--
When a vote for a proposal rests on a signature of the leader.

A proposal the node votes for at once or from its log must name the leader, where the node
verifies the signatures; the parallel protocol does not, so there they must be right by
themselves. Nodes that receive nothing else never vote as backups without such a signature.
-/
theorem proposals_authenticated_iff [Hashing] [SignatureBytes] {cfg : Config}
    (positive : 0 < cfg.qsize) :
    ((∀ h msg, Handler.Authenticated cfg (Handler.handleLdrPrepare cfg msg) h msg
        ↔ (Handler.votesAtOnce cfg h msg = true → Handler.NamesLeader cfg msg))
      ∧ (∀ h msg next, Handler.TakenIn cfg msg → Handler.found cfg h = some msg →
        (Handler.Authenticated cfg (Handler.handleEarlierMessages cfg next) h msg
          ↔ (Handler.votesLater cfg h msg = true → Handler.NamesLeader cfg msg)))
      ∧ ∀ depth p stimuli,
        (∀ m, Stimulus.message (.ldrPrepare m) ∈ stimuli → Handler.NamesLeader cfg m) →
          ∀ q r block lockh lockv, BasicEvent.voted q r block lockh lockv
              ∈ ((Handler.protocol cfg depth).serve stimuli
                  ⟨Handler.init cfg p, [], []⟩).state.history →
            cfg.getLeaderOf r.propv ≠ p →
            ∃ m, Stimulus.message (.ldrPrepare m) ∈ stimuli ∧ m.prop.block = block
              ∧ Handler.FromLeader cfg m r.propv)
    ∧ ((∀ h msg depth, msg.block.view = h.view →
        (HandlerCh.Authenticated cfg (HandlerCh.handleLdrPrepareCh cfg (depth + 1) msg) h msg
          ↔ (HandlerCh.votesAtOnce cfg h msg = true → HandlerCh.NamesLeader cfg msg)))
      ∧ (∀ h msg depth, HandlerCh.TakenIn cfg msg → HandlerCh.found cfg h = some msg →
        (HandlerCh.Authenticated cfg
            (HandlerCh.handleEarlierMessagesCh cfg (HandlerCh.voteCh cfg (depth + 1))) h msg
          ↔ (HandlerCh.votesLater cfg h msg = true → HandlerCh.NamesLeader cfg msg)))
      ∧ ∀ depth p stimuli,
        (∀ m, Stimulus.message (.ldrPrepare m) ∈ stimuli → HandlerCh.NamesLeader cfg m) →
          ∀ q r block, ChEvent.voted q r block
              ∈ ((HandlerCh.protocol cfg depth).serve stimuli
                  ⟨HandlerCh.init cfg p, [], []⟩).state.history →
            cfg.getLeaderOf block.view ≠ p →
            ∃ m, Stimulus.message (.ldrPrepare m) ∈ stimuli ∧ m.block = block
              ∧ HandlerCh.FromLeader cfg m)
    ∧ ((∀ h msg, HandlerPara.Authenticated cfg (HandlerPara.handleLdrPreparePara cfg msg) h msg
        ↔ (HandlerPara.votesFor cfg h msg.prop = true → HandlerPara.FromLeader cfg msg h.view))
      ∧ (∀ h prop, (∀ signs, HandlerPara.Authenticated cfg
            (HandlerPara.handleLdrPreparePara cfg ⟨prop, signs⟩) h ⟨prop, signs⟩)
          ↔ HandlerPara.votesFor cfg h prop = false)
      ∧ (∀ h msg earlier seqNumber, HandlerPara.found cfg h seqNumber = some msg →
        (HandlerPara.Authenticated cfg (HandlerPara.handleEarlierSlot cfg earlier seqNumber) h msg
          ↔ (msg.signs.length = 1 → HandlerPara.votesFor cfg h msg.prop = true →
              HandlerPara.FromLeader cfg msg h.view)))
      ∧ ∀ choices depth p stimuli,
        (∀ m, Stimulus.message (.ldrPrepare m) ∈ stimuli → HandlerPara.Checked cfg m) →
          ∀ q r just verified lockh lockv,
            ParaEvent.answered q r just verified lockh lockv
              ∈ ((HandlerPara.protocol cfg depth).serve stimuli
                  ⟨HandlerPara.init cfg choices p, [], []⟩).state.history →
            ∃ m, Stimulus.message (.ldrPrepare m) ∈ stimuli ∧ m.prop.block.hash = r.proph
              ∧ m.prop.block.seqNumber = r.seqNumber
              ∧ HandlerPara.FromLeader cfg m r.propv) := by
  refine ⟨⟨?_, ?_, ?_⟩, ⟨?_, ?_, ?_⟩, ?_, ?_, ?_, ?_⟩
  · intro h msg
    exact Handler.handleLdrPrepare_authenticated
  · intro h msg next taken held
    exact Handler.handleEarlierMessages_authenticated taken held
  · intro depth p stimuli names q r block lockh lockv voted backup
    exact Handler.voted_fromLeader positive depth p stimuli names voted backup
  · intro h msg depth now
    exact HandlerCh.handleLdrPrepareCh_authenticated now
  · intro h msg depth taken held
    exact HandlerCh.handleEarlierMessagesCh_authenticated taken held
  · intro depth p stimuli names q r block voted backup
    exact HandlerCh.voted_fromLeader depth p stimuli names voted backup
  · intro h msg
    exact HandlerPara.handleLdrPreparePara_authenticated
  · intro h prop
    exact HandlerPara.handleLdrPreparePara_unsigned prop
  · intro h msg earlier seqNumber held
    exact HandlerPara.handleEarlierSlot_authenticated held
  · intro choices depth p stimuli checked q r just verified lockh lockv answered
    exact HandlerPara.answered_fromLeader choices depth p stimuli checked answered

/-- With four nodes the theorem applies, and a fresh node answers a proposal nobody signed. -/
theorem proposals_authenticated_iff_fourNodes :
    let _ := Checksum.hashing
    0 < Schedule.fourNodes.qsize
      ∧ ((∀ signs, HandlerPara.Authenticated Schedule.fourNodes
            (HandlerPara.handleLdrPreparePara Schedule.fourNodes ⟨unsignedSlot.prop, signs⟩)
            (HandlerPara.init Schedule.fourNodes (fun _ => []) 1) ⟨unsignedSlot.prop, signs⟩)
          ↔ HandlerPara.votesFor Schedule.fourNodes
            (HandlerPara.init Schedule.fourNodes (fun _ => []) 1) unsignedSlot.prop = false) :=
  ⟨by decide, (@proposals_authenticated_iff Checksum.hashing Checksum.signatureBytes
    Schedule.fourNodes (by decide)).2.2.2.1 _ _⟩

/-- None of the protocols authenticates proposals in general. -/
theorem proposals_not_authenticated :
    let _ := Checksum.hashing
    let _ := Checksum.signatureBytes
    let cfg := Schedule.fourNodes
    ¬ Handler.Authenticated cfg (Handler.handleLdrPrepare cfg unsignedProposal)
        (Handler.begun 1) unsignedProposal
      ∧ ¬ HandlerCh.Authenticated cfg (HandlerCh.handleLdrPrepareCh cfg 1 foreignProposal)
        (HandlerCh.begun 2) foreignProposal
      ∧ ¬ HandlerPara.Authenticated cfg (HandlerPara.handleLdrPreparePara cfg unsignedSlot)
        (HandlerPara.init cfg (fun _ => []) 1) unsignedSlot := by
  intro _ _ cfg
  refine ⟨fun authenticated => ?_, fun authenticated => ?_, fun authenticated => ?_⟩
  -- No signature at all passes the check of all signatures.
  · have names := Handler.handleLdrPrepare_authenticated.1 authenticated (by decide +kernel) _ rfl
    simp [unsignedProposal, Signs.getSigners] at names
  -- The signature is valid, and somebody else's than the leader's.
  · have names := (HandlerCh.handleLdrPrepareCh_authenticated (by decide +kernel)).1 authenticated
      (by decide +kernel)
    unfold HandlerCh.NamesLeader at names
    exact absurd names (by decide +kernel)
  -- No signature is looked at.
  · have signed := HandlerPara.handleLdrPreparePara_authenticated.1 authenticated
      (by decide +kernel)
    obtain ⟨_, _, _, s, none_held, _⟩ := signed
    simp [unsignedSlot] at none_held

end ParaHotstuff
