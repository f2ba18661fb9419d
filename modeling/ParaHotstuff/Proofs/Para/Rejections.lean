import ParaHotstuff.Proofs.Para.Announcements
import ParaHotstuff.Proofs.Para.Watching

/-! What messages leave behind at a node that rejects them. -/

namespace ParaHotstuff

namespace HandlerPara

open Program Local

variable {cfg : Config} {l : State}

section Announcements

variable [Hashing]

/-- What an announcement may not change at a node that rejects it. -/
structure Untouched (h h' : HandlerPara) : Prop where
  view : h'.view = h.view
  lastExecutedSeq : h'.lastExecutedSeq = h.lastExecutedSeq
  blocks : ∀ v, h'.blocksOf v = h.blocksOf v
  verifiedJust : h'.verifiedJust = h.verifiedJust
  tpara : h'.tpara = h.tpara

omit [Hashing] in
theorem Untouched.refl (h : HandlerPara) : Untouched h h := ⟨rfl, rfl, fun _ => rfl, rfl, rfl⟩

omit [Hashing] in
/-- Where a node is once it has gone to the view of an announcement, if that is a later one. -/
def entering (cfg : Config) (h : HandlerPara) (v : View) : HandlerPara :=
  if maxViewsReached cfg h = false ∧ h.view < v then h.entered cfg v else h

omit [Hashing] in
/-- A node that has not reached the last view goes to the view of a message, if that is later. -/
theorem enterLater_gives {cfg : Config} {l : State} {v : View}
    (running : maxViewsReached cfg l.node = false) :
    (enterLater cfg v).Gives (fun _ l₁ => l₁ = { l with node := l.node.entering cfg v })
      (fun _ => False) l := by
  unfold enterLater entering
  rw [gives_bind, gives_this]
  refine gives_ite (fun later => ?_) fun other => ?_
  · rw [gives_changeView, if_pos ⟨running, later⟩]
  · rw [if_neg fun both => other both.2]
    rfl

end Announcements

section Certificates

/-- The two kinds of votes whose certificates make a backup vote in turn. -/
inductive Certifies where
  | prepare
  | preCommit
deriving DecidableEq

namespace Certifies

variable (kind : Certifies)

/-- The message that carries a certificate. -/
def message (m : MsgRDataPara) : MsgPara :=
  match kind with
  | prepare => .prepare m
  | preCommit => .preCommit m

/-- The certificates that a log holds for the slot of a message. -/
def heldFor (log : LogPara) (m : MsgRDataPara) : List MsgRDataPara :=
  match kind with
  | prepare => log.preparesPara.held (m.rdata.propv, m.rdata.seqNumber)
  | preCommit => log.precommitsPara.held (m.rdata.propv, m.rdata.seqNumber)

/-- Whether a backup looks at a certificate of its view: it is full, and the first for its slot. -/
def considers (cfg : Config) (h : HandlerPara) (m : MsgRDataPara) : Bool :=
  let first := (kind.heldFor h.log m).isEmpty
  match kind with
  | prepare => m.signs.length == cfg.qsize && first
  | preCommit => m.rdata.phase == PH1_PRECOMMIT && (m.signs.length == cfg.qsize && first)

/-- What a backup does with a certificate that it looks at. -/
def answer [Hashing] (cfg : Config) (m : MsgRDataPara) : M Unit :=
  match kind with
  | prepare => do
    let _ ← storePrepPara m
    respondToPrepareJustPara cfg (Just.ofRDataPara m.rdata m.signs)
  | preCommit => do
    let _ ← storePcPara m
    respondToPreCommitJustPara cfg (Just.ofRDataPara m.rdata m.signs)

end Certifies

variable [Hashing] {depth : Nat} {kind : Certifies} {m : MsgRDataPara}

/-- The component of a node accepts a certificate. -/
def storeAccepts (cfg : Config) (h : HandlerPara) (m : MsgRDataPara) : Bool :=
  match h.tpara.TEEstore cfg.nodes (Just.ofRDataPara m.rdata m.signs) h.blockAt with
  | some (out, _) => out.set
  | none => false

/-- A certificate leaves no trace: no vote, nothing in its slot, and no other vote later on. -/
structure Traceless (cfg : Config) (depth : Nat) (kind : Certifies) (m : MsgRDataPara) (l : State) :
    Prop where
  silent : (handle cfg depth (kind.message m) l).state.sent = l.sent
  slot : kind.heldFor (handle cfg depth (kind.message m) l).state.node.log m
    = kind.heldFor l.node.log m
  /-- A valid certificate for the slot is answered as if this one had never arrived. -/
  later : ∀ valid : MsgRDataPara, valid.rdata.propv = m.rdata.propv →
    valid.rdata.seqNumber = m.rdata.seqNumber → storeAccepts cfg l.node valid = true →
    (handle cfg depth (kind.message valid) (handle cfg depth (kind.message m) l).state).state.sent
      = (handle cfg depth (kind.message valid) l).state.sent

/-- A backup answers a certificate of its view that it looks at, and does nothing with others. -/
theorem handle_certificate (backup : ¬ Leads cfg l.node) (here : m.rdata.propv = l.node.view) :
    handle cfg depth (kind.message m) l
      = if maxViewsReached cfg l.node = false ∧ kind.considers cfg l.node m = true then
          kind.answer cfg m l
        else .done () l := by
  have follows : (amCurrentLeader cfg l : Outcome State Bool) = .done false l := by
    have none_leads : cfg.amLeaderOf l.node.myid l.node.view = false := by
      rw [Bool.eq_false_iff]
      exact fun leader => backup (Config.amLeaderOf_iff.1 leader)
    rw [← none_leads]
    rfl
  have state : (this : M HandlerPara) l = .done l.node l := rfl
  by_cases reached : maxViewsReached cfg l.node = true
  · -- At the last view the handlers return at once.
    rw [if_neg (by rw [reached]; simp)]
    cases kind with
    | prepare =>
      change handlePreparePara cfg m l = _
      unfold handlePreparePara
      rw [bind_of_done state, if_pos reached]
      rfl
    | preCommit =>
      change handlePrecommitPara cfg m l = _
      unfold handlePrecommitPara
      rw [bind_of_done state, if_pos reached]
      rfl
  · have running : maxViewsReached cfg l.node = false := Bool.eq_false_iff.2 reached
    simp only [running, true_and]
    cases kind with
    | prepare =>
      change handlePreparePara cfg m l = _
      unfold handlePreparePara
      rw [bind_of_done state, if_neg reached, if_pos (beq_iff_eq.2 here), bind_of_done follows,
        if_neg (by decide)]
      -- Both sides test the signatures and the slot alike.
      have same : (m.signs.length == cfg.qsize
          && !l.node.log.hasPrepForSeq l.node.view m.rdata.seqNumber)
          = Certifies.prepare.considers cfg l.node m := by
        simp [Certifies.considers, Certifies.heldFor, LogPara.hasPrepForSeq, here]
      rw [same]
      split
      · rfl
      · rfl
    | preCommit =>
      change handlePrecommitPara cfg m l = _
      unfold handlePrecommitPara
      rw [bind_of_done state, if_neg reached]
      have same : (m.signs.length == cfg.qsize
          && !l.node.log.hasPrecommitForSeq l.node.view m.rdata.seqNumber)
          = (m.signs.length == cfg.qsize && (Certifies.preCommit.heldFor l.node.log m).isEmpty) := by
        simp [Certifies.heldFor, LogPara.hasPrecommitForSeq, here]
      by_cases phase : m.rdata.phase = PH1_PRECOMMIT
      · rw [if_pos (by simp [here, phase]), bind_of_done follows, if_neg (by decide), same]
        have considered : Certifies.preCommit.considers cfg l.node m
            = (m.signs.length == cfg.qsize
              && (Certifies.preCommit.heldFor l.node.log m).isEmpty) := by
          simp [Certifies.considers, phase]
        rw [considered]
        split
        · rfl
        · rfl
      · -- A message of another phase is stored for later views only.
        have other : (m.rdata.propv == l.node.view && m.rdata.phase == PH1_PRECOMMIT) = false := by
          simp [phase]
        have ignored : Certifies.preCommit.considers cfg l.node m = false := by
          simp [Certifies.considers, phase]
        rw [other, if_neg (by decide), if_neg (by rw [here]; exact Nat.lt_irrefl _), ignored]
        rfl

omit [Hashing] in
/-- The first message of a slot is stored in any case. -/
theorem held_storeAndCount_first {msgs : Messages (View × Nat) MsgRDataPara} {k : View × Nat}
    (first : msgs.held k = []) :
    (msgs.storeAndCount (·.signs) MsgRDataPara.lt k m).2.held k = [m] := by
  unfold Messages.storeAndCount
  rw [first]
  -- No signer is crossed off where no signature is held.
  have fresh : Messages.msgFrom (·.signs) ([] : List MsgRDataPara) m.signs.getSigners = false := rfl
  simp only [fresh, Bool.not_false, if_true, Messages.held_insert]
  rfl

/-- A certificate that a backup answers is in its slot from then on. -/
theorem answer_stores (first : kind.heldFor l.node.log m = []) :
    (kind.answer cfg m).Gives (fun _ l' => kind.heldFor l'.node.log m = [m])
      (fun l' => kind.heldFor l'.node.log m = [m]) l := by
  -- The component changes nothing in the log, whatever it makes of the certificate.
  cases kind with
  | prepare =>
    have stored : Certifies.prepare.heldFor (l.node.log.storePrepPara m).2 m = [m] :=
      held_storeAndCount_first first
    unfold Certifies.answer respondToPrepareJustPara
    simp only [gives_bind, gives_storePrepPara]
    refine callTEEstorePara_gives (fun _ => stored) ?_ fun cert _ _ _ _ _ tp r _ _ => ?_
    · exact stored
    · exact stored
  | preCommit =>
    have stored : Certifies.preCommit.heldFor (l.node.log.storePcPara m).2 m = [m] :=
      held_storeAndCount_first first
    unfold Certifies.answer respondToPreCommitJustPara
    simp only [gives_bind, gives_storePcPara, Just.getRDataPara_ofRDataPara, gives_ofOption_some,
      gives_noteIf]
    refine callTEEstorePara_gives (fun _ => stored) ?_ fun cert _ _ _ _ _ tp r _ _ => ?_
    · exact stored
    · exact stored

/--
A certificate for the view of a backup leaves no trace exactly if the backup does not look at it: it
is not full, or of another phase than it should be, or its slot has a certificate.

Whether the component of the backup accepts the certificate makes no difference to that.
-/
theorem certificate_traceless_iff (cfg : Config) (depth : Nat) (kind : Certifies)
    (m : MsgRDataPara) (l : State) (backup : ¬ Leads cfg l.node)
    (here : m.rdata.propv = l.node.view) :
    Traceless cfg depth kind m l
      ↔ maxViewsReached cfg l.node = true ∨ kind.considers cfg l.node m = false := by
  have handled := @handle_certificate cfg l _ depth kind m backup here
  constructor
  · intro traceless
    by_contra looks
    rw [not_or, Bool.not_eq_true, Bool.not_eq_false] at looks
    rw [if_pos looks] at handled
    have first : kind.heldFor l.node.log m = [] := by
      have considered := looks.2
      cases kind with
      | prepare =>
        simp only [Certifies.considers, Bool.and_eq_true, List.isEmpty_iff] at considered
        exact considered.2
      | preCommit =>
        simp only [Certifies.considers, Bool.and_eq_true, List.isEmpty_iff] at considered
        exact considered.2.2
    -- It is in the slot now, where there was nothing.
    have stored := (@answer_stores cfg l _ kind m first).state
    rw [← handled, traceless.slot, first] at stored
    cases stored
  · intro ignored
    have skips : ¬ (maxViewsReached cfg l.node = false ∧ kind.considers cfg l.node m = true) := by
      rcases ignored with reached | unseen
      · rw [reached]
        simp
      · rw [unseen]
        simp
    rw [if_neg skips] at handled
    have same : (handle cfg depth (kind.message m) l).state = l := by rw [handled]; rfl
    exact
      { silent := by rw [same]
        slot := by rw [same]
        later := fun _ _ _ _ => by rw [same] }

omit [Hashing] in
/-- A list of signatures for the first slot of view 0, all of them forged. -/
def forgedVotes (signers : List PID) : MsgRDataPara :=
  ⟨⟨Hash.default, 0, Hash.default, 0, PH1_PREPARE, 1⟩, signers.map fun p => ⟨true, p, .other 0⟩⟩

omit [Hashing] in
/-- A single vote is no certificate, and a backup ignores it. -/
theorem certificate_traceless_single :
    let _ := Checksum.hashing
    let l : State := ⟨init Schedule.fourNodes (fun _ => []) 2, [], []⟩
    Traceless Schedule.fourNodes 2 .prepare (forgedVotes [1]) l
      ↔ maxViewsReached Schedule.fourNodes l.node = true
        ∨ Certifies.prepare.considers Schedule.fourNodes l.node (forgedVotes [1]) = false := by
  intro hashing l
  have backup : ¬ Leads Schedule.fourNodes l.node := by
    unfold Leads
    decide
  exact certificate_traceless_iff Schedule.fourNodes 2 .prepare (forgedVotes [1]) l backup rfl

omit [Hashing] in
/-- A forged certificate makes a backup vote, whose component refuses it. -/
theorem refused_certificate_traced :
    let _ := Checksum.hashing
    let l : State := ⟨init Schedule.fourNodes (fun _ => []) 2, [], []⟩
    (¬ Leads Schedule.fourNodes l.node)
      ∧ storeAccepts Schedule.fourNodes l.node (forgedVotes [0, 1, 3]) = false
      ∧ ¬ Traceless Schedule.fourNodes 2 .prepare (forgedVotes [0, 1, 3]) l := by
  intro hashing l
  refine ⟨by unfold Leads; decide, by decide +kernel, fun traceless => ?_⟩
  have answers : ((handle Schedule.fourNodes 2 (Certifies.prepare.message
      (forgedVotes [0, 1, 3])) l).state.sent).length = 1 := by decide +kernel
  rw [traceless.silent] at answers
  cases answers

end Certificates

end HandlerPara

end ParaHotstuff
