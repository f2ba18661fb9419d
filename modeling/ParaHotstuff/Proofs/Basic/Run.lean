import ParaHotstuff.Proofs.Basic.Leader

/-! Backups and view changes of the basic protocol, and what holds after every run. -/

namespace ParaHotstuff

namespace Handler

open Program Local

variable [Hashing] {cfg : Config} {p : PID} {start : List BasicEvent} {l : State} {rd : RData}
variable {next : M Unit}

section Backup

/-- Voting for a proposal on a new-view statement is safe for a node that does not lead the view. -/
theorem respondToProposal_safe (inside : (knowledge cfg).Inside p start l) {just : Just}
    {block : Block} (justified : NvJust l.history just rd) (here : rd.propv = l.node.view)
    (extended : block.prevHash.hash = rd.justh.hash) (other : cfg.getLeaderOf rd.propv ≠ p)
    (proposed : (proposal cfg rd.propv l.history).isSome) :
    (knowledge cfg).Safe p start (respondToProposal cfg just block) l := by
  unfold Knowledge.Safe respondToProposal
  simp only [gives_bind]
  refine callTEEprepare_gives inside justified.1 here ?_ (by simpa [Just.default] using inside)
  intro r l' hash view justh justv safe view' log' history' inside'
  have own' : Own cfg p l'.node l'.history := inside'.own
  have now : rd.propv = l'.node.view := here.trans view'.symm
  have facts := vote_facts inside' (by rw [history']; exact justified) now safe extended hash
    view justh justv
  have voted := inside_vote inside' facts (view.trans now) (by rw [view]; exact other)
  simp only [Just.set_ofRData, if_true, gives_bind, Just.getRData_ofRData, gives_ofOption_some,
    gives_keepBlock, gives_this, gives_multicast, Just.signs_ofRData]
  refine voted.send _ _ fun d member => ?_
  obtain ⟨-, -, leads⟩ := Config.mem_keep_from_peers.1 member
  obtain ⟨b, proposed⟩ := Option.isSome_iff_exists.1 proposed
  have single : PrepMsg cfg (.voted l'.node.myid r block l'.node.tf.lockh l'.node.tf.lockv
      :: l'.history) ⟨r, [Sign.ofText p p r.toString]⟩ :=
    { distinct := by simp [Signs.getSigners]
      votes := by
        intro s signed
        rw [List.mem_singleton] at signed
        subst signed
        exact ⟨own'.known, r, block, l'.node.tf.lockh, l'.node.tf.lockv, rfl, rfl,
          by simp [Sign.ofText, own'.myid]⟩
      some_vote := by simp
      proposed := by
        rw [view, proposal_cons (b := b) (by rw [history']; exact proposed)]
        rfl }
  -- The vote is addressed to the leader of the view.
  refine ⟨single, fun _ => by simp, fun away => absurd ?_ away⟩
  rw [leads, view.trans now]

/-- Answering a prepare certificate is safe. -/
theorem respondToPrepareJust_safe (inside : (knowledge cfg).Inside p start l) {signs : Signs}
    (here : rd.propv = l.node.view) (known : PrepMsg cfg l.history ⟨rd, signs⟩)
    (cert : PrepCert cfg l.history ⟨rd, signs⟩) :
    (knowledge cfg).Safe p start (respondToPrepareJust cfg (Just.ofRData rd signs)) l := by
  have own : Own cfg p l.node l.history := inside.own
  unfold Knowledge.Safe respondToPrepareJust
  simp only [gives_bind]
  refine callTEEstore_gives inside here (fun full verified => known.backed cert full verified) ?_ ?_
  · intro r tf' view block after
    have store := stored_of_noted (H := l.history) (p := p) view block
    simp only [Just.getRData_ofRData, gives_ofOption_some, gives_this, gives_multicast,
      Just.signs_ofRData]
    exact after.send _ _ fun d _ => ⟨.ofStored own.known store, fun _ => by simp⟩
  · simp only [Just.default, Just.getRData, gives_ofOption_some, gives_this, gives_multicast]
    exact inside.send _ _ fun d _ => ⟨.dummy, fun _ => by simp⟩

/-- Answering a pre-commit certificate is safe, and leaves view and log as they are. -/
theorem respondToPreCommitJust_gives (positive : 0 < cfg.qsize)
    (inside : (knowledge cfg).Inside p start l) {signs : Signs} (here : rd.propv = l.node.view)
    (known : PcMsg cfg l.history ⟨rd, signs⟩) {post : Unit → State → Prop}
    (given : ∀ l', (knowledge cfg).Inside p start l' → l'.node.view = l.node.view →
      l'.node.log = l.node.log → post () l') :
    (respondToPreCommitJust cfg (Just.ofRData rd signs)).Gives post
      ((knowledge cfg).Left p start) l := by
  have own : Own cfg p l.node l.history := inside.own
  unfold respondToPreCommitJust
  simp only [gives_bind]
  refine callTEEstore_gives inside here
    (fun full verified => known.backed inside.facts positive full verified) ?_ ?_
  · intro r tf' view block after
    have store := stored_of_noted (H := l.history) (p := p) view block
    simp only [Just.getRData_ofRData, gives_ofOption_some, gives_this, gives_multicast,
      Just.signs_ofRData]
    refine given _ (after.send _ _ fun d member => ?_) rfl rfl
    obtain ⟨-, -, leads⟩ := Config.mem_keep_from_peers.1 member
    refine ⟨.ofStored after.facts own.known store, fun _ => by simp, fun away => absurd ?_ away⟩
    rw [leads, view, here]
  · simp only [Just.default, Just.getRData, gives_ofOption_some, gives_this, gives_multicast]
    exact given _ (inside.send _ _ fun d _ => ⟨.dummy, fun _ => by simp, fun _ => .inr rfl⟩)
      rfl rfl

end Backup

section Earlier

/-- A component at the start of the node's view may skip a phase. -/
theorem inside_skip (inside : (knowledge cfg).Inside p start l)
    (now : l.node.tf.view = l.node.view) :
    (knowledge cfg).Inside p start
      { l with node := { l.node with tf := l.node.tf.increment } } :=
  have own : Own cfg p l.node l.history := inside.own
  inside.node { own with trusted := own.trusted.increment now }

/-- Going through the messages already held for a view is safe at its start. -/
theorem handleEarlierMessages_safe (positive : 0 < cfg.qsize)
    (nextSafe : ∀ start l, (knowledge cfg).Inside p start l → (knowledge cfg).Safe p start next l)
    (inside : (knowledge cfg).Inside p start l) (now : l.node.tf.view = l.node.view)
    (phase : l.node.tf.phase = PH1_PREPARE) (later : 0 < l.node.view) :
    (knowledge cfg).Safe p start (handleEarlierMessages cfg next) l := by
  have own : Own cfg p l.node l.history := inside.own
  unfold Knowledge.Safe handleEarlierMessages
  simp only [gives_bind, gives_this, gives_amCurrentLeader, beq_iff_eq, own.myid]
  refine gives_ite (fun leads => ?_) (fun away => ?_)
  · have leader : cfg.getLeaderOf l.node.view = p := Config.amLeaderOf_iff.1 leads
    refine gives_ite (fun full => ?_) (fun _ => inside)
    refine prepare_safe positive nextSafe inside leader ?_
    obtain ⟨m, _, held⟩ := Messages.first_of_collected positive full
    exact List.ne_nil_of_mem held
  have other : cfg.getLeaderOf l.node.view ≠ p := fun leads => away (Config.amLeaderOf_iff.2 leads)
  refine gives_ite (fun full => ?_) (fun _ => ?_)
  -- A pre-commit certificate is held: two phases are skipped.
  · obtain ⟨m, found, held⟩ := Messages.first_of_collected positive full
    obtain ⟨view, known⟩ := own.log.precommits held
    have moved : l.node.tf.increment = { l.node.tf with phase := PH1_PRECOMMIT } := by
      simp only [TrustedFun.increment, phase]
      rfl
    have skipped := inside_skip (inside_skip inside now) (by
      simp only [moved]; exact now)
    have firstPc : l.node.log.firstPrecommit l.node.view = Just.ofRData m.rdata m.signs := by
      simp [Log.firstPrecommit, Log.firstOf, found]
    simp only [gives_bind, gives_callTEEsign, firstPc]
    refine respondToPreCommitJust_gives positive skipped view known ?_
    intro l' inside' view' log'
    simp only [gives_this]
    refine gives_ite (fun fullCom => ?_) (fun _ => inside')
    have own' : Own cfg p l'.node l'.history := inside'.own
    obtain ⟨c, foundCom, heldCom⟩ := Messages.first_of_collected positive fullCom
    obtain ⟨viewCom, knownCom, cert⟩ := own'.log.commits heldCom
    have same : l'.node.view = l.node.view := view'
    have firstCom : l'.node.log.firstCommit l'.node.view = Just.ofRData c.rdata c.signs := by
      simp [Log.firstCommit, Log.firstOf, foundCom]
    simp only [firstCom, Just.getRData_ofRData]
    -- The commit held for a later view is no dummy, so it is a full certificate.
    have real : c.rdata ≠ RData.default := by
      intro dummy
      rw [dummy] at viewCom
      exact absurd (viewCom.trans same) (Nat.ne_of_lt later)
    have proposed := knownCom.block.resolve_right fun dummy => real dummy.1
    have fullCert := (cert (by rw [same]; exact other)).resolve_right real
    exact executeRData_safe nextSafe inside' viewCom
      (knownCom.quorum inside'.facts proposed fullCert)
  refine gives_ite (fun full => ?_) (fun _ => ?_)
  -- A prepare certificate is held: one phase is skipped.
  · obtain ⟨m, found, held⟩ := Messages.first_of_collected positive full
    obtain ⟨view, known, cert⟩ := own.log.prepares held
    have firstPrep : l.node.log.firstPrepare l.node.view = Just.ofRData m.rdata m.signs := by
      simp [Log.firstPrepare, Log.firstOf, found]
    simp only [gives_bind, gives_callTEEsign, firstPrep]
    exact respondToPrepareJust_safe (inside_skip inside now) view known (cert other)
  -- A proposal may be held.
  · split
    · rename_i msgProp found
      refine gives_ite (fun _ => ?_) (fun _ => inside)
      obtain ⟨_, rdata, view, ⟨justified, proposed⟩, extended⟩ :=
        own.log.proposals (Messages.mem_of_first found)
      exact respondToProposal_safe inside justified view extended (by rw [view]; exact other)
        proposed
    · exact inside

end Earlier

section Messages

/-- Handling a new-view message is safe. -/
theorem handleNewview_safe (positive : 0 < cfg.qsize)
    (nextSafe : ∀ start l, (knowledge cfg).Inside p start l → (knowledge cfg).Safe p start next l)
    (inside : (knowledge cfg).Inside p start l) {msg : MsgNewView}
    (known : msg.rdata.phase = PH1_NEWVIEW → NvMsg cfg l.history msg) :
    (knowledge cfg).Safe p start (handleNewview cfg next msg) l := by
  have own : Own cfg p l.node l.history := inside.own
  unfold Knowledge.Safe handleNewview
  simp only [gives_bind, gives_this, Bool.and_eq_true, beq_iff_eq, decide_eq_true_eq,
    Config.amLeaderOf_iff, own.myid]
  refine gives_ite (fun heeded => ?_) (fun _ => inside)
  obtain ⟨⟨-, phase⟩, leads⟩ := heeded
  have log := own.log.storeNv (known phase)
  have stored := inside.node (h := { l.node with log := (l.node.log.storeNv msg).2 })
    { own with log := log }
  simp only [gives_bind, gives_storeNv]
  refine gives_ite (fun quorum => ?_) (fun _ => stored)
  obtain ⟨counted, here⟩ := quorum
  refine prepare_safe positive nextSafe stored (here ▸ leads) ?_
  -- The count shows that the message is held now.
  rw [← here, ← List.length_pos_iff_ne_nil, Log.length_storeNv positive counted]
  exact positive

/-- Handling a leader's proposal is safe. -/
theorem handleLdrPrepare_safe (inside : (knowledge cfg).Inside p start l) {msg : MsgLdrPrepare}
    {rdata : RData} (known : PropMsg cfg l.history msg rdata)
    (other : cfg.getLeaderOf rdata.propv ≠ p) :
    (knowledge cfg).Safe p start (handleLdrPrepare cfg msg) l := by
  have own : Own cfg p l.node l.history := inside.own
  unfold Knowledge.Safe handleLdrPrepare
  simp only [gives_bind, gives_this, known.1.1, gives_ofOption_some, Bool.and_eq_true, beq_iff_eq,
    decide_eq_true_eq, Block.extends', Hash.beq_iff]
  refine gives_ite (fun verified => ?_) (fun _ => inside)
  have extended := verified.2
  refine gives_ite (fun here => ?_) (fun _ => ?_)
  · exact respondToProposal_safe inside known.1 here extended other known.2
  · simp only [storeProp, gives_bind, gives_this]
    refine gives_ofOption (fun result stored => ?_) (fun _ => inside.toLeft)
    obtain ⟨count, log⟩ := result
    exact inside.node { own with log := own.log.storeProp known extended other stored }

/-- Handling a prepare message is safe. -/
theorem handlePrepare_safe (positive : 0 < cfg.qsize)
    (nextSafe : ∀ start l, (knowledge cfg).Inside p start l → (knowledge cfg).Safe p start next l)
    (inside : (knowledge cfg).Inside p start l) {msg : MsgPrepare}
    (known : PrepMsg cfg l.history msg)
    (single : cfg.getLeaderOf msg.rdata.propv = p → msg.signs.length ≤ 1)
    (cert : cfg.getLeaderOf msg.rdata.propv ≠ p → PrepCert cfg l.history msg) :
    (knowledge cfg).Safe p start (handlePrepare cfg next msg) l := by
  have own : Own cfg p l.node l.history := inside.own
  have log := own.log.storePrep known single cert
  have stored := inside.node (h := { l.node with log := (l.node.log.storePrep msg).2 })
    { own with log := log }
  unfold Knowledge.Safe handlePrepare
  simp only [gives_bind, gives_this, beq_iff_eq]
  refine gives_ite (fun here => ?_) (fun _ => ?_)
  · rw [gives_bind, gives_amCurrentLeader]
    simp only [Config.amLeaderOf_iff, own.myid]
    refine gives_ite (fun leads => ?_) (fun away => ?_)
    · have leader : cfg.getLeaderOf msg.rdata.propv = p := by rw [here]; exact leads
      simp only [gives_bind, gives_storePrep]
      refine gives_ite (fun counted => ?_) (fun _ => stored)
      refine initiatePrepare_safe positive nextSafe stored here leader known.proposed ?_
      -- Each message counted carries at most one vote.
      have bound := Messages.length_allSigns (log.ownPrepares leader).single
      exact Nat.le_trans bound (Nat.le_of_eq (Log.length_storePrep positive counted))
    · refine gives_ite (fun full => ?_) (fun _ => inside)
      exact respondToPrepareJust_safe inside here known (cert fun leads => away (here ▸ leads))
  · refine gives_ite (fun _ => ?_) (fun _ => inside)
    simpa only [gives_bind, gives_storePrep, gives_pure] using stored

/-- Handling a pre-commit message is safe. -/
theorem handlePrecommit_safe (positive : 0 < cfg.qsize)
    (nextSafe : ∀ start l, (knowledge cfg).Inside p start l → (knowledge cfg).Safe p start next l)
    (inside : (knowledge cfg).Inside p start l) {msg : MsgPreCommit}
    (known : PcMsg cfg l.history msg)
    (single : cfg.getLeaderOf msg.rdata.propv = p → msg.signs.length ≤ 1) :
    (knowledge cfg).Safe p start (handlePrecommit cfg next msg) l := by
  have own : Own cfg p l.node l.history := inside.own
  have stored := inside.node (h := { l.node with log := (l.node.log.storePc msg).2 })
    { own with log := own.log.storePc known single }
  unfold Knowledge.Safe handlePrecommit
  simp only [gives_bind, gives_this, Bool.and_eq_true, beq_iff_eq]
  refine gives_ite (fun current => ?_) (fun _ => ?_)
  · have here := current.1
    rw [gives_bind, gives_amCurrentLeader]
    simp only [Config.amLeaderOf_iff, own.myid]
    refine gives_ite (fun leads => ?_) (fun _ => ?_)
    · simp only [gives_bind, gives_storePc]
      refine gives_ite (fun _ => ?_) (fun _ => stored)
      exact initiatePrecommit_safe positive nextSafe stored fun _ => ⟨here, by rw [here]; exact leads⟩
    · refine gives_ite (fun full => ?_) (fun _ => inside)
      exact respondToPreCommitJust_gives positive inside here known fun _ inside' _ _ => inside'
  · refine gives_ite (fun _ => ?_) (fun _ => inside)
    simpa only [gives_bind, gives_storePc, gives_pure] using stored

/-- Handling a commit message is safe. -/
theorem handleCommit_safe
    (nextSafe : ∀ start l, (knowledge cfg).Inside p start l → (knowledge cfg).Safe p start next l)
    (inside : (knowledge cfg).Inside p start l) {msg : MsgCommit}
    (known : ComMsg cfg l.history msg)
    (single : cfg.getLeaderOf msg.rdata.propv = p → msg.signs.length ≤ 1)
    (cert : cfg.getLeaderOf msg.rdata.propv ≠ p →
      msg.signs.length = cfg.qsize ∨ msg.rdata = RData.default) :
    (knowledge cfg).Safe p start (handleCommit cfg next msg) l := by
  have own : Own cfg p l.node l.history := inside.own
  have stored := inside.node (h := { l.node with log := (l.node.log.storeCom msg).2 })
    { own with log := own.log.storeCom known single cert }
  have later : Gives (do let _ ← storeCom msg) (fun _ => (knowledge cfg).Inside p start)
      ((knowledge cfg).Left p start) l := by
    simpa only [gives_bind, gives_storeCom, gives_pure] using stored
  unfold Knowledge.Safe handleCommit
  simp only [gives_bind, gives_this, Bool.and_eq_true, beq_iff_eq]
  refine gives_ite (fun current => ?_) (fun _ => ?_)
  -- The dummy commit is in another phase, so the message is on the proposed block.
  · obtain ⟨here, phase⟩ := current
    have proposed := known.block.resolve_right fun dummy => by
      rw [dummy.1] at phase
      exact absurd phase (by decide)
    rw [gives_bind, gives_amCurrentLeader]
    simp only [Config.amLeaderOf_iff, own.myid]
    refine gives_ite (fun leads => ?_) (fun _ => ?_)
    · simp only [gives_bind, gives_storeCom]
      refine gives_ite (fun _ => ?_) (fun _ => stored)
      exact initiateCommit_safe nextSafe stored fun _ =>
        ⟨here, by rw [here]; exact leads, proposed⟩
    · refine gives_ite (fun verified => ?_) (fun _ => inside)
      exact executeRData_safe nextSafe inside here
        (known.quorum inside.facts proposed verified.1)
  · refine gives_ite (fun _ => ?_) (fun _ => inside)
    refine gives_ite (fun _ => later) (fun _ => ?_)
    exact gives_ite (fun _ => later) (fun _ => inside)

end Messages

end Handler

end ParaHotstuff
