import ParaHotstuff.Proofs.Basic.Steps

/-! Leaders of the basic protocol: collecting votes, certifying, and executing. -/

namespace ParaHotstuff

namespace Handler

open Program Local
open Messages (allSigns)

variable {cfg : Config} {p : PID} {start : List BasicEvent} {l : State} {r rdata : RData}

section Collected

variable {log : Log} {H : List BasicEvent} {v : View}

/-- What a leader collects from its pre-commits is again a pre-commit message. -/
theorem OwnLog.getPrecommit (own : OwnLog cfg p log H)
    (leader : cfg.getLeaderOf rdata.propv = p) :
    PcMsg cfg H ⟨rdata, log.getPrecommit rdata.propv cfg.qsize⟩ where
  distinct := (own.ownPrecommits leader).collected
  stores := fun s member => by
    obtain ⟨m, held, signed⟩ := Messages.mem_of_collected member
    obtain ⟨view, known⟩ := own.precommits held
    exact view ▸ known.stores s signed

/-- What a leader collects from its commits is again a commit message. -/
theorem OwnLog.getCommit (own : OwnLog cfg p log H)
    (leader : cfg.getLeaderOf rdata.propv = p)
    (proposed : proposal cfg rdata.propv H = some rdata.proph.hash) :
    ComMsg cfg H ⟨rdata, log.getCommit rdata.propv cfg.qsize⟩ where
  distinct := (own.ownCommits leader).collected
  stores := fun s member => by
    obtain ⟨m, held, signed⟩ := Messages.mem_of_collected member
    obtain ⟨view, known, _⟩ := own.commits held
    exact view ▸ known.stores s signed
  block := .inl proposed

/-- What a leader collects from its prepare votes is again a prepare message. -/
theorem OwnLog.getPrepare (own : OwnLog cfg p log H) (positive : 0 < cfg.qsize)
    (leader : cfg.getLeaderOf rdata.propv = p)
    (proposed : (proposal cfg rdata.propv H).isSome)
    (full : (log.getPrepare rdata.propv cfg.qsize).length = cfg.qsize) :
    PrepMsg cfg H ⟨rdata, log.getPrepare rdata.propv cfg.qsize⟩ where
  distinct := (own.ownPrepares leader).collected
  votes := fun s member => by
    obtain ⟨m, held, signed⟩ := Messages.mem_of_collected member
    obtain ⟨view, known, _⟩ := own.prepares held
    exact view ▸ known.votes s signed
  some_vote := by
    rw [← List.length_pos_iff_ne_nil]
    lia
  proposed := proposed

/-- If no vote is left out, the leader's own first vote is among those collected. -/
theorem OwnLog.prepareCert (own : OwnLog cfg p log H)
    (leader : cfg.getLeaderOf rdata.propv = p)
    (proposed : (proposal cfg rdata.propv H).isSome)
    (all : (allSigns (·.signs) (log.prepares.held rdata.propv)).length ≤ cfg.qsize) :
    PrepCert cfg H ⟨rdata, log.getPrepare rdata.propv cfg.qsize⟩ := by
  intro _
  obtain ⟨b, proposed⟩ := Option.isSome_iff_exists.1 proposed
  obtain ⟨m, held, r, block, signs⟩ := own.ownVote leader proposed
  refine ⟨Sign.ofText p p r.toString, ?_, r, rfl, by rw [proposed, block]⟩
  change _ ∈ log.prepares.getSigns _ _ _
  rw [Messages.getSigns_eq, List.take_of_length_le all]
  exact List.mem_flatMap.2 ⟨m, held, by simp [signs]⟩

/-- The signature of a node on a block it stored, as a vote of the next phase. -/
theorem StoreSign.ofStored {H : List BasicEvent} (within : p < cfg.total)
    (store : Stored H p r.propv r.proph.hash) :
    StoreSign cfg H r.propv (Sign.ofText p p r.toString) :=
  ⟨within, r, rfl, store⟩

/-- The answer to a stored certificate is a pre-commit message. -/
theorem PcMsg.ofStored {H : List BasicEvent} (within : p < cfg.total)
    (store : Stored H p r.propv r.proph.hash) :
    PcMsg cfg H ⟨r, [Sign.ofText p p r.toString]⟩ where
  distinct := by simp [Signs.getSigners]
  stores := fun s member => by
    rw [List.mem_singleton] at member
    exact member ▸ StoreSign.ofStored within store

/-- The dummy answer is a pre-commit message without signatures. -/
theorem PcMsg.dummy {H : List BasicEvent} : PcMsg cfg H ⟨RData.default, []⟩ :=
  ⟨by simp [Signs.getSigners], by simp⟩

/-- The stored certificate is on record after it was noted. -/
theorem stored_of_noted {H : List BasicEvent} {rd : RData} (view : r.propv = rd.propv)
    (block : r.proph = rd.proph) : Stored (.stored p rd :: H) p r.propv r.proph.hash :=
  stored_stored.2 (.inl ⟨rfl, view.symm, by rw [block]⟩)

/-- The dummy answer is a commit message without signatures. -/
theorem ComMsg.dummy {H : List BasicEvent} : ComMsg cfg H ⟨RData.default, []⟩ :=
  ⟨.dummy, .inr ⟨rfl, rfl⟩⟩

/-- Once a leader has voted in a view, the view has a proposal. -/
theorem proposal_of_vote (H : List BasicEvent) (block : Block) (lockh : Hash) (lockv : View)
    (leader : cfg.getLeaderOf r.propv = p) :
    (proposal cfg r.propv (.voted p r block lockh lockv :: H)).isSome := by
  cases before : proposal cfg r.propv H <;> simp [proposal, before, leader]

end Collected

variable [Hashing] {next : M Unit}

/-- Executing a block that a quorum stored is safe. -/
theorem executeRData_safe
    (nextSafe : ∀ start l, (knowledge cfg).Inside p start l → (knowledge cfg).Safe p start next l)
    (inside : (knowledge cfg).Inside p start l) (here : rdata.propv = l.node.view)
    (quorum : ∃ Q, IsQuorum cfg.total cfg.qsize Q ∧
      ∀ q ∈ Q, Stored l.history q rdata.propv rdata.proph.hash) :
    (knowledge cfg).Safe p start (executeRData cfg next rdata) l := by
  have own : Own cfg p l.node l.history := inside.own
  have facts : Facts cfg (.executed p l.node.view rdata :: l.history) :=
    Facts.execute inside.facts here (here ▸ quorum)
  -- The event of the execution changes nothing that is known of the node itself.
  have noted : Own cfg p l.node (.executed p l.node.view rdata :: l.history) :=
    { own with
      trusted := own.trusted.mono [_] (by simp)
      log := own.log.mono [_] fun v _ => proposal_executed }
  have after : ∀ queue, (knowledge cfg).Inside p start
      { l with
        node := { l.node with rep_queue := queue }
        history := .executed p l.node.view rdata :: l.history } := fun queue =>
    inside.event knowledge_stable rfl facts { noted with }
  unfold Knowledge.Safe executeRData
  simp only [gives_bind, gives_this, gives_note, own.myid, replyHash]
  have rest : ∀ queue, Gives (if cfg.timeToStop l.node.view = true then pure () else next)
      (fun _ => (knowledge cfg).Inside p start) ((knowledge cfg).Left p start)
      { l with
        node := { l.node with rep_queue := queue }
        history := .executed p l.node.view rdata :: l.history } := fun queue =>
    gives_ite (fun _ => after queue) (fun _ => nextSafe _ _ (after queue))
  split
  · refine gives_ite (fun _ => ?_) (fun _ => ?_)
    · simpa using rest _
    · simpa using rest l.node.rep_queue
  · simpa using rest l.node.rep_queue

/-- A leader that collects a full set of commits sends a commit certificate and executes. -/
theorem initiateCommit_safe
    (nextSafe : ∀ start l, (knowledge cfg).Inside p start l → (knowledge cfg).Safe p start next l)
    (inside : (knowledge cfg).Inside p start l)
    (ready : (l.node.log.getCommit rdata.propv cfg.qsize).length = cfg.qsize →
      rdata.propv = l.node.view ∧ cfg.getLeaderOf rdata.propv = p
        ∧ proposal cfg rdata.propv l.history = some rdata.proph.hash) :
    (knowledge cfg).Safe p start (initiateCommit cfg next rdata) l := by
  have own : Own cfg p l.node l.history := inside.own
  unfold Knowledge.Safe initiateCommit
  simp only [gives_bind, gives_this, beq_iff_eq]
  refine gives_ite (fun full => ?_) (fun _ => inside)
  obtain ⟨here, leader, proposed⟩ := ready full
  have known := own.log.getCommit leader proposed
  have sent := inside.send (.commit ⟨rdata, l.node.log.getCommit rdata.propv cfg.qsize⟩)
    (cfg.remove_from_peers l.node.myid l.node.myid) fun d member => by
      have other := (Config.mem_remove_from_peers.1 member).2
      rw [own.myid] at other
      exact ⟨known, fun same => absurd (same.symm.trans leader) other, fun _ => .inl full⟩
  simp only [gives_bind, gives_multicast]
  exact executeRData_safe nextSafe sent here (known.quorum inside.facts proposed full)

/-- The answer to a stored certificate is a commit message as well. -/
theorem ComMsg.ofStored {H : List BasicEvent} (facts : Facts cfg H) (within : p < cfg.total)
    (store : Stored H p r.propv r.proph.hash) :
    ComMsg cfg H ⟨r, [Sign.ofText p p r.toString]⟩ where
  toPcMsg := .ofStored within store
  block := .inl (facts.unique store)

/-- A leader that collects a full set of pre-commits certifies, stores and commits. -/
theorem initiatePrecommit_safe (positive : 0 < cfg.qsize)
    (nextSafe : ∀ start l, (knowledge cfg).Inside p start l → (knowledge cfg).Safe p start next l)
    (inside : (knowledge cfg).Inside p start l)
    (ready : (l.node.log.getPrecommit rdata.propv cfg.qsize).length = cfg.qsize →
      rdata.propv = l.node.view ∧ cfg.getLeaderOf rdata.propv = p) :
    (knowledge cfg).Safe p start (initiatePrecommit cfg next rdata) l := by
  have own : Own cfg p l.node l.history := inside.own
  unfold Knowledge.Safe initiatePrecommit
  simp only [gives_bind, gives_this, beq_iff_eq]
  refine gives_ite (fun full => ?_) (fun _ => inside)
  obtain ⟨here, leader⟩ := ready full
  have known := own.log.getPrecommit leader
  have sent := inside.send
    (.preCommit ⟨rdata, l.node.log.getPrecommit rdata.propv cfg.qsize⟩)
    (cfg.remove_from_peers l.node.myid l.node.myid) fun d member => by
      have other := (Config.mem_remove_from_peers.1 member).2
      rw [own.myid] at other
      exact ⟨known, fun same => absurd (same.symm.trans leader) other⟩
  simp only [gives_bind, gives_multicast]
  refine callTEEstore_gives sent here
    (fun full verified => known.backed inside.facts positive full verified) ?_ ?_
  -- The certificate was stored: the own commit is counted with the others.
  · intro r tf' view block after
    have own' : Own cfg p _ _ := after.own
    have store := stored_of_noted (H := l.history) (p := p) view block
    have log := own'.log.storeCom (ComMsg.ofStored after.facts own.known store)
      (fun _ => by simp) (fun other => absurd (by rw [view]; exact leader) other)
    simp only [Just.getRData_ofRData, gives_ofOption_some, gives_storeCom, Just.signs_ofRData]
    refine gives_ite (fun _ => ?_) (fun _ => after.node { own' with log := log })
    refine initiateCommit_safe nextSafe (after.node { own' with log := log })
      fun _ => ⟨view.trans here, by rw [view]; exact leader, after.facts.unique store⟩
  -- The certificate was refused: the dummy commit adds no signature, so nothing is executed.
  · have log := own.log.storeCom (m := ⟨RData.default, []⟩) ComMsg.dummy (fun _ => by simp)
      (fun _ => .inr rfl)
    simp only [Just.default, Just.getRData, gives_ofOption_some, gives_storeCom]
    refine gives_ite (fun counted => ?_) (fun _ => sent.node { own with log := log })
    refine initiateCommit_safe nextSafe (sent.node { own with log := log }) fun full => ?_
    have none_held := Messages.allSigns_of_unsigned (·.signs) MsgRData.lt l.node.log.commits
      RData.default.propv ⟨RData.default, []⟩ rfl
      (by rw [← Nat.pos_iff_ne_zero]; exact Nat.lt_of_lt_of_le positive counted)
    change (Messages.getSigns _ (l.node.log.commits.store _ _ _ _).2 _ _).length = _ at full
    rw [Messages.getSigns_eq, none_held] at full
    simp only [List.take_nil, List.length_nil] at full
    lia

/-- A leader that collects a full set of votes certifies, stores and pre-commits. -/
theorem initiatePrepare_safe (positive : 0 < cfg.qsize)
    (nextSafe : ∀ start l, (knowledge cfg).Inside p start l → (knowledge cfg).Safe p start next l)
    (inside : (knowledge cfg).Inside p start l) (here : rdata.propv = l.node.view)
    (leader : cfg.getLeaderOf rdata.propv = p)
    (proposed : (proposal cfg rdata.propv l.history).isSome)
    (all : (allSigns (·.signs) (l.node.log.prepares.held rdata.propv)).length ≤ cfg.qsize) :
    (knowledge cfg).Safe p start (initiatePrepare cfg next rdata) l := by
  have own : Own cfg p l.node l.history := inside.own
  unfold Knowledge.Safe initiatePrepare
  simp only [gives_bind, gives_this, beq_iff_eq]
  refine gives_ite (fun full => ?_) (fun _ => inside)
  have known := own.log.getPrepare positive leader proposed full
  have cert := own.log.prepareCert leader proposed all
  have sent := inside.send
    (.prepare ⟨rdata, l.node.log.getPrepare rdata.propv cfg.qsize⟩)
    (cfg.remove_from_peers l.node.myid l.node.myid) fun d member => by
      have other := (Config.mem_remove_from_peers.1 member).2
      rw [own.myid] at other
      exact ⟨known, fun same => absurd (same.symm.trans leader) other, fun _ => cert⟩
  simp only [gives_bind, gives_multicast]
  refine callTEEstore_gives sent here (fun full verified => known.backed cert full verified) ?_ ?_
  -- The certificate was stored: the own pre-commit is counted with the others.
  · intro r tf' view block after
    have own' : Own cfg p _ _ := after.own
    have store := stored_of_noted (H := l.history) (p := p) view block
    have log := own'.log.storePc (PcMsg.ofStored own.known store) (fun _ => by simp)
    simp only [Just.getRData_ofRData, gives_ofOption_some, gives_storePc, Just.signs_ofRData]
    refine gives_ite (fun _ => ?_) (fun _ => after.node { own' with log := log })
    exact initiatePrecommit_safe positive nextSafe (after.node { own' with log := log })
      fun _ => ⟨view.trans here, by rw [view]; exact leader⟩
  -- The certificate was refused: the dummy pre-commit adds no signature.
  · have log := own.log.storePc (m := ⟨RData.default, []⟩) PcMsg.dummy (fun _ => by simp)
    simp only [Just.default, Just.getRData, gives_ofOption_some, gives_storePc]
    refine gives_ite (fun counted => ?_) (fun _ => sent.node { own with log := log })
    refine initiatePrecommit_safe positive nextSafe (sent.node { own with log := log })
      fun full => ?_
    have none_held := Messages.allSigns_of_unsigned (·.signs) MsgRData.lt l.node.log.precommits
      RData.default.propv ⟨RData.default, []⟩ rfl
      (by rw [← Nat.pos_iff_ne_zero]; exact Nat.lt_of_lt_of_le positive counted)
    change (Messages.getSigns _ (l.node.log.precommits.store _ _ _ _).2 _ _).length = _ at full
    rw [Messages.getSigns_eq, none_held] at full
    simp only [List.take_nil, List.length_nil] at full
    lia

/-- A leader that holds new-view messages proposes on one of them and counts its own vote. -/
theorem prepare_safe (positive : 0 < cfg.qsize)
    (nextSafe : ∀ start l, (knowledge cfg).Inside p start l → (knowledge cfg).Safe p start next l)
    (inside : (knowledge cfg).Inside p start l) (leader : cfg.getLeaderOf l.node.view = p)
    (some_held : l.node.log.newviews.held l.node.view ≠ []) :
    (knowledge cfg).Safe p start (prepare cfg next) l := by
  have own : Own cfg p l.node l.history := inside.own
  rcases l.node.log.findHighestNv_mem l.node.view with ⟨none_held, _⟩ | ⟨msg, held, found, _⟩
  · exact absurd none_held some_held
  obtain ⟨here, q, within, statement, -⟩ := own.log.newviews held
  unfold Knowledge.Safe prepare
  simp only [gives_bind, gives_this, found, Just.getRData_ofRData, gives_ofOption_some]
  refine createNewBlock_gives inside fun block l₁ extended view₁ log₁ history₁ inside₁ => ?_
  refine callTEEprepare_gives inside₁ (Just.getRData_ofRData msg.rdata msg.signs)
    (here.trans view₁.symm) ?_ inside₁
  intro r l₂ hash view justh justv safe view₂ log₂ history₂ inside₂
  have statement₂ : BasicEvent.newview q msg.rdata ∈ l₂.history := by
    rw [history₂, history₁]; exact statement
  have now : msg.rdata.propv = l₂.node.view := by rw [view₂, view₁, here]
  have mine : cfg.getLeaderOf r.propv = p := by rw [view, here]; exact leader
  have facts := vote_facts inside₂
    (show NvJust _ (Just.ofRData msg.rdata msg.signs) msg.rdata from ⟨rfl, q, statement₂⟩)
    now safe (by rw [extended]) hash view justh justv
  have voted := inside_propose inside₂ facts (view.trans now) mine
  have own₂ : Own cfg p l₂.node l₂.history := inside₂.own
  have proposed := proposal_of_vote l₂.history block l₂.node.tf.lockh l₂.node.tf.lockv
    (mine.trans own₂.myid.symm)
  have sent := voted.send
    (.ldrPrepare ⟨⟨Just.ofRData msg.rdata msg.signs, block⟩, [Sign.ofText p p r.toString]⟩)
    (cfg.remove_from_peers l.node.myid l.node.myid) fun d member => by
      have other := (Config.mem_remove_from_peers.1 member).2
      rw [own.myid] at other
      refine ⟨msg.rdata, ⟨⟨rfl, q, List.mem_cons_of_mem _ statement₂⟩, view ▸ proposed⟩, ?_⟩
      exact fun same => absurd (same.symm.trans (by rw [here]; exact leader)) other
  simp only [Just.set_ofRData, if_true, gives_bind, Just.getRData_ofRData, gives_ofOption_some,
    gives_keepBlock, gives_multicast, gives_storePrep, Just.signs_ofRData]
  refine gives_ite (fun full => ?_) (fun _ => ?_)
  · exact initiatePrepare_safe positive nextSafe sent (view.trans now) mine proposed
      (own₂.log.propose_count mine positive full)
  · exact sent

end Handler

end ParaHotstuff
