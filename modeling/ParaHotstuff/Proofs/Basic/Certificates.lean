import ParaHotstuff.Proofs.Basic.Certified

/-! How votes and certificates of a basic view come about, if all votes are made in its prepare phase. -/

namespace ParaHotstuff

namespace Handler

open Program Local

namespace Certified

variable [Hashing] {cfg : Config} {p : PID} {start : List BasicEvent} {l : State} {r : RData}
variable {next : M Unit}

omit [Hashing] in
/-- A dummy answer completes no certificate. -/
theorem none_of_dummy (positive : 0 < cfg.qsize) (log : Messages View MsgRData)
    (counted : cfg.qsize ≤ (log.store (·.signs) MsgRData.lt 0 ⟨RData.default, []⟩).1) :
    ((log.store (·.signs) MsgRData.lt 0 ⟨RData.default, []⟩).2.getSigns (·.signs) 0
      cfg.qsize).length ≠ cfg.qsize := by
  have none_held := Messages.allSigns_of_unsigned (·.signs) MsgRData.lt log 0
    ⟨RData.default, []⟩ rfl (by omega)
  rw [Messages.getSigns_eq, none_held]
  simp only [List.take_nil, List.length_nil]
  omega

section Leader

/-- What happens when a block is executed leaves what is known. -/
theorem executeRData_safe
    (nextSafe : ∀ start l, (knowledge cfg).Inside p start l → (knowledge cfg).Safe p start next l)
    (inside : (knowledge cfg).Inside p start l) {rdata : RData} :
    (knowledge cfg).Safe p start (executeRData cfg next rdata) l := by
  have own : Own cfg p l.node l.history := inside.own
  have facts : Facts cfg l.history := inside.facts
  have noted : Own cfg p l.node (.executed p l.node.view rdata :: l.history) :=
    own.mono [_] (fun _ _ => proposed_executed) fun _ _ => stored_executed
  have after : ∀ queue, (knowledge cfg).Inside p start
      { l with
        node := { l.node with rep_queue := queue }
        history := .executed p l.node.view rdata :: l.history } := fun queue =>
    inside.event knowledge_stable rfl (facts.cons fun _ => proposed_executed) { noted with }
  unfold Knowledge.Safe executeRData
  simp only [gives_bind, gives_this, gives_note, own.myid, replyHash]
  have rest : ∀ queue, Gives (if cfg.timeToStop l.node.view = true then pure () else next)
      (fun _ => (knowledge cfg).Inside p start) ((knowledge cfg).Left p start)
      { l with
        node := { l.node with rep_queue := queue }
        history := .executed p l.node.view rdata :: l.history } := fun queue =>
    gives_ite (fun _ => after queue) (fun _ => nextSafe _ _ (after queue))
  split
  · refine gives_ite (fun _ => ?_) (fun _ => ?_)
    · simpa using rest _
    · simpa using rest l.node.rep_queue
  · simpa using rest l.node.rep_queue

/-- A leader that collects commits of its block sends a valid certificate. -/
theorem initiateCommit_safe
    (nextSafe : ∀ start l, (knowledge cfg).Inside p start l → (knowledge cfg).Safe p start next l)
    (inside : (knowledge cfg).Inside p start l) (proposed : Proposed cfg l.history r)
    (leads : cfg.getLeaderOf r.propv = p) :
    (knowledge cfg).Safe p start (initiateCommit cfg next (answer r PH1_COMMIT)) l := by
  have own : Own cfg p l.node l.history := inside.own
  unfold Knowledge.Safe initiateCommit
  simp only [gives_bind, gives_this, beq_iff_eq]
  refine gives_ite (fun _ => ?_) (fun _ => inside)
  have signed := own.log.getCommit (n := cfg.qsize) inside.facts proposed leads
  rw [gives_bind, gives_multicast]
  refine executeRData_safe nextSafe (inside.send _ _ fun d _ => ?_)
  exact .inr ⟨_, r, proposed, rfl, signed⟩

/-- Without enough commits nothing happens. -/
theorem initiateCommit_none (inside : (knowledge cfg).Inside p start l) {rdata : RData}
    (few : (l.node.log.getCommit rdata.propv cfg.qsize).length ≠ cfg.qsize) :
    (knowledge cfg).Safe p start (initiateCommit cfg next rdata) l := by
  unfold Knowledge.Safe initiateCommit
  simp only [gives_bind, gives_this, beq_iff_eq]
  exact gives_ite (fun full => absurd full few) (fun _ => inside)

/-- A leader that has certified and collects pre-commits sends a valid certificate, and commits. -/
theorem initiatePrecommit_safe (positive : 0 < cfg.qsize)
    (nextSafe : ∀ start l, (knowledge cfg).Inside p start l → (knowledge cfg).Safe p start next l)
    (inside : (knowledge cfg).Inside p start l) (proposed : Proposed cfg l.history r)
    (here : r.propv = l.node.view) (leads : cfg.getLeaderOf r.propv = p)
    (stored : Stored cfg l.history r.propv) :
    (knowledge cfg).Safe p start (initiatePrecommit cfg next (answer r PH1_PRECOMMIT)) l := by
  have own : Own cfg p l.node l.history := inside.own
  have facts : Facts cfg l.history := inside.facts
  have leading := own.leading (here ▸ leads)
  unfold Knowledge.Safe initiatePrecommit
  simp only [gives_bind, gives_this, beq_iff_eq]
  refine gives_ite (fun _ => ?_) (fun _ => inside)
  have signed := own.log.getPrecommit (n := cfg.qsize) facts proposed
  have sent := inside.send
    (.preCommit ⟨answer r PH1_PRECOMMIT, l.node.log.getPrecommit r.propv cfg.qsize⟩)
    (cfg.remove_from_peers l.node.myid l.node.myid) fun d _ =>
      .inr ⟨_, ⟨r, proposed, rfl, signed⟩, stored, fun _ => rfl⟩
  rw [gives_bind, gives_multicast, gives_bind]
  refine callTEEstore_answer sent.toLeft ?_ fun _ _ current _ => ?_
  -- The certificate was refused: the dummy commit adds no signature, so nothing is sent.
  · have log := own.log.storeCom (m := ⟨RData.default, []⟩) fun _ => .inl rfl
    have after := sent.node (h := { l.node with
      log := (l.node.log.storeCom ⟨RData.default, []⟩).2 }) { own with log := log }
    simp only [Just.default, Just.getRData, gives_ofOption_some, gives_storeCom, gives_bind]
    refine gives_ite (fun counted => ?_) (fun _ => after)
    exact initiateCommit_none after (none_of_dummy positive l.node.log.commits counted)
  -- The component is in its commit phase, as it has accepted the prepare certificate before.
  · have now : l.node.tf.view = l.node.view := current.trans here
    have phase : l.node.tf.phase = PH1_COMMIT := leading.stored (here ▸ stored) now
    have moved : l.node.tf.increment.view ≠ l.node.view := by
      have next : l.node.tf.increment.view = (l.node.tf.view + 1) % wordSize := by
        simp only [TrustedFun.increment, phase]
        rfl
      rw [next, now]
      exact next_ne own.trusted.small
    have com : (l.node.tf.storeBlock (answer r PH1_PRECOMMIT).proph
          (answer r PH1_PRECOMMIT).propv).statement (answer r PH1_PRECOMMIT).proph Hash.default 0
        = answer r PH1_COMMIT := by
      change (⟨_, l.node.tf.view, _, _, l.node.tf.phase⟩ : RData) = _
      rw [phase, now, ← here]
      rfl
    have signature := (own.trusted.storeBlock (answer r PH1_PRECOMMIT).proph
      (answer r PH1_PRECOMMIT).propv).signature_eq
    have proposed' : Proposed cfg (.stored p (answer r PH1_PRECOMMIT) :: l.history) r :=
      proposed.mono [_]
    have mine : BasicEvent.stored l.node.myid (answer r PH1_PRECOMMIT)
        = .stored p (answer r PH1_PRECOMMIT) := by rw [own.myid]
    rw [com, signature, mine]
    have log := (own.log.mono [.stored p (answer r PH1_PRECOMMIT)]).storeCom
      (m := ⟨answer r PH1_COMMIT, [Sign.ofText p p (answer r PH1_COMMIT).toString]⟩)
      fun _ => .inr ⟨r, proposed', rfl, signedOn_single own.known⟩
    have after := sent.event knowledge_stable (e := .stored p (answer r PH1_PRECOMMIT)) rfl
      (facts.cons fun _ => proposed_stored)
      (own.store here now log rfl fun _ =>
        ⟨fun stays => absurd stays moved, leading.collected (here ▸ stored)⟩)
    simp only [gives_bind, Just.getRData_ofRData, gives_ofOption_some, gives_storeCom,
      Just.signs_ofRData]
    refine gives_ite (fun _ => ?_) (fun _ => after)
    exact initiateCommit_safe nextSafe after proposed' leads

/-- Without enough pre-commits nothing happens. -/
theorem initiatePrecommit_none (inside : (knowledge cfg).Inside p start l) {rdata : RData}
    (few : (l.node.log.getPrecommit rdata.propv cfg.qsize).length ≠ cfg.qsize) :
    (knowledge cfg).Safe p start (initiatePrecommit cfg next rdata) l := by
  unfold Knowledge.Safe initiatePrecommit
  simp only [gives_bind, gives_this, beq_iff_eq]
  exact gives_ite (fun full => absurd full few) (fun _ => inside)

omit [Hashing] in
/-- The signers a node holds for a key stay held when it stores more. -/
theorem collected_store {log : Messages View MsgPreCommit} {m : MsgPreCommit} {v w : View}
    (collected : p ∈ (Messages.allSigns (·.signs) (log.held w)).getSigners) :
    p ∈ (Messages.allSigns (·.signs)
      ((log.store (·.signs) MsgRData.lt v m).2.held w)).getSigners := by
  obtain ⟨s, signed, signer⟩ := List.mem_map.1 collected
  obtain ⟨m', held, member⟩ := List.mem_flatMap.1 signed
  have kept : m' ∈ (log.store (·.signs) MsgRData.lt v m).2.held w :=
    Messages.mem_store_of_mem held
  exact List.mem_map.2 ⟨s, List.mem_flatMap.2 ⟨m', kept, member⟩, signer⟩

/-- A pre-commit may be stored by a node that keeps its own. -/
theorem Own.storePc {h : Handler} {H : List BasicEvent} (own : Own cfg p h H) {m : MsgPreCommit}
    (kinds : Dummy m ∨ (Answers cfg H PH1_PRECOMMIT m ∧ Stored cfg H m.rdata.propv)) :
    Own cfg p { h with log := (h.log.storePc m).2 } H :=
  { own with
    log := own.log.storePc kinds
    leading := fun leads =>
      { own.leading leads with
        collected := fun stored => collected_store ((own.leading leads).collected stored) } }

omit [Hashing] in
/-- After the leader has put its own signature in, it holds it. -/
theorem collected_own {log : Messages View MsgPreCommit} {m : MsgPreCommit} {s : Sign}
    (alone : m.signs = [s]) (signer : s.signer = p) {v : View} :
    p ∈ (Messages.allSigns (·.signs)
      ((log.store (·.signs) MsgRData.lt v m).2.held v)).getSigners := by
  have mine : p ∈ m.signs.getSigners := by simp [alone, Signs.getSigners, signer]
  by_cases held : p ∈ (Messages.allSigns (·.signs) (log.held v)).getSigners
  · exact collected_store held
  · have stored := (Messages.store_new (·.signs) MsgRData.lt log v m
      MsgRData.signers_of_equivalent mine held).1
    obtain ⟨s', signed, rfl⟩ := List.mem_map.1 mine
    refine List.mem_map.2 ⟨s', List.mem_flatMap.2 ⟨m, ?_, signed⟩, rfl⟩
    exact stored.mem_iff.2 List.mem_cons_self

/-- A leader that collects the votes for its block sends a valid certificate, and pre-commits. -/
theorem initiatePrepare_safe (positive : 0 < cfg.qsize)
    (nextSafe : ∀ start l, (knowledge cfg).Inside p start l → (knowledge cfg).Safe p start next l)
    (inside : (knowledge cfg).Inside p start l) (proposed : Proposed cfg l.history r)
    (here : r.propv = l.node.view) (leads : cfg.getLeaderOf r.propv = p) :
    (knowledge cfg).Safe p start (initiatePrepare cfg next r) l := by
  have own : Own cfg p l.node l.history := inside.own
  have facts : Facts cfg l.history := inside.facts
  have leading := own.leading (here ▸ leads)
  unfold Knowledge.Safe initiatePrepare
  simp only [gives_bind, gives_this, beq_iff_eq]
  refine gives_ite (fun full => ?_) (fun _ => inside)
  have signed := own.log.getPrepare (n := cfg.qsize) facts proposed
  have mine : BasicEvent.stored l.node.myid r = .stored p r := by rw [own.myid]
  have signature := (own.trusted.storeBlock r.proph r.propv).signature_eq
  rw [gives_bind, gives_multicast, gives_bind]
  rcases leading.pending ⟨r, proposed, here⟩ with ⟨current, phase⟩ | stored
  -- The component accepts the certificate, and signs in the pre-commit phase.
  · refine callTEEstore_accepted (full.trans own.trusted.qsize.symm) signed.verify
      (current.trans here.symm) (.inl (facts.phase proposed)) ?_
    have moved : l.node.tf.increment = { l.node.tf with phase := PH1_COMMIT } := by
      simp only [TrustedFun.increment, phase]
      rfl
    have pc : (l.node.tf.storeBlock r.proph r.propv).statement r.proph Hash.default 0
        = answer r PH1_PRECOMMIT := by
      change (⟨_, l.node.tf.view, _, _, l.node.tf.phase⟩ : RData) = _
      rw [phase, current, ← here]
      rfl
    have certified : Stored cfg (.stored p r :: l.history) r.propv :=
      stored_stored.2 (.inl ⟨leads.symm, rfl⟩)
    have proposed' : Proposed cfg (.stored p r :: l.history) r := proposed.mono [_]
    rw [pc, signature, mine]
    have log := (own.log.mono [.stored p r]).storePc
      (m := ⟨answer r PH1_PRECOMMIT, [Sign.ofText p p (answer r PH1_PRECOMMIT).toString]⟩)
      (.inr ⟨⟨r, proposed', rfl, signedOn_single own.known⟩, certified⟩)
    have held : p ∈ (Messages.allSigns (·.signs) ((l.node.log.storePc
        ⟨answer r PH1_PRECOMMIT, [Sign.ofText p p (answer r PH1_PRECOMMIT).toString]⟩).2
          |>.precommits.held l.node.view)).getSigners := by
      rw [← here]
      exact collected_own (s := Sign.ofText p p (answer r PH1_PRECOMMIT).toString) rfl rfl
    have after := (inside.event knowledge_stable (e := .stored p r) rfl
      (facts.cons fun _ => proposed_stored)
      (own.store here current log rfl fun _ => ⟨fun _ => by rw [moved], held⟩)).send
      (.prepare ⟨r, l.node.log.getPrepare r.propv cfg.qsize⟩)
      (cfg.remove_from_peers l.node.myid l.node.myid) fun d _ =>
        ⟨⟨proposed', signed⟩, fun _ => certified⟩
    simp only [gives_bind, Just.getRData_ofRData, gives_ofOption_some, gives_storePc,
      Just.signs_ofRData]
    refine gives_ite (fun _ => ?_) (fun _ => after)
    exact initiatePrecommit_safe positive nextSafe after proposed' here leads certified
  -- It has accepted one before, so it holds a pre-commit of its own, which stays the only one.
  · have sent := inside.send (.prepare ⟨r, l.node.log.getPrepare r.propv cfg.qsize⟩)
      (cfg.remove_from_peers l.node.myid l.node.myid) fun d _ =>
        ⟨⟨proposed, signed⟩, fun _ => here ▸ stored⟩
    refine callTEEstore_answer sent.toLeft ?_ fun _ _ current _ => ?_
    · have after := sent.node (h := { l.node with
        log := (l.node.log.storePc ⟨RData.default, []⟩).2 }) (own.storePc (.inl rfl))
      simp only [Just.default, Just.getRData, gives_ofOption_some, gives_storePc, gives_bind]
      refine gives_ite (fun counted => ?_) (fun _ => after)
      exact initiatePrecommit_none after (none_of_dummy positive l.node.log.precommits counted)
    · have now : l.node.tf.view = l.node.view := current.trans here
      have phase : l.node.tf.phase = PH1_COMMIT := leading.stored stored now
      have moved : l.node.tf.increment.view ≠ l.node.view := by
        have next : l.node.tf.increment.view = (l.node.tf.view + 1) % wordSize := by
          simp only [TrustedFun.increment, phase]
          rfl
        rw [next, now]
        exact next_ne own.trusted.small
      have same : OwnLog cfg p l.node.log (.stored p r :: l.history) := own.log.mono [_]
      have after := sent.event knowledge_stable (e := .stored p r) rfl
        (facts.cons fun _ => proposed_stored)
        (own.store here now same rfl fun _ =>
          ⟨fun stays => absurd stays moved, leading.collected stored⟩)
      have held := leading.collected stored
      have kept : l.node.log.storePc
          ⟨(l.node.tf.storeBlock r.proph r.propv).statement r.proph Hash.default 0,
            [Sign.ofText p p ((l.node.tf.storeBlock r.proph r.propv).statement r.proph
              Hash.default 0).toString]⟩ = (0, l.node.log) := by
        have view : ((l.node.tf.storeBlock r.proph r.propv).statement r.proph Hash.default 0).propv
            = l.node.view := now
        simp only [Log.storePc, view]
        rw [Messages.store_covered (fun q signer => ?_) (fun none_held => ?_)]
        · simp only [Signs.getSigners, Sign.ofText, List.map_cons, List.map_nil,
            List.mem_singleton] at signer
          exact signer ▸ held
        · simp [none_held, Signs.getSigners] at held
      rw [signature, mine]
      simp only [gives_bind, Just.getRData_ofRData, gives_ofOption_some, gives_storePc,
        Just.signs_ofRData, kept]
      exact gives_ite (fun counted => absurd counted (by omega)) (fun _ => after)

/-- What a leader has made of its view by proposing: it voted, or it has done nothing. -/
def Prepared (cfg : Config) (l l' : State) : Prop :=
  (∃ r, Proposed cfg l'.history r ∧ r.propv = l.node.view)
    ∨ (l'.node.tf = l.node.tf ∧ l'.node.view = l.node.view)

/-- A leader that proposes in the prepare phase counts its own vote with the others. -/
theorem prepare_gives (positive : 0 < cfg.qsize)
    (nextSafe : ∀ start l, (knowledge cfg).Inside p start l → (knowledge cfg).Safe p start next l)
    (inside : (knowledge cfg).Inside p start l) (leads : cfg.getLeaderOf l.node.view = p)
    (full : cfg.qsize ≤ (l.node.log.newviews.held l.node.view).length)
    (ready : l.node.tf.votesOn cfg.nodes (l.node.log.findHighestNv l.node.view) = true →
      l.node.tf.phase = PH1_PREPARE) :
    (prepare cfg next).Gives (fun _ l' => (knowledge cfg).Inside p start l' ∧ Prepared cfg l l')
      ((knowledge cfg).Left p start) l := by
  have own : Own cfg p l.node l.history := inside.own
  have facts : Facts cfg l.history := inside.facts
  rcases l.node.log.findHighestNv_mem l.node.view with ⟨none_held, _⟩ | ⟨msg, held, highest, _⟩
  · simp only [none_held, List.length_nil] at full
    omega
  unfold prepare
  simp only [gives_bind, gives_this, highest, Just.getRData_ofRData, gives_ofOption_some,
    createNewBlock, gives_modify, gives_pure]
  have filled := inside.node (h := { l.node with
    transactions := l.node.transactions.drop cfg.maxNumTransactions }) { own with }
  refine callTEEprepare_answer filled.toLeft ?_ fun rd tagged accepts => ?_
  · simpa [Just.default] using ⟨filled, .inr ⟨rfl, rfl⟩⟩
  obtain rfl : msg.rdata = rd := by simpa using tagged
  have here : msg.rdata.propv = l.node.view := (own.log.newviews held).1
  have current : l.node.tf.view = l.node.view :=
    ((TrustedFun.votesOn_iff tagged).1 accepts).2.1.trans here
  have phase : l.node.tf.phase = PH1_PREPARE := ready (by rw [highest]; exact accepts)
  obtain ⟨first, _⟩ := own.fresh leads current phase
  simp only [Just.set_ofRData, if_true, gives_bind, Just.getRData_ofRData, gives_ofOption_some,
    gives_keepBlock, gives_multicast, gives_storePrep, Just.signs_ofRData]
  generalize Block.ofTransactions _ _ _ = block
  -- The statement of the leader's own vote, which is the one all others vote for.
  obtain ⟨r, stated⟩ : ∃ r, l.node.tf.statement block.hash msg.rdata.justh msg.rdata.justv = r :=
    ⟨_, rfl⟩
  have view : r.propv = l.node.view := by rw [← stated]; exact current
  have prepares : r.phase = PH1_PREPARE := by rw [← stated]; exact phase
  have mine : cfg.getLeaderOf r.propv = p := by rw [view]; exact leads
  obtain ⟨lockh, locked⟩ : ∃ lockh, l.node.tf.increment.lockh = lockh := ⟨_, rfl⟩
  obtain ⟨lockv, lockedv⟩ : ∃ lockv, l.node.tf.increment.lockv = lockv := ⟨_, rfl⟩
  have event : BasicEvent.voted l.node.myid r block lockh lockv = .voted p r block lockh lockv := by
    rw [own.myid]
  have proposed : Proposed cfg (.voted p r block lockh lockv :: l.history) r :=
    proposed_voted.2 (.inl ⟨mine.symm, rfl⟩)
  rw [stated, own.trusted.signature_eq, locked, lockedv, event]
  have log := (own.log.mono [.voted p r block lockh lockv]).storePrep
    (m := ⟨r, [Sign.ofText p p r.toString]⟩) ⟨proposed, signedOn_single own.known⟩
    fun other => absurd mine other
  have filled' : Own cfg p _ l.history := filled.own
  have voted := filled'.propose view leads current phase full log rfl
    (b := l.node.blocks.insert l.node.view block)
  have after := (filled.event knowledge_stable (e := .voted p r block lockh lockv) rfl
    (facts.propose (fun other => view ▸ first other) prepares)
    voted).send
    (.ldrPrepare ⟨⟨Just.ofRData msg.rdata msg.signs, block⟩, [Sign.ofText p p r.toString]⟩)
    (cfg.remove_from_peers l.node.myid l.node.myid) fun d _ => by
      refine ⟨_, msg.rdata, rfl, rfl, r, proposed, ?_⟩
      rw [← stated, here, ← current, ← phase]
      rfl
  refine gives_ite (fun _ => ?_) (fun _ => ⟨after, .inl ⟨r, proposed, view⟩⟩)
  refine (initiatePrepare_safe positive nextSafe after.refl proposed view mine).mono
    (fun _ l' done => ⟨after.trans done, ?_⟩) fun _ left => after.toLeft.trans left
  obtain ⟨added, grown, _⟩ := done.grown
  exact .inl ⟨r, by rw [grown]; exact proposed.mono added, view⟩

/-- Whether a new-view message makes the node propose. -/
def proposes (cfg : Config) (h : Handler) (msg : MsgNewView) : Bool :=
  let (count, log) := h.log.storeNv msg
  msg.rdata.proph.isDummy && h.view ≤ msg.rdata.propv && msg.rdata.phase == PH1_NEWVIEW
    && cfg.amLeaderOf h.myid msg.rdata.propv && count == cfg.qsize && msg.rdata.propv == h.view
    && h.tf.votesOn cfg.nodes (log.findHighestNv h.view)

/-- A new-view message may be stored. -/
theorem Own.storeNv {h : Handler} {H : List BasicEvent} (own : Own cfg p h H) {m : MsgNewView}
    (single : ∃ q text, m.signs = [Sign.ofText q q text]) :
    Own cfg p { h with log := (h.log.storeNv m).2 } H :=
  { own with
    log := own.log.storeNv single
    reports := fun proposed leads => Nat.le_trans (own.reports proposed leads)
      (Messages.length_le_store (·.signs) MsgRData.lt h.log.newviews _ _ m) }

theorem handleNewview_safe (positive : 0 < cfg.qsize)
    (nextSafe : ∀ start l, (knowledge cfg).Inside p start l → (knowledge cfg).Safe p start next l)
    (inside : (knowledge cfg).Inside p start l) {msg : MsgNewView}
    (single : ∃ q text, msg.signs = [Sign.ofText q q text])
    (ready : proposes cfg l.node msg = true → l.node.tf.phase = PH1_PREPARE) :
    (knowledge cfg).Safe p start (handleNewview cfg next msg) l := by
  have own : Own cfg p l.node l.history := inside.own
  unfold Knowledge.Safe handleNewview
  simp only [gives_bind, gives_this, Bool.and_eq_true, beq_iff_eq, decide_eq_true_eq]
  refine gives_ite (fun heeded => ?_) fun _ => inside
  obtain ⟨⟨⟨dummy, early⟩, phase⟩, leads⟩ := heeded
  have stored := inside.node (own.storeNv single)
  simp only [gives_bind, gives_storeNv]
  refine gives_ite (fun quorum => ?_) fun _ => stored
  obtain ⟨counted, here⟩ := quorum
  have mine : cfg.getLeaderOf l.node.view = p := by
    rw [← here, Config.amLeaderOf_iff.1 leads, own.myid]
  -- The count is that of the messages held.
  have full : cfg.qsize ≤ ((l.node.log.storeNv msg).2.newviews.held l.node.view).length := by
    rw [← here, Log.length_storeNv positive counted]
  refine (prepare_gives positive nextSafe stored mine full fun accepts => ready ?_).mono
    (fun _ _ done => done.1) fun _ left => left
  simp only [proposes, Bool.and_eq_true, decide_eq_true_eq, beq_iff_eq]
  exact ⟨⟨⟨⟨⟨⟨dummy, early⟩, phase⟩, leads⟩, counted⟩, here⟩, accepts⟩

end Leader

section Backup

/-- The answer of a node to a certificate, signed in whatever phase its component is. -/
theorem answered_facts (inside : (knowledge cfg).Inside p start l) {cert : RData}
    (here : cert.propv = l.node.view) (current : l.node.tf.view = cert.propv)
    (backup : cfg.getLeaderOf l.node.view ≠ p) :
    (knowledge cfg).Inside p start
        { l with
          node := { l.node with tf := (l.node.tf.storeBlock cert.proph cert.propv).increment }
          history := .stored l.node.myid cert :: l.history }
      ∧ (l.node.tf.storeBlock cert.proph cert.propv).statement cert.proph Hash.default 0
        = answer cert l.node.tf.phase := by
  have own : Own cfg p l.node l.history := inside.own
  have facts : Facts cfg l.history := inside.facts
  have now : l.node.tf.view = l.node.view := current.trans here
  refine ⟨?_, ?_⟩
  · rw [show BasicEvent.stored l.node.myid cert = .stored p cert by rw [own.myid]]
    have same : OwnLog cfg p l.node.log (.stored p cert :: l.history) := own.log.mono [_]
    exact inside.event knowledge_stable rfl (facts.cons fun _ => proposed_stored)
      (own.store here now same rfl fun leads => absurd leads backup)
  · change (⟨_, l.node.tf.view, _, _, _⟩ : RData) = _
    rw [current]
    rfl

/-- Answering a prepare certificate is safe. -/
theorem respondToPrepareJust_safe (inside : (knowledge cfg).Inside p start l)
    (backup : cfg.getLeaderOf l.node.view ≠ p) {cert : RData} {signs : Signs}
    (here : cert.propv = l.node.view)
    (known : signs.length = cfg.qsize → Proposed cfg l.history cert
      ∧ Stored cfg l.history cert.propv) :
    (knowledge cfg).Safe p start (respondToPrepareJust cfg (Just.ofRData cert signs)) l := by
  have own : Own cfg p l.node l.history := inside.own
  unfold Knowledge.Safe respondToPrepareJust
  rw [gives_bind]
  refine callTEEstore_answer inside.toLeft ?_ fun full _ current _ => ?_
  · simp only [Just.default, Just.getRData, gives_bind, gives_ofOption_some, gives_this,
      gives_multicast]
    exact inside.send _ _ fun d _ => .inl rfl
  · obtain ⟨after, pc⟩ := answered_facts inside here current backup
    obtain ⟨proposed, stored⟩ := known (full.trans own.trusted.qsize)
    rw [pc, (own.trusted.storeBlock cert.proph cert.propv).signature_eq]
    simp only [Just.getRData_ofRData, gives_bind, gives_ofOption_some, gives_this, gives_multicast,
      Just.signs_ofRData]
    refine after.send _ _ fun d member => .inr ⟨l.node.tf.phase, ?_, stored.mono [_], ?_⟩
    · exact ⟨cert, proposed.mono [_], rfl, signedOn_single own.known⟩
    · -- The answer goes to the leader of the view.
      obtain ⟨-, -, leads⟩ := Config.mem_keep_from_peers.1 member
      intro away
      refine absurd ?_ away
      rw [leads, ← here]
      rfl

/-- Answering a pre-commit certificate is safe. -/
theorem respondToPreCommitJust_safe (inside : (knowledge cfg).Inside p start l)
    (backup : cfg.getLeaderOf l.node.view ≠ p) {cert : RData} {signs : Signs}
    (here : cert.propv = l.node.view)
    (known : signs.length = cfg.qsize → ∃ r phase, Proposed cfg l.history r
      ∧ cert = answer r phase) :
    (knowledge cfg).Safe p start (respondToPreCommitJust cfg (Just.ofRData cert signs)) l := by
  have own : Own cfg p l.node l.history := inside.own
  unfold Knowledge.Safe respondToPreCommitJust
  rw [gives_bind]
  refine callTEEstore_answer inside.toLeft ?_ fun full _ current _ => ?_
  · simp only [Just.default, Just.getRData, gives_bind, gives_ofOption_some, gives_this,
      gives_multicast]
    exact inside.send _ _ fun d _ => .inl rfl
  · obtain ⟨after, com⟩ := answered_facts inside here current backup
    obtain ⟨r, phase, proposed, same⟩ := known (full.trans own.trusted.qsize)
    rw [com, (own.trusted.storeBlock cert.proph cert.propv).signature_eq]
    simp only [Just.getRData_ofRData, gives_bind, gives_ofOption_some, gives_this, gives_multicast,
      Just.signs_ofRData]
    refine after.send _ _ fun d _ => .inr ⟨l.node.tf.phase, r, proposed.mono [_], ?_, ?_⟩
    · rw [same]
      rfl
    · exact signedOn_single own.known

/-- Voting for the proposal of the leader, in the prepare phase, is safe. -/
theorem respondToProposal_safe (inside : (knowledge cfg).Inside p start l) {msg : MsgLdrPrepare}
    (proposal : Proposal cfg l.history msg l.node.view)
    (ready : l.node.tf.votesOn cfg.nodes msg.prop.just = true → l.node.tf.phase = PH1_PREPARE) :
    (knowledge cfg).Safe p start (respondToProposal cfg msg.prop.just msg.prop.block) l := by
  have own : Own cfg p l.node l.history := inside.own
  have facts : Facts cfg l.history := inside.facts
  unfold Knowledge.Safe respondToProposal
  rw [gives_bind]
  refine callTEEprepare_answer inside.toLeft ?_ fun rd tagged accepts => ?_
  · simpa [Just.default] using inside
  obtain ⟨rd', tagged', here, r, proposed, stated⟩ := proposal
  obtain rfl : rd = rd' := Option.some.inj (tagged.symm.trans tagged')
  have now : l.node.tf.view = rd.propv := ((TrustedFun.votesOn_iff tagged).1 accepts).2.1
  have current : l.node.tf.view = l.node.view := now.trans here
  have phase : l.node.tf.phase = PH1_PREPARE := ready accepts
  have view : r.propv = l.node.view := by rw [stated]; exact here
  have same : l.node.tf.statement msg.prop.block.hash rd.justh rd.justv = r := by
    rw [stated, ← now, ← phase]
    rfl
  -- A leader has not voted yet, so it does not receive the proposal of its view.
  have backup : cfg.getLeaderOf l.node.view ≠ p := fun leads =>
    (own.fresh leads current phase).1 proposed view
  rw [same, own.trusted.signature_eq]
  simp only [Just.set_ofRData, if_true, gives_bind, Just.getRData_ofRData, gives_ofOption_some,
    gives_keepBlock, gives_this, gives_multicast, Just.signs_ofRData]
  obtain ⟨lockh, locked⟩ : ∃ lockh, l.node.tf.increment.lockh = lockh := ⟨_, rfl⟩
  obtain ⟨lockv, lockedv⟩ : ∃ lockv, l.node.tf.increment.lockv = lockv := ⟨_, rfl⟩
  have event : BasicEvent.voted l.node.myid r msg.prop.block lockh lockv
      = .voted p r msg.prop.block lockh lockv := by rw [own.myid]
  have others : ∀ r', Proposed cfg (.voted p r msg.prop.block lockh lockv :: l.history) r'
      ↔ Proposed cfg l.history r' := by
    intro r'
    rw [proposed_voted, or_iff_right]
    rintro ⟨leads, rfl⟩
    exact backup (view ▸ leads.symm)
  rw [locked, lockedv, event]
  have noted : Own cfg p
      { l.node with
        tf := l.node.tf.increment
        blocks := l.node.blocks.insert l.node.view msg.prop.block }
      (.voted p r msg.prop.block lockh lockv :: l.history) :=
    { own.mono [_] (fun r' _ => others r') fun _ _ => stored_voted with
      trusted := own.trusted.increment current
      leading := fun leads => absurd leads backup }
  refine (inside.event knowledge_stable rfl (facts.cons others) noted).send _ _ fun d member => ?_
  obtain ⟨-, -, leads⟩ := Config.mem_keep_from_peers.1 member
  refine ⟨⟨proposed.mono [_], signedOn_single own.known⟩, fun away => absurd ?_ away⟩
  rw [leads, view]

/-- A backup may skip a phase in its view. -/
theorem inside_skip (inside : (knowledge cfg).Inside p start l)
    (backup : cfg.getLeaderOf l.node.view ≠ p) (now : l.node.tf.view = l.node.view) :
    (knowledge cfg).Inside p start
      { l with node := { l.node with tf := l.node.tf.increment } } := by
  have own : Own cfg p l.node l.history := inside.own
  exact inside.node
    { own with
      trusted := own.trusted.increment now
      leading := fun leads => absurd leads backup }

end Backup

end Certified

end Handler

end ParaHotstuff
