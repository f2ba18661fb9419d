import ParaHotstuff.Proofs.Chained.Safe

/-! When the nodes of the chained protocol execute the same blocks in the same order. -/

namespace ParaHotstuff

namespace HandlerCh

open Program Local

section Handlers

variable [Hashing] [SignatureBytes] {cfg : Config} {p : PID} {start : List ChEvent} {l : State}
variable {n : Nat} (several : 1 < cfg.qsize) (majority : cfg.total < 2 * cfg.qsize)

include several majority

/-- A report is stored, and may complete the quorum that its leader waits for. -/
theorem handleNewviewCh_safe {msg : MsgNewViewCh} (inside : (knowledge cfg).Inside p start l)
    (room : Room n l.node) (report : Report cfg l.history msg) :
    (knowledge cfg).Safe p start (handleNewviewCh cfg n msg) l := by
  have own : Own cfg l.history p l.node := inside.own
  have stored : (knowledge cfg).Inside p start { l with node := l.node.storedNv msg } :=
    inside.node (own.logged (own.log.storeNvCh report))
  unfold Knowledge.Safe handleNewviewCh
  rw [gives_bind, gives_this]
  refine gives_ite (fun _ => inside) fun _ => gives_ite (fun checks => ?_) fun _ => inside
  refine gives_ite (fun here => ?_) fun _ => stored
  rw [beq_iff_eq] at here
  rw [gives_bind]
  change Gives (ite _ _ _) _ _ { l with node := l.node.storedNv msg }
  refine gives_ite (fun enough => ?_) fun _ => ?_
  · simp only [Bool.and_eq_true, decide_eq_true_eq, Option.isNone_iff_eq_none] at enough checks
    have leads := Config.amLeaderOf_iff.1 checks.2
    rw [here, own.myid] at leads
    have later := report.later
    have next := nextView_eq later
    have before : prevView l.node.view = msg.data.propv := by
      rw [← here, prevView_nextView (by lia)]
    -- The count is the number of reports held for the view before.
    have quorum : cfg.qsize ≤ (l.node.log.storeNvCh msg).1 := enough.1
    have positive : (l.node.log.storeNvCh msg).1 ≠ 0 := by omega
    have counted := Messages.store_count (fun m : MsgNewViewCh => [m.sign]) MsgRDataCh.lt
      l.node.log.newviewsCh msg.data.propv msg positive
    refine prepareCh_safe several (voteCh_safe several majority n) stored (room.node rfl rfl) leads
      ?_ enough.2 (.inr ?_)
    · change l.node.view ≠ 0
      lia
    · change cfg.qsize ≤ ((l.node.log.storeNvCh msg).2.newviewsCh.held (prevView l.node.view)).length
      rw [before]
      exact quorum.trans (Nat.le_of_eq counted.symm)
  · -- The source stores the statement in the test and once more in the other branch.
    have again : (l.node.storedNv msg).storedNv msg = l.node.storedNv msg := by
      simp only [storedNv, LogCh.storeNvCh_again]
    change (knowledge cfg).Inside p start { l with node := (l.node.storedNv msg).storedNv msg }
    rw [again]
    exact stored

omit several majority in
/-- A verified proposal is a vote of the leader that counts. -/
theorem proposed_of_verified {msg : MsgLdrPrepareCh} {H : List ChEvent} (facts : Facts cfg H)
    (proposal : PropMsg cfg H msg)
    (verified : (ldrPrepareCh2just msg).signs.verify cfg.nodes
      (ldrPrepareCh2just msg).rdata.toString = true) :
    PrepVoted H (cfg.getLeaderOf msg.block.view) msg.block.view msg.block
      ∧ VoteMsg cfg H ⟨(ldrPrepareCh2just msg).rdata, msg.sign⟩ := by
  obtain ⟨r, vote, signed⟩ := proposal
  have made := made_of_verify verified (List.mem_singleton_self msg.sign)
  rw [signed] at made
  simp only [Sign.ofText, SigVal.made.injEq, true_and] at made
  -- The statement that is verified differs from the one that was signed in its phase at most.
  obtain ⟨-, view, justh, justv⟩ := facts.statement vote
  have same : r = (ldrPrepareCh2just msg).rdata := statement_of_text view justh justv made
  refine ⟨⟨r, vote, view, by rw [same]; rfl⟩, ?_, ?_, msg.block, ?_⟩
  · rw [signed]
    exact (facts.votes vote).known
  · rw [← same, signed]
    rfl
  · rw [← same, signed]
    exact vote

/-- A proposal is counted as a vote, and taken up or kept for its view. -/
theorem handleLdrPrepareCh_safe {msg : MsgLdrPrepareCh} (inside : (knowledge cfg).Inside p start l)
    (room : Room n l.node) (proposal : PropMsg cfg l.history msg) :
    (knowledge cfg).Safe p start (handleLdrPrepareCh cfg n msg) l := by
  have own : Own cfg l.history p l.node := inside.own
  unfold Knowledge.Safe handleLdrPrepareCh
  rw [gives_bind, gives_this]
  refine gives_ite (fun _ => inside) fun _ => gives_ite (fun checks => ?_) fun _ => inside
  simp only [Bool.and_eq_true, decide_eq_true_eq, Bool.not_eq_true'] at checks
  obtain ⟨⟨-, backup⟩, verified⟩ := checks
  obtain ⟨proposed, vote⟩ := proposed_of_verified inside.facts proposal verified
  -- Counting the proposal as a vote changes the log at most.
  have counted : ∀ {post : Unit → State → Prop} {stop : State → Prop},
      (∀ l', (knowledge cfg).Inside p start l' → l'.history = l.history →
        l'.node.view = l.node.view → l'.node.tp.view = l.node.tp.view → post () l') →
      (keepPrepCh cfg msg.block.view ⟨(ldrPrepareCh2just msg).rdata, msg.sign⟩).Gives post stop
        l := by
    intro post stop rest
    unfold keepPrepCh
    rw [gives_bind, gives_this]
    refine gives_ite (fun _ => ?_) fun _ => rest l inside rfl rfl rfl
    exact rest { l with node := l.node.storedPrep _ }
      (inside.node (own.logged (own.log.storePrepCh vote))) rfl rfl rfl
  rw [gives_bind]
  refine counted fun l' inside' history view trusted => gives_ite (fun here => ?_) fun _ => ?_
  · rw [beq_iff_eq] at here
    refine voteCh_safe several majority n msg.block l' inside' (room.node view trusted) ?_
    have other : cfg.getLeaderOf l'.node.view ≠ p := by
      rw [view, ← here, ← own.myid]
      exact fun leads => by simp [Config.amLeaderOf_iff.2 leads] at backup
    refine origin_of_proposed inside'.facts other ?_
    rw [history, view, ← here]
    exact proposed
  · rw [gives_bind]
    have own' : Own cfg l'.history p l'.node := inside'.own
    refine handleEarlierMessagesCh_safe (l := { l' with node := l'.node.storedLdrPrep msg })
      (voteCh_safe several majority n) (inside'.node (own'.logged (own'.log.storeLdrPrepCh ?_)))
      (room.node view trusted)
    rw [history]
    exact proposed

/-- A vote is counted, and may complete the certificate that the next leader waits for. -/
theorem handlePrepareCh_safe {msg : MsgPrepareCh} (inside : (knowledge cfg).Inside p start l)
    (room : Room (n + 1) l.node) (vote : VoteMsg cfg l.history msg) :
    (knowledge cfg).Safe p start (handlePrepareCh cfg n msg) l := by
  have own : Own cfg l.history p l.node := inside.own
  have stored : (knowledge cfg).Inside p start { l with node := l.node.storedPrep msg } :=
    inside.node (own.logged (own.log.storePrepCh vote))
  unfold Knowledge.Safe handlePrepareCh
  rw [gives_bind, gives_this]
  refine gives_ite (fun _ => inside) fun _ => gives_ite (fun here => ?_) fun _ =>
    gives_ite (fun _ => stored) fun _ => inside
  rw [beq_iff_eq] at here
  refine gives_ite (fun leads => ?_) fun _ => inside
  rw [Config.amLeaderOf_iff, here, own.myid] at leads
  rw [gives_bind]
  change Gives (ite _ _ _) _ _ { l with node := l.node.storedPrep msg }
  refine gives_ite (fun _ => ?_) fun _ => stored
  obtain ⟨b, voted⟩ := vote.voted
  exact checkNewJustCh_safe several (voteCh_safe several majority n) stored
    (room.less.node rfl rfl) (by have bound := room.view; change l.node.view + n + 3 < wordSize; lia)
    voted here leads

/-- A node whose timer runs out reports what it has prepared and enters the next view. -/
theorem startNewViewCh_safe (inside : (knowledge cfg).Inside p start l) (room : Room (n + 1) l.node)
    (awake : l.node.started = true) :
    (knowledge cfg).Safe p start (startNewViewCh cfg n) l := by
  have own : Own cfg l.history p l.node := inside.own
  have roomy := room.view
  have further := room.trusted
  unfold Knowledge.Safe startNewViewCh
  rw [gives_bind, gives_this, gives_bind]
  refine Watch.Closed.signUntilCh_gives _ _ l (fun tp signed => ?_) fun _ _ =>
    ⟨inside.grown, inside.facts, inside.good⟩
  obtain ⟨trusted, phase, bound⟩ := own.trusted.signOn (by lia) (by lia) signed
  have small : tp.view + 1 < wordSize := by lia
  have next := TrustedCh.increment_newview phase
  rw [Nat.mod_eq_of_lt small] at next
  simp only [TrustedCh.TEEsign, TrustedCh.sign, Just.signs_ofRData, Just.getRData_ofRData,
    gives_bind, gives_ofOption_some]
  -- The entry is the evidence that the component is past the view that it reports on.
  have signing := inside.node (own.component awake (trusted.increment small))
  have entered := inside_enter signing awake (by change l.node.view + 1 < wordSize; lia) _ (.inl rfl)
  have own' : Own cfg _ p { l.node.entered with tp := tp.increment } := entered.own
  have report := own'.trusted.report (m := ⟨⟨Hash.ofBool false, tp.view, tp.preph, tp.prepv, tp.phase⟩,
      tp.signature ⟨Hash.ofBool false, tp.view, tp.preph, tp.prepv, tp.phase⟩⟩) own.known trusted.id
    (TrustedCh.prepv_increment _).symm (TrustedCh.preph_increment _).symm small
    (by
      change tp.increment.prepv ≤ tp.view
      rw [TrustedCh.prepv_increment]
      exact trusted.below)
    List.mem_cons_self own.myid (by
      change 2 * tp.view < slot tp.increment.view tp.increment.phase
      rw [next.1, next.2, slot_prepare]
      lia)
  have view : nextView l.node.view = l.node.view + 1 := nextView_eq (by lia)
  have there : ∀ l', (knowledge cfg).Inside p start l' → Room n l'.node →
      (knowledge cfg).Safe p start (do
        let h ← this
        if cfg.amLeaderOf h.myid h.view then return ()
        else handleEarlierMessagesCh cfg (voteCh cfg n) : M Unit) l' := by
    intro l' inside' room'
    unfold Knowledge.Safe
    rw [gives_bind, gives_this]
    exact gives_ite (fun _ => inside') fun _ =>
      handleEarlierMessagesCh_safe (voteCh_safe several majority n) inside' room'
  have room' : nextView l.node.view + n + 2 < wordSize ∧ tp.increment.view + n + 2 < wordSize := by
    rw [next.1]
    lia
  rw [passNvCh, gives_bind, gives_this]
  refine gives_ite (fun _ => ?_) fun _ => ?_
  · refine there { l with node := _, history := _ } (entered.node ?_) ⟨room'.1, room'.2⟩
    exact own'.logged (own'.log.storeNvCh report)
  · exact there { l with node := _, sent := _, history := _ } (entered.send _ _ fun _ _ => report)
      ⟨room'.1, room'.2⟩

/-- A node that is started signs its first report and enters view 1. -/
theorem getStarted_safe {h : HandlerCh} (inside : (knowledge cfg).Inside p start { l with node := h })
    (room : Room (n + 1) h) (asleep : h.started = false)
    (same : l.node = { h with started := true, clients := l.node.clients }) :
    (knowledge cfg).Safe p start (getStarted cfg n) l := by
  have own : Own cfg l.history p h := inside.own
  obtain ⟨first, trusted, phase, -, empty⟩ := own.asleep asleep
  have roomy := room.trusted
  have small : h.tp.view + 1 < wordSize := by lia
  have next := TrustedCh.increment_newview phase
  rw [Nat.mod_eq_of_lt small, trusted] at next
  have tp : l.node.tp = h.tp := by rw [same]
  have myid : l.node.myid = p := by
    rw [same]
    exact own.myid
  -- Genesis is stored, and view 1 is entered.
  have begun : Own cfg (.entered l.node.myid l.node.started 1 l.node.tp.increment.view
      l.node.tp.increment.phase :: l.history) p
      { l.node with
        view := 1
        jblocks := l.node.jblocks.insert 0 JBlock.default
        tp := l.node.tp.increment } := by
    have foreign : Foreign p [ChEvent.entered l.node.myid l.node.started 1
        l.node.tp.increment.view l.node.tp.increment.phase] :=
      ⟨fun r b member => by simp at member, fun b member => by simp at member⟩
    have trusted' := (own.trusted.increment small).mono foreign.none_voted fun e member _ => by
      rw [List.mem_singleton.1 member, tp]
      exact Nat.le_refl _
    have blocks' := own.blocks.mono foreign
    have log' := own.log.mono [.entered l.node.myid l.node.started 1 l.node.tp.increment.view
      l.node.tp.increment.phase]
    rw [tp] at trusted' blocks' log' ⊢
    rw [same] at trusted' blocks' log' ⊢
    exact {
      known := own.known
      myid := own.myid
      blocks := blocks'.launched empty first rfl
      trusted := trusted'
      log := log'
      just := fun set r tagged => (own.just set r tagged).mono [_]
      asleep := fun asleep => by cases asleep }
  have entered := inside.event knowledge_stable (by exact myid) (Facts.enter inside.facts) begun
  have report := begun.trusted.report (m := ⟨⟨Hash.ofBool false, l.node.tp.view, l.node.tp.preph,
      l.node.tp.prepv, l.node.tp.phase⟩, l.node.tp.signature ⟨Hash.ofBool false, l.node.tp.view,
      l.node.tp.preph, l.node.tp.prepv, l.node.tp.phase⟩⟩) own.known (by rw [tp]; exact own.trusted.id)
    (TrustedCh.prepv_increment _).symm (TrustedCh.preph_increment _).symm (by rw [tp]; exact small)
    (by
      change l.node.tp.increment.prepv ≤ l.node.tp.view
      rw [TrustedCh.prepv_increment, tp]
      exact own.trusted.below)
    List.mem_cons_self myid (by
      change 2 * l.node.tp.view < slot l.node.tp.increment.view l.node.tp.increment.phase
      rw [tp, next.1, next.2, slot_prepare, trusted]
      lia)
  have room' : Room n { l.node with
      view := 1
      jblocks := l.node.jblocks.insert 0 JBlock.default
      tp := l.node.tp.increment } := by
    have bound := room.view
    refine ⟨by change 1 + n + 2 < wordSize; lia, ?_⟩
    change l.node.tp.increment.view + n + 2 < wordSize
    rw [tp, next.1]
    lia
  unfold Knowledge.Safe getStarted
  simp only [callTEEsignCh, gives_bind, gives_this, gives_modify, gives_pure, gives_noteView,
    TrustedCh.TEEsign, TrustedCh.sign, Just.getRData_ofRData, Just.signs_ofRData,
    gives_ofOption_some, List.headD_cons]
  refine gives_ite (fun _ => ?_) fun _ => ?_
  · exact handleNewviewCh_safe several majority (l := { l with node := _, history := _ }) entered
      room' report
  · rw [gives_bind, gives_multicast]
    have sent := entered.send (.newView ⟨⟨Hash.ofBool false, l.node.tp.view, l.node.tp.preph,
      l.node.tp.prepv, l.node.tp.phase⟩, l.node.tp.signature ⟨Hash.ofBool false, l.node.tp.view,
      l.node.tp.preph, l.node.tp.prepv, l.node.tp.phase⟩⟩)
      (cfg.keep_from_peers l.node.myid (cfg.getLeaderOf (nextView l.node.view))) fun _ _ => report
    exact handleEarlierMessagesCh_safe (l := { l with node := _, sent := _, history := _ })
      (voteCh_safe several majority n) sent room'

/-- Every message that was sent keeps what is known. -/
theorem receive_safe {msg : MsgCh} (inside : (knowledge cfg).Inside p start l)
    (room : Room (n + 1) l.node) (good : Good cfg l.history ⟨p, msg⟩) :
    (knowledge cfg).Safe p start ((protocol cfg n).receive msg) l := by
  cases msg with
  | newView m => exact handleNewviewCh_safe several majority inside room.less good
  | ldrPrepare m => exact handleLdrPrepareCh_safe several majority inside room.less good
  | prepare m => exact handlePrepareCh_safe several majority inside room good

/-- So does everything else that happens to a node. -/
theorem input_safe (i : Input) (inside : (knowledge cfg).Inside p start l)
    (room : Room (n + 1) l.node) :
    (knowledge cfg).Safe p start ((protocol cfg n).input i) l := by
  have own : Own cfg l.history p l.node := inside.own
  cases i with
  | start cid =>
    change (knowledge cfg).Safe p start (handle_start cfg n cid) l
    -- The client is noted first, and only the first client starts the node.
    have known : ∀ clients, (knowledge cfg).Safe p start (do
        let h ← this
        if !h.started then
          modify fun h => { h with started := true }
          getStarted cfg n) { l with node := { l.node with clients := clients } } := by
      intro clients
      unfold Knowledge.Safe
      rw [gives_bind, gives_this]
      refine gives_ite (fun asleep => ?_) fun _ => ?_
      · rw [gives_bind, gives_modify]
        exact getStarted_safe several majority (l := { l with node := { l.node with
          clients := clients, started := true } }) (h := l.node) inside room (by simpa using asleep) rfl
      · exact inside.node (own.bookkeeping rfl rfl rfl rfl rfl rfl rfl (.inl rfl))
    unfold Knowledge.Safe handle_start
    rw [gives_bind, gives_modify]
    split
    · exact known l.node.clients
    · exact known _
  | transaction trans =>
    change (knowledge cfg).Safe p start (handleTransaction trans) l
    unfold Knowledge.Safe handleTransaction
    rw [gives_bind, gives_this]
    split
    · exact inside.node (own.bookkeeping rfl rfl rfl rfl rfl rfl rfl (.inl rfl))
    · exact inside
  | timeout =>
    change (knowledge cfg).Safe p start (handleTimeout cfg n) l
    unfold Knowledge.Safe handleTimeout
    rw [gives_bind, gives_this]
    refine gives_ite (fun armed => ?_) fun _ => inside
    refine gives_ite (fun _ => inside.toLeft) fun _ => ?_
    refine startNewViewCh_safe several majority inside room ?_
    -- The timer of a node that was not started is never armed.
    by_contra asleep
    have quiet := (own.asleep (by simpa using asleep)).2.2.2.1
    rw [quiet] at armed
    cases armed

end Handlers

section Runs

variable [Hashing] [SignatureBytes] {cfg : Config} {depth : Nat} {actions : List (Action Input)}

/-- What happens finds a node and its component far from the last view of the counter. -/
def Early {Stim : Type} (depth : Nat) (h : HandlerCh) (_ : Stim) : Prop :=
  h.view + depth + 3 < wordSize ∧ h.tp.view + depth + 3 < wordSize

omit [Hashing] [SignatureBytes] in
instance {Stim : Type} (depth : Nat) (h : HandlerCh) (stimulus : Stim) :
    Decidable (Early depth h stimulus) := inferInstanceAs (Decidable (_ ∧ _))

omit [Hashing] [SignatureBytes] in
theorem Early.room {Stim : Type} {h : HandlerCh} {stimulus : Stim}
    (early : Early depth h stimulus) : Room (depth + 1) h :=
  ⟨by have bound := early.1; lia, by have bound := early.2; lia⟩

/-- A node at its start knows that nothing has happened. -/
theorem own_init {p : PID} (known : p < cfg.total) : Own cfg [] p (init cfg p) where
  known := known
  myid := rfl
  blocks := {
    place := fun found => by simp [init] at found
    early := fun found => by simp [init] at found
    held := fun _ found => by simp [init] at found
    genesis := fun found => by simp [init] at found
    taken := fun member => by cases member
    marks := fun found => by simp [init] at found
    before := fun executed => by simp [executedBy] at executed }
  trusted := {
    id := rfl
    priv := rfl
    qsize := rfl
    phase := .inr rfl
    reached := fun e member => by cases member
    below := Nat.le_refl _
    certified := ⟨JBlock.default, rfl, .inl ⟨rfl, rfl⟩⟩
    reports := fun v _ => .inl fun b voted => by
      obtain ⟨r, member, -⟩ := voted
      cases member }
  log := {
    newviews := fun {v m} member => by simp [init, LogCh.empty] at member
    votes := fun {v m} member => by simp [init, LogCh.empty] at member
    proposals := fun {v m} member => by simp [init, LogCh.empty] at member
    singleNewviews := fun v => by simpa [init, LogCh.empty] using Messages.Singles.nil
    singleVotes := fun v => by simpa [init, LogCh.empty] using Messages.Singles.nil }
  just := fun set => by simp [init, Just.default] at set
  asleep := fun _ => ⟨rfl, rfl, rfl, rfl, by simp [init]⟩

/--
Everything that is known holds after every run that keeps away from the last views.

Besides what the protocol does, something may happen to nodes that does not touch what is known.
-/
theorem knowledge_of_inputs {In : Type} {served : Protocol HandlerCh MsgCh ChEvent In}
    {actions : List (Action In)} (three : cfg.constFactor = 3) (faults : 0 < cfg.numFaults)
    (receive : served.receive = (protocol cfg depth).receive)
    (input : ∀ i p start l, (knowledge cfg).Inside p start l → Room (depth + 1) l.node →
      (knowledge cfg).Safe p start (served.input i) l)
    (early : Net.Meets served (Net.Finds (Early depth)) (initial cfg) actions) :
    (knowledge cfg).Holds ((initial cfg).run served actions) := by
  have several := Config.several three faults
  have majority := Config.majority three
  have begin : (knowledge cfg).Holds (initial cfg) := {
    own := fun p running => own_init (by simpa [initial] using running)
    facts := Facts.nil
    good := fun packet member => by simp [initial] at member }
  refine begin.run_meeting knowledge_stable ?_ ?_ early
  · intro net index p msg meets sent running good inside
    -- The packet that arrives finds its node far from the last view.
    have here := meets ⟨p, msg⟩ (by rw [sent]; rfl) running
    rw [receive]
    exact receive_safe several majority inside here.room good
  · intro net p i meets running inside
    exact input i p _ _ inside (meets running).room

theorem knowledge_of_early (three : cfg.constFactor = 3) (faults : 0 < cfg.numFaults)
    (early : Net.Meets (protocol cfg depth) (Net.Finds (Early depth)) (initial cfg) actions) :
    (knowledge cfg).Holds ((initial cfg).run (protocol cfg depth) actions) := by
  refine knowledge_of_inputs three faults rfl (fun i p start l inside room => ?_) early
  exact input_safe (Config.several three faults) (Config.majority three) i inside room

/--
In every run that keeps away from the last views, all votes of a view that count are for one block,
and that block rests on genesis or on a block of an earlier view that a quorum voted for.
-/
theorem votes_rest_on_certified (three : cfg.constFactor = 3) (faults : 0 < cfg.numFaults)
    (early : Net.Meets (protocol cfg depth) (Net.Finds (Early depth)) (initial cfg) actions) :
    let H := ((initial cfg).run (protocol cfg depth) actions).history
    (∀ p q v b b', PrepVoted H p v b → PrepVoted H q v b' → b = b')
      ∧ ∀ p v b, PrepVoted H p v b → b.just.getCView < v
        ∧ CertifiedHash cfg H b.just.getCView b.just.getCHash := by
  have facts : Facts cfg _ := (knowledge_of_early three faults early).facts
  refine ⟨fun p q v b b' => facts.single, fun p v b vote => ?_⟩
  have built := facts.buildable vote
  exact ⟨built.below, built.certified⟩

/--
Once a quorum voted for a block on a certificate of the view right before it, every block that is
voted for in that view or a later one descends from the block so certified.
-/
theorem votes_descend (three : cfg.constFactor = 3) (faults : 0 < cfg.numFaults)
    (early : Net.Meets (protocol cfg depth) (Net.Finds (Early depth)) (initial cfg) actions)
    {v u : View} {p : PID} {b c : JBlock}
    (certified : (ballots ((initial cfg).run (protocol cfg depth) actions).history).Certified
      cfg.total cfg.qsize v b)
    (next : b.just.getCView + 1 = v)
    (vote : PrepVoted ((initial cfg).run (protocol cfg depth) actions).history p u c)
    (later : v ≤ u) :
    Relation.ReflTransGen
      (ballots ((initial cfg).run (protocol cfg depth) actions).history).Link u b.just.getCView := by
  have facts : Facts cfg _ := (knowledge_of_early three faults early).facts
  exact facts.fair.descends (Config.majority three) certified next vote later

/--
In every run that keeps away from the last views, and in which blocks were executed only because of
certificates of two views in a row, of what any two nodes have executed one is the beginning of the
other.
-/
theorem executed_comparable_of_direct (three : cfg.constFactor = 3) (faults : 0 < cfg.numFaults)
    (early : Net.Meets (protocol cfg depth) (Net.Finds (Early depth)) (initial cfg) actions)
    (direct : Direct cfg ((initial cfg).run (protocol cfg depth) actions).history) (p q : PID) :
    let H := ((initial cfg).run (protocol cfg depth) actions).history
    (executedBy H p).reverse <+: (executedBy H q).reverse
      ∨ (executedBy H q).reverse <+: (executedBy H p).reverse := by
  intro H
  have facts : Facts cfg H := (knowledge_of_early three faults early).facts
  simp only [List.reverse_prefix]
  -- Each of the two has executed nothing, or the whole line of a committed block.
  rcases facts.executed direct p with nothing | ⟨v, c, commits, line⟩
  · exact .inl (nothing ▸ List.nil_suffix)
  rcases facts.executed direct q with nothing | ⟨v', c', commits', line'⟩
  · exact .inr (nothing ▸ List.nil_suffix)
  exact facts.fair.lines_comparable (Config.majority three) commits commits' line line'

/--
In every run that keeps away from the last views, no node executes two blocks of one view, all
nodes that execute a block of a view execute the same one, and besides genesis a node executes
only what a quorum voted for.
-/
theorem executed_one_each_view (three : cfg.constFactor = 3) (faults : 0 < cfg.numFaults)
    (early : Net.Meets (protocol cfg depth) (Net.Finds (Early depth)) (initial cfg) actions) :
    let H := ((initial cfg).run (protocol cfg depth) actions).history
    (∀ p, ((executedBy H p).map (·.view)).Nodup)
      ∧ (∀ p q b b', b ∈ executedBy H p → b' ∈ executedBy H q → b.view = b'.view → b = b')
      ∧ ∀ p, ∀ b ∈ executedBy H p,
        b = JBlock.default ∨ (ballots H).Certified cfg.total cfg.qsize b.view b := by
  intro H
  have facts : Facts cfg H := (knowledge_of_early three faults early).facts
  have positive : 0 < cfg.qsize := (Nat.zero_le 1).trans_lt (Config.several three faults)
  refine ⟨fun p => (facts.executions p).once, ?_, fun p => (facts.executions p).certified⟩
  intro p q b b' here there view
  -- Genesis is the only block of its view; in the others one voter is enough to compare.
  have voted : ∀ {c : JBlock}, (ballots H).Certified cfg.total cfg.qsize c.view c →
      ∃ r, PrepVoted H r c.view c := by
    rintro c ⟨Q, quorum, votes⟩
    obtain ⟨r, member⟩ := quorum.nonempty positive
    exact ⟨r, votes r member⟩
  have first : ∀ {c : JBlock}, (ballots H).Certified cfg.total cfg.qsize c.view c → c.view ≠ 0 := by
    intro c certified zero
    obtain ⟨r, vote⟩ := voted certified
    exact Nat.not_lt_zero _ (zero ▸ (facts.buildable vote).below)
  rcases (facts.executions p).certified b here with rfl | certified
  · rcases (facts.executions q).certified b' there with rfl | certified'
    · rfl
    · exact absurd view.symm (first certified')
  · rcases (facts.executions q).certified b' there with rfl | certified'
    · exact absurd view (first certified)
    · obtain ⟨r, vote⟩ := voted certified
      obtain ⟨r', vote'⟩ := voted certified'
      exact facts.single vote (view ▸ vote')

/-- Whatever was executed after it, a block's parent was executed before it. -/
theorem AncestorsFirst.parent {newer older : List JBlock} {b : JBlock}
    (ancestors : AncestorsFirst (newer ++ b :: older)) (later : b.view ≠ 0) :
    ∃ parent ∈ older, parent.view = b.just.getCView ∧ (b.just.getCHash == parent.hash) = true := by
  induction newer with
  | nil => exact ancestors.2 later
  | cons _ newer ih => exact ih ancestors.1

/--
In every run that keeps away from the last views, a node executes a block only after the block that
its justification certifies, down to genesis.
-/
theorem ancestors_executed_first (three : cfg.constFactor = 3) (faults : 0 < cfg.numFaults)
    (early : Net.Meets (protocol cfg depth) (Net.Finds (Early depth)) (initial cfg) actions)
    {p : PID} {newer older : List JBlock} {b : JBlock}
    (executed : executedBy ((initial cfg).run (protocol cfg depth) actions).history p
      = newer ++ b :: older)
    (later : b.view ≠ 0) :
    ∃ parent ∈ older, parent.view = b.just.getCView ∧ (b.just.getCHash == parent.hash) = true := by
  have facts : Facts cfg _ := (knowledge_of_early three faults early).facts
  have ancestors := (facts.executions p).ancestors
  rw [executed] at ancestors
  exact ancestors.parent later

end Runs

section Examples

/-- All start, and the messages of three views arrive in order; node 0 has voted in the fourth. -/
def fourViews : List (Action Input) := Schedule.startAll 4 ++ Schedule.deliverFrom 0 28

/-- What happened in that run. -/
def fourViewsHistory : List ChEvent :=
  let _ := Checksum.hashing
  let _ := Checksum.signatureBytes
  ((initial Schedule.fourNodes).run (protocol Schedule.fourNodes 3) fourViews).history

/-- The blocks proposed in its views. -/
def fourViewsBlock (v : View) : JBlock :=
  (proposedIn Schedule.fourNodes fourViewsHistory v).getD JBlock.default

/-- The run keeps away from the last views. -/
theorem fourViews_early :
    let _ := Checksum.hashing
    let _ := Checksum.signatureBytes
    Net.Meets (protocol Schedule.fourNodes 3) (Net.Finds (Early 3)) (initial Schedule.fourNodes)
      fourViews := by
  decide +kernel

/-- Four blocks were voted for there, each on the one before. -/
theorem votes_rest_on_certified_fourViews :
    let _ := Checksum.hashing
    let _ := Checksum.signatureBytes
    (∀ p q v b b', PrepVoted fourViewsHistory p v b → PrepVoted fourViewsHistory q v b' → b = b')
      ∧ ∀ p v b, PrepVoted fourViewsHistory p v b → b.just.getCView < v
        ∧ CertifiedHash Schedule.fourNodes fourViewsHistory b.just.getCView b.just.getCHash :=
  @votes_rest_on_certified Checksum.hashing Checksum.signatureBytes Schedule.fourNodes 3 fourViews
    rfl (by decide) fourViews_early

/-- A quorum voted in view 2, and node 0's vote of view 4 is for a descendant of the block of view 1. -/
theorem votes_descend_fourViews :
    Relation.ReflTransGen (ballots fourViewsHistory).Link 4 (fourViewsBlock 2).just.getCView :=
  @votes_descend Checksum.hashing Checksum.signatureBytes Schedule.fourNodes 3 fourViews
    rfl (by decide) fourViews_early 2 4 0 (fourViewsBlock 2) (fourViewsBlock 4)
    ((Ballots.certified_iff _ _ (ballots fourViewsHistory)).2 (by decide +kernel))
    (by decide +kernel) (by decide +kernel) (by decide)

/-- Node 0 has executed the block of view 1 there, and node 2 only genesis. -/
theorem executed_comparable_of_direct_fourViews :
    ((executedBy fourViewsHistory 0).map (·.view) = [1, 0]
        ∧ (executedBy fourViewsHistory 2).map (·.view) = [0])
      ∧ ((executedBy fourViewsHistory 0).reverse <+: (executedBy fourViewsHistory 2).reverse
        ∨ (executedBy fourViewsHistory 2).reverse <+: (executedBy fourViewsHistory 0).reverse) :=
  ⟨by decide +kernel, @executed_comparable_of_direct Checksum.hashing Checksum.signatureBytes
    Schedule.fourNodes 3 fourViews rfl (by decide) fourViews_early (by decide +kernel) 0 2⟩

/-- Node 0 has executed the block of view 1 besides genesis there, which node 2 has executed as well. -/
theorem executed_one_each_view_fourViews :
    ((executedBy fourViewsHistory 0).map (·.view) = [1, 0]
        ∧ (executedBy fourViewsHistory 2).map (·.view) = [0])
      ∧ (∀ p, ((executedBy fourViewsHistory p).map (·.view)).Nodup)
      ∧ (∀ p q b b', b ∈ executedBy fourViewsHistory p → b' ∈ executedBy fourViewsHistory q →
        b.view = b'.view → b = b')
      ∧ ∀ p, ∀ b ∈ executedBy fourViewsHistory p, b = JBlock.default
        ∨ (ballots fourViewsHistory).Certified Schedule.fourNodes.total Schedule.fourNodes.qsize
          b.view b :=
  ⟨by decide +kernel, @executed_one_each_view Checksum.hashing Checksum.signatureBytes
    Schedule.fourNodes 3 fourViews rfl (by decide) fourViews_early⟩

/-- Node 0 executed the block of view 1 last, and what it rests on before. -/
theorem ancestors_executed_first_fourViews :
    let _ := Checksum.hashing
    let _ := Checksum.signatureBytes
    ∃ parent ∈ (executedBy fourViewsHistory 0).drop 1,
      parent.view = ((executedBy fourViewsHistory 0).headD JBlock.default).just.getCView
        ∧ (((executedBy fourViewsHistory 0).headD JBlock.default).just.getCHash == parent.hash)
          = true :=
  @ancestors_executed_first Checksum.hashing Checksum.signatureBytes Schedule.fourNodes 3 fourViews
    rfl (by decide) fourViews_early 0 [] ((executedBy fourViewsHistory 0).drop 1)
    ((executedBy fourViewsHistory 0).headD JBlock.default) (by decide +kernel) (by decide +kernel)

end Examples

end HandlerCh

end ParaHotstuff
