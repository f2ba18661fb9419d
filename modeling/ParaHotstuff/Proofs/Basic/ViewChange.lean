import ParaHotstuff.Proofs.Basic.Run

/-! How a basic node enters views, and what is known after every run. -/

namespace ParaHotstuff

namespace Handler

open Program Local

variable {cfg : Config} {p : PID} {start : List BasicEvent} {l : State}
variable {view : View} {H : List BasicEvent} {tf tf' : TrustedFun} {r : RData}

section Trusted

/-- Entering the next view with a component that has begun it. -/
theorem OwnTrusted.enter {started : Bool} (own : OwnTrusted cfg p tf view started H)
    (begun : Begun tf view tf') (room : view + 1 < wordSize) :
    OwnTrusted cfg p tf'.increment (view + 1) started H := by
  obtain ⟨phase, now, rfl⟩ := begun.same
  have here : TrustedFun.view { tf with phase := phase, view := now } = view + 1 := begun.here
  have moved : TrustedFun.increment { tf with phase := phase, view := now }
        = { tf with phase := PH1_PREPARE, view := now }
      ∨ TrustedFun.increment { tf with phase := phase, view := now }
        = { tf with phase := PH1_PRECOMMIT, view := now } := by
    have begins : phase = PH1_NEWVIEW ∨ phase = PH1_PREPARE := begun.phase
    rcases begins with rfl | rfl
    · exact .inl rfl
    · exact .inr rfl
  have kept : ∀ phase', phase' ≠ PH1_NEWVIEW →
      OwnTrusted cfg p { tf with phase := phase', view := now } (view + 1) started H :=
    fun phase' other =>
      { id := own.id
        priv := own.priv
        qsize := own.qsize
        small := room
        step := .inl ⟨here, .inr other⟩
        votes := fun vote => Nat.le_succ_of_le (own.votes vote)
        stores := fun store => Nat.le_succ_of_le (own.stores store)
        newest := fun store => own.newest store
        lockStored := own.lockStored
        prepared := own.prepared
        nvBound := fun member => Nat.le_succ_of_le (own.nvBound member)
        nvNow := fun member _ => own.nvBound member }
  rcases moved with moved | moved
  · rw [moved]; exact kept _ (by decide)
  · rw [moved]; exact kept _ (by decide)

/-- The first start moves the component one phase on, wherever earlier messages brought it. -/
theorem OwnTrusted.begin (own : OwnTrusted cfg p tf view false H) :
    OwnTrusted cfg p tf.increment view true H := by
  have small := own.small
  have ahead : (view + 1) % wordSize ≠ view := by
    unfold wordSize at small ⊢
    lia
  have step : (tf.increment.view = view ∧ (view = 0 ∨ tf.increment.phase ≠ PH1_NEWVIEW))
      ∨ (tf.increment.view = (view + 1) % wordSize
        ∧ (tf.increment.phase = PH1_NEWVIEW
          ∨ (true = true ∧ tf.increment.phase = PH1_PREPARE))) := by
    rcases own.step with ⟨here, _⟩ | ⟨next, phase | ⟨never, _⟩⟩
    · rcases tf.increment_moves with ⟨stays, phase⟩ | ⟨moves, phase⟩
      · exact .inl ⟨stays.trans here, .inr phase⟩
      · exact .inr ⟨by rw [moves, here], .inl phase⟩
    · have moved : tf.increment = { tf with phase := PH1_PREPARE } := by
        simp only [TrustedFun.increment, phase]
        rfl
      exact .inr ⟨by rw [moved]; exact next, .inr ⟨rfl, by rw [moved]⟩⟩
    · cases never
  exact {
    id := by simpa using own.id
    priv := by simpa using own.priv
    qsize := by simpa using own.qsize
    small := own.small
    step := step
    votes := own.votes
    stores := own.stores
    newest := fun store => by simpa using own.newest store
    lockStored := by simpa using own.lockStored
    prepared := by simpa using own.prepared
    nvBound := own.nvBound
    nvNow := fun member here => by
      rcases own.step with ⟨now, _⟩ | ⟨next, phase | ⟨never, _⟩⟩
      · exact own.nvNow member now
      · have moved : tf.increment.view = tf.view := by
          simp only [TrustedFun.increment, phase]
          rfl
        exact absurd (next.symm.trans (moved.symm.trans here)) ahead
      · cases never }

/-- A new-view statement for the current view, or for the next one before it is entered. -/
theorem OwnTrusted.statement {started : Bool} (own : OwnTrusted cfg p tf view started H)
    (bound : r.propv ≤ view + 1) (now : tf.view = view → r.propv ≤ view) :
    OwnTrusted cfg p tf view started (.newview p r :: H) :=
  { own with
    votes := fun vote => own.votes (voted_newview.1 vote)
    stores := fun store => own.stores (stored_newview.1 store)
    newest := fun store => own.newest (stored_newview.1 store)
    lockStored := fun positive => stored_newview.2 (own.lockStored positive)
    nvBound := fun member => by
      rcases List.mem_cons.1 member with new | old
      · cases new; exact bound
      · exact own.nvBound old
    nvNow := fun member here => by
      rcases List.mem_cons.1 member with new | old
      · cases new; exact now here
      · exact own.nvNow old here }

end Trusted

variable [Hashing]

/-- A statement that reports the locked block may be noted for a view after the lock. -/
theorem newview_facts {started : Bool} (facts : Facts cfg H)
    (own : OwnTrusted cfg p tf view started H)
    (justh : r.justh = tf.preph) (justv : r.justv = tf.prepv)
    (later : 0 < r.propv → tf.lockv < r.propv ∨ tf.lockv = 0) :
    Facts cfg (.newview p r :: H) := by
  refine facts.newview (fun positive reports => ?_) (fun store _ => ?_)
  · rw [justv, own.prepared.2] at reports ⊢
    rw [justh, own.prepared.1]
    exact ⟨(later positive).resolve_right (by lia), own.lockStored reports⟩
  · rw [justv, own.prepared.2]
    rcases own.newest store with older | ⟨same, _⟩
    · exact Nat.le_of_lt older
    · exact Nat.le_of_eq same

/-- The node notes its new-view statement. -/
theorem inside_newview (inside : (knowledge cfg).Inside p start l)
    (facts : Facts cfg (.newview p r :: l.history)) (bound : r.propv ≤ l.node.view + 1)
    (now : l.node.tf.view = l.node.view → r.propv ≤ l.node.view) :
    (knowledge cfg).Inside p start
      { l with history := .newview l.node.myid r :: l.history } := by
  have own : Own cfg p l.node l.history := inside.own
  refine inside.event knowledge_stable own.myid (by rw [own.myid]; exact facts) ?_
  exact {
    known := own.known
    myid := own.myid
    trusted := by rw [own.myid]; exact own.trusted.statement bound now
    log := own.log.mono [_] fun v _ => proposal_newview }

/-- After entering a view, announcing it and going through earlier messages is safe. -/
theorem announce_safe (positive : 0 < cfg.qsize) {next : M Unit}
    (nextSafe : ∀ start l, (knowledge cfg).Inside p start l → (knowledge cfg).Safe p start next l)
    (inside : (knowledge cfg).Inside p start l) (facts : Facts cfg (.newview p r :: l.history))
    (here : r.propv = l.node.view) (now : l.node.tf.view = l.node.view)
    (phase : l.node.tf.phase = PH1_PREPARE) (later : 0 < l.node.view) {signs : Signs}
    (signed : signs = [Sign.ofText p p r.toString]) :
    (knowledge cfg).Safe p start (announceNewview cfg next l.node ⟨r, signs⟩) l := by
  have own : Own cfg p l.node l.history := inside.own
  have noted := inside_newview inside facts (by rw [here]; exact Nat.le_succ _)
    (fun _ => Nat.le_of_eq here)
  have known : NvMsg cfg (.newview l.node.myid r :: l.history) ⟨r, signs⟩ :=
    ⟨p, own.known, by rw [own.myid]; simp, signed⟩
  unfold Knowledge.Safe announceNewview
  simp only [gives_bind, gives_note, gives_amCurrentLeader]
  refine gives_ite (fun _ => ?_) (fun _ => ?_)
  -- The own message is handled after the earlier ones, when the history may have grown.
  · rw [gives_bind]
    refine (handleEarlierMessages_safe positive nextSafe noted.refl now phase later).mono
      (fun _ l' inside' => ?_) (fun l' left => noted.toLeft.trans left)
    obtain ⟨added, grown, _⟩ := inside'.grown
    exact handleNewview_safe positive nextSafe (noted.trans inside') fun _ => by
      rw [grown]; exact known.mono added
  · rw [gives_bind, gives_multicast]
    exact handleEarlierMessages_safe positive nextSafe
      (noted.send _ _ fun d _ => fun _ => known) now phase later

/-- Something may go wrong where the node enters a view. -/
theorem inside_wrong (inside : (knowledge cfg).Inside p start l) {v : View} :
    (knowledge cfg).Inside p start { l with history := .wrong l.node.myid v r :: l.history } := by
  have own : Own cfg p l.node l.history := inside.own
  have facts : Facts cfg l.history := inside.facts
  rw [own.myid]
  exact inside.event knowledge_stable rfl facts.wrong
    { own with
      trusted := own.trusted.mono [_] (by simp)
      log := own.log.mono [_] fun _ _ => proposal_wrong }

/-- Entering the next view is safe, however deep views are entered from within each other. -/
theorem startNewView_safe (positive : 0 < cfg.qsize) (depth : Nat) (start : List BasicEvent)
    (l : State) (inside : (knowledge cfg).Inside p start l) :
    (knowledge cfg).Safe p start (startNewView cfg depth) l := by
  -- Induction on the depth: the views entered from within are entered with less of it.
  induction depth generalizing start l with
  | zero => exact inside.toLeft
  | succ depth ih =>
    have own : Own cfg p l.node l.history := inside.own
    have within : l.node.tf.view < wordSize := by
      rcases own.trusted.step with ⟨here, _⟩ | ⟨next, _⟩
      · rw [here]; exact own.trusted.small
      · rw [next]; exact Nat.mod_lt _ (by decide)
    unfold Knowledge.Safe startNewView
    simp only [gives_bind, gives_this]
    have same : ∃ phase now, l.node.tf = { l.node.tf with phase := phase, view := now } :=
      ⟨_, _, rfl⟩
    refine signUntil_gives own.trusted.small within same (fun room => ?_)
      (fun _ => { inside.toLeft with }) fun tf' begun room => ?_
    · rcases own.trusted.step with ⟨here, _⟩ | ⟨next, phase⟩
      · exact .inl here
      · rw [Nat.mod_eq_of_lt room] at next
        exact .inr ⟨next, phase.imp_right And.right⟩
    have trusted := own.trusted.enter begun room
    have entered : (l.node.view + 1) % wordSize = l.node.view + 1 := Nat.mod_eq_of_lt room
    have inside₁ := inside.node (h := { l.node with
        tf := tf'.increment, view := (l.node.view + 1) % wordSize, timer := true })
      { own with trusted := by simpa only [entered] using trusted }
    simp only [gives_modify, gives_setTimer, TrustedFun.TEEsign, TrustedFun.sign,
      Just.getRData_ofRData, gives_ofOption_some, Bool.and_eq_true, beq_iff_eq,
      TrustedFun.statement]
    refine gives_ite (fun stated => ?_) (fun _ => inside_wrong inside₁)
    obtain ⟨here, phase⟩ := stated
    obtain ⟨ph, now, rfl⟩ := begun.same
    obtain rfl : now = l.node.view + 1 := begun.here
    obtain rfl : ph = PH1_NEWVIEW := phase
    -- The statement is for the view just entered and reports the locked block.
    have facts := newview_facts
      (r := ⟨Hash.ofBool false, l.node.view + 1, l.node.tf.preph, l.node.tf.prepv, PH1_NEWVIEW⟩)
      inside.facts own.trusted rfl rfl fun _ =>
        .inl (Nat.lt_succ_of_le own.trusted.lock_le)
    refine announce_safe positive (fun start l => ih start l) inside₁ facts here
      entered.symm rfl (by simp only [entered]; lia) ?_
    simp [TrustedFun.signature, own.trusted.id, own.trusted.priv]

/-- Handing a new-view message to the leader of the current view is safe. -/
theorem sendNewview_safe (positive : 0 < cfg.qsize) {next : M Unit}
    (nextSafe : ∀ start l, (knowledge cfg).Inside p start l → (knowledge cfg).Safe p start next l)
    (inside : (knowledge cfg).Inside p start l) {msg : MsgNewView} {recipients : List PID}
    (known : msg.rdata.phase = PH1_NEWVIEW → NvMsg cfg l.history msg) :
    (knowledge cfg).Safe p start (sendNewview cfg next msg recipients) l := by
  unfold Knowledge.Safe sendNewview
  rw [gives_bind, gives_amCurrentLeader]
  refine gives_ite (fun _ => ?_) (fun _ => ?_)
  · exact handleNewview_safe positive nextSafe inside known
  · exact inside.send _ _ fun d _ => known

/-- The start of a node is safe, wherever earlier messages brought it. -/
theorem getStarted_safe (positive : 0 < cfg.qsize) (depth : Nat)
    (begun : (knowledge cfg).Left p start l) (known : p < cfg.total) (myid : l.node.myid = p)
    (trusted : OwnTrusted cfg p l.node.tf l.node.view false l.history)
    (log : OwnLog cfg p l.node.log l.history) (started : l.node.started = true) :
    (knowledge cfg).Safe p start (getStarted cfg depth) l := by
  have inside₁ : (knowledge cfg).Inside p start
      { l with node := { l.node with tf := l.node.tf.increment } } :=
    { begun with
      own :=
        { known := known
          myid := myid
          trusted := by rw [started]; exact trusted.begin
          log := log } }
  have nextSafe : ∀ start l, (knowledge cfg).Inside p start l →
      (knowledge cfg).Safe p start (startNewView cfg depth) l := startNewView_safe positive depth
  have room : (l.node.view + 1) % wordSize ≤ l.node.view + 1 := Nat.mod_le _ _
  have ahead : (l.node.view + 1) % wordSize ≠ l.node.view := by
    have small := trusted.small
    unfold wordSize at small ⊢
    lia
  unfold Knowledge.Safe getStarted
  simp only [gives_bind, gives_this, gives_callTEEsign, TrustedFun.TEEsign, TrustedFun.sign,
    Just.getRData_ofRData, gives_ofOption_some, beq_iff_eq, Just.signs_ofRData]
  refine gives_ite (fun phase => ?_) (fun other => ?_)
  -- In the new-view phase the component is at the first view, or has just begun the next one.
  · have view : l.node.tf.view = l.node.view ∧ l.node.view = 0
        ∨ l.node.tf.view = (l.node.view + 1) % wordSize := by
      rcases trusted.step with ⟨here, zero | away⟩ | ⟨next, _⟩
      · exact .inl ⟨here, zero⟩
      · exact absurd phase away
      · exact .inr next
    have facts := newview_facts
      (r := l.node.tf.statement (Hash.ofBool false) l.node.tf.preph l.node.tf.prepv)
      begun.facts trusted rfl rfl fun (positive : 0 < l.node.tf.view) => by
        rcases view with ⟨here, zero⟩ | next
        · exact absurd positive (by lia)
        · refine .inl ?_
          have bound := trusted.lock_le
          have wraps : l.node.view + 1 < wordSize := by
            have small := trusted.small
            by_contra full
            rw [show l.node.view + 1 = wordSize by lia, Nat.mod_self] at next
            lia
          rw [Nat.mod_eq_of_lt wraps] at next
          change l.node.tf.lockv < l.node.tf.view
          lia
    have noted := inside_newview inside₁ facts
      (show l.node.tf.view ≤ l.node.view + 1 by
        rcases view with ⟨here, _⟩ | next
        · rw [here]; exact Nat.le_succ _
        · rw [next]; exact room)
      (fun here => by
        change l.node.tf.view ≤ l.node.view
        rcases view with ⟨same, _⟩ | next
        · exact Nat.le_of_eq same
        · have stays : l.node.tf.increment.view = l.node.tf.view := by
            rcases l.node.tf.increment_moves with ⟨stays, _⟩ | ⟨_, never⟩
            · exact stays
            · have moved : l.node.tf.increment.phase = PH1_PREPARE := by
                have now : l.node.tf.phase = PH1_NEWVIEW := phase
                simp only [TrustedFun.increment, now]
                rfl
              rw [moved] at never
              exact absurd never (by decide)
          exact absurd (next.symm.trans (stays.symm.trans here)) ahead)
    rw [gives_bind, gives_note]
    refine sendNewview_safe positive nextSafe noted fun _ => ?_
    exact ⟨p, known, by rw [myid]; simp, by
      simp [TrustedFun.signature, trusted.id, trusted.priv]⟩
  · exact sendNewview_safe positive nextSafe inside₁ fun phase => absurd phase other

/-- What is known holds of all nodes at their start. -/
theorem initial_holds : (knowledge cfg).Holds (initial cfg) where
  own := by
    intro p running
    have known : p < cfg.total := by simpa [initial] using running
    exact {
      known := known
      myid := rfl
      trusted :=
        { id := rfl
          priv := rfl
          qsize := rfl
          small := by simp [initial, init, wordSize]
          step := .inl ⟨rfl, .inl rfl⟩
          votes := by simp [initial, Voted]
          stores := by simp [initial, Stored]
          newest := by simp [initial, Stored]
          lockStored := by simp [initial, init, TrustedFun.init]
          prepared := ⟨rfl, rfl⟩
          nvBound := by simp [initial]
          nvNow := by simp [initial] }
      log :=
        { newviews := by simp [initial, init, Log.empty]
          prepares := by simp [initial, init, Log.empty]
          precommits := by simp [initial, init, Log.empty]
          commits := by simp [initial, init, Log.empty]
          proposals := by simp [initial, init, Log.empty]
          ownPrepares := fun _ => ⟨by simp [initial, init, Log.empty],
            by simp [initial, init, Log.empty, Messages.allSigns, Signs.getSigners]⟩
          ownPrecommits := fun _ => ⟨by simp [initial, init, Log.empty],
            by simp [initial, init, Log.empty, Messages.allSigns, Signs.getSigners]⟩
          ownCommits := fun _ => ⟨by simp [initial, init, Log.empty],
            by simp [initial, init, Log.empty, Messages.allSigns, Signs.getSigners]⟩
          ownVote := by simp [initial, proposal] } }
  facts := Facts.nil
  good := by simp [initial]

/-- Every reaction of a node to a message it may receive is safe. -/
theorem receive_safe (positive : 0 < cfg.qsize) (depth : Nat) {msg : MsgBasic}
    (good : Good cfg ⟨p, msg⟩ l.history) (inside : (knowledge cfg).Inside p start l) :
    (knowledge cfg).Safe p start ((protocol cfg depth).receive msg) l := by
  have nextSafe : ∀ start l, (knowledge cfg).Inside p start l →
      (knowledge cfg).Safe p start (startNewView cfg depth) l := startNewView_safe positive depth
  cases msg with
  | newView msg => exact handleNewview_safe positive nextSafe inside good
  | ldrPrepare msg =>
    obtain ⟨rdata, known, other⟩ := good
    exact handleLdrPrepare_safe inside known other
  | prepare msg => exact handlePrepare_safe positive nextSafe inside good.1 good.2.1 good.2.2
  | preCommit msg => exact handlePrecommit_safe positive nextSafe inside good.1 good.2
  | commit msg => exact handleCommit_safe nextSafe inside good.1 good.2.1 good.2.2

/-- Every reaction of a node to its environment is safe. -/
theorem input_safe (positive : 0 < cfg.qsize) (depth : Nat) (i : Input)
    (inside : (knowledge cfg).Inside p start l) :
    (knowledge cfg).Safe p start ((protocol cfg depth).input i) l := by
  have own : Own cfg p l.node l.history := inside.own
  cases i with
  | start cid =>
    -- A node that has not started is started; its component is where messages brought it.
    have begun : ∀ clients, Gives
        (if (!l.node.started) = true then do
          modify fun h => { h with started := true }
          getStarted cfg depth
        else pure ()) (fun _ => (knowledge cfg).Inside p start) ((knowledge cfg).Left p start)
        { l with node := { l.node with clients := clients } } := by
      intro clients
      refine gives_ite (fun fresh => ?_) (fun _ => ?_)
      · have idle : l.node.started = false := by simpa using fresh
        rw [gives_bind, gives_modify]
        exact getStarted_safe positive depth { inside.toLeft with } own.known own.myid
          (idle ▸ own.trusted) own.log rfl
      · exact inside.node { own with }
    change Gives (handle_start cfg depth cid) _ _ l
    simp only [handle_start, gives_bind, gives_this]
    refine gives_ite (fun _ => ?_) (fun _ => begun l.node.clients)
    rw [gives_bind, gives_modify]
    exact begun _
  | transaction t =>
    change Gives (handleTransaction t) _ _ l
    simp only [handleTransaction, gives_bind, gives_this]
    split
    · exact inside.node { own with }
    · exact inside
  | timeout =>
    change Gives (handleTimeout cfg depth) _ _ l
    simp only [handleTimeout, gives_bind, gives_this]
    refine gives_ite (fun _ => ?_) (fun _ => inside)
    exact gives_ite (fun _ => inside.toLeft) (fun _ => startNewView_safe positive depth _ _ inside)

/-- What is known holds after every run. -/
theorem run_holds (positive : 0 < cfg.qsize) (depth : Nat) (actions : List (Action Input)) :
    (knowledge cfg).Holds ((initial cfg).run (protocol cfg depth) actions) :=
  Knowledge.Holds.run knowledge_stable
    (fun _ _ _ good inside => receive_safe positive depth good inside)
    (fun _ i _ inside => input_safe positive depth i inside) initial_holds actions

end Handler

end ParaHotstuff
