import ParaHotstuff.Proofs.Basic.Certificates
import ParaHotstuff.Data.Checksum
import ParaHotstuff.Handler.Schedule

/-! The certificates basic leaders send in runs in which no vote is made outside its phase. -/

namespace ParaHotstuff

namespace Handler

open Program Local

namespace Certified

section Known

variable [Hashing] {cfg : Config} {p : PID} {start : List BasicEvent} {l : State} {r : RData}
variable {next : M Unit}

section Entering

/-- Going through earlier messages in the prepare phase is safe; a leader may have proposed then. -/
theorem handleEarlierMessages_gives (positive : 0 < cfg.qsize)
    (nextSafe : ∀ start l, (knowledge cfg).Inside p start l → (knowledge cfg).Safe p start next l)
    (inside : (knowledge cfg).Inside p start l) (now : l.node.tf.view = l.node.view)
    (phase : l.node.tf.phase = PH1_PREPARE) :
    (handleEarlierMessages cfg next).Gives
      (fun _ l' => (knowledge cfg).Inside p start l'
        ∧ (cfg.getLeaderOf l.node.view = p → Prepared cfg l l'))
      ((knowledge cfg).Left p start) l := by
  have own : Own cfg p l.node l.history := inside.own
  unfold handleEarlierMessages
  simp only [gives_bind, gives_this, gives_amCurrentLeader, beq_iff_eq, own.myid]
  refine gives_ite (fun leads => ?_) (fun away => ?_)
  · refine gives_ite (fun full => ?_) (fun _ => ⟨inside, fun _ => .inr ⟨rfl, rfl⟩⟩)
    -- Every message held has one signature.
    have count : cfg.qsize ≤ (l.node.log.newviews.held l.node.view).length := by
      have single : ∀ m ∈ l.node.log.newviews.held l.node.view, (MsgRData.signs m).length ≤ 1 := by
        intro m held
        obtain ⟨_, q, text, alone⟩ := own.log.newviews held
        simp [alone]
      have signs : (Messages.allSigns MsgRData.signs _).length ≤ _ :=
        Messages.length_allSigns single
      have all : (List.take cfg.qsize (Messages.allSigns (·.signs)
          (l.node.log.newviews.held l.node.view))).length = cfg.qsize := by
        rw [← Messages.getSigns_eq]
        exact full
      rw [List.length_take] at all
      change min cfg.qsize (Messages.allSigns MsgRData.signs _).length = _ at all
      omega
    exact (prepare_gives positive nextSafe inside (Config.amLeaderOf_iff.1 leads) count
      fun _ => phase).mono (fun _ _ done => ⟨done.1, fun _ => done.2⟩) fun _ left => left
  have backup : cfg.getLeaderOf l.node.view ≠ p := fun leads => away (Config.amLeaderOf_iff.2 leads)
  have weaken : ∀ {program : M Unit} {l₁ : State}, (knowledge cfg).Safe p start program l₁ →
      program.Gives (fun _ l' => (knowledge cfg).Inside p start l'
        ∧ (cfg.getLeaderOf l.node.view = p → Prepared cfg l l')) ((knowledge cfg).Left p start) l₁ :=
    fun safe => safe.mono (fun _ _ done => ⟨done, fun leads => absurd leads backup⟩)
      fun _ left => left
  have moved : l.node.tf.increment = { l.node.tf with phase := PH1_PRECOMMIT } := by
    simp only [TrustedFun.increment, phase]
    rfl
  have skipped := inside_skip inside backup now
  refine gives_ite (fun full => ?_) (fun _ => ?_)
  -- A pre-commit certificate is held: two phases are skipped.
  · obtain ⟨m, found, held⟩ := Messages.first_of_collected positive full
    obtain ⟨view, kinds⟩ := own.log.precommits held
    have twice := inside_skip skipped backup (by simp only [moved]; exact now)
    have firstPc : l.node.log.firstPrecommit l.node.view = Just.ofRData m.rdata m.signs := by
      simp [Log.firstPrecommit, Log.firstOf, found]
    simp only [gives_bind, gives_callTEEsign, firstPc]
    refine (respondToPreCommitJust_safe twice backup view fun all => ?_).mono
      (fun _ l' inside' => ?_) fun _ left => left
    · rcases kinds with dummy | ⟨⟨r, proposed, same, _⟩, _⟩
      · rw [dummy] at all
        exact absurd all (Nat.ne_of_lt positive)
      · exact ⟨r, _, proposed, same⟩
    · refine gives_ite (fun _ => ?_)
        (fun _ => ⟨inside', fun leads => absurd leads backup⟩)
      rw [gives_bind]
      exact gives_ofOption (fun rdata _ => weaken (executeRData_safe nextSafe inside'))
        fun _ => inside'.toLeft
  refine gives_ite (fun full => ?_) (fun _ => ?_)
  -- A prepare certificate is held: one phase is skipped.
  · obtain ⟨m, found, held⟩ := Messages.first_of_collected positive full
    obtain ⟨view, vote, stored⟩ := own.log.prepares held
    have firstPrep : l.node.log.firstPrepare l.node.view = Just.ofRData m.rdata m.signs := by
      simp [Log.firstPrepare, Log.firstOf, found]
    simp only [gives_bind, gives_callTEEsign, firstPrep]
    exact weaken (respondToPrepareJust_safe skipped backup view fun _ =>
      ⟨vote.proposed, by rw [view]; exact stored backup⟩)
  -- A proposal may be held.
  · split
    · rename_i msgProp found
      refine gives_ite (fun _ => weaken ?_) (fun _ => ⟨inside, fun leads => absurd leads backup⟩)
      exact respondToProposal_safe inside (own.log.proposals (Messages.mem_of_first found))
        fun _ => phase
    · exact ⟨inside, fun leads => absurd leads backup⟩

/-- After it has gone through earlier messages, a leader's own report does not make it vote twice. -/
theorem proposes_later (positive : 0 < cfg.qsize) {l' : State} (own : Own cfg p l'.node l'.history)
    (leads : cfg.getLeaderOf l.node.view = p) (prepared : Prepared cfg l l')
    (phase : l.node.tf.phase = PH1_PREPARE) (here : r.propv = l.node.view)
    (report : proposes cfg l'.node ⟨r, [Sign.ofText p p r.toString]⟩ = true) :
    l'.node.tf.phase = PH1_PREPARE := by
  rcases prepared with ⟨r', proposed, view⟩ | ⟨same, _⟩
  · -- It holds a full set of reports, so one more is none that completes it.
    have full := own.reports proposed (by rw [view]; exact leads)
    simp only [proposes, Bool.and_eq_true, beq_iff_eq] at report
    obtain ⟨⟨⟨-, counted⟩, -⟩, -⟩ := report
    rw [view, ← here] at full
    change (l'.node.log.newviews.store (·.signs) MsgRData.lt r.propv _).1 = _ at counted
    by_cases held : p ∈ (Messages.allSigns (·.signs) (l'.node.log.newviews.held r.propv)).getSigners
    · rw [Messages.store_covered (fun q signer => ?_) (fun none_held => ?_)] at counted
      · exact absurd counted (by simp only; omega)
      · simp only [Signs.getSigners, Sign.ofText, List.map_cons, List.map_nil,
          List.mem_singleton] at signer
        exact signer ▸ held
      · simp [none_held, Signs.getSigners] at held
    · have new := (Messages.store_new (·.signs) MsgRData.lt l'.node.log.newviews r.propv
        ⟨r, [Sign.ofText p p r.toString]⟩ MsgRData.signers_of_equivalent
        (by simp [Signs.getSigners, Sign.ofText]) held).2
      omega
  · rw [same]
    exact phase

/-- The node notes its new-view statement. -/
theorem inside_newview (inside : (knowledge cfg).Inside p start l) :
    (knowledge cfg).Inside p start { l with history := .newview l.node.myid r :: l.history } := by
  have own : Own cfg p l.node l.history := inside.own
  have facts : Facts cfg l.history := inside.facts
  exact inside.event knowledge_stable own.myid (facts.cons fun _ => proposed_newview)
    (own.mono [_] (fun _ _ => proposed_newview) fun _ _ => stored_newview)

/-- Something may go wrong where the node enters a view. -/
theorem inside_wrong (inside : (knowledge cfg).Inside p start l) {v : View} :
    (knowledge cfg).Inside p start { l with history := .wrong l.node.myid v r :: l.history } := by
  have own : Own cfg p l.node l.history := inside.own
  have facts : Facts cfg l.history := inside.facts
  exact inside.event knowledge_stable own.myid (facts.cons fun _ => proposed_wrong)
    (own.mono [_] (fun _ _ => proposed_wrong) fun _ _ => stored_wrong)

/-- Announcing the view just entered and going through earlier messages is safe. -/
theorem announce_safe (positive : 0 < cfg.qsize)
    (nextSafe : ∀ start l, (knowledge cfg).Inside p start l → (knowledge cfg).Safe p start next l)
    (inside : (knowledge cfg).Inside p start l) (here : r.propv = l.node.view)
    (now : l.node.tf.view = l.node.view) (phase : l.node.tf.phase = PH1_PREPARE) {signs : Signs}
    (signed : signs = [Sign.ofText p p r.toString]) :
    (knowledge cfg).Safe p start (announceNewview cfg next l.node ⟨r, signs⟩) l := by
  subst signed
  have own : Own cfg p l.node l.history := inside.own
  have noted := inside_newview (r := r) inside
  unfold Knowledge.Safe announceNewview
  simp only [gives_bind, gives_note, gives_amCurrentLeader]
  refine gives_ite (fun leads => ?_) (fun _ => ?_)
  · have leader : cfg.getLeaderOf l.node.view = p := by
      rw [Config.amLeaderOf_iff.1 leads, own.myid]
    rw [gives_bind]
    refine (handleEarlierMessages_gives positive nextSafe noted now phase).mono
      (fun _ l' done => ?_) fun _ left => left
    refine handleNewview_safe positive nextSafe done.1 ⟨p, _, rfl⟩ fun report => ?_
    exact proposes_later (l := l) positive done.1.own leader (done.2 leader) phase here report
  · rw [gives_bind, gives_multicast]
    have sent := noted.send (.newView ⟨r, [Sign.ofText p p r.toString]⟩)
      (cfg.keep_from_peers l.node.myid (cfg.getLeaderOf l.node.view)) fun d _ => ⟨p, _, rfl⟩
    exact (handleEarlierMessages_gives positive nextSafe sent now phase).mono
      (fun _ _ done => done.1) fun _ left => left

/-- In a view just entered nothing has been voted for, or certified, by its leader. -/
theorem Own.enter {h : Handler} {H : List BasicEvent} {tf' : TrustedFun} (own : Own cfg p h H)
    (begun : Begun h.tf h.view tf') (room : h.view + 1 < wordSize) :
    Own cfg p { h with tf := tf'.increment, view := h.view + 1, timer := true } H where
  known := own.known
  myid := own.myid
  trusted := own.trusted.enter begun room
  log := own.log
  votes := fun proposed leads => Nat.le_succ_of_le (own.votes proposed leads)
  stores := fun stored leads => Nat.le_succ_of_le (own.stores stored leads)
  reports := own.reports
  leading := fun leads => by
    have none_stored : ¬ Stored cfg H (h.view + 1) := fun stored =>
      absurd (own.stores stored leads) (Nat.not_succ_le_self _)
    exact
      { pending := fun ⟨r, proposed, view⟩ => by
          have bound := own.votes proposed (by rw [view]; exact leads)
          rw [view] at bound
          exact absurd bound (Nat.not_succ_le_self _)
        stored := fun stored => absurd stored none_stored
        collected := fun stored => absurd stored none_stored }

/-- Entering the next view is safe, however deep views are entered from within each other. -/
theorem startNewView_safe (positive : 0 < cfg.qsize) (depth : Nat) (start : List BasicEvent)
    (l : State) (inside : (knowledge cfg).Inside p start l) :
    (knowledge cfg).Safe p start (startNewView cfg depth) l := by
  -- Induction on the depth: the views entered from within are entered with less of it.
  induction depth generalizing start l with
  | zero => exact inside.toLeft
  | succ depth ih =>
    have own : Own cfg p l.node l.history := inside.own
    have within : l.node.tf.view < wordSize := by
      rcases own.trusted.step with here | ⟨next, _⟩
      · rw [here]; exact own.trusted.small
      · rw [next]; exact Nat.mod_lt _ (by decide)
    unfold Knowledge.Safe startNewView
    simp only [gives_bind, gives_this]
    refine signUntil_gives own.trusted.small within ⟨_, _, rfl⟩ (fun room => ?_)
      (fun _ => { inside.toLeft with }) fun tf' begun room => ?_
    · rcases own.trusted.step with here | ⟨next, phase⟩
      · exact .inl here
      · rw [Nat.mod_eq_of_lt room] at next
        exact .inr ⟨next, phase.imp_right And.right⟩
    have entered : (l.node.view + 1) % wordSize = l.node.view + 1 := Nat.mod_eq_of_lt room
    have inside₁ := inside.node (own.enter begun room)
    simp only [gives_modify, gives_setTimer, TrustedFun.TEEsign, TrustedFun.sign,
      Just.getRData_ofRData, gives_ofOption_some, Bool.and_eq_true, beq_iff_eq,
      TrustedFun.statement, entered]
    refine gives_ite (fun stated => ?_) (fun _ => inside_wrong inside₁)
    obtain ⟨here, phase⟩ := stated
    obtain ⟨ph, now, rfl⟩ := begun.same
    obtain rfl : now = l.node.view + 1 := begun.here
    obtain rfl : ph = PH1_NEWVIEW := phase
    refine announce_safe positive (fun start l => ih start l) inside₁ rfl rfl rfl ?_
    simp [TrustedFun.signature, own.trusted.id, own.trusted.priv]

end Entering

section Messages

omit [Hashing] in
/-- A node leads a view exactly when it is the leader by its number. -/
theorem amLeader_eq {h : Handler} (myid : h.myid = p) :
    cfg.amLeaderOf h.myid h.view = cfg.amLeaderOf p h.view := by rw [myid]

/-- Handling a leader's proposal is safe if a vote on it is made in the prepare phase. -/
theorem handleLdrPrepare_safe (inside : (knowledge cfg).Inside p start l) {msg : MsgLdrPrepare}
    {v : View} (proposal : Proposal cfg l.history msg v)
    (ready : votesAtOnce cfg l.node msg = true → l.node.tf.phase = PH1_PREPARE) :
    (knowledge cfg).Safe p start (handleLdrPrepare cfg msg) l := by
  have own : Own cfg p l.node l.history := inside.own
  obtain ⟨rd, tagged, view, rest⟩ := proposal
  have branch := @handleLdrPrepare_eq _ cfg msg rd tagged l
  unfold Knowledge.Safe Gives
  rw [branch]
  change Gives _ (fun _ => (knowledge cfg).Inside p start) ((knowledge cfg).Left p start) l
  refine gives_ite (fun checks => ?_) fun _ => inside
  simp only [Bool.and_eq_true, decide_eq_true_eq] at checks
  refine gives_ite (fun here => ?_) fun _ => ?_
  · rw [beq_iff_eq] at here
    refine respondToProposal_safe inside ⟨rd, tagged, here, rest⟩ fun accepts => ready ?_
    simp only [votesAtOnce, tagged, Bool.and_eq_true, beq_iff_eq]
    exact ⟨⟨⟨here, checks.1.2⟩, checks.2⟩, accepts⟩
  · have kept := own.log.storeProp ⟨rd, tagged, rfl, rest⟩
    simp only [storeProp, gives_bind, gives_this, Log.storeProp, tagged, gives_ofOption_some,
      gives_modify]
    exact inside.node { own with log := kept }

/-- Handling a vote, or a certificate of votes, is safe. -/
theorem handlePrepare_safe (positive : 0 < cfg.qsize)
    (nextSafe : ∀ start l, (knowledge cfg).Inside p start l → (knowledge cfg).Safe p start next l)
    (inside : (knowledge cfg).Inside p start l) {msg : MsgPrepare} (vote : Vote cfg l.history msg)
    (stored : cfg.getLeaderOf msg.rdata.propv ≠ p → Stored cfg l.history msg.rdata.propv) :
    (knowledge cfg).Safe p start (handlePrepare cfg next msg) l := by
  have own : Own cfg p l.node l.history := inside.own
  have kept := inside.node (h := { l.node with log := (l.node.log.storePrep msg).2 })
    { own with log := own.log.storePrep vote stored }
  unfold Knowledge.Safe handlePrepare
  simp only [gives_bind, gives_this, beq_iff_eq]
  refine gives_ite (fun here => ?_) fun _ => gives_ite (fun _ => kept) fun _ => inside
  rw [gives_bind, gives_amCurrentLeader, amLeader_eq own.myid]
  refine gives_ite (fun leads => ?_) fun away => ?_
  · rw [gives_bind, gives_storePrep]
    refine gives_ite (fun _ => ?_) fun _ => kept
    exact initiatePrepare_safe positive nextSafe kept vote.proposed here
      (by rw [here]; exact Config.amLeaderOf_iff.1 leads)
  · have backup : cfg.getLeaderOf l.node.view ≠ p := fun leads =>
      away (Config.amLeaderOf_iff.2 leads)
    refine gives_ite (fun _ => ?_) fun _ => inside
    exact respondToPrepareJust_safe inside backup here fun _ =>
      ⟨vote.proposed, stored (by rw [here]; exact backup)⟩

/-- A leader of a view has entered it before anybody answers in it. -/
theorem Own.not_early {h : Handler} {H : List BasicEvent} (own : Own cfg p h H) {m : MsgRData}
    {phase : Phase1} (answers : Answers cfg H phase m) (early : h.view < m.rdata.propv) :
    cfg.getLeaderOf m.rdata.propv ≠ p := by
  obtain ⟨r, proposed, same, _⟩ := answers
  have view : m.rdata.propv = r.propv := by rw [same]; rfl
  intro leads
  have bound := own.votes proposed (by rw [← view]; exact leads)
  rw [view] at early
  exact absurd early (Nat.not_lt.2 bound)

/-- Handling a pre-commit, or a certificate of them, is safe. -/
theorem handlePrecommit_safe (positive : 0 < cfg.qsize)
    (nextSafe : ∀ start l, (knowledge cfg).Inside p start l → (knowledge cfg).Safe p start next l)
    (inside : (knowledge cfg).Inside p start l) {msg : MsgPreCommit}
    (good : Good cfg ⟨p, .preCommit msg⟩ l.history) :
    (knowledge cfg).Safe p start (handlePrecommit cfg next msg) l := by
  have own : Own cfg p l.node l.history := inside.own
  unfold Knowledge.Safe handlePrecommit
  simp only [gives_bind, gives_this, Bool.and_eq_true, beq_iff_eq]
  rcases good with dummy | ⟨phase, answers, stored, fits⟩
  -- The dummy is for the first view and in no phase of interest, so it is ignored.
  · rw [dummy]
    refine gives_ite (fun judged => absurd judged.2 (by decide)) fun _ => ?_
    exact gives_ite (fun early => absurd early (Nat.not_lt_zero _)) fun _ => inside
  have keep : phase = PH1_PRECOMMIT → (knowledge cfg).Inside p start
      { l with node := { l.node with log := (l.node.log.storePc msg).2 } } := fun fit =>
    inside.node (own.storePc (.inr ⟨fit ▸ answers, stored⟩))
  refine gives_ite (fun current => ?_) fun _ => ?_
  · obtain ⟨here, fit⟩ := current
    obtain ⟨r, proposed, same, signed⟩ := answers
    obtain rfl : phase = PH1_PRECOMMIT := by
      rw [same] at fit
      exact fit
    rw [gives_bind, gives_amCurrentLeader, amLeader_eq own.myid]
    refine gives_ite (fun leads => ?_) fun away => ?_
    · have view : r.propv = l.node.view := by rw [← here, same]; rfl
      rw [gives_bind, gives_storePc]
      refine gives_ite (fun _ => ?_) fun _ => keep rfl
      have leader : cfg.getLeaderOf r.propv = p := by
        rw [view]
        exact Config.amLeaderOf_iff.1 leads
      have certified : Stored cfg l.history r.propv := by
        rw [same] at stored
        exact stored
      rw [same]
      exact initiatePrecommit_safe positive nextSafe (keep rfl) proposed view leader certified
    · have backup : cfg.getLeaderOf l.node.view ≠ p := fun leads =>
        away (Config.amLeaderOf_iff.2 leads)
      refine gives_ite (fun _ => ?_) fun _ => inside
      exact respondToPreCommitJust_safe inside backup here fun _ => ⟨r, _, proposed, same⟩
  · refine gives_ite (fun early => ?_) fun _ => inside
    exact keep (fits (own.not_early answers early))

/-- Handling a commit, or a certificate of them, is safe. -/
theorem handleCommit_safe
    (nextSafe : ∀ start l, (knowledge cfg).Inside p start l → (knowledge cfg).Safe p start next l)
    (inside : (knowledge cfg).Inside p start l) {msg : MsgCommit}
    (good : Good cfg ⟨p, .commit msg⟩ l.history) :
    (knowledge cfg).Safe p start (handleCommit cfg next msg) l := by
  have own : Own cfg p l.node l.history := inside.own
  unfold Knowledge.Safe handleCommit
  simp only [gives_bind, gives_this, Bool.and_eq_true, beq_iff_eq]
  rcases good with dummy | ⟨phase, answers⟩
  · rw [dummy]
    refine gives_ite (fun judged => absurd judged.2 (by decide)) fun _ => ?_
    exact gives_ite (fun early => absurd early (Nat.not_lt_zero _)) fun _ => inside
  have keep : (cfg.getLeaderOf msg.rdata.propv = p → phase = PH1_COMMIT) →
      (knowledge cfg).Inside p start
        { l with node := { l.node with log := (l.node.log.storeCom msg).2 } } := fun fits =>
    inside.node { own with log := own.log.storeCom fun leads => .inr (fits leads ▸ answers) }
  refine gives_ite (fun current => ?_) fun _ => ?_
  · obtain ⟨here, fit⟩ := current
    obtain ⟨r, proposed, same, signed⟩ := answers
    obtain rfl : phase = PH1_COMMIT := by
      rw [same] at fit
      exact fit
    rw [gives_bind, gives_amCurrentLeader, amLeader_eq own.myid]
    refine gives_ite (fun leads => ?_) fun _ => ?_
    · rw [gives_bind, gives_storeCom]
      refine gives_ite (fun _ => ?_) fun _ => keep fun _ => rfl
      have leader : cfg.getLeaderOf r.propv = p := by
        rw [show r.propv = l.node.view by rw [← here, same]; rfl]
        exact Config.amLeaderOf_iff.1 leads
      rw [same]
      exact initiateCommit_safe nextSafe (keep fun _ => rfl) proposed leader
    · exact gives_ite (fun _ => executeRData_safe nextSafe inside) fun _ => inside
  · refine gives_ite (fun early => ?_) fun _ => inside
    have backup := own.not_early answers early
    have kept := keep fun leads => absurd leads backup
    exact gives_ite (fun _ => kept) fun _ => gives_ite (fun _ => kept) fun _ => inside

/-- The start of a node is safe, unless it leads its view and waits for the votes on its block. -/
theorem getStarted_safe (positive : 0 < cfg.qsize) (depth : Nat)
    (inside : (knowledge cfg).Inside p start l) (idle : l.node.started = false)
    (waits : cfg.getLeaderOf l.node.view = p → l.node.tf.view = l.node.view →
      l.node.tf.phase ≠ PH1_PRECOMMIT) :
    (knowledge cfg).Safe p start (getStarted cfg depth)
      { l with node := { l.node with started := true } } := by
  have own : Own cfg p l.node l.history := inside.own
  have nextSafe : ∀ start l, (knowledge cfg).Inside p start l →
      (knowledge cfg).Safe p start (startNewView cfg depth) l := startNewView_safe positive depth
  have trusted : OwnTrusted cfg p l.node.tf.increment l.node.view true :=
    (idle ▸ own.trusted).begin
  have begun : Own cfg p { l.node with tf := l.node.tf.increment, started := true } l.history :=
    { own with
      trusted := trusted
      leading := fun leads =>
        have leading := own.leading leads
        have moved : Stored cfg l.history l.node.view → l.node.tf.increment.view ≠ l.node.view := by
          intro stored
          rcases own.trusted.step with here | ⟨next, phase | ⟨never, _⟩⟩
          · have next : l.node.tf.increment.view = (l.node.tf.view + 1) % wordSize := by
              simp only [TrustedFun.increment, leading.stored stored here]
              rfl
            rw [next, here]
            exact next_ne own.trusted.small
          · have same : l.node.tf.increment.view = l.node.tf.view := by
              simp only [TrustedFun.increment, phase]
              rfl
            rw [same, next]
            exact next_ne own.trusted.small
          · rw [idle] at never
            cases never
        { pending := fun voted => by
            rcases leading.pending voted with ⟨here, phase⟩ | stored
            · exact absurd phase (waits leads here)
            · exact .inr stored
          stored := fun stored stays => absurd stays (moved stored)
          collected := leading.collected } }
  have inside₁ := inside.node begun
  unfold Knowledge.Safe getStarted
  simp only [gives_bind, gives_this, gives_callTEEsign, TrustedFun.TEEsign, TrustedFun.sign,
    Just.getRData_ofRData, gives_ofOption_some, beq_iff_eq, Just.signs_ofRData]
  rw [own.trusted.signature_eq]
  generalize stated : l.node.tf.statement _ l.node.tf.preph l.node.tf.prepv = r
  have phase : r.phase = l.node.tf.phase := by rw [← stated]; rfl
  -- The own message is handled in the prepare phase, if it is one at all.
  have rest : ∀ l' : State, (knowledge cfg).Inside p start l' →
      l'.node.tf = l.node.tf.increment →
      (sendNewview cfg (startNewView cfg depth) ⟨r, [Sign.ofText p p r.toString]⟩
        (cfg.keep_from_peers l.node.myid (cfg.getLeaderOf l.node.view))).Gives
        (fun _ => (knowledge cfg).Inside p start) ((knowledge cfg).Left p start) l' := by
    intro l' inside' same
    unfold sendNewview
    rw [gives_bind, gives_amCurrentLeader]
    refine gives_ite (fun _ => ?_) fun _ => inside'.send _ _ fun d _ => ⟨p, _, rfl⟩
    refine handleNewview_safe positive nextSafe inside' ⟨p, _, rfl⟩ fun report => ?_
    simp only [proposes, Bool.and_eq_true, beq_iff_eq] at report
    have fresh : l.node.tf.phase = PH1_NEWVIEW := by
      rw [← phase]
      exact report.1.1.1.1.2
    rw [same]
    simp only [TrustedFun.increment, fresh]
    rfl
  refine gives_ite (fun _ => ?_) fun _ => rest _ inside₁ rfl
  rw [gives_bind, gives_note]
  exact rest _ (inside_newview inside₁) rfl

end Messages

section Runs

/--
Whether an action lets no component sign a vote outside its prepare phase.

A component signs in whatever phase it is. A vote on the proposal of a leader, or the proposal
itself, is in another phase if the node has not been started yet, or if it has been moved on by
a late start or by an earlier vote; a leader that starts after its proposal answers its own
certificate in the phase after the one it should.
-/
def onTime (cfg : Config) (net : Net Handler MsgBasic BasicEvent) : Action Input → Bool
  | .deliver index =>
    match net.sent[index]? with
    | some ⟨p, .ldrPrepare msg⟩ =>
      !votesAtOnce cfg (net.nodes p) msg || (net.nodes p).tf.phase == PH1_PREPARE
    | some ⟨p, .newView msg⟩ =>
      !proposes cfg (net.nodes p) msg || (net.nodes p).tf.phase == PH1_PREPARE
    | _ => true
  | .input p (.start _) =>
    let h := net.nodes p
    h.started || !cfg.amLeaderOf p h.view || h.tf.view != h.view || h.tf.phase != PH1_PRECOMMIT
  | .input _ _ => true

/-- A certificate, or a single vote, all of whose signatures are on its round data. -/
def Valid (cfg : Config) : MsgBasic → Prop
  | .prepare m | .preCommit m | .commit m => verifyJust cfg m.rdata m.signs = true
  | _ => True

instance (cfg : Config) (msg : MsgBasic) : Decidable (Valid cfg msg) := by
  cases msg <;> unfold Valid <;> infer_instance

/-- What is known holds of all nodes at their start. -/
theorem initial_holds : (knowledge cfg).Holds (initial cfg) where
  own := by
    intro p running
    have known : p < cfg.total := by simpa [initial] using running
    exact
      { known := known
        myid := rfl
        trusted :=
          { id := rfl
            priv := rfl
            qsize := rfl
            small := by simp [initial, init, wordSize]
            step := .inl rfl }
        log :=
          { newviews := by simp [initial, init, Log.empty]
            prepares := by simp [initial, init, Log.empty]
            precommits := by simp [initial, init, Log.empty]
            commits := by simp [initial, init, Log.empty]
            proposals := by simp [initial, init, Log.empty] }
        votes := by simp [initial, Proposed]
        stores := by simp [initial, Stored]
        reports := by simp [initial, Proposed]
        leading := fun _ =>
          { pending := by simp [initial, Proposed]
            stored := by simp [initial, Stored]
            collected := by simp [initial, Stored] } }
  facts := ⟨by simp [initial, Proposed], by simp [initial, Proposed]⟩
  good := by simp [initial]

/-- Every reaction to a message that is on time is safe. -/
theorem receive_safe (positive : 0 < cfg.qsize) (depth : Nat)
    {net : Net Handler MsgBasic BasicEvent} {index : Nat} {msg : MsgBasic}
    (timely : onTime cfg net (.deliver index) = true) (sent : net.sent[index]? = some ⟨p, msg⟩)
    (good : Good cfg ⟨p, msg⟩ net.history)
    (inside : (knowledge cfg).Inside p net.history ⟨net.nodes p, net.sent, net.history⟩) :
    (knowledge cfg).Safe p net.history ((protocol cfg depth).receive msg)
      ⟨net.nodes p, net.sent, net.history⟩ := by
  have nextSafe : ∀ start l, (knowledge cfg).Inside p start l →
      (knowledge cfg).Safe p start (startNewView cfg depth) l := startNewView_safe positive depth
  cases msg with
  | newView msg =>
    refine handleNewview_safe positive nextSafe inside good fun report => ?_
    simpa [onTime, sent, report] using timely
  | ldrPrepare msg =>
    obtain ⟨v, proposal⟩ := good
    refine handleLdrPrepare_safe inside proposal fun votes => ?_
    simpa [onTime, sent, votes] using timely
  | prepare msg => exact handlePrepare_safe positive nextSafe inside good.1 good.2
  | preCommit msg => exact handlePrecommit_safe positive nextSafe inside good
  | commit msg => exact handleCommit_safe nextSafe inside good

/-- Every reaction to the environment that is on time is safe. -/
theorem input_safe (positive : 0 < cfg.qsize) (depth : Nat)
    {net : Net Handler MsgBasic BasicEvent} {i : Input}
    (timely : onTime cfg net (.input p i) = true)
    (inside : (knowledge cfg).Inside p net.history ⟨net.nodes p, net.sent, net.history⟩) :
    (knowledge cfg).Safe p net.history ((protocol cfg depth).input i)
      ⟨net.nodes p, net.sent, net.history⟩ := by
  have own : Own cfg p (net.nodes p) net.history := inside.own
  cases i with
  | start cid =>
    have begun : ∀ clients, Gives
        (if (!(net.nodes p).started) = true then do
          modify fun h => { h with started := true }
          getStarted cfg depth
        else pure ()) (fun _ => (knowledge cfg).Inside p net.history)
        ((knowledge cfg).Left p net.history)
        ⟨{ net.nodes p with clients := clients }, net.sent, net.history⟩ := by
      intro clients
      have known := inside.node (h := { net.nodes p with clients := clients }) { own with }
      refine gives_ite (fun fresh => ?_) (fun _ => known)
      have idle : (net.nodes p).started = false := by simpa using fresh
      rw [gives_bind, gives_modify]
      refine getStarted_safe positive depth known idle fun leads here phase => ?_
      have leader : cfg.amLeaderOf p (net.nodes p).view = true := Config.amLeaderOf_iff.2 leads
      have view : (net.nodes p).tf.view = (net.nodes p).view := here
      have waiting : (net.nodes p).tf.phase = PH1_PRECOMMIT := phase
      simp [onTime, idle, leader, view, waiting] at timely
    change Gives (handle_start cfg depth cid) _ _ _
    simp only [handle_start, gives_bind, gives_this]
    refine gives_ite (fun _ => ?_) (fun _ => begun (net.nodes p).clients)
    rw [gives_bind, gives_modify]
    exact begun _
  | transaction t =>
    change Gives (handleTransaction t) _ _ _
    simp only [handleTransaction, gives_bind, gives_this]
    split
    · exact inside.node { own with }
    · exact inside
  | timeout =>
    change Gives (handleTimeout cfg depth) _ _ _
    simp only [handleTimeout, gives_bind, gives_this]
    refine gives_ite (fun _ => ?_) (fun _ => inside)
    exact gives_ite (fun _ => inside.toLeft) (fun _ => startNewView_safe positive depth _ _ inside)

/-- What is known holds after every run of actions that are on time. -/
theorem run_holds (positive : 0 < cfg.qsize) (depth : Nat) {actions : List (Action Input)}
    (timely : Net.Meets (protocol cfg depth) (fun net action => onTime cfg net action = true)
      (initial cfg) actions) :
    (knowledge cfg).Holds ((initial cfg).run (protocol cfg depth) actions) :=
  Knowledge.Holds.run_meeting knowledge_stable
    (fun _ _ _ _ timely sent _ good inside => receive_safe positive depth timely sent good inside)
    (fun _ _ _ timely _ inside => input_safe positive depth timely inside) initial_holds timely

/-- Packets of which this is known carry valid certificates. -/
theorem Good.valid {packet : Packet MsgBasic} {H : List BasicEvent} (good : Good cfg packet H) :
    Valid cfg packet.msg := by
  obtain ⟨dest, msg⟩ := packet
  cases msg with
  | newView m => trivial
  | ldrPrepare m => trivial
  | prepare m => exact good.1.signed.verify
  | preCommit m =>
    rcases good with dummy | ⟨_, ⟨_, _, _, signed⟩, _⟩
    · rw [show m = ⟨RData.default, []⟩ from dummy]
      rfl
    · exact signed.verify
  | commit m =>
    rcases good with dummy | ⟨_, _, _, _, signed⟩
    · rw [show m = ⟨RData.default, []⟩ from dummy]
      rfl
    · exact signed.verify

/-- As long as no component signs outside its prepare phase, all certificates are valid. -/
theorem certificates_valid (positive : 0 < cfg.qsize) (depth : Nat)
    (actions : List (Action Input))
    (timely : Net.Meets (protocol cfg depth) (fun net action => onTime cfg net action = true)
      (initial cfg) actions) :
    ∀ packet ∈ ((initial cfg).run (protocol cfg depth) actions).sent, Valid cfg packet.msg :=
  fun packet member => Good.valid ((run_holds positive depth timely).good packet member)

end Runs

end Known

/-- The leader and two others have been started when the last one votes, in its new-view phase. -/
def earlyVote : List (Action Input) :=
  Schedule.startAll 3 ++ Schedule.deliver [0, 1, 4, 5, 2, 6]

/-- The ordered run of two views is on time. -/
theorem certificates_valid_ordered :
    let _ := Checksum.hashing
    let actions := Schedule.startAll 4 ++ Schedule.deliverFrom 0 48
    let net := (initial Schedule.fourNodes).run (protocol Schedule.fourNodes 3) actions
    Net.Meets (protocol Schedule.fourNodes 3)
        (fun net action => onTime Schedule.fourNodes net action = true)
        (initial Schedule.fourNodes) actions
      ∧ ∀ packet ∈ net.sent, Valid Schedule.fourNodes packet.msg := by
  intro _ actions net
  have timely : Net.Meets (protocol Schedule.fourNodes 3)
      (fun net action => onTime Schedule.fourNodes net action = true)
      (initial Schedule.fourNodes) actions := by decide +kernel
  exact ⟨timely, certificates_valid (by decide) 3 actions timely⟩

/-- The vote of a node that has not been started makes the certificate of the leader invalid. -/
theorem certificates_invalid :
    let _ := Checksum.hashing
    let net := (initial Schedule.fourNodes).run (protocol Schedule.fourNodes 3) earlyVote
    ¬ ∀ packet ∈ net.sent, Valid Schedule.fourNodes packet.msg := by
  decide +kernel

end Certified

end Handler

end ParaHotstuff
