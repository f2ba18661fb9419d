import ParaHotstuff.Handler.Faulty
import ParaHotstuff.Proofs.Votes

/-! What the single operations of a parallel node do, whatever is known of the node. -/

namespace ParaHotstuff

namespace TrustedPara

/-- The statement the component signs next in the phase of the node. -/
def nodeStatement (tp : TrustedPara) : RDataPara :=
  ⟨Hash.ofBool false, tp.view, tp.latestPreparedHash, tp.latestPreparedView, tp.phase,
    tp.latestPreparedSeqNumber⟩

/-- The phase of the node moves on within its view, or to the next one. -/
theorem view_increment_node_phase {tp : TrustedPara} (small : tp.view < wordSize) :
    tp.increment_node_phase.view < wordSize := by
  have next : (tp.view + 1) % wordSize < wordSize := Nat.mod_lt _ (by decide)
  unfold TrustedPara.increment_node_phase
  split
  · exact small
  · split
    · exact small
    · split
      · exact small
      · split
        · exact next
        · exact small

end TrustedPara

/-- The node that did what an event notes. -/
def ParaEvent.actor : ParaEvent → PID
  | signed p _ | newview p _ | voted p _ _ | stored p _ _ _ | precommitted p _
  | adopted p _ _ _ _ _ | answered p _ _ _ _ _ | recovering p _ | prepared p _ _ | fallback p _
  | executed p _ _ _ | marked p _ _ _ _ _ | leaving p _ => p

namespace HandlerPara

open Program Local

variable {cfg : Config} {l : State} {stop : State → Prop}

section Frame

/-- Everything that is known of a node depends on these parts of its state only. -/
structure Frame (h h' : HandlerPara) : Prop where
  myid : h'.myid = h.myid
  view : h'.view = h.view
  started : h'.started = h.started
  log : h'.log = h.log
  tpara : h'.tpara = h.tpara
  verifiedJust : h'.verifiedJust = h.verifiedJust

variable {h h' h'' : HandlerPara}

theorem Frame.refl (h : HandlerPara) : Frame h h := ⟨rfl, rfl, rfl, rfl, rfl, rfl⟩

theorem Frame.trans (first : Frame h h') (second : Frame h' h'') : Frame h h'' where
  myid := second.myid.trans first.myid
  view := second.view.trans first.view
  started := second.started.trans first.started
  log := second.log.trans first.log
  tpara := second.tpara.trans first.tpara
  verifiedJust := second.verifiedJust.trans first.verifiedJust

/-- Looking up a view leaves all but the blocks. -/
theorem frame_enterView (h : HandlerPara) (v : View) : Frame h (h.enterView v) := by
  unfold enterView
  split
  · exact .refl h
  · exact ⟨rfl, rfl, rfl, rfl, rfl, rfl⟩

/-- Looking a view up leaves the blocks of all views. -/
theorem blocksOf_enterView (h : HandlerPara) (v w : View) :
    (h.enterView v).blocksOf w = h.blocksOf w := by
  unfold enterView
  cases known : h.pblocks.lookup v with
  | some blocks => rfl
  | none =>
    by_cases same : w = v
    · subst same
      simp [blocksOf, known]
    · simp [blocksOf, same]

/-- A leader that handles an answer looks the view up, and counts its own answer first. -/
def collecting (h : HandlerPara) (v : View) : HandlerPara :=
  match (h.enterView v).recoverResponses.lookup v with
  | some _ => h.enterView v
  | none => { h.enterView v with
      recoverResponses := (h.enterView v).recoverResponses.insert v 1 }

theorem frame_collecting (h : HandlerPara) (v : View) : Frame h (h.collecting v) := by
  have frame := frame_enterView h v
  unfold collecting
  split
  · exact frame
  · exact frame.trans ⟨rfl, rfl, rfl, rfl, rfl, rfl⟩

/-- Collecting answers leaves the blocks. -/
theorem blocksOf_collecting (h : HandlerPara) (v w : View) :
    (h.collecting v).blocksOf w = h.blocksOf w := by
  unfold collecting
  split
  · exact blocksOf_enterView h v w
  · exact blocksOf_enterView h v w

/-- Which slots are missing depends on the blocks of the view only. -/
theorem missing_of_blocks {rdata : RDataPara}
    (same : h'.blocksOf rdata.justv = h.blocksOf rdata.justv) :
    h'.missingSeqNumbers rdata = h.missingSeqNumbers rdata := by
  unfold missingSeqNumbers
  rw [same]

/-- A node that has counted its own answer goes on with the next one. -/
theorem responses_collecting (h : HandlerPara) (v : View) :
    ((h.collecting v).recoverResponses.lookup v).getD 0
      = (h.recoverResponses.lookup v).getD 1 := by
  have same : (h.enterView v).recoverResponses = h.recoverResponses := by
    unfold enterView
    split <;> rfl
  unfold collecting
  rw [← same]
  split
  · rename_i known
    rw [known]
    rfl
  · rename_i unknown
    rw [unknown, AList.lookup_insert]
    rfl

theorem frame_resizeBlocks (h : HandlerPara) (v : View) : Frame h (h.resizeBlocks cfg v) :=
  ⟨rfl, rfl, rfl, rfl, rfl, rfl⟩

theorem frame_setBlock (h : HandlerPara) (v : View) (block : PBlock) :
    Frame h (h.setBlock v block) := ⟨rfl, rfl, rfl, rfl, rfl, rfl⟩

@[simp] theorem visit_pblocks (h : HandlerPara) (v : View) (seq : Nat) :
    (h.visit v seq).pblocks = h.pblocks := rfl

theorem frame_visit (h : HandlerPara) (v : View) (seq : Nat) : Frame h (h.visit v seq) :=
  ⟨rfl, rfl, rfl, rfl, rfl, rfl⟩

/-- Recording a block in the slot it is accessed by leaves all but the blocks. -/
theorem frame_record (h : HandlerPara) (v : View) (block : PBlock) :
    Frame h ((h.visit v block.seqNumber).setBlock v block) :=
  (frame_visit h v _).trans (frame_setBlock _ v block)

/-- A program that changes nothing but parts of the own state that nothing is known of. -/
def Quiet {α : Type} (program : M α) : Prop :=
  ∀ l : State, program.Gives (fun _ l' => ∃ h, Frame l.node h ∧ l' = { l with node := h })
    (fun l' => ∃ h, Frame l.node h ∧ l' = { l with node := h }) l

/-- A change of such parts is quiet. -/
theorem quiet_modify {f : HandlerPara → HandlerPara} (frame : ∀ h, Frame h (f h)) :
    Quiet (modify f) := fun l => ⟨f l.node, frame l.node, rfl⟩

theorem quiet_pure {α : Type} (a : α) : Quiet (pure a : M α) := fun l => ⟨l.node, .refl _, rfl⟩

theorem quiet_halt {α : Type} : Quiet (Program.halt : M α) := fun l => ⟨l.node, .refl _, rfl⟩

theorem quiet_ofOption {α : Type} (value : Option α) : Quiet (Program.ofOption value) := by
  cases value with
  | some a => exact quiet_pure a
  | none => exact quiet_halt

theorem quiet_this : Quiet (this : M HandlerPara) := fun l => ⟨l.node, .refl _, rfl⟩

/-- Quiet programs in turn are quiet. -/
theorem Quiet.bind {α β : Type} {first : M α} {second : α → M β} (quiet : Quiet first)
    (rest : ∀ a, Quiet (second a)) : Quiet (first >>= second) := by
  intro l
  rw [gives_bind]
  refine (quiet l).mono (fun a l' ⟨h, frame, same⟩ => ?_) fun _ stopped => stopped
  subst same
  refine (rest a _).mono (fun _ l'' ⟨h', frame', same⟩ => ?_) fun l'' ⟨h', frame', same⟩ => ?_
  · exact ⟨h', frame.trans frame', same⟩
  · exact ⟨h', frame.trans frame', same⟩

/-- Nothing that is known of a node depends on where it went outside the blocks of a view. -/
theorem quiet_accessSlot (v : View) (seq : Nat) : Quiet (accessSlot v seq) :=
  quiet_modify fun h => frame_visit h v seq

theorem quiet_strayed {α : Type} (v : View) (seq : Nat) : Quiet (strayed v seq : M α) :=
  (quiet_accessSlot v seq).bind fun _ => quiet_halt

theorem quiet_accessBefore (v : View) (startSeq : Nat) : Quiet (accessBefore v startSeq) := by
  unfold accessBefore
  split
  · exact quiet_accessSlot v _
  · exact quiet_pure ()

theorem quiet_ite {α : Type} {c : Prop} [Decidable c] {first second : M α} (yes : Quiet first)
    (no : Quiet second) : Quiet (if c then first else second) := by
  split
  · exact yes
  · exact no

/-- Taking a value the program leaves open is quiet. -/
theorem quiet_choose : Quiet choose := by
  apply quiet_this.bind
  intro h
  refine Quiet.bind (quiet_modify ?_) fun _ => quiet_pure _
  exact fun h => ⟨rfl, rfl, rfl, rfl, rfl, rfl⟩

/-- Looking for missing blocks is quiet. -/
theorem quiet_getMissingSeqNumbersForJust (just : Just) :
    Quiet (getMissingSeqNumbersForJust just) :=
  (quiet_ofOption _).bind fun _ => (quiet_modify fun h => frame_enterView h _).bind
    fun _ => quiet_this.bind fun _ => quiet_pure _

/-- Filling a block is quiet. -/
theorem quiet_createNewBlockPara (hash : Hash) : Quiet (createNewBlockPara cfg hash) := by
  apply quiet_this.bind
  intro h
  refine Quiet.bind (quiet_modify ?_) fun _ => quiet_pure _
  exact fun h => ⟨rfl, rfl, rfl, rfl, rfl, rfl⟩

/-- Recording recovered blocks is quiet. -/
theorem quiet_recordBlocks (just : Just) (view : View) (blocks : List PBlock)
    (missing : List Nat) : Quiet (recordBlocks cfg just view blocks missing) := by
  -- Induction on the blocks received; each is recorded, ignored, or outside its view.
  induction blocks generalizing missing with
  | nil => exact quiet_pure _
  | cons block rest ih =>
    apply Quiet.bind (quiet_modify ?_)
    · intro _
      apply quiet_this.bind
      intro h
      apply quiet_ite (quiet_strayed _ _)
      apply quiet_ite _ (ih _)
      apply Quiet.bind (quiet_modify fun h => frame_setBlock h view block)
      intro _
      apply Quiet.bind (quiet_getMissingSeqNumbersForJust just)
      intro missing
      exact quiet_ite (quiet_pure _) (ih missing)
    · intro h
      split
      · exact frame_resizeBlocks h view
      · exact .refl h

/-- So is recording them only if they are valid. -/
theorem quiet_recordValid (valid : Bool) (just : Just) (view : View) (blocks : List PBlock)
    (missing : List Nat) : Quiet (recordValid cfg valid just view blocks missing) :=
  quiet_ite (quiet_recordBlocks just view blocks missing) (quiet_pure _)

end Frame

section Operations

@[simp] theorem gives_setTimer {post : Unit → State → Prop} :
    Gives setTimer post stop l ↔ post () { l with node := { l.node with timer := true } } :=
  Iff.rfl

@[simp] theorem gives_storeNvPara {post : Nat → State → Prop} {m : MsgNewViewPara} :
    Gives (storeNvPara m) post stop l ↔ post (l.node.log.storeNvPara m).1
      { l with node := { l.node with log := (l.node.log.storeNvPara m).2 } } := Iff.rfl

@[simp] theorem gives_storePrepPara {post : Nat → State → Prop} {m : MsgPreparePara} :
    Gives (storePrepPara m) post stop l ↔ post (l.node.log.storePrepPara m).1
      { l with node := { l.node with log := (l.node.log.storePrepPara m).2 } } := Iff.rfl

@[simp] theorem gives_storePcPara {post : Nat → State → Prop} {m : MsgPreCommitPara} :
    Gives (storePcPara m) post stop l ↔ post (l.node.log.storePcPara m).1
      { l with node := { l.node with log := (l.node.log.storePcPara m).2 } } := Iff.rfl

@[simp] theorem gives_storeComPara {post : Nat → State → Prop} {m : MsgCommitPara} :
    Gives (storeComPara m) post stop l ↔ post (l.node.log.storeComPara m).1
      { l with node := { l.node with log := (l.node.log.storeComPara m).2 } } := Iff.rfl

@[simp] theorem gives_amCurrentLeader {post : Bool → State → Prop} :
    Gives (amCurrentLeader cfg) post stop l ↔
      post (cfg.amLeaderOf l.node.myid l.node.view) l := Iff.rfl

/-- A statement of the node's phase is signed, noted, and moves the phase on. -/
@[simp] theorem gives_callTEEsignPara {post : Just → State → Prop} :
    Gives callTEEsignPara post stop l ↔
      post (Just.ofRDataPara l.node.tpara.nodeStatement
          [l.node.tpara.signature l.node.tpara.nodeStatement])
        { l with
          node := { l.node with tpara := l.node.tpara.increment_node_phase }
          history := .signed l.node.myid l.node.tpara.nodeStatement :: l.history } := Iff.rfl

/-- The state of a node that has entered a view. -/
def entered (cfg : Config) (h : HandlerPara) (v : View) : HandlerPara :=
  { ({ h with tpara := h.tpara.changeView v, view := v } : HandlerPara).resizeBlocks cfg v with
    lastExecutedSeq := 0
    timer := true }

@[simp] theorem gives_changeView {post : Unit → State → Prop} {v : View} :
    Gives (changeView cfg v) post stop l ↔
      post () { l with node := l.node.entered cfg v } := Iff.rfl

/-- The state of a node that accessed a slot of a view, which the view may not have. -/
def visiting (l : State) (v : View) (seq : Nat) : State := { l with node := l.node.visit v seq }

@[simp] theorem gives_accessSlot {post : Unit → State → Prop} {v : View} {seq : Nat} :
    Gives (accessSlot v seq) post stop l ↔ post () (visiting l v seq) := Iff.rfl

@[simp] theorem gives_strayed {α : Type} {post : α → State → Prop} {v : View} {seq : Nat} :
    Gives (strayed v seq : M α) post stop l ↔ stop (visiting l v seq) := Iff.rfl

/-- Comparing justifications gives a result, defined or not, and is quiet. -/
theorem sameJust_gives {a b : Just} {post : Bool → State → Prop}
    (defined : ∀ same, a.eq? b = some same → post same l)
    (undefined : a.eq? b = none → ∀ same h, Frame l.node h → post same { l with node := h }) :
    (sameJust a b).Gives post stop l := by
  unfold sameJust
  cases compared : a.eq? b with
  | some same => exact defined same compared
  | none => exact undefined compared _ _ ⟨rfl, rfl, rfl, rfl, rfl, rfl⟩

variable [Hashing]

/-- What a leader does with an answer once it has counted its own. -/
def handleAnswer (cfg : Config) (msg : MsgRecoverPara) (valid : Bool) (missing : List Nat) :
    M Unit := do
  let just := Just.ofRDataPara msg.rdata msg.signs
  let missing ← recordValid cfg valid just msg.rdata.justv msg.blocks missing
  if missing.isEmpty then initiateVerifyPara cfg just
  else
    let h ← this
    let responses := (h.recoverResponses.lookup msg.rdata.justv).getD 0 + 1
    modify fun h => { h with
      recoverResponses := h.recoverResponses.insert msg.rdata.justv responses }
    if cfg.qsize ≤ responses then
      let highestContSeqNum := missing.headD 1 - 1
      if 0 < highestContSeqNum then initiateVerifyPara cfg just
      else recoverFromVerified cfg

/-- In its own view a node adopts the justification of an announcement if its component does. -/
def adoptChecked (cfg : Config) (earlier : M Unit) (msg : MsgVerifyPara) (checkHashes : Bool) :
    M Unit := do
  let js ← callTEEVerifyPara cfg (Just.ofRDataPara msg.rdata msg.signs) msg.blockHashes checkHashes
  adopt earlier js msg.blockHashes

/-- An answer is only taken by a leader that still misses blocks. -/
theorem handleRecoverPara_eq (msg : MsgRecoverPara) (l : State) :
    handleRecoverPara cfg msg l
      = (if maxViewsReached cfg l.node then pure ()
        else if !cfg.amLeaderOf l.node.myid l.node.view then pure ()
        else if (l.node.missingSeqNumbers msg.rdata).isEmpty then
          modify fun h => h.enterView msg.rdata.justv
        else do
          modify fun h => h.collecting msg.rdata.justv
          handleAnswer cfg msg (msg.signs.verify cfg.nodes msg.rdata.toString)
            (l.node.missingSeqNumbers msg.rdata) : M Unit) l := by
  have state : (this : M HandlerPara) l = .done l.node l := rfl
  have asked : amCurrentLeader cfg l = .done (cfg.amLeaderOf l.node.myid l.node.view) l := rfl
  have looked : getMissingSeqNumbersForJust (Just.ofRDataPara msg.rdata msg.signs) l
      = .done (l.node.missingSeqNumbers msg.rdata)
        { l with node := l.node.enterView msg.rdata.justv } := by
    rw [← missing_of_blocks (blocksOf_enterView l.node msg.rdata.justv msg.rdata.justv)]
    rfl
  unfold handleRecoverPara
  rw [bind_of_done state]
  by_cases last : maxViewsReached cfg l.node = true
  · rw [if_pos last, if_pos last]
  rw [if_neg last, if_neg last, bind_of_done asked]
  by_cases away : (!cfg.amLeaderOf l.node.myid l.node.view) = true
  · rw [if_pos away, if_pos away]
  rw [if_neg away, if_neg away, bind_of_done looked]
  by_cases none_missing : (l.node.missingSeqNumbers msg.rdata).isEmpty = true
  · rw [if_pos none_missing, if_pos none_missing]
    rfl
  · rw [if_neg none_missing, if_neg none_missing]
    rfl

theorem gives_handleRecoverPara {msg : MsgRecoverPara} {post : Unit → State → Prop} :
    Gives (handleRecoverPara cfg msg) post stop l ↔
      Gives (if maxViewsReached cfg l.node then pure ()
        else if !cfg.amLeaderOf l.node.myid l.node.view then pure ()
        else if (l.node.missingSeqNumbers msg.rdata).isEmpty then
          modify fun h => h.enterView msg.rdata.justv
        else do
          modify fun h => h.collecting msg.rdata.justv
          handleAnswer cfg msg (msg.signs.verify cfg.nodes msg.rdata.toString)
            (l.node.missingSeqNumbers msg.rdata) : M Unit) post stop l := by
  unfold Gives
  rw [handleRecoverPara_eq]

/-- What a call for a vote gives: nothing at all, or a signed statement that is noted. -/
theorem callTEEpreparePara_gives {just : Just} {block : PBlock} {post : Just → State → Prop}
    (stopped : stop l) (refused : post Just.defaultPara l)
    (accepted : ∀ rd, just.getRDataPara = some rd → just.signs.verify cfg.nodes rd.toString = true →
      l.node.tpara.view = rd.propv → rd.phase = PH1_NEWVIEW →
      ∀ r, r = l.node.tpara.blockStatement block.hash rd.justh rd.justv block.seqNumber →
      post (Just.ofRDataPara r [l.node.tpara.signature r])
        { l with
          node := { l.node with tpara := l.node.tpara.increment_block_phase block.hash }
          history := .voted l.node.myid r block :: l.history }) :
    (callTEEpreparePara cfg block just).Gives post stop l := by
  simp only [callTEEpreparePara, gives_bind, gives_this]
  refine gives_ofOption (fun result called => ?_) (fun _ => stopped)
  obtain ⟨out, tpara⟩ := result
  cases answer : out.set with
  | false =>
    obtain ⟨rfl, rfl⟩ := TrustedPara.TEEprepare_unset called answer
    simpa [answer] using refused
  | true =>
    obtain ⟨rd, tagged, verified, here, phase, signed⟩ :=
      TrustedPara.TEEprepare_set called answer
    simp only [TrustedPara.signBlock, Prod.mk.injEq] at signed
    obtain ⟨rfl, rfl⟩ := signed
    exact accepted rd tagged verified here phase _ rfl

/-- What a call with a certificate gives: nothing at all, or a signed statement that is noted. -/
theorem callTEEstorePara_gives {just : Just} {post : Just → State → Prop}
    (stopped : just.getRDataPara = none → stop l) (refused : post Just.defaultPara l)
    (accepted : ∀ cert, just.getRDataPara = some cert → just.signs.length = l.node.tpara.qsize →
      just.signs.verify cfg.nodes cert.toString = true → l.node.tpara.view = cert.propv →
      (cert.phase = PH1_PREPARE ∨ cert.phase = PH1_PRECOMMIT) →
      ∀ tp r, tp = l.node.tpara.record cert l.node.blockAt →
      r = tp.blockStatement cert.proph cert.justh cert.justv cert.seqNumber →
      post (Just.ofRDataPara r [tp.signature r])
        { l with
          node := { l.node with tpara := tp.increment_block_phase cert.proph }
          history := .stored l.node.myid cert just.signs r :: l.history }) :
    (callTEEstorePara cfg just).Gives post stop l := by
  -- Only the tag makes the call throw.
  have throws : l.node.tpara.TEEstore cfg.nodes just l.node.blockAt = none →
      just.getRDataPara = none := by
    intro thrown
    cases tagged : just.getRDataPara with
    | none => rfl
    | some cert =>
      simp only [TrustedPara.TEEstore, tagged] at thrown
      split at thrown <;> cases thrown
  simp only [callTEEstorePara, gives_bind, gives_this]
  refine gives_ofOption (fun result called => ?_) fun thrown => stopped (throws thrown)
  obtain ⟨out, tpara⟩ := result
  cases answer : out.set with
  | false =>
    obtain ⟨rfl, rfl⟩ := TrustedPara.TEEstore_unset called answer
    simpa [answer] using refused
  | true =>
    obtain ⟨cert, tagged, full, verified, here, phase, signed⟩ :=
      TrustedPara.TEEstore_set called answer
    simp only [TrustedPara.signBlock, Prod.mk.injEq] at signed
    obtain ⟨rfl, rfl⟩ := signed
    have noted := accepted cert tagged full verified here phase _ _ rfl rfl
    simpa [tagged] using noted

/-- The state of a node that has voted for a proposal, and sent its vote to the leader. -/
def answering (cfg : Config) (l : State) (just : Just) (block : PBlock) (r : RDataPara) : State where
  node := ({ l.node with tpara := l.node.tpara.increment_block_phase block.hash }.visit
    l.node.view block.seqNumber).setBlock l.node.view block
  sent := l.sent ++ (cfg.keep_from_peers l.node.myid (cfg.getLeaderOf l.node.view)).map
    (⟨·, .prepare ⟨r, [l.node.tpara.signature r]⟩⟩)
  history := .answered l.node.myid r just l.node.verifiedJust l.node.tpara.prefixLockedHash
    l.node.tpara.prefixLockedView :: .voted l.node.myid r block :: l.history

/-- A backup that is asked to vote for a proposal either does nothing, or votes. -/
theorem respondToProposalPara_gives {just : Just} {block : PBlock} {post : Unit → State → Prop}
    (stopped : stop l) (refused : post () l)
    (accepted : ∀ rd, just.getRDataPara = some rd → just.signs.verify cfg.nodes rd.toString = true →
      l.node.tpara.view = rd.propv → rd.phase = PH1_NEWVIEW →
      ∀ r, r = l.node.tpara.blockStatement block.hash rd.justh rd.justv block.seqNumber →
      post () (answering cfg l just block r)) :
    (respondToProposalPara cfg just block).Gives post stop l := by
  unfold respondToProposalPara
  rw [gives_bind]
  refine callTEEpreparePara_gives stopped (by simpa [Just.defaultPara] using refused)
    fun rd tagged verified here phase r signed => ?_
  simp only [Just.set_ofRDataPara, if_true, gives_bind, gives_modify, Just.getRDataPara_ofRDataPara,
    gives_ofOption_some, gives_this, gives_note, gives_multicast]
  exact accepted rd tagged verified here phase r signed

/-- A node once the clients of a slot are answered, if its block is there, and it is marked. -/
def executing (h : HandlerPara) (rdata : RDataPara) : HandlerPara :=
  { h with
    rep_queue :=
      if (h.blockAt rdata.seqNumber).isBlock
          && (h.blockAt rdata.seqNumber).hash == rdata.proph then
        h.rep_queue ++ replyTransactions h.clients (h.blockAt rdata.seqNumber).transactions
      else h.rep_queue
    lastExecutedSeq := rdata.seqNumber
    outside := (h.visit h.view rdata.seqNumber).outside }

theorem frame_executing (h : HandlerPara) (rdata : RDataPara) : Frame h (h.executing rdata) :=
  ⟨rfl, rfl, rfl, rfl, rfl, rfl⟩

/-- The state of a node that has executed a slot. -/
def marking (l : State) (rdata : RDataPara) : State where
  node := l.node.executing rdata
  sent := l.sent
  history := .marked l.node.myid l.node.view rdata (l.node.blockAt rdata.seqNumber)
      l.node.clients.keys (l.node.executing rdata).rep_queue
    :: .executed l.node.myid l.node.view rdata
      (l.node.log.commitsPara.held (l.node.view, rdata.seqNumber)) :: l.history

/-- After the last slot of a view the node leaves it, or stops; after any other one it waits. -/
theorem executeRDataPara_gives {earlier : M Unit} {rdata : RDataPara} {post : Unit → State → Prop}
    (ends : rdata.seqNumber = cfg.maxBlocksInView → stop (marking l rdata))
    (last : rdata.seqNumber = cfg.maxBlocksInView →
      (startNewViewPara cfg earlier).Gives post stop (marking l rdata))
    (waits : rdata.seqNumber ≠ cfg.maxBlocksInView → post () (marking l rdata)) :
    (executeRDataPara cfg earlier rdata).Gives post stop l := by
  -- What follows the answers to the clients does so from the marked state.
  have rest : Gives (do
      modify fun h => { h with lastExecutedSeq := rdata.seqNumber }
      let after ← this
      note (.marked l.node.myid l.node.view rdata (after.blockAt rdata.seqNumber) after.clients.keys
        after.rep_queue)
      if cfg.timeToStop l.node.view && rdata.seqNumber == cfg.maxBlocksInView then Program.halt
      else if rdata.seqNumber == cfg.maxBlocksInView then startNewViewPara cfg earlier)
      post stop { l with
        node := { l.node with
          rep_queue := (l.node.executing rdata).rep_queue
          outside := (l.node.visit l.node.view rdata.seqNumber).outside }
        history := .executed l.node.myid l.node.view rdata
          (l.node.log.commitsPara.held (l.node.view, rdata.seqNumber)) :: l.history } := by
    rw [gives_bind, gives_modify, gives_bind, gives_this, gives_bind, gives_note]
    refine gives_ite (fun stops => ?_) fun _ => gives_ite (fun full => ?_) fun more => ?_
    · exact ends (beq_iff_eq.1 (Bool.and_eq_true_iff.1 stops).2)
    · exact last (beq_iff_eq.1 full)
    · exact waits (by simpa using more)
  unfold executeRDataPara replyHashPara
  rw [gives_bind, gives_this, gives_bind, gives_note, gives_bind, gives_bind, gives_this, gives_bind,
    gives_accessSlot]
  refine gives_ite (fun held => ?_) fun missing => ?_
  · have queue : (l.node.executing rdata).rep_queue = l.node.rep_queue
        ++ replyTransactions l.node.clients (l.node.blockAt rdata.seqNumber).transactions :=
      if_pos held
    rw [gives_modify]
    rw [queue] at rest
    exact rest
  · have queue : (l.node.executing rdata).rep_queue = l.node.rep_queue := if_neg missing
    rw [queue] at rest
    exact rest

omit [Hashing] in
/-- What checking a leader's justification gives: refusal, or the justification itself. -/
theorem callTEEVerifyPara_gives {rd : RDataPara} {signs : Signs} {blockHashes : List Hash}
    {checkHashes : Bool} {post : Just → State → Prop} (stopped : stop l)
    (refused : post Just.defaultPara l)
    (accepted : signs.verify cfg.nodes rd.toString = true → l.node.tpara.view = rd.propv →
      (checkHashes = true → rd.justv = 0
        ∨ (∃ h ∈ blockHashes, h.hash = l.node.tpara.prefixLockedHash.hash)
        ∨ l.node.tpara.prefixLockedView < rd.justv) →
      post (Just.ofRDataPara rd signs) l) :
    (callTEEVerifyPara cfg (Just.ofRDataPara rd signs) blockHashes checkHashes).Gives
      post stop l := by
  simp only [callTEEVerifyPara, gives_bind, gives_this]
  refine gives_ofOption (fun out called => ?_) (fun _ => stopped)
  cases answer : out.set with
  | false =>
    have same : out = Just.defaultPara := by
      simp only [TrustedPara.TEEverifyLeaderQC, Just.getRDataPara_ofRDataPara] at called
      split at called
      · obtain rfl := Option.some.inj called
        simp at answer
      · exact (Option.some.inj called).symm
    rw [same]
    exact refused
  | true =>
    obtain ⟨rd', tagged, rfl, verified, here, phase, safe⟩ :=
      TrustedPara.TEEverifyLeaderQC_set called answer
    obtain rfl : rd = rd' := by simpa using tagged
    exact accepted verified here safe

end Operations

section Framed

variable {K : Knowledge HandlerPara MsgPara ParaEvent} {p : PID} {start : List ParaEvent}

/-- Knowledge of a node that depends on its frame only. -/
def Framed (K : Knowledge HandlerPara MsgPara ParaEvent) : Prop :=
  ∀ {p h h' H}, Frame h h' → K.own p h H → K.own p h' H

/-- What is known outlives a quiet program. -/
theorem Quiet.gives {α : Type} {program : M α} (quiet : Quiet program) (framed : Framed K)
    (inside : K.Inside p start l) {post : α → State → Prop}
    (rest : ∀ a h, Frame l.node h → K.Inside p start { l with node := h } →
      post a { l with node := h }) :
    program.Gives post (K.Left p start) l := by
  refine (quiet l).mono (fun a l' ⟨h, frame, same⟩ => ?_) fun l' ⟨h, frame, same⟩ => ?_
  · rw [same]
    exact rest a h frame (inside.node (framed frame inside.own))
  · rw [same]
    exact { inside.toLeft with }

end Framed

end HandlerPara

end ParaHotstuff
