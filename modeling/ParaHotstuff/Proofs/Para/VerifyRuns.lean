import ParaHotstuff.Proofs.Para.Recovery
import ParaHotstuff.Proofs.Para.SlotRuns

/-! Which announcements of leaders can be verified, in runs whose nodes all follow the protocol. -/

namespace ParaHotstuff

namespace HandlerPara

open Program Local

variable {cfg : Config} {l : State} {msg : MsgRecoverPara}

section Recording

/-- A slot holds a block after merging exactly if it did before, or some block came for it. -/
theorem isBlock_merged {held received : List PBlock} {i : Nat} (slot : 0 < i) :
    (merged held received i).isBlock
      = ((inSlot held i).isBlock || received.any (·.seqNumber == i)) := by
  unfold merged
  by_cases filled : (inSlot held i).isBlock = true
  · rw [if_pos filled, filled, Bool.true_or]
  · rw [if_neg filled]
    rw [Bool.not_eq_true] at filled
    cases found : received.find? (·.seqNumber == i) with
    | none =>
      -- No block came for the slot, which stays as it was.
      rw [Option.getD_none, filled, Bool.false_or]
      rw [List.find?_eq_none] at found
      symm
      rw [List.any_eq_false]
      exact found
    | some block =>
      have number : block.seqNumber = i := by simpa using List.find?_some found
      have member := List.mem_of_find?_eq_some found
      have came : received.any (·.seqNumber == i) = true :=
        List.any_eq_true.2 ⟨block, member, by rw [number]; exact beq_self_eq_true i⟩
      rw [Option.getD_some, came, Bool.or_true]
      simp [PBlock.isBlock, number, Nat.ne_of_gt slot]

/-- After recording an answer the slots are missing that were before, and that it does not fill. -/
theorem recordValid_left (cfg : Config) (l : State) {missing : List Nat}
    (current : missing = l.node.missingSeqNumbers msg.rdata) :
    (recordValid cfg (msg.signs.verify cfg.nodes msg.rdata.toString)
        (Just.ofRDataPara msg.rdata msg.signs) msg.rdata.justv msg.blocks missing).Gives
      (fun left _ => left = (l.node.missingSeqNumbers msg.rdata).filter
        fun i => !Slots.fills cfg msg i)
      (fun _ => True) l := by
  refine gives_ite (fun valid => ?_) fun refused => ?_
  · have merges := recordBlocks_merges cfg l
      (Just.getRDataPara_ofRDataPara msg.rdata msg.signs) msg.blocks current
    refine merges.mono (fun left l' ⟨missing, now⟩ => ?_) fun _ _ => trivial
    rw [missing]
    unfold missingSeqNumbers
    rw [List.filter_filter]
    refine List.filter_congr fun i listed => ?_
    obtain ⟨slot, upTo⟩ : 0 < i ∧ i ≤ msg.rdata.seqNumber := by
      rw [List.mem_range'_1] at listed
      omega
    -- Slot by slot, a block is held afterwards if it was before or came with the answer.
    have block := congrArg PBlock.isBlock (now i slot upTo)
    rw [isBlock_merged slot] at block
    unfold inSlot at block
    rw [block, Slots.fills, valid, Bool.true_and, Bool.not_or, Bool.and_comm]
  · -- An invalid answer fills no slot.
    rw [Bool.not_eq_true] at refused
    rw [gives_pure, current]
    symm
    rw [List.filter_eq_self]
    intro i _
    simp [Slots.fills, refused]

end Recording

section Resuming

variable [Hashing] {K : State → Prop} {Received : MsgPara → Prop} {Usable : View → Just → Prop}
variable {Bounded Sorted : Prop}

omit [Hashing] in
/-- Whether the first slot is still missing after an answer, so that a leader gives up on it. -/
def fallsBack (cfg : Config) (h : HandlerPara) (msg : MsgRecoverPara) : Bool :=
  (h.missingSeqNumbers msg.rdata).contains 1 && !Slots.fills cfg msg 1

omit [Hashing] in
/-- What is left missing, in order, begins with the first slot exactly if that is missing. -/
theorem head_left {left : List Nat} (sorted : left.Pairwise (· < ·))
    (positive : ∀ i ∈ left, 0 < i) (some_left : left ≠ []) :
    1 ∈ left ↔ ¬ 0 < left.headD 1 - 1 := by
  cases left with
  | nil => exact absurd rfl some_left
  | cons i rest =>
    have first := positive i List.mem_cons_self
    rw [List.headD_cons]
    constructor
    · intro member
      rcases List.mem_cons.1 member with same | later
      · omega
      · -- No slot of the rest comes before the head.
        have before := List.rel_of_pairwise_cons sorted later
        omega
    · intro least
      obtain rfl : i = 1 := by omega
      exact List.mem_cons_self

/-- What makes a leader resume, once some blocks are missing and it counted its own answer. -/
def Resumed (cfg : Config) (h : HandlerPara) (msg : MsgRecoverPara) : Prop :=
  (h.missingSeqNumbers msg.rdata).filter (fun i => !Slots.fills cfg msg i) = []
    ∨ (cfg.qsize ≤ (h.recoverResponses.lookup msg.rdata.justv).getD 1 + 1
      ∧ (fallsBack cfg h msg = true →
        h.verifiedJust.getRDataPara.map (·.propv) = some ((h.view + wordSize - 1) % wordSize)))

omit [Hashing] in
/-- A running leader resumes then. -/
theorem resumed_resumes (running : ¬ maxViewsReached cfg l.node = true)
    (leader : cfg.amLeaderOf l.node.myid l.node.view = true)
    (some_missing : ¬ (l.node.missingSeqNumbers msg.rdata).isEmpty = true)
    (resumed : Resumed cfg l.node msg) : Slots.resumes cfg l.node msg = true := by
  rw [Bool.not_eq_true] at running some_missing
  simp only [Slots.resumes, running, leader, some_missing, Bool.not_false, Bool.true_and,
    Bool.or_eq_true, List.all_eq_true, Bool.and_eq_true, decide_eq_true_eq, beq_iff_eq]
  rcases resumed with nothing | ⟨enough, before⟩
  · left
    intro i missing
    have kept := List.filter_eq_nil_iff.1 nothing i missing
    simpa using kept
  · refine .inr ⟨enough, ?_⟩
    by_cases first : fallsBack cfg l.node msg = true
    · exact .inr (before first)
    · left
      rw [fallsBack, Bool.not_eq_true, Bool.and_eq_false_iff] at first
      rcases first with unlisted | filled
      · exact .inl (by rw [unlisted]; rfl)
      · exact .inr (by simpa using filled)

/-- After its own answer was counted, a leader handles the blocks of an answer. -/
theorem Closed.afterAnswer (closed : Closed cfg K Received Usable Bounded Sorted) {h : HandlerPara}
    (kept : (recordValid cfg (msg.signs.verify cfg.nodes msg.rdata.toString)
      (Just.ofRDataPara msg.rdata msg.signs) msg.rdata.justv msg.blocks
      (l.node.missingSeqNumbers msg.rdata)).Gives (fun _ => Leading cfg K) (Leading cfg K)
      { l with node := h })
    (frame : Frame l.node h)
    (responses : (h.recoverResponses.lookup msg.rdata.justv).getD 0
      = (l.node.recoverResponses.lookup msg.rdata.justv).getD 1)
    (current : l.node.missingSeqNumbers msg.rdata = h.missingSeqNumbers msg.rdata)
    (proceeds : Resumed cfg l.node msg → fallsBack cfg l.node msg = false →
      Usable l.node.view (Just.ofRDataPara msg.rdata msg.signs))
    (falls : Resumed cfg l.node msg → fallsBack cfg l.node msg = true →
      ∀ verified, l.node.verifiedJust.getRDataPara = some verified →
      Usable l.node.view (Just.ofRDataPara ⟨Hash.default, l.node.view, verified.justh,
        verified.justv, verified.phase, verified.seqNumber⟩ l.node.verifiedJust.signs)) :
    (handleAnswer cfg msg (msg.signs.verify cfg.nodes msg.rdata.toString)
      (l.node.missingSeqNumbers msg.rdata)).Gives
      (fun _ => K) K { l with node := h } := by
  -- Everything that leads on works with a usable justification in the view of the leader.
  have verifying : ∀ l' : State, Leading cfg K l' → l'.node.view = l.node.view →
      Usable l.node.view (Just.ofRDataPara msg.rdata msg.signs) →
      (initiateVerifyPara cfg (Just.ofRDataPara msg.rdata msg.signs)).Gives (fun _ => K) K l' := by
    intro l' leading' view usable
    have usable' : Usable l'.node.view (Just.ofRDataPara msg.rdata msg.signs) := by
      rw [view]
      exact usable
    exact gives_of_leading (closed.initiateVerifyPara_leading leading' usable')
  -- Recording leaves the frame of the node and its answers, and misses what is not filled.
  have quiet : Quiet (recordValid cfg (msg.signs.verify cfg.nodes msg.rdata.toString)
      (Just.ofRDataPara msg.rdata msg.signs) msg.rdata.justv msg.blocks
      (l.node.missingSeqNumbers msg.rdata)) := quiet_recordValid _ _ _ _ _
  have recorded := @Slots.recordValid_gives cfg { l with node := h } _ _ msg.rdata.justv msg.blocks
    _ (msg.signs.verify cfg.nodes msg.rdata.toString)
    (Just.getRDataPara_ofRDataPara msg.rdata msg.signs)
    (@Slots.sorted_missingSeqNumbers l.node msg.rdata)
  have leaves := recordValid_left cfg { l with node := h } current
  unfold handleAnswer
  rw [gives_bind]
  refine ((kept.and (quiet _)).and (recorded.and leaves)).mono ?_ fun _ ⟨⟨left, _⟩, _⟩ => left.1
  rintro left l' ⟨⟨leading', h', frame', rfl⟩, recorded', rest⟩
  have view : h'.view = l.node.view := frame'.view.trans frame.view
  have rest : left = (l.node.missingSeqNumbers msg.rdata).filter
      fun i => !Slots.fills cfg msg i := rest.trans (by rw [current])
  have first_left : 1 ∈ left ↔ fallsBack cfg l.node msg = true := by
    rw [rest, List.mem_filter, fallsBack, Bool.and_eq_true, List.contains_iff_mem]
  refine gives_ite (fun none_left => ?_) fun some_left => ?_
  · -- Nothing is missing any more.
    rw [List.isEmpty_iff] at none_left
    have resumed : Resumed cfg l.node msg := .inl (rest.symm.trans none_left)
    have proceeding : fallsBack cfg l.node msg = false := by
      rw [Bool.eq_false_iff]
      intro first
      have member := first_left.2 first
      rw [none_left] at member
      cases member
    exact verifying _ leading' view (proceeds resumed proceeding)
  · have counting : Keeps (Leading cfg K) (modify fun h => { h with
        recoverResponses := h.recoverResponses.insert msg.rdata.justv
          ((h'.recoverResponses.lookup msg.rdata.justv).getD 0 + 1) }) :=
      closed.still_leading fun h => ⟨rfl, rfl, rfl, rfl, rfl, rfl, rfl, rfl, rfl⟩
    have leading₂ := counting _ leading'
    rw [gives_modify] at leading₂
    rw [gives_bind, gives_this, gives_bind, gives_modify]
    have answers : (h'.recoverResponses.lookup msg.rdata.justv).getD 0 + 1
        = (l.node.recoverResponses.lookup msg.rdata.justv).getD 1 + 1 := by
      rw [show h'.recoverResponses = h.recoverResponses from recorded'.responses, responses]
    have positive : ∀ i ∈ left, 0 < i := by
      intro i member
      rw [rest] at member
      exact (missing_iff.1 (List.mem_of_mem_filter member)).1.1
    have sorted : left.Pairwise (· < ·) := recorded'.sorted
    rw [List.isEmpty_iff] at some_left
    have heads := head_left sorted positive some_left
    refine gives_ite (fun enough => ?_) fun _ => leading₂.1
    rw [answers] at enough
    refine gives_ite (fun beyond => ?_) fun first => ?_
    · -- The slots before the first missing one are all there.
      have proceeding : fallsBack cfg l.node msg = false := by
        rw [Bool.eq_false_iff]
        exact fun falls => heads.1 (first_left.2 falls) beyond
      have resumed : Resumed cfg l.node msg :=
        .inr ⟨enough, fun falls => absurd falls (by rw [proceeding]; decide)⟩
      exact verifying _ leading₂ view (proceeds resumed proceeding)
    · -- The first slot is missing, so the leader falls back if it can.
      have falling := first_left.1 (heads.2 first)
      have given := closed.recoverFromVerified_leading leading₂ fun verified tagged before => by
        have tagged : l.node.verifiedJust.getRDataPara = some verified := by
          rw [← frame.verifiedJust, ← frame'.verifiedJust]
          exact tagged
        have before : verified.propv = (l.node.view + wordSize - 1) % wordSize := by
          rw [← view]
          exact before
        have resumed : Resumed cfg l.node msg := .inr ⟨enough, fun _ => by
          rw [tagged, Option.map_some, before]⟩
        have usable := falls resumed falling verified tagged
        have same : h'.verifiedJust = l.node.verifiedJust :=
          frame'.verifiedJust.trans frame.verifiedJust
        rw [← view, ← same] at usable
        exact usable
      exact gives_of_leading given

/--
A leader that handles an answer keeps what all effects of its handlers keep, if it resumes on
usable justifications only: that of the answer, or the rewritten one when it falls back.
-/
theorem Closed.handleRecoverPara_resuming (closed : Closed cfg K Received Usable Bounded Sorted)
    (held : K l)
    (records : maxViewsReached cfg l.node = false → l.node.missingSeqNumbers msg.rdata ≠ [] →
      Leading cfg K { l with node := l.node.collecting msg.rdata.justv } →
      (recordValid cfg (msg.signs.verify cfg.nodes msg.rdata.toString)
        (Just.ofRDataPara msg.rdata msg.signs) msg.rdata.justv msg.blocks
        (l.node.missingSeqNumbers msg.rdata)).Gives (fun _ => Leading cfg K) (Leading cfg K)
        { l with node := l.node.collecting msg.rdata.justv })
    (proceeds : Slots.resumes cfg l.node msg = true → fallsBack cfg l.node msg = false →
      Usable l.node.view (Just.ofRDataPara msg.rdata msg.signs))
    (falls : Slots.resumes cfg l.node msg = true → fallsBack cfg l.node msg = true →
      ∀ verified, l.node.verifiedJust.getRDataPara = some verified →
      Usable l.node.view (Just.ofRDataPara ⟨Hash.default, l.node.view, verified.justh,
        verified.justv, verified.phase, verified.seqNumber⟩ l.node.verifiedJust.signs)) :
    (handleRecoverPara cfg msg).Gives (fun _ => K) K l := by
  rw [gives_handleRecoverPara]
  refine gives_ite (fun _ => held) fun running => gives_ite (fun _ => held) fun leader => ?_
  rw [Bool.not_eq_true', Bool.not_eq_false] at leader
  have leads : Leads cfg l.node := Config.amLeaderOf_iff.1 leader
  have looked : K { l with node := l.node.enterView msg.rdata.justv } := closed.looks _ held
  refine gives_ite (fun _ => looked) fun some_missing => ?_
  -- Its own answer is counted first, which changes nothing else.
  have frame := frame_collecting l.node msg.rdata.justv
  have leading : Leading cfg K { l with node := l.node.collecting msg.rdata.justv } :=
    closed.collects_leading _ l ⟨held, leads⟩
  have current : l.node.missingSeqNumbers msg.rdata
      = (l.node.collecting msg.rdata.justv).missingSeqNumbers msg.rdata :=
    (missing_of_blocks (blocksOf_collecting l.node msg.rdata.justv msg.rdata.justv)).symm
  rw [gives_bind, gives_modify]
  have some_slots : l.node.missingSeqNumbers msg.rdata ≠ [] := by simpa using some_missing
  exact closed.afterAnswer (records (by simpa using running) some_slots leading) frame
    (responses_collecting _ _) current
    (fun resumed => proceeds (resumed_resumes running leader some_missing resumed))
    fun resumed => falls (resumed_resumes running leader some_missing resumed)

end Resuming

namespace Verifiable

section Knowledge

variable (cfg : Config)

/-- Reports and requests carry signatures that verify, and announcements one for their view. -/
def Good (packet : Packet MsgPara) (H : List ParaEvent) : Prop :=
  match packet.msg with
  | .newView m => m.signs.verify cfg.nodes m.rdata.toString = true
  | .ldrRecover m => m.signs.verify cfg.nodes m.rdata.toString = true
  | .recover m => m.signs.verify cfg.nodes m.rdata.toString = true
  | .verify m => m.signs.verify cfg.nodes m.rdata.toString = true
    ∧ .prepared (cfg.getLeaderOf m.rdata.propv) m.rdata.propv m.rdata ∈ H
  | _ => True

/-- Leaders begin to propose in views they lead, on justifications of these views. -/
def Facts (H : List ParaEvent) : Prop :=
  ∀ {p v r}, ParaEvent.prepared p v r ∈ H → r.propv = v ∧ cfg.getLeaderOf v = p

/-- What is known of a node: it signs with its own key, and the reports it holds verify. -/
structure Own (p : PID) (h : HandlerPara) : Prop where
  myid : h.myid = p
  known : p < cfg.total
  id : h.tpara.id = p
  priv : h.tpara.priv = p
  newviews : ∀ {v m}, m ∈ h.log.newviewsPara.held v →
    m.rdata.propv = v ∧ m.signs.verify cfg.nodes m.rdata.toString = true

/-- The knowledge of runs in which announcements verify. -/
def knowledge : Knowledge HandlerPara MsgPara ParaEvent where
  actor := ParaEvent.actor
  own := fun p h _ => Own cfg p h
  facts := Facts cfg
  good := Good cfg

end Knowledge

variable {cfg : Config} {p : PID} {start : List ParaEvent} {l : State} {H : List ParaEvent}

theorem Good.mono {packet : Packet MsgPara} (good : Good cfg packet H) (added : List ParaEvent) :
    Good cfg packet (added ++ H) := by
  obtain ⟨d, msg⟩ := packet
  cases msg with
  | verify m => exact ⟨good.1, List.mem_append_right _ good.2⟩
  | _ => exact good

theorem stable : (knowledge cfg).Stable where
  own := fun own _ _ => own
  good := Good.mono

/-- A report that a node signs itself verifies. -/
theorem Own.signed {h : HandlerPara} (own : Own cfg p h) (r : RDataPara) :
    Signs.verify cfg.nodes r.toString [h.tpara.signature r] = true := by
  -- All nodes are known with their keys.
  rw [Signs.verify_iff]
  intro s member
  rw [List.mem_singleton] at member
  subst member
  refine ⟨⟨p, p⟩, ?_, ?_⟩
  · rw [TrustedPara.signature, Sign.ofText, own.id]
    exact Nodes.find_upTo_of_lt own.known
  · rw [TrustedPara.signature, Sign.ofText, own.priv]

/-- A node may move on, and note any event but that it begins to propose. -/
theorem noted (inside : (knowledge cfg).Inside p start l) {e : ParaEvent} {h : HandlerPara}
    (mine : e.actor = l.node.myid) (other : ∀ p v r, e ≠ .prepared p v r) (own : Own cfg p h) :
    (knowledge cfg).Inside p start { l with node := h, history := e :: l.history } := by
  have before : Own cfg p l.node := inside.own
  have facts : Facts cfg (e :: l.history) := by
    intro q v r member
    rcases List.mem_cons.1 member with same | old
    · exact absurd same.symm (other q v r)
    · exact inside.facts old
  exact inside.event stable (mine.trans before.myid) facts own

/-- A node may execute a slot. -/
theorem marked [Hashing] (inside : (knowledge cfg).Inside p start l) (rdata : RDataPara) :
    (knowledge cfg).Inside p start (marking l rdata) := by
  have own : Own cfg p l.node := inside.own
  have executed := noted (e := .executed l.node.myid l.node.view rdata
    (l.node.log.commitsPara.held (l.node.view, rdata.seqNumber))) inside rfl
    (fun _ _ _ other => by cases other) own
  exact noted (e := .marked l.node.myid l.node.view rdata (l.node.blockAt rdata.seqNumber)
    l.node.clients.keys (l.node.executing rdata).rep_queue) (h := l.node.executing rdata) executed
    rfl (fun _ _ _ other => by cases other) { own with }

/-- What a node receives: reports and requests whose signatures verify. -/
def Received (cfg : Config) : MsgPara → Prop
  | .newView m => m.signs.verify cfg.nodes m.rdata.toString = true
  | .ldrRecover m => m.signs.verify cfg.nodes m.rdata.toString = true
  | _ => True

/-- A justification of a view whose signatures verify. -/
def Usable (cfg : Config) (v : View) (just : Just) : Prop :=
  ∃ rd, just.getRDataPara = some rd ∧ rd.propv = v
    ∧ just.signs.verify cfg.nodes rd.toString = true

/-- A node may store a report that verifies. -/
theorem Own.storeNvPara {h : HandlerPara} (own : Own cfg p h) {m : MsgNewViewPara}
    (verified : m.signs.verify cfg.nodes m.rdata.toString = true) :
    Own cfg p { h with log := (h.log.storeNvPara m).2 } :=
  { own with
    newviews := fun member => by
      rcases Messages.mem_store member with old | ⟨rfl, rfl⟩
      · exact own.newviews old
      · exact ⟨rfl, verified⟩ }

variable [Hashing]

omit [Hashing] in
/-- The reports that a node signs verify, and entering a view changes nothing that is known. -/
theorem signing (p : PID) (start : List ParaEvent) :
    Signing cfg ((knowledge cfg).Inside p start) (Received cfg) False where
  note := fun {l e} inside progress mine => by
    refine noted inside mine (fun q v r same => ?_) inside.own
    rw [same] at progress
    cases progress
  begin := fun {l} inside => by
    have own : Own cfg p l.node := inside.own
    exact inside.node { own with }
  sign := fun {l} inside => by
    have own : Own cfg p l.node := inside.own
    have id' : l.node.tpara.increment_node_phase.id = l.node.tpara.id := by
      unfold TrustedPara.increment_node_phase TrustedPara.increment_view
      repeat' split
      all_goals rfl
    have priv' : l.node.tpara.increment_node_phase.priv = l.node.tpara.priv := by
      unfold TrustedPara.increment_node_phase TrustedPara.increment_view
      repeat' split
      all_goals rfl
    exact noted inside rfl (fun _ _ _ other => by cases other)
      { own with
        id := id'.trans own.id
        priv := priv'.trans own.priv }
  signed := fun {l} inside => by
    have own : Own cfg p l.node := inside.own
    exact own.signed _
  counted := fun impossible _ => impossible.elim
  change := fun {l} v inside _ => by
    have own : Own cfg p l.node := inside.own
    exact inside.node { own with }

omit [Hashing] in
/-- Nothing that is known depends on the slots that a node accesses. -/
theorem visited (p : PID) (start : List ParaEvent) (v : View) (seq : Nat)
    (inside : (knowledge cfg).Inside p start l) :
    (knowledge cfg).Inside p start (visiting l v seq) := by
  have own : Own cfg p l.node := inside.own
  exact inside.node { own with }

/-- All effects of handlers keep what is known, if leaders build on usable justifications only. -/
theorem closed (positive : 0 < cfg.qsize) (p : PID) (start : List ParaEvent) :
    Closed cfg ((knowledge cfg).Inside p start) (Received cfg) (Usable cfg) False False where
  still := fun {l h} inside still => by
    have own : Own cfg p l.node := inside.own
    exact inside.node
      { myid := still.myid.trans own.myid
        known := own.known
        id := by rw [still.tpara]; exact own.id
        priv := by rw [still.tpara]; exact own.priv
        newviews := by rw [still.log]; exact own.newviews }
  looks := fun {l} v inside => by
    have own : Own cfg p l.node := inside.own
    have frame := frame_enterView l.node v
    exact inside.node
      { myid := frame.myid.trans own.myid
        known := own.known
        id := by rw [frame.tpara]; exact own.id
        priv := by rw [frame.tpara]; exact own.priv
        newviews := by rw [frame.log]; exact own.newviews }
  visits := fun inside _ => visited p start _ _ inside
  blocks := fun {l h} inside _ filed => by
    obtain ⟨pblocks, rfl⟩ := filed.blocks_only
    have own : Own cfg p l.node := inside.own
    exact inside.node { own with }
  votes := fun {l log} inside voted => by
    have own : Own cfg p l.node := inside.own
    exact inside.node
      { own with newviews := by rw [voted.same.newviewsPara]; exact own.newviews }
  commits := fun {l m} inside _ => by
    have own : Own cfg p l.node := inside.own
    exact inside.node { own with }
  storeNv := fun {l msg} inside known => by
    have own : Own cfg p l.node := inside.own
    exact inside.node (own.storeNvPara known)
  storeProp := fun {l msg count log} inside _ stored => by
    have own : Own cfg p l.node := inside.own
    unfold LogPara.storePropPara at stored
    split at stored
    · cases stored
    · obtain ⟨-, rfl⟩ := Prod.mk.inj (Option.some.inj stored)
      exact inside.node { own with }
  storeVerify := fun {l msg} inside _ => by
    have own : Own cfg p l.node := inside.own
    exact inside.node { own with }
  proposals := fun _ _ _ _ => trivial
  verifies := fun _ _ => trivial
  reports := fun {l v m} inside member => by
    have own : Own cfg p l.node := inside.own
    obtain ⟨view, verified⟩ := own.newviews member
    exact ⟨m.rdata, Just.getRDataPara_ofRDataPara _ _, view, verified⟩
  noReports := fun v none_needed => absurd none_needed (Nat.ne_of_gt positive)
  sorted := fun impossible _ => impossible.elim
  small := fun impossible _ => impossible.elim
  smallVerify := fun impossible _ => impossible.elim
  sendVote := fun {l msg} recipients inside vote => by
    refine inside.send msg recipients fun d _ => ?_
    cases msg with
    | ldrPrepare m => trivial
    | prepare m => trivial
    | preCommit m => trivial
    | _ => cases vote
  sendCommit := fun {l m recipients} inside _ => inside.send (.commit m) recipients fun _ _ => trivial
  sendReport := fun recipients inside known => inside.send _ recipients fun _ _ => known
  sendBlocks := fun _ recipients inside known => inside.send _ recipients fun _ _ => known
  request := fun {l just rdata} missing recipients inside _ usable tagged => by
    have own : Own cfg p l.node := inside.own
    obtain ⟨rd, tagged', -, verified⟩ := usable
    obtain rfl := Option.some.inj (tagged.symm.trans tagged')
    have asked := noted (e := .recovering l.node.myid rdata) inside rfl
      (fun _ _ _ other => by cases other) own
    exact asked.send (.ldrRecover ⟨rdata, just.signs, missing⟩) recipients fun _ _ => verified
  announce := fun {l just rdata} hashes recipients inside leads usable tagged => by
    have own : Own cfg p l.node := inside.own
    obtain ⟨rd, tagged', view, verified⟩ := usable
    obtain rfl := Option.some.inj (tagged.symm.trans tagged')
    -- The leader begins to propose in the view of its justification, which it leads.
    have facts : Facts cfg (.prepared l.node.myid l.node.view rdata :: l.history) := by
      intro q v r member
      rcases List.mem_cons.1 member with same | old
      · cases same
        exact ⟨view, leads⟩
      · exact inside.facts old
    have begun := @Knowledge.Inside.event _ _ _ _ p start l stable inside
      (.prepared l.node.myid l.node.view rdata) l.node own.myid facts own
    refine begun.send (.verify ⟨rdata, just.signs, hashes⟩) recipients fun _ _ => ⟨verified, ?_⟩
    dsimp only
    rw [view, leads]
    exact List.mem_cons_self
  note := (signing p start).notes
  execute := fun inside _ _ _ _ => marked inside _
  leaves := (signing p start).leaves
  catches := (signing p start).catches
  starts := fun held _ => (signing p start).starts held
  propose := fun {l block just rd r} inside _ _ _ _ _ _ => by
    have own : Own cfg p l.node := inside.own
    exact noted inside rfl (fun _ _ _ other => by cases other) { own with }
  store := fun {l just cert out tpara r} inside called set _ _ _ => by
    have own : Own cfg p l.node := inside.own
    obtain ⟨rd, -, -, -, -, -, signed⟩ := TrustedPara.TEEstore_set called set
    obtain ⟨-, rfl⟩ := Prod.mk.inj signed
    exact noted inside rfl (fun _ _ _ other => by cases other)
      { own with
        id := by simpa [TrustedPara.increment_block_phase] using own.id
        priv := by simpa [TrustedPara.increment_block_phase] using own.priv }
  respond := fun {l msg rd r} inside _ _ _ _ _ _ _ _ _ _ _ => by
    have own : Own cfg p l.node := inside.own
    -- The vote and the answer are noted, and the vote goes to the leader.
    have voted := noted (e := .voted l.node.myid r msg.prop.block)
      (h := { l.node with tpara := l.node.tpara.increment_block_phase msg.prop.block.hash }) inside
      rfl (fun _ _ _ other => by cases other) { own with }
    have answered := noted (h := HandlerPara.setBlock (HandlerPara.visit { l.node with
        tpara := l.node.tpara.increment_block_phase msg.prop.block.hash } l.node.view
        msg.prop.block.seqNumber) l.node.view msg.prop.block)
      (e := .answered l.node.myid r msg.prop.just l.node.verifiedJust
        l.node.tpara.prefixLockedHash l.node.tpara.prefixLockedView) voted rfl
      (fun _ _ _ other => by cases other) { own with }
    exact answered.send (.prepare ⟨r, [l.node.tpara.signature r]⟩) _ fun _ _ => trivial
  adopts := fun {l m _} inside _ _ _ _ _ _ => by
    have own : Own cfg p l.node := inside.own
    exact noted inside rfl (fun _ _ _ other => by cases other) { own with }
  change := fun v inside later small =>
    (signing p start).change v inside fun bounded => ⟨later, small bounded⟩

section Runs

omit [Hashing] in
/--
Whether an answer to a request, if a leader goes on with it, gives it a justification to build on.

The answer is to a request of the view the leader is in; and if the leader gives up on the recovery,
the justification it verified last carries no signatures.
-/
def answersUsable (cfg : Config) (net : Net HandlerPara MsgPara ParaEvent) : Action Input → Bool
  | .deliver index =>
    match net.sent[index]? with
    | some ⟨p, .recover msg⟩ =>
      let h := net.nodes p
      net.stopped p || !Slots.resumes cfg h msg
        || (if fallsBack cfg h msg then h.verifiedJust.signs.isEmpty
          else msg.rdata.propv == h.view)
    | _ => true
  | .input _ _ => true

/-- Every reaction to a message keeps what is known, if answers are usable. -/
theorem receive_safe (positive : 0 < cfg.qsize) (depth : Nat)
    {net : Net HandlerPara MsgPara ParaEvent} {index : Nat} {msg : MsgPara}
    (usable : answersUsable cfg net (.deliver index) = true)
    (sent : net.sent[index]? = some ⟨p, msg⟩) (running : net.stopped p = false)
    (good : Good cfg ⟨p, msg⟩ net.history)
    (inside : (knowledge cfg).Inside p net.history ⟨net.nodes p, net.sent, net.history⟩) :
    (knowledge cfg).Safe p net.history ((protocol cfg depth).receive msg)
      ⟨net.nodes p, net.sent, net.history⟩ := by
  have closed := closed positive p net.history
  have safe : ∀ {program : M Unit}, program.Gives
      (fun _ => (knowledge cfg).Inside p net.history) ((knowledge cfg).Inside p net.history)
      ⟨net.nodes p, net.sent, net.history⟩ →
      (knowledge cfg).Safe p net.history program ⟨net.nodes p, net.sent, net.history⟩ :=
    fun given => given.mono (fun _ _ after => after) fun _ after => after.toLeft
  have others : ∀ msg, Received cfg msg → (∀ m, msg ≠ .recover m) →
      (handle cfg depth msg).Gives (fun _ => (knowledge cfg).Inside p net.history)
        ((knowledge cfg).Inside p net.history) ⟨net.nodes p, net.sent, net.history⟩ :=
    fun msg known other =>
      closed.handle_kept depth known (fun m same => absurd same (other m)) _ inside
  refine safe ?_
  cases msg with
  | recover m =>
    -- Only an answer may make the leader build on what it did not verify itself.
    change (handleRecoverPara cfg m).Gives _ _ _
    simp only [answersUsable, sent, running, Bool.false_or, Bool.or_eq_true,
      Bool.not_eq_true'] at usable
    refine closed.handleRecoverPara_resuming inside
      (fun _ _ leading => closed.recordValid_leading (visited p net.history) _ _ _ _ _ _ leading)
      (fun resumes stays => ?_) fun resumes falls verified _ => ?_
    · have current := usable.resolve_left (by rw [resumes]; decide)
      rw [if_neg (by rw [stays]; decide), beq_iff_eq] at current
      exact ⟨m.rdata, Just.getRDataPara_ofRDataPara _ _, current, good⟩
    · have unsigned := usable.resolve_left (by rw [resumes]; decide)
      rw [if_pos falls, List.isEmpty_iff] at unsigned
      refine ⟨_, Just.getRDataPara_ofRDataPara _ _, rfl, ?_⟩
      -- Without signatures there is none that could fail.
      change Signs.verify cfg.nodes _ (net.nodes p).verifiedJust.signs = true
      rw [unsigned]
      rfl
  | newView m => exact others (.newView m) good fun _ => nofun
  | ldrRecover m => exact others (.ldrRecover m) good fun _ => nofun
  | verify m => exact others (.verify m) trivial fun _ => nofun
  | ldrPrepare m => exact others (.ldrPrepare m) trivial fun _ => nofun
  | prepare m => exact others (.prepare m) trivial fun _ => nofun
  | preCommit m => exact others (.preCommit m) trivial fun _ => nofun
  | commit m => exact others (.commit m) trivial fun _ => nofun

omit [Hashing] in
/-- What is known holds of the nodes at their start. -/
theorem initial_holds (choices : PID → List Nat) : (knowledge cfg).Holds (initial cfg choices) where
  own := fun p running => by
    have known : p < cfg.total := by simpa [initial] using running
    have own : Own cfg p (init cfg choices p) :=
      { myid := rfl
        known := known
        id := rfl
        priv := rfl
        newviews := by simp [init, LogPara.empty] }
    exact own
  facts := by
    intro p v r member
    cases member
  good := by simp [initial]

/-- Every announcement sent carries valid signatures and the view that its leader was in. -/
structure Announced (cfg : Config) (net : Net HandlerPara MsgPara ParaEvent) : Prop where
  signed : ∀ {d m}, ⟨d, .verify m⟩ ∈ net.sent →
    m.signs.verify cfg.nodes m.rdata.toString = true
  begun : ∀ {d m}, ⟨d, .verify m⟩ ∈ net.sent →
    .prepared (cfg.getLeaderOf m.rdata.propv) m.rdata.propv m.rdata ∈ net.history
  current : ∀ {p v r}, .prepared p v r ∈ net.history → r.propv = v ∧ cfg.getLeaderOf v = p

/-- As long as answers are usable, every announcement of every leader can be verified. -/
theorem announcements_verify (positive : 0 < cfg.qsize) (choices : PID → List Nat) (depth : Nat)
    (actions : List (Action Input))
    (usable : Net.Meets (protocol cfg depth) (fun net action => answersUsable cfg net action = true)
      (initial cfg choices) actions) :
    Announced cfg ((initial cfg choices).run (protocol cfg depth) actions) := by
  have known : (knowledge cfg).Holds ((initial cfg choices).run (protocol cfg depth) actions) := by
    refine Knowledge.Holds.run_meeting stable ?_ ?_ (initial_holds choices) usable
    · exact fun _ _ _ _ usable sent running good inside =>
        receive_safe positive depth usable sent running good inside
    · intro net p i _ _ inside
      have kept := (closed positive p net.history).react_kept depth i _ inside
      exact kept.mono (fun _ _ after => after) fun _ after => after.toLeft
  exact
    { signed := fun sent => (known.good _ sent).1
      begun := fun sent => (known.good _ sent).2
      current := known.facts }

omit [Hashing] in
/-- The second slot of view 0 is certified before the proposals for the first one arrive; then the
leader of view 1, which has verified view 0, asks for both blocks and gets only the second one. -/
def firstSlotLate : List (Action Input) :=
  Schedule.startAll 4 ++ Schedule.deliver [0, 1, 3, 4, 5, 10, 11, 12, 13, 15]
    ++ Schedule.timeouts [1, 0, 2, 3] ++ Schedule.deliver [18, 19, 22, 23, 24, 25]

omit [Hashing] in
/-- The leader of view 1 recovers the block it lacks, and announces a justification that verifies. -/
theorem announcements_verify_recovered :
    let _ := Checksum.hashing
    Net.Meets (protocol Slots.threeSlots 3)
        (fun net action => answersUsable Slots.threeSlots net action = true)
        (initial Slots.threeSlots fun _ => []) Slots.answered
      ∧ Announced Slots.threeSlots ((initial Slots.threeSlots fun _ => []).run
        (protocol Slots.threeSlots 3) Slots.answered) := by
  intro hashing
  have usable : Net.Meets (protocol Slots.threeSlots 3)
      (fun net action => answersUsable Slots.threeSlots net action = true)
      (initial Slots.threeSlots fun _ => []) Slots.answered := by decide +kernel
  exact ⟨usable, announcements_verify (by decide) (fun _ => []) 3 Slots.answered usable⟩

omit [Hashing] in
/-- A leader that falls back announces signatures that fail, and one that goes on with a late answer
announces the justification of an earlier view. -/
theorem announcements_fail :
    let _ := Checksum.hashing
    ¬ Announced Schedule.fourNodes ((initial Schedule.fourNodes fun _ => []).run
        (protocol Schedule.fourNodes 3) firstSlotLate)
      ∧ ¬ Announced Slots.threeSlots (Slots.after Slots.answeredLate) := by
  intro hashing
  constructor
  · intro announced
    have failing : ∃ packet ∈ ((initial Schedule.fourNodes fun _ => []).run
        (protocol Schedule.fourNodes 3) firstSlotLate).sent,
        (match packet.msg with
          | .verify m => m.signs.verify Schedule.fourNodes.nodes m.rdata.toString
          | _ => true) = false := by decide +kernel
    obtain ⟨⟨d, msg⟩, sent, fails⟩ := failing
    cases msg with
    | verify m =>
      have failed : m.signs.verify Schedule.fourNodes.nodes m.rdata.toString = false := fails
      have verified := announced.signed sent
      rw [failed] at verified
      cases verified
    | _ => cases fails
  · intro announced
    have late : ∃ e ∈ (Slots.after Slots.answeredLate).history, Slots.foreign e = true := by
      decide +kernel
    obtain ⟨e, member, other⟩ := late
    cases e with
    | prepared p v r =>
      have same := (announced.current member).1
      simp [Slots.foreign, same] at other
    | _ => cases other

end Runs

end Verifiable

end HandlerPara

end ParaHotstuff
