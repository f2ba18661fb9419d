import ParaHotstuff.Proofs.Para.SignedSteps

/-! Runs of the parallel protocol with faulty nodes, and the signatures known in them. -/

namespace ParaHotstuff

namespace HandlerPara

namespace Signed

open Program Local

variable [Hashing] {cfg : Config} {correct : PID → Bool} {start : List ParaEvent} {p : PID}
variable {h : HandlerPara} {l : State} {earlier : M Unit}

section Entering

omit [Hashing] in
/-- The last statement signed before the next view is entered is a known one. -/
theorem signUntil_gives (rounds : Nat) (view : View)
    (inside : (knowledge cfg correct).Inside p start l) :
    (signUntil rounds view).Gives
      (fun just l' => (knowledge cfg correct).Inside p start l'
        ∧ ∃ r s, just = Just.ofRDataPara r [s] ∧ Known correct l'.history [s])
      ((knowledge cfg correct).Inside p start) l := by
  -- Induction on the rounds; each signs one statement with the key of the node.
  induction rounds generalizing l with
  | zero => exact inside
  | succ rounds ih =>
    unfold signUntil
    obtain ⟨signed, known⟩ := signed_inside inside
    rw [gives_bind, gives_callTEEsignPara, Just.getRDataPara_ofRDataPara, gives_bind,
      gives_ofOption_some]
    exact gives_ite (fun _ => ih signed) fun _ => ⟨signed, _, _, rfl, known⟩

omit [Hashing] in
/-- The commit message of a slot is known, and a slot with a number has one of its view. -/
theorem known_getCommitForSeq {H : List ParaEvent} {log : LogPara}
    (known : KnownLog correct H log) {view : View} {seq : Nat} (positive : 0 < seq)
    (same : (log.getCommitForSeq view seq).rdata.seqNumber = seq) :
    (log.getCommitForSeq view seq).rdata.propv = view := by
  unfold LogPara.getCommitForSeq at same ⊢
  cases found : log.commitsPara.first (view, seq) with
  | none =>
    -- The message returned where there is none is for slot 0.
    rw [found] at same
    change 0 = seq at same
    omega
  | some m =>
    have here := (known.commits (Messages.mem_of_first found)).1
    exact congrArg Prod.fst here

variable (earlierKept : ∀ start, Keeps ((knowledge cfg correct).Inside p start) earlier)
include earlierKept

/-- A node enters the next view and reports to its leader, which may be the node itself. -/
theorem startNewViewPara_kept :
    Keeps ((knowledge cfg correct).Inside p start) (startNewViewPara cfg earlier) := by
  intro l inside
  unfold startNewViewPara
  rw [gives_bind, gives_this, gives_bind, gives_note, gives_bind]
  have before : Own cfg correct _ p _ := inside.own
  have leaving := event_inside (e := .leaving l.node.myid l.node.view) inside trivial before.myid _
    before.trusted
  refine (signUntil_gives signRounds l.node.view leaving).mono ?_ fun _ left => left
  rintro just l₁ ⟨inside₁, r, s, rfl, known⟩
  have entered := changeView_kept ((l.node.view + 1) % wordSize) l₁ inside₁
  rw [gives_changeView] at entered
  rw [gives_bind, gives_changeView, Just.getRDataPara_ofRDataPara, gives_bind,
    gives_ofOption_some, gives_bind, gives_this]
  refine gives_ite (fun _ => ?_) fun _ => entered
  have own : Own cfg correct _ p _ := entered.own
  rw [gives_bind, gives_note]
  have noted := event_inside (e := .newview (l₁.node.entered cfg _).myid r) entered trivial
    own.myid _ own.trusted
  have signed : Known correct (.newview (l₁.node.entered cfg _).myid r :: l₁.history) [s] :=
    known.mono [.newview (l₁.node.entered cfg ((l.node.view + 1) % wordSize)).myid r]
  -- The report goes to another node, or is handled after what was stored for the view before.
  rw [gives_bind, gives_amCurrentLeader]
  refine gives_ite (fun _ => ?_) fun _ => ?_
  · refine restart noted ?_
    rw [gives_bind]
    refine (earlierKept _ _ noted.refl).mono (fun _ l₂ inside₂ => ?_) fun _ left => left
    have report : Known correct _ (MsgRDataPara.mk r [s]).signs := signed
    exact handleNewViewPara_kept report l₂ inside₂
  · rw [gives_bind, gives_multicast]
    exact earlierKept _ _ (send_inside noted (.newView ⟨r, [s]⟩) signed _)

/-- A node that executes a slot of its view stays in that view until the last slot. -/
theorem executeRDataPara_kept {rdata : RDataPara}
    (inside : (knowledge cfg correct).Inside p start l) (here : rdata.propv = l.node.view) :
    (executeRDataPara cfg earlier rdata).Gives
      (fun _ l' => (knowledge cfg correct).Inside p start l'
        ∧ (rdata.seqNumber ≠ cfg.maxBlocksInView → l'.node.view = l.node.view))
      ((knowledge cfg correct).Inside p start) l := by
  have own : Own cfg correct l.history p l.node := inside.own
  have justified : Justified cfg correct l.history (.executed l.node.myid l.node.view rdata
      (l.node.log.commitsPara.held (l.node.view, rdata.seqNumber))) :=
    ⟨here, fun m member => (own.log.commits member).2⟩
  have noted := event_inside inside justified own.myid l.node.tpara own.trusted
  have executed := noted.node (framed (l.node.frame_executing rdata) noted.own)
  have after : Own cfg correct _ p _ := executed.own
  have marked := event_inside (e := .marked l.node.myid l.node.view rdata
    (l.node.blockAt rdata.seqNumber) l.node.clients.keys (l.node.executing rdata).rep_queue)
    executed trivial own.myid _ after.trusted
  refine executeRDataPara_gives (fun _ => marked) (fun last => ?_) fun _ => ⟨marked, fun _ => rfl⟩
  refine (startNewViewPara_kept earlierKept _ marked).mono ?_ fun _ left => left
  exact fun _ _ after => ⟨after, fun other => absurd last other⟩

/-- The slots of a view are executed from the commit messages of that view. -/
theorem executeSlots_gives {view : View} (slots seq : Nat) (prevHash : Hash) (exists' : Bool)
    (inside : (knowledge cfg correct).Inside p start l) (here : l.node.view = view)
    (positive : 0 < seq) (within : seq + slots ≤ cfg.maxBlocksInView + 1) :
    (executeSlots cfg earlier view slots seq prevHash exists').Gives
      (fun _ => (knowledge cfg correct).Inside p start) ((knowledge cfg correct).Inside p start)
      l := by
  -- Induction on the slots; the node is still in the view as long as there is one more.
  induction slots generalizing seq prevHash exists' l with
  | zero => exact inside
  | succ slots ih =>
    unfold executeSlots
    rw [gives_bind, gives_accessSlot, gives_bind, gives_this]
    have visited : (knowledge cfg correct).Inside p start (visiting l view seq) :=
      (quiet_kept (quiet_accessSlot view seq)).state inside
    have here : (visiting l view seq).node.view = view := here
    generalize visiting l view seq = l at visited here
    have own : Own cfg correct l.history p l.node := visited.own
    refine gives_ite (fun _ => visited) fun _ => ?_
    have executed : (executeSlot cfg earlier seq
        (l.node.log.getCommitForSeq view seq).rdata).Gives
        (fun _ l' => (knowledge cfg correct).Inside p start l'
          ∧ (seq ≠ cfg.maxBlocksInView → l'.node.view = view))
        ((knowledge cfg correct).Inside p start) l := by
      refine gives_ite (fun same => ?_) fun _ => ⟨visited, fun _ => here⟩
      rw [beq_iff_eq] at same
      have mine := known_getCommitForSeq own.log positive same
      have given := executeRDataPara_kept earlierKept visited (mine.trans here.symm)
      rw [same, here] at given
      exact given
    rw [gives_bind]
    refine executed.mono (fun _ l₁ done => ?_) fun _ left => left
    obtain ⟨inside₁, stays⟩ := done
    cases slots with
    | zero => exact gives_ite (fun _ => inside₁) fun _ => inside₁
    | succ slots =>
      have later : seq ≠ cfg.maxBlocksInView := by omega
      exact gives_ite (fun _ => ih _ _ _ inside₁ (stays later) (by omega) (by omega))
        fun _ => ih _ _ _ inside₁ (stays later) (by omega) (by omega)

theorem executeUpTo_kept (seqNumber : Nat) :
    Keeps ((knowledge cfg correct).Inside p start) (executeUpTo cfg earlier seqNumber) := by
  intro l inside
  unfold executeUpTo
  rw [gives_bind, gives_this]
  refine gives_ite (fun _ => ?_) fun _ => inside
  unfold executeBlocksFrom
  refine gives_ite (fun _ => inside) fun bound => ?_
  simp only [Bool.or_eq_true, decide_eq_true_eq, not_or, Nat.not_lt] at bound
  have within : l.node.lastExecutedSeq + 1
      + (l.node.findHighestSeq seqNumber + 1 - (l.node.lastExecutedSeq + 1))
      ≤ cfg.maxBlocksInView + 1 := by
    omega
  -- Looking at the block before the first slot leaves the view.
  rw [gives_bind]
  refine (quiet_accessBefore _ _ l).mono (fun _ l₁ ⟨h, frame, same⟩ => ?_) fun l₁ ⟨h, frame, same⟩ => ?_
  · subst same
    have looked := inside.node (framed frame inside.own)
    rw [gives_bind, gives_this]
    exact gives_ite
      (fun _ => executeSlots_gives earlierKept _ _ _ _ looked frame.view (Nat.succ_pos _) within)
      fun _ => executeSlots_gives earlierKept _ _ _ _ looked frame.view (Nat.succ_pos _) within
  · subst same
    exact inside.node (framed frame inside.own)

theorem initiateCommitPara_kept (rdata : RDataPara) :
    Keeps ((knowledge cfg correct).Inside p start) (initiateCommitPara cfg earlier rdata) := by
  intro l inside
  have own : Own cfg correct l.history p l.node := inside.own
  have collected : Known correct l.history
      (l.node.log.getCommitPara rdata.propv cfg.qsize rdata.seqNumber) :=
    known_collected fun m member => (own.log.commits member).2
  unfold initiateCommitPara
  rw [gives_bind, gives_this]
  refine gives_ite (fun _ => ?_) fun _ => inside
  rw [gives_bind, gives_multicast]
  exact executeUpTo_kept earlierKept _ _ (send_inside inside (.commit ⟨rdata, _⟩) collected _)

theorem handleCommitPara_kept {msg : MsgCommitPara} (known : Known correct start msg.signs) :
    Keeps ((knowledge cfg correct).Inside p start) (handleCommitPara cfg earlier msg) := by
  have storing : Keeps ((knowledge cfg correct).Inside p start) (storeComPara msg) :=
    fun l inside => storeComPara_inside inside (known.now inside)
  have stored : Keeps ((knowledge cfg correct).Inside p start) (do let _ ← storeComPara msg) :=
    storing.bind fun _ => keeps_pure ()
  apply keeps_this.bind
  intro h
  refine keeps_ite (fun _ => keeps_pure ()) fun _ => keeps_ite (fun _ => ?_) fun _ => ?_
  · apply Keeps.bind (fun _ inside => inside)
    intro leads
    refine keeps_ite (fun _ => ?_) fun _ => keeps_ite (fun _ => ?_) fun _ => keeps_pure ()
    · apply storing.bind
      intro count
      exact keeps_ite (fun _ => initiateCommitPara_kept earlierKept _) fun _ => keeps_pure ()
    · exact storing.bind fun _ => executeUpTo_kept earlierKept _
  · refine keeps_ite (fun _ => ?_) fun _ => keeps_pure ()
    exact keeps_ite (fun _ => stored) fun _ => keeps_ite (fun _ => stored) fun _ => keeps_pure ()

omit [Hashing] earlierKept in
/-- The first message of a slot with enough signatures is known. -/
theorem known_firstOf {H : List ParaEvent} {msgs : Messages (View × Nat) MsgRDataPara}
    {view : View} {seq : Nat} (positive : 0 < cfg.qsize)
    (held : ∀ m ∈ msgs.held (view, seq), Known correct H m.signs)
    (full : (msgs.getSigns (·.signs) (view, seq) cfg.qsize).length = cfg.qsize) :
    ∃ cert signs, LogPara.firstOf msgs view seq = Just.ofRDataPara cert signs
      ∧ Known correct H signs := by
  obtain ⟨m, found, member⟩ := Messages.first_of_collected positive full
  exact ⟨m.rdata, m.signs, by simp [LogPara.firstOf, found], held m member⟩

variable (positive : 0 < cfg.qsize)
include positive

theorem handleEarlierSlot_kept (seqNumber : Nat) :
    Keeps ((knowledge cfg correct).Inside p start) (handleEarlierSlot cfg earlier seqNumber) := by
  intro l inside
  have own : Own cfg correct l.history p l.node := inside.own
  refine restart inside ?_
  unfold handleEarlierSlot
  rw [gives_bind, gives_this]
  refine gives_ite (fun full => ?_) fun _ => gives_ite (fun full => ?_) fun _ => ?_
  · obtain ⟨cert, signs, first, known⟩ := known_firstOf positive
      (fun _ member => own.log.precommits member) (beq_iff_eq.1 full)
    rw [LogPara.firstPrecommitPara, first]
    refine (respondToPreCommitJustPara_kept known).gives_bind inside.refl fun _ l' inside' => ?_
    rw [gives_bind, gives_this]
    exact gives_ite (fun _ => executeUpTo_kept earlierKept _ l' inside') fun _ => inside'
  · obtain ⟨cert, signs, first, known⟩ := known_firstOf positive
      (fun _ member => own.log.prepares member) (beq_iff_eq.1 full)
    rw [LogPara.firstPreparePara, first]
    exact respondToPrepareJustPara_kept known l inside.refl
  · split
    · rename_i held
      refine gives_ite (fun _ => ?_) fun _ => inside.refl
      have known := own.log.proposals (Messages.mem_of_first held)
      exact handleLdrPreparePara_kept known l inside.refl
    · exact inside.refl

theorem handleEarlierSlots_kept (slots seqNumber : Nat) :
    Keeps ((knowledge cfg correct).Inside p start)
      (handleEarlierSlots cfg earlier slots seqNumber) := by
  induction slots generalizing seqNumber with
  | zero => exact keeps_pure ()
  | succ slots ih =>
    exact (handleEarlierSlot_kept earlierKept positive seqNumber).bind fun _ => ih (seqNumber + 1)

omit positive [Hashing] in
/-- A known justification may be adopted. -/
theorem adopt_kept {just : Just} (known : Known correct start just.signs)
    (blockHashes : List Hash) :
    Keeps ((knowledge cfg correct).Inside p start) (adopt earlier just blockHashes) := by
  intro l inside
  have own : Own cfg correct l.history p l.node := inside.own
  refine gives_ite (fun _ => ?_) fun _ => inside
  rw [gives_bind, gives_this, gives_bind, gives_note, gives_bind, gives_modify]
  have noted := event_inside (e := .adopted l.node.myid (just.getRDataPara.getD .default)
    blockHashes (l.node.verifiedJust.getRDataPara.getD .default).propv
    l.node.tpara.prefixLockedHash l.node.tpara.prefixLockedView) inside trivial own.myid
    l.node.tpara own.trusted
  have after : Own cfg correct _ p l.node := noted.own
  exact earlierKept _ _ (noted.node { after with verified := known.now noted })

omit positive in
theorem handleVerifyPara_kept {msg : MsgVerifyPara} (known : Known correct start msg.signs) :
    Keeps ((knowledge cfg correct).Inside p start) (handleVerifyPara cfg earlier msg) := by
  have checking : ∀ checkHashes, Keeps ((knowledge cfg correct).Inside p start)
      (adoptChecked cfg earlier msg checkHashes) := by
    intro checkHashes l inside
    unfold adoptChecked
    rw [gives_bind]
    -- Either the justification itself comes back, or the one without signatures.
    refine callTEEVerifyPara_gives inside ?_ fun _ _ _ => ?_
    · exact adopt_kept earlierKept known_nil _ l inside
    · exact adopt_kept earlierKept known _ l inside
  apply keeps_this.bind
  intro h
  refine keeps_ite (fun _ => keeps_pure ()) fun _ => keeps_ite (fun _ => ?_) fun _ => keeps_pure ()
  refine Keeps.bind ?_ fun _ => keeps_this.bind fun h => keeps_ite (fun _ => ?_) fun _ => ?_
  · apply keeps_this.bind
    intro h
    exact keeps_ite (fun _ => changeView_kept _) fun _ => keeps_pure ()
  · apply (keeps_ofOption _).bind
    intro verified
    refine keeps_ite (fun _ => ?_) fun _ => checking false
    refine Keeps.bind (quiet_kept (quiet_modify fun h => frame_enterView h _)) fun _ => ?_
    exact keeps_ite (fun _ => checking true) fun _ => keeps_pure ()
  · -- A message for a later view is kept for that view.
    intro l inside
    have own : Own cfg correct l.history p l.node := inside.own
    refine log_inside inside { own.log with verifies := fun {v m} found => ?_ }
    by_cases same : v = msg.rdata.propv
    · subst same
      obtain rfl : msg = m := by simpa [LogPara.storeVerifyPara] using found
      exact known.now inside
    · exact own.log.verifies (by simpa [LogPara.storeVerifyPara, same] using found)

end Entering

section Runs

/-- However deep it nests, going through earlier messages keeps the knowledge. -/
theorem handleEarlierMessagesPara_kept (positive : 0 < cfg.qsize) (depth : Nat) (start : List ParaEvent) :
    Keeps ((knowledge cfg correct).Inside p start) (handleEarlierMessagesPara cfg depth) := by
  induction depth generalizing start with
  | zero => exact keeps_halt
  | succ depth ih =>
    intro l inside
    have own : Own cfg correct l.history p l.node := inside.own
    refine restart inside ?_
    unfold handleEarlierMessagesPara
    rw [gives_bind, gives_this, gives_bind, gives_amCurrentLeader]
    refine gives_ite (fun _ => ?_) fun _ => ?_
    · refine gives_ite (fun _ => ?_) fun _ => inside.refl
      have known := known_findHighestNvPara own.log l.node.view
      refine (quiet_kept (quiet_getMissingSeqNumbersForJust _)).gives_bind inside.refl ?_
      intro missing l' inside'
      exact gives_ite (fun _ => initiateVerifyPara_kept known l' inside')
        fun _ => verifyOrRecover_kept known missing l' inside'
    · rw [gives_bind]
      refine gives_ofOption (fun verified _ => ?_) fun _ => inside.refl
      refine gives_ite (fun _ => gives_ite (fun _ => ?_) fun _ => inside.refl) fun _ => ?_
      · refine handleVerifyPara_kept ih ?_ l inside.refl
        unfold LogPara.getVerifyPara
        cases found : l.node.log.verifiesPara.lookup l.node.view with
        | none => exact known_nil
        | some m => exact own.log.verifies found
      · exact handleEarlierSlots_kept ih positive _ _ l inside.refl

/-- The first report of a node goes to the leader of its view. -/
theorem getStarted_kept : Keeps ((knowledge cfg correct).Inside p start) (getStarted cfg) := by
  intro l inside
  have own : Own cfg correct l.history p l.node := inside.own
  obtain ⟨signed, known⟩ := signed_inside inside
  simp only [getStarted, gives_bind, gives_callTEEsignPara, Just.getRDataPara_ofRDataPara,
    gives_ofOption_some, gives_setTimer, gives_this, gives_noteIf]
  generalize l.node.tpara.nodeStatement = r at signed known ⊢
  have after : Own cfg correct _ p _ := signed.own
  have armed := signed.node (h := { l.node with
    tpara := l.node.tpara.increment_node_phase
    timer := true }) { after with }
  have noted : (knowledge cfg correct).Inside p (.signed l.node.myid r :: l.history)
        (if (r.phase == PH1_NEWVIEW) = true then
          { node := { l.node with
              tpara := l.node.tpara.increment_node_phase
              timer := true }
            sent := l.sent
            history := .newview l.node.myid r :: .signed l.node.myid r :: l.history }
        else
          { node := { l.node with
              tpara := l.node.tpara.increment_node_phase
              timer := true }
            sent := l.sent
            history := .signed l.node.myid r :: l.history }) := by
    split
    · exact event_inside (e := .newview l.node.myid r) armed.refl trivial own.myid _
        after.trusted
    · exact armed.refl
  have signs : Known correct _ [l.node.tpara.signature r] := known.now noted
  have begun := armed.trans noted
  refine gives_ite (fun _ => ?_) fun _ => ?_
  · refine restart begun ?_
    have report : Known correct _ (MsgRDataPara.mk r [l.node.tpara.signature r]).signs := signs
    exact handleNewViewPara_kept report _ begun.refl
  · exact send_inside begun (.newView ⟨r, _⟩) signs _

omit [Hashing] in
/-- Possible signatures of correct nodes' keys are on statements these nodes have signed. -/
theorem known_of_possible {H : List ParaEvent} {signs : Signs}
    (all : signs.all (possible correct H) = true) : Known correct H signs := by
  intro s member key text made honest
  have allowed := List.all_eq_true.1 all s member
  simp only [possible, made, honest, Bool.not_true, Bool.false_or, madeIn, List.any_eq_true]
    at allowed
  obtain ⟨e, noted, signed⟩ := allowed
  cases statement : e.statement with
  | none => simp [statement] at signed
  | some pair =>
    obtain ⟨q, r⟩ := pair
    simp only [statement, Bool.and_eq_true, beq_iff_eq] at signed
    obtain ⟨rfl, same⟩ := signed
    exact ⟨e, noted, r, statement, same⟩

/-- Every reaction to a message keeps the knowledge, whoever sent it. -/
theorem handle_kept (positive : 0 < cfg.qsize) (depth : Nat) {msg : MsgPara}
    (known : Known correct start msg.signs) :
    Keeps ((knowledge cfg correct).Inside p start) (handle cfg depth msg) := by
  have earlierKept : ∀ start, Keeps ((knowledge cfg correct).Inside p start)
      (handleEarlierMessagesPara cfg depth) := handleEarlierMessagesPara_kept positive depth
  cases msg with
  | newView msg => exact handleNewViewPara_kept known
  | ldrRecover msg => exact handleLdrRecoverPara_kept known
  | recover msg => exact handleRecoverPara_kept known
  | verify msg => exact handleVerifyPara_kept earlierKept known
  | ldrPrepare msg => exact handleLdrPreparePara_kept known
  | prepare msg => exact handlePreparePara_kept known
  | preCommit msg => exact handlePrecommitPara_kept known
  | commit msg => exact handleCommitPara_kept earlierKept known

/-- So does every reaction to the environment. -/
theorem react_kept (positive : 0 < cfg.qsize) (depth : Nat) (i : Input) :
    Keeps ((knowledge cfg correct).Inside p start) (react cfg depth i) := by
  cases i with
  | start cid =>
    apply keeps_this.bind
    intro h
    refine Keeps.bind (quiet_kept (quiet_modify fun h' => ?_)) fun _ => keeps_ite (fun _ => ?_)
      fun _ => keeps_pure ()
    · split <;> exact ⟨rfl, rfl, rfl, rfl, rfl, rfl⟩
    · refine Keeps.bind (fun l inside => ?_) fun _ => getStarted_kept
      have own : Own cfg correct l.history p l.node := inside.own
      exact inside.node { own with }
  | transaction trans =>
    apply keeps_this.bind
    intro h
    split
    · apply quiet_kept
      apply quiet_modify
      exact fun _ => ⟨rfl, rfl, rfl, rfl, rfl, rfl⟩
    · exact keeps_pure ()
  | timeout =>
    apply keeps_this.bind
    intro h
    refine keeps_ite (fun _ => ?_) fun _ => keeps_pure ()
    refine keeps_ite (fun _ => keeps_halt) fun _ => startNewViewPara_kept fun start => ?_
    exact handleEarlierMessagesPara_kept positive depth start

omit [Hashing] in
/-- A faulty node sends what it likes, signed with keys of faulty nodes and signatures it has seen. -/
theorem sendAny_kept (packet : Packet MsgPara) :
    Keeps ((knowledge cfg correct).Inside p start) (sendAny correct packet) := by
  intro l inside
  rw [sendAny, gives_update]
  split
  · rename_i allowed
    have sent := send_inside inside packet.msg (known_of_possible allowed) [packet.dest]
    exact sent
  · exact inside

omit [Hashing] in
theorem initial_holds (choices : PID → List Nat) :
    (knowledge cfg correct).Holds (initial cfg choices) where
  own := fun p _ => by
    have begun : Own cfg correct [] p (init cfg choices p) :=
      { myid := rfl
        trusted := ⟨rfl, rfl, rfl, .inl rfl⟩
        log := by constructor <;> simp [init, LogPara.empty]
        verified := by simp [init, Just.defaultPara] }
    exact begun
  facts := trivial
  good := by simp [initial]

/-- What is known holds after every run, whatever faulty nodes send. -/
theorem run_holds (positive : 0 < cfg.qsize) (choices : PID → List Nat) (depth : Nat)
    (actions : List (Action FaultyInput)) :
    (knowledge cfg correct).Holds
      ((initial cfg choices).run (protocolFaulty cfg correct depth) actions) := by
  refine Knowledge.Holds.run stable (fun p msg l good inside => ?_) (fun p i l inside => ?_)
    (initial_holds choices) actions
  · exact (handle_kept positive depth good l inside).mono (fun _ _ after => after)
      fun _ after => after.toLeft
  · have kept : Keeps ((knowledge cfg correct).Inside p l.history)
        ((protocolFaulty cfg correct depth).input i) := by
      cases i with
      | own i => exact react_kept positive depth i
      | send packet => exact sendAny_kept packet
    exact (kept l inside).mono (fun _ _ after => after) fun _ after => after.toLeft

end Runs

end Signed

end HandlerPara

end ParaHotstuff
