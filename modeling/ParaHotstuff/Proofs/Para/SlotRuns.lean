import ParaHotstuff.Data.Checksum
import ParaHotstuff.Handler.Schedule
import ParaHotstuff.Proofs.Para.SlotLeaders

/-! Runs of the parallel protocol in which every leader proposes one block for each slot. -/

namespace ParaHotstuff

namespace HandlerPara

namespace Slots

open Program Local

section Known

variable [Hashing] {cfg : Config} {p : PID} {start : List ParaEvent} {l : State} {h : HandlerPara}
variable {earlier : M Unit}

section Entering

/-- A node that leads its view has not collected a quorum of reports for it yet. -/
def Waiting (cfg : Config) (p : PID) (h : HandlerPara) : Prop :=
  cfg.getLeaderOf h.view = p → (h.log.newviewsPara.held h.view).length < cfg.qsize

/-- Going through earlier messages keeps the knowledge if the node has just entered its view. -/
def EarlierKept (cfg : Config) (p : PID) (start : List ParaEvent) (earlier : M Unit) : Prop :=
  ∀ l : State, (knowledge cfg).Inside p start l → Waiting cfg p l.node →
    earlier.Gives (fun _ => (knowledge cfg).Inside p start) ((knowledge cfg).Inside p start) l

omit [Hashing] in
/-- A later view is one for which no quorum of reports has been collected. -/
theorem Own.waiting {H : List ParaEvent} (own : Own cfg p h H) {h' : HandlerPara}
    (newviews : h'.log.newviewsPara = h.log.newviewsPara) (later : h.view < h'.view) :
    Waiting cfg p h' := by
  intro _
  rw [newviews]
  by_contra full
  have reached := own.quorum (Nat.le_of_not_lt full)
  exact absurd later (Nat.not_lt_of_le reached)

omit [Hashing] in
/-- The last statement signed before the next view is entered is of a later view. -/
theorem signUntil_gives (rounds : Nat) (inside : (knowledge cfg).Inside p start l) (view : View) :
    (signUntil rounds view).Gives
      (fun just l' => (knowledge cfg).Inside p start l' ∧ l'.node.view = l.node.view
        ∧ l'.node.log = l.node.log
        ∧ ∃ r s, just = Just.ofRDataPara r [s] ∧ view < r.propv ∧ r.propv < wordSize)
      ((knowledge cfg).Inside p start) l := by
  -- Induction on the rounds; each signs one statement, and the component alone moves on.
  induction rounds generalizing l with
  | zero => exact inside
  | succ rounds ih =>
    unfold signUntil
    have own : Own cfg p l.node l.history := inside.own
    have signed := callTEEsignPara_kept l inside
    rw [gives_callTEEsignPara] at signed
    rw [gives_bind, gives_callTEEsignPara, Just.getRDataPara_ofRDataPara, gives_bind,
      gives_ofOption_some]
    refine gives_ite (fun _ => ?_) fun later => ?_
    · exact (ih signed).mono (fun _ _ given => given) fun _ left => left
    · exact ⟨signed, rfl, rfl, _, _, rfl, Nat.lt_of_not_le later, own.trusted⟩

variable (positive : 0 < cfg.qsize) (earlierKept : EarlierKept cfg p start earlier)
include positive earlierKept

/-- A node enters the next view and reports to its leader, which may be the node itself. -/
theorem startNewViewPara_kept :
    Keeps ((knowledge cfg).Inside p start) (startNewViewPara cfg earlier) := by
  intro l inside
  unfold startNewViewPara
  rw [gives_bind, gives_this, gives_bind, gives_note, gives_bind]
  have before : Own cfg p l.node l.history := inside.own
  have leaves : Plain cfg (.leaving l.node.myid l.node.view) := ⟨by simp, by simp, by simp⟩
  have leaving := plain_inside inside leaves before.myid l.node.tpara before.trusted
  refine (signUntil_gives signRounds leaving l.node.view).mono ?_ fun _ left => left
  rintro just l₁ ⟨inside₁, view, log, r, s, rfl, later, small⟩
  have own₁ : Own cfg p l₁.node l₁.history := inside₁.own
  -- There is a later view, so the next view is the next number.
  have next : (l.node.view + 1) % wordSize = l.node.view + 1 :=
    Nat.mod_eq_of_lt (Nat.lt_of_le_of_lt later small)
  rw [next, gives_bind, gives_changeView, Just.getRDataPara_ofRDataPara, gives_bind,
    gives_ofOption_some, gives_bind, gives_this]
  have entered := changeView_inside inside₁ (v := l.node.view + 1)
    (by rw [view]; exact Nat.le_succ _) (Nat.lt_of_le_of_lt later small)
  have waiting : Waiting cfg p (l₁.node.entered cfg (l.node.view + 1)) :=
    own₁.waiting rfl (by rw [view]; exact Nat.lt_succ_self _)
  refine gives_ite (fun _ => ?_) fun _ => entered
  rw [gives_bind, gives_note]
  have plain : Plain cfg (.newview (l₁.node.entered cfg (l.node.view + 1)).myid r) :=
    ⟨by simp, by simp, by simp⟩
  have noted := plain_inside entered plain own₁.myid
    (l₁.node.entered cfg (l.node.view + 1)).tpara (Nat.lt_of_le_of_lt later small)
  rw [gives_bind, gives_amCurrentLeader]
  refine gives_ite (fun _ => ?_) fun _ => ?_
  · rw [gives_bind]
    refine (earlierKept _ noted waiting).mono (fun _ l₂ inside₂ => ?_) fun _ left => left
    exact handleNewViewPara_kept positive small rfl l₂ inside₂
  · rw [gives_bind, gives_multicast]
    have sent := noted.send (.newView ⟨r, [s]⟩)
      (cfg.keep_from_peers (l₁.node.entered cfg (l.node.view + 1)).myid
        (cfg.getLeaderOf (l₁.node.entered cfg (l.node.view + 1)).view))
      fun _ _ => ⟨small, s, rfl⟩
    exact earlierKept _ sent waiting

theorem executeRDataPara_kept (rdata : RDataPara) :
    Keeps ((knowledge cfg).Inside p start) (executeRDataPara cfg earlier rdata) := by
  intro l inside
  have own : Own cfg p l.node l.history := inside.own
  have plain : Plain cfg (.executed l.node.myid l.node.view rdata
      (l.node.log.commitsPara.held (l.node.view, rdata.seqNumber))) :=
    ⟨by simp, by simp, by simp⟩
  have noted := plain_inside inside plain own.myid l.node.tpara own.trusted
  have executed := noted.node (framed (l.node.frame_executing rdata) noted.own)
  have after : Own cfg p _ _ := executed.own
  have marks : Plain cfg (.marked l.node.myid l.node.view rdata (l.node.blockAt rdata.seqNumber)
      l.node.clients.keys (l.node.executing rdata).rep_queue) :=
    ⟨by simp, by simp, by simp⟩
  have marked := plain_inside executed marks own.myid _ after.trusted
  exact executeRDataPara_gives (fun _ => marked)
    (fun _ => startNewViewPara_kept positive earlierKept _ marked) fun _ => marked

theorem executeSlots_kept (view : View) (slots seq : Nat) (prevHash : Hash) (exists' : Bool) :
    Keeps ((knowledge cfg).Inside p start)
      (executeSlots cfg earlier view slots seq prevHash exists') := by
  -- Induction on the slots; a slot that ends the view takes the node to the next one.
  induction slots generalizing seq prevHash exists' with
  | zero => exact keeps_pure ()
  | succ slots ih =>
    apply (quiet_kept (quiet_accessSlot view seq)).bind
    intro _
    apply keeps_this.bind
    intro h
    refine keeps_ite (fun _ => keeps_pure ()) fun _ => ?_
    have executed : Keeps ((knowledge cfg).Inside p start)
        (executeSlot cfg earlier seq (h.log.getCommitForSeq view seq).rdata) :=
      keeps_ite (fun _ => executeRDataPara_kept positive earlierKept _) fun _ => keeps_pure ()
    apply executed.bind
    intro _
    exact keeps_ite (fun _ => ih _ _ _) fun _ => ih _ _ _

theorem executeUpTo_kept (seqNumber : Nat) :
    Keeps ((knowledge cfg).Inside p start) (executeUpTo cfg earlier seqNumber) := by
  apply keeps_this.bind
  intro h
  refine keeps_ite (fun _ => ?_) fun _ => keeps_pure ()
  refine keeps_ite (fun _ => keeps_pure ()) fun _ => ?_
  apply (quiet_kept (quiet_accessBefore _ _)).bind
  intro _
  apply keeps_this.bind
  intro h
  exact keeps_ite (fun _ => executeSlots_kept positive earlierKept _ _ _ _ _)
    fun _ => executeSlots_kept positive earlierKept _ _ _ _ _

theorem initiateCommitPara_kept (rdata : RDataPara) :
    Keeps ((knowledge cfg).Inside p start) (initiateCommitPara cfg earlier rdata) := by
  apply keeps_this.bind
  intro h
  refine keeps_ite (fun _ => ?_) fun _ => keeps_pure ()
  apply Keeps.bind (fun _ inside => inside.send _ _ fun _ _ => trivial)
  exact fun _ => executeUpTo_kept positive earlierKept _

theorem handleCommitPara_kept (msg : MsgCommitPara) :
    Keeps ((knowledge cfg).Inside p start) (handleCommitPara cfg earlier msg) := by
  have storing : Keeps ((knowledge cfg).Inside p start) (do let _ ← storeComPara msg) :=
    (storeComPara_kept _).bind fun _ => keeps_pure ()
  apply keeps_this.bind
  intro h
  refine keeps_ite (fun _ => keeps_pure ()) fun _ => keeps_ite (fun _ => ?_) fun _ => ?_
  · apply Keeps.bind (fun _ inside => inside)
    intro leads
    refine keeps_ite (fun _ => ?_) fun _ => keeps_ite (fun _ => ?_) fun _ => keeps_pure ()
    · apply (storeComPara_kept _).bind
      intro count
      exact keeps_ite (fun _ => initiateCommitPara_kept positive earlierKept _)
        fun _ => keeps_pure ()
    · exact (storeComPara_kept _).bind fun _ => executeUpTo_kept positive earlierKept _
  · refine keeps_ite (fun _ => ?_) fun _ => keeps_pure ()
    exact keeps_ite (fun _ => storing) fun _ => keeps_ite (fun _ => storing) fun _ => keeps_pure ()

theorem handleEarlierSlot_kept (seqNumber : Nat) :
    Keeps ((knowledge cfg).Inside p start) (handleEarlierSlot cfg earlier seqNumber) := by
  intro l inside
  have own : Own cfg p l.node l.history := inside.own
  simp only [handleEarlierSlot, gives_bind, gives_this]
  refine gives_ite (fun _ => ?_) fun _ => gives_ite (fun _ => ?_) fun _ => ?_
  · refine Keeps.gives_bind (respondToPreCommitJustPara_kept _) inside fun _ l' inside' => ?_
    rw [gives_bind, gives_this]
    exact gives_ite (fun _ => executeUpTo_kept positive earlierKept _ l' inside') fun _ => inside'
  · exact respondToPrepareJustPara_kept _ l inside
  · split
    · rename_i held
      refine gives_ite (fun _ => ?_) fun _ => inside
      exact handleLdrPreparePara_kept (own.proposals (Messages.mem_of_first held)) l inside
    · exact inside

theorem handleEarlierSlots_kept (slots seqNumber : Nat) :
    Keeps ((knowledge cfg).Inside p start) (handleEarlierSlots cfg earlier slots seqNumber) := by
  induction slots generalizing seqNumber with
  | zero => exact keeps_pure ()
  | succ slots ih =>
    exact (handleEarlierSlot_kept positive earlierKept seqNumber).bind fun _ => ih (seqNumber + 1)

omit positive [Hashing] in
/-- A node that does not lead its view may adopt a justification. -/
theorem adopt_gives {just : Just} (blockHashes : List Hash)
    (inside : (knowledge cfg).Inside p start l) (other : cfg.getLeaderOf l.node.view ≠ p) :
    (adopt earlier just blockHashes).Gives (fun _ => (knowledge cfg).Inside p start)
      ((knowledge cfg).Inside p start) l := by
  have own : Own cfg p l.node l.history := inside.own
  refine gives_ite (fun _ => ?_) fun _ => inside
  rw [gives_bind, gives_this, gives_bind, gives_note, gives_bind, gives_modify]
  have plain : Plain cfg (.adopted l.node.myid (just.getRDataPara.getD .default) blockHashes
      (l.node.verifiedJust.getRDataPara.getD .default).propv l.node.tpara.prefixLockedHash
      l.node.tpara.prefixLockedView) := ⟨by simp, by simp, by simp⟩
  have noted := plain_inside inside plain own.myid l.node.tpara own.trusted
  have after : Own cfg p l.node _ := noted.own
  have adopted := noted.node (h := { l.node with verifiedJust := just })
    (after.node rfl rfl own.trusted rfl rfl rfl)
  exact earlierKept _ adopted fun leads => absurd leads other

omit positive in
/-- The announcement of another leader brings the node to that leader's view. -/
theorem handleVerifyPara_gives {msg : MsgVerifyPara}
    (other : cfg.getLeaderOf msg.rdata.propv ≠ p) (small : msg.rdata.propv < wordSize) :
    Keeps ((knowledge cfg).Inside p start) (handleVerifyPara cfg earlier msg) := by
  intro l inside
  unfold handleVerifyPara
  rw [gives_bind, gives_this]
  refine gives_ite (fun _ => inside) fun _ => gives_ite (fun later => ?_) fun _ => inside
  rw [gives_bind]
  have entering : (enterLater cfg msg.rdata.propv).Gives
      (fun _ => (knowledge cfg).Inside p start) ((knowledge cfg).Inside p start) l := by
    unfold enterLater
    rw [gives_bind, gives_this]
    refine gives_ite (fun _ => ?_) fun _ => inside
    rw [gives_changeView]
    exact changeView_inside inside later small
  refine entering.mono (fun _ l₁ inside₁ => ?_) fun _ left => left
  have own₁ : Own cfg p l₁.node l₁.history := inside₁.own
  rw [gives_bind, gives_this]
  refine gives_ite (fun here => ?_) fun _ => ?_
  · rw [beq_iff_eq] at here
    -- In this view the node is no leader, whatever is looked up on the way.
    have checking : ∀ checkHashes l', (knowledge cfg).Inside p start l' →
        cfg.getLeaderOf l'.node.view ≠ p → (adoptChecked cfg earlier msg checkHashes).Gives
          (fun _ => (knowledge cfg).Inside p start) ((knowledge cfg).Inside p start) l' := by
      intro checkHashes l' inside' other'
      unfold adoptChecked
      rw [gives_bind]
      refine callTEEVerifyPara_gives inside' ?_ fun _ _ _ => ?_
      · exact adopt_gives earlierKept _ inside' other'
      · exact adopt_gives earlierKept _ inside' other'
    rw [gives_bind]
    refine gives_ofOption (fun verified _ => ?_) fun _ => inside₁
    refine gives_ite (fun _ => ?_) fun _ => checking false l₁ inside₁ (by rw [← here]; exact other)
    rw [gives_bind, gives_modify]
    have frame := frame_enterView l₁.node msg.rdata.justv
    have inside₂ := inside₁.node (framed frame inside₁.own)
    refine gives_ite (fun _ => checking true _ inside₂ ?_) fun _ => inside₂
    rw [frame.view, ← here]
    exact other
  · -- Otherwise it would be kept for later.
    rw [gives_modify]
    apply inside₁.node
    exact
      { own₁ with
        verifies := fun {v m} found => by
          by_cases same : v = msg.rdata.propv
          · subst same
            obtain rfl : msg = m := by simpa [LogPara.storeVerifyPara] using found
            exact ⟨other, small⟩
          · exact own₁.verifies (by simpa [LogPara.storeVerifyPara, same] using found) }

end Entering

section Runs

/-- However deep it nests, going through earlier messages is no step of a leader. -/
theorem handleEarlierMessagesPara_kept (positive : 0 < cfg.qsize) (depth : Nat) :
    EarlierKept cfg p start (handleEarlierMessagesPara cfg depth) := by
  induction depth with
  | zero => exact fun l inside _ => inside
  | succ depth ih =>
    intro l inside waiting
    have own : Own cfg p l.node l.history := inside.own
    unfold handleEarlierMessagesPara
    rw [gives_bind, gives_this, gives_bind, gives_amCurrentLeader]
    refine gives_ite (fun leader => ?_) fun _ => ?_
    · -- A leader that has just come holds fewer reports than a quorum, with one signature each.
      refine gives_ite (fun full => ?_) fun _ => inside
      have few := waiting ((Config.amLeaderOf_iff.1 leader).trans own.myid)
      rw [beq_iff_eq, LogPara.getNewViewPara, Messages.getSigns_eq, List.length_take] at full
      have signs : (Messages.allSigns (·.signs)
          (l.node.log.newviewsPara.held l.node.view)).length
          ≤ (l.node.log.newviewsPara.held l.node.view).length :=
        Messages.length_allSigns fun m member => by
          obtain ⟨s, single⟩ := (own.newviews member).2
          simp [single]
      omega
    · rw [gives_bind]
      refine gives_ofOption (fun verified _ => ?_) fun _ => inside
      refine gives_ite (fun _ => gives_ite (fun announced => ?_) fun _ => inside) fun _ => ?_
      · cases found : l.node.log.verifiesPara.lookup l.node.view with
        | none => simp [LogPara.getVerifyPara, found, MsgVerifyPara.isEmpty] at announced
        | some m =>
          obtain ⟨other, small⟩ := own.verifies found
          simp only [LogPara.getVerifyPara, found, Option.getD_some]
          exact handleVerifyPara_gives ih other small l inside
      · exact handleEarlierSlots_kept positive ih _ _ l inside

/-- The first report of a node goes to the leader of its view. -/
theorem getStarted_kept (positive : 0 < cfg.qsize) :
    Keeps ((knowledge cfg).Inside p start) (getStarted cfg) := by
  intro l inside
  have own : Own cfg p l.node l.history := inside.own
  have signed := callTEEsignPara_kept l inside
  rw [gives_callTEEsignPara] at signed
  simp only [getStarted, gives_bind, gives_callTEEsignPara, Just.getRDataPara_ofRDataPara,
    gives_ofOption_some, gives_setTimer, gives_this, gives_noteIf]
  generalize statement : l.node.tpara.nodeStatement = r at signed ⊢
  have small : r.propv < wordSize := by
    rw [← statement]
    exact own.trusted
  have after : Own cfg p _ _ := signed.own
  have armed : (knowledge cfg).Inside p start
      { node := { l.node with
          tpara := l.node.tpara.increment_node_phase
          timer := true }
        sent := l.sent
        history := .signed l.node.myid r :: l.history } :=
    signed.node (after.node rfl rfl (TrustedPara.view_increment_node_phase own.trusted) rfl rfl rfl)
  have noted : (knowledge cfg).Inside p start
      (if (r.phase == PH1_NEWVIEW) = true then
        { node := { l.node with
            tpara := l.node.tpara.increment_node_phase
            timer := true }
          sent := l.sent
          history := .newview l.node.myid r :: .signed l.node.myid r :: l.history }
      else
        { node := { l.node with
            tpara := l.node.tpara.increment_node_phase
            timer := true }
          sent := l.sent
          history := .signed l.node.myid r :: l.history }) := by
    split
    · have plain : Plain cfg (.newview l.node.myid r) := ⟨by simp, by simp, by simp⟩
      exact plain_inside armed plain own.myid _ (TrustedPara.view_increment_node_phase own.trusted)
    · exact armed
  refine gives_ite (fun _ => ?_) fun _ => ?_
  · exact handleNewViewPara_kept positive small rfl _ noted
  · exact noted.send (.newView _) _ fun _ _ => ⟨small, _, rfl⟩

omit [Hashing] in
/-- A node asked for blocks answers on the justification it was asked on. -/
theorem handleLdrRecoverPara_gives {msg : MsgLdrRecoverPara}
    (inside : (knowledge cfg).Inside p start l) (asked : Asked cfg l.history msg.rdata) :
    (handleLdrRecoverPara cfg msg).Gives (fun _ => (knowledge cfg).Inside p start)
      ((knowledge cfg).Inside p start) l := by
  unfold handleLdrRecoverPara
  rw [gives_bind, gives_this]
  refine gives_ite (fun _ => inside) fun _ => ?_
  rw [gives_bind, gives_modify]
  have frame : Frame l.node (if msg.rdata.justv < l.node.pblocks.keys.length then
      l.node.enterView msg.rdata.justv else l.node) := by
    split
    · exact frame_enterView _ _
    · exact .refl _
  have looked := inside.node (framed frame inside.own)
  refine gives_ite (fun _ => ?_) fun _ => looked.send _ _ fun _ _ => asked
  rw [gives_strayed]
  exact looked.node (framed (frame_visit _ _ _) looked.own)

/-- Whether a leader that goes on to propose does so in the view it asked for, for the first time. -/
def onTime (cfg : Config) (net : Net HandlerPara MsgPara ParaEvent) : Action Input → Bool
  | .deliver index =>
    match net.sent[index]? with
    | some ⟨p, .recover msg⟩ =>
      let h := net.nodes p
      net.stopped p || !resumes cfg h msg
        || (msg.rdata.propv == h.view && !net.history.any fun
          | .prepared q v _ => q == p && v == h.view
          | _ => false)
    | _ => true
  | .input _ _ => true

/-- Every reaction to a message that is on time is safe. -/
theorem receive_safe (positive : 0 < cfg.qsize) (depth : Nat)
    {net : Net HandlerPara MsgPara ParaEvent} {index : Nat} {msg : MsgPara}
    (timely : onTime cfg net (.deliver index) = true) (sent : net.sent[index]? = some ⟨p, msg⟩)
    (running : net.stopped p = false) (good : Good cfg ⟨p, msg⟩ net.history)
    (inside : (knowledge cfg).Inside p net.history ⟨net.nodes p, net.sent, net.history⟩) :
    (knowledge cfg).Safe p net.history ((protocol cfg depth).receive msg)
      ⟨net.nodes p, net.sent, net.history⟩ := by
  have earlierKept : EarlierKept cfg p net.history (handleEarlierMessagesPara cfg depth) :=
    handleEarlierMessagesPara_kept positive depth
  -- All the knowledge is kept also by a program that stops.
  have safe : ∀ {program : M Unit}, program.Gives
      (fun _ => (knowledge cfg).Inside p net.history) ((knowledge cfg).Inside p net.history)
      ⟨net.nodes p, net.sent, net.history⟩ →
      (knowledge cfg).Safe p net.history program ⟨net.nodes p, net.sent, net.history⟩ :=
    fun given => given.mono (fun _ _ after => after) fun _ after => after.toLeft
  cases msg with
  | newView msg =>
    obtain ⟨small, s, single⟩ := good
    exact safe (handleNewViewPara_kept positive small single _ inside)
  | ldrRecover msg => exact safe (handleLdrRecoverPara_gives inside good)
  | recover msg =>
    refine safe (handleRecoverPara_gives inside good fun resumed => ?_)
    simp only [onTime, sent, running, show resumes cfg (net.nodes p) msg = true from resumed,
      Bool.not_true, Bool.false_or, Bool.and_eq_true, beq_iff_eq, Bool.not_eq_true',
      List.any_eq_false] at timely
    refine ⟨timely.1, fun ⟨r, member⟩ => ?_⟩
    exact timely.2 _ member (by simp)
  | verify msg => exact safe (handleVerifyPara_gives earlierKept good.1 good.2 _ inside)
  | ldrPrepare msg => exact safe (handleLdrPreparePara_kept good.1 _ inside)
  | prepare msg => exact safe (handlePreparePara_kept msg _ inside)
  | preCommit msg => exact safe (handlePrecommitPara_kept msg _ inside)
  | commit msg => exact safe (handleCommitPara_kept positive earlierKept msg _ inside)

/-- Every reaction to the environment is safe. -/
theorem input_safe (positive : 0 < cfg.qsize) (depth : Nat)
    {net : Net HandlerPara MsgPara ParaEvent} {i : Input}
    (inside : (knowledge cfg).Inside p net.history ⟨net.nodes p, net.sent, net.history⟩) :
    (knowledge cfg).Safe p net.history ((protocol cfg depth).input i)
      ⟨net.nodes p, net.sent, net.history⟩ := by
  have earlierKept : EarlierKept cfg p net.history (handleEarlierMessagesPara cfg depth) :=
    handleEarlierMessagesPara_kept positive depth
  have kept : Keeps ((knowledge cfg).Inside p net.history) ((protocol cfg depth).input i) := by
    cases i with
    | start cid =>
      apply keeps_this.bind
      intro h
      refine Keeps.bind (kept_modify fun h' => ?_) fun _ => keeps_ite (fun _ => ?_)
        fun _ => keeps_pure ()
      · split <;> exact ⟨rfl, rfl, rfl, rfl, rfl, rfl⟩
      · refine Keeps.bind (fun l inside => ?_) fun _ => getStarted_kept positive
        have own : Own cfg p l.node l.history := inside.own
        exact inside.node (own.node rfl rfl own.trusted rfl rfl rfl)
    | transaction trans =>
      apply keeps_this.bind
      intro h
      split
      · apply kept_modify
        exact fun _ => ⟨rfl, rfl, rfl, rfl, rfl, rfl⟩
      · exact keeps_pure ()
    | timeout =>
      apply keeps_this.bind
      intro h
      refine keeps_ite (fun _ => ?_) fun _ => keeps_pure ()
      exact keeps_ite (fun _ => keeps_halt) fun _ => startNewViewPara_kept positive earlierKept
  exact (kept _ inside).mono (fun _ _ after => after) fun _ after => after.toLeft

omit [Hashing] in
theorem initial_holds (positive : 0 < cfg.qsize) (choices : PID → List Nat) :
    (knowledge cfg).Holds (initial cfg choices) where
  own := fun p _ => by
    have begun : Own cfg p (init cfg choices p) [] :=
      { myid := rfl
        small := by simp [init, wordSize]
        trusted := by simp [init, TrustedPara.init, wordSize]
        newviews := by simp [init, LogPara.empty]
        quorum := fun full => by
          simp only [init, LogPara.empty, Messages.held_empty, List.length_nil] at full
          omega
        begun := by simp [Begun]
        asked := by simp [Asked]
        proposed := by simp [Proposed]
        proposals := by simp [init, LogPara.empty]
        verifies := by simp [init, LogPara.empty] }
    exact begun
  facts := ⟨by simp [initial, Proposed], by simp [initial]⟩
  good := by simp [initial]

/-- What is known holds after every run of actions that are on time. -/
theorem run_holds (positive : 0 < cfg.qsize) (choices : PID → List Nat) (depth : Nat)
    {actions : List (Action Input)}
    (timely : Net.Meets (protocol cfg depth) (fun net action => onTime cfg net action = true)
      (initial cfg choices) actions) :
    (knowledge cfg).Holds ((initial cfg choices).run (protocol cfg depth) actions) :=
  Knowledge.Holds.run_meeting stable
    (fun _ _ _ _ timely sent running good inside =>
      receive_safe positive depth timely sent running good inside)
    (fun _ _ _ _ _ inside => input_safe positive depth inside) (initial_holds positive choices)
    timely

/-- The leader of each view proposes at most one block for each slot. -/
structure OneBlock (cfg : Config) (net : Net HandlerPara MsgPara ParaEvent) : Prop where
  signed : ∀ {v block block'}, Proposed cfg net.history v block →
    Proposed cfg net.history v block' → block.seqNumber = block'.seqNumber → block = block'
  sent : ∀ {d d' m m' rd rd'}, ⟨d, .ldrPrepare m⟩ ∈ net.sent → ⟨d', .ldrPrepare m'⟩ ∈ net.sent →
    m.prop.just.getRDataPara = some rd → m'.prop.just.getRDataPara = some rd' →
    rd.propv = rd'.propv → m.prop.block.seqNumber = m'.prop.block.seqNumber →
    m.prop.block = m'.prop.block

/-- Leaders begin to propose only on justifications of their current views. -/
def OwnView (net : Net HandlerPara MsgPara ParaEvent) : Prop :=
  ∀ {p v r}, ParaEvent.prepared p v r ∈ net.history → r.propv = v

/-- As long as answers to requests for blocks are on time, leaders propose one block for a slot. -/
theorem one_proposal (positive : 0 < cfg.qsize) (choices : PID → List Nat) (depth : Nat)
    (actions : List (Action Input))
    (timely : Net.Meets (protocol cfg depth) (fun net action => onTime cfg net action = true)
      (initial cfg choices) actions) :
    OneBlock cfg ((initial cfg choices).run (protocol cfg depth) actions)
      ∧ OwnView ((initial cfg choices).run (protocol cfg depth) actions) := by
  have known := run_holds positive choices depth timely
  have facts : Facts cfg _ := known.facts
  refine ⟨⟨facts.unique, ?_⟩, facts.justified⟩
  intro d d' m m' rd rd' first second tagged tagged' view slot
  -- Both proposals carry blocks the leader of their view has signed.
  obtain ⟨-, rd₁, same, proposed⟩ := known.good _ first
  obtain ⟨-, rd₂, same', proposed'⟩ := known.good _ second
  obtain rfl := Option.some.inj (tagged.symm.trans same)
  obtain rfl := Option.some.inj (tagged'.symm.trans same')
  exact facts.unique (view ▸ proposed) proposed' slot

end Runs

end Known

section Examples

/-- Four nodes and three blocks in a view. -/
def threeSlots : Config := { Schedule.fourNodes with maxBlocksInView := 3 }

/-- The last slot of view 0 is certified, but only its leader holds the one before; then view 1
begins, whose leader asks for that block. -/
def asking : List (Action Input) :=
  Schedule.startAll 4 ++ Schedule.deliver [0, 1, 3, 4, 5, 6, 12, 7, 13, 8, 14, 16, 18]
    ++ Schedule.timeouts [1, 0, 2, 3] ++ Schedule.deliver [24, 25, 27, 28, 29]

/-- The answer that brings the block comes first, and the others have nothing to add. -/
def answered : List (Action Input) := asking ++ Schedule.deliver [30, 31, 32]

/-- The block comes after two empty answers, and after a transaction. -/
def answeredLast : List (Action Input) :=
  asking ++ Schedule.deliver [31, 32] ++ [.input 1 (.transaction ⟨0, 1, []⟩)]
    ++ Schedule.deliver [30]

/-- The block comes when the leader leads a later view. -/
def answeredLate : List (Action Input) :=
  asking ++ Schedule.timeouts [1, 1, 1, 1] ++ Schedule.deliver [30]

/-- The run of a network with three slots in a view. -/
def after [Hashing] (actions : List (Action Input)) : Net HandlerPara MsgPara ParaEvent :=
  (initial threeSlots fun _ => []).run (protocol threeSlots 3) actions

/-- Whether two messages are proposals of different blocks for one slot of a view. -/
def conflict : MsgPara → MsgPara → Bool
  | .ldrPrepare m, .ldrPrepare m' =>
    match m.prop.just.getRDataPara, m'.prop.just.getRDataPara with
    | some rd, some rd' => rd.propv == rd'.propv
      && m.prop.block.seqNumber == m'.prop.block.seqNumber && m.prop.block != m'.prop.block
    | _, _ => false
  | _, _ => false

/-- Whether a leader began to propose on the justification of another view. -/
def foreign : ParaEvent → Bool
  | .prepared _ v r => r.propv != v
  | _ => false

/-- Such proposals show that a slot got two blocks. -/
theorem OneBlock.no_conflict {cfg : Config} {net : Net HandlerPara MsgPara ParaEvent}
    (one : OneBlock cfg net) {a b : Packet MsgPara} (first : a ∈ net.sent)
    (second : b ∈ net.sent) : conflict a.msg b.msg = false := by
  rw [Bool.eq_false_iff]
  intro conflicting
  obtain ⟨d, msg⟩ := a
  obtain ⟨d', msg'⟩ := b
  cases msg with
  | ldrPrepare m =>
    cases msg' with
    | ldrPrepare m' =>
      cases tagged : m.prop.just.getRDataPara with
      | none => simp [conflict, tagged] at conflicting
      | some rd =>
        cases tagged' : m'.prop.just.getRDataPara with
        | none => simp [conflict, tagged, tagged'] at conflicting
        | some rd' =>
          simp only [conflict, tagged, tagged', Bool.and_eq_true, beq_iff_eq,
            bne_iff_ne] at conflicting
          obtain ⟨⟨view, slot⟩, different⟩ := conflicting
          exact different (one.sent first second tagged tagged' view slot)
    | _ => cases conflicting
  | _ => cases conflicting

/-- Nor does a leader begin to propose on the justification of another view. -/
theorem OwnView.no_foreign {net : Net HandlerPara MsgPara ParaEvent} (own : OwnView net)
    {e : ParaEvent} (member : e ∈ net.history) : foreign e = false := by
  cases e with
  | prepared p v r => simpa [foreign] using own member
  | _ => rfl

/-- The leader of view 1 recovers the block in time and proposes once. -/
theorem one_proposal_recovered :
    let _ := Checksum.hashing
    Net.Meets (protocol threeSlots 3) (fun net action => onTime threeSlots net action = true)
        (initial threeSlots fun _ => []) answered
      ∧ OneBlock threeSlots (after answered) ∧ OwnView (after answered) := by
  intro _
  have timely : Net.Meets (protocol threeSlots 3)
      (fun net action => onTime threeSlots net action = true)
      (initial threeSlots fun _ => []) answered := by decide +kernel
  exact ⟨timely, one_proposal (by decide) (fun _ => []) 3 answered timely⟩

/-- Further answers make the leader propose again, and late ones on another view's justification. -/
theorem several_proposals :
    let _ := Checksum.hashing
    ¬ OneBlock threeSlots (after answeredLast) ∧ ¬ OwnView (after answeredLate) := by
  intro _
  constructor
  · intro one
    have twice : ∃ a ∈ (after answeredLast).sent, ∃ b ∈ (after answeredLast).sent,
        conflict a.msg b.msg = true := by decide +kernel
    obtain ⟨a, first, b, second, conflicting⟩ := twice
    exact absurd (conflicting.symm.trans (one.no_conflict first second)) (by simp)
  · intro own
    have late : ∃ e ∈ (after answeredLate).history, foreign e = true := by decide +kernel
    obtain ⟨e, member, other⟩ := late
    exact absurd (other.symm.trans (own.no_foreign member)) (by simp)

end Examples

end Slots

end HandlerPara

end ParaHotstuff
