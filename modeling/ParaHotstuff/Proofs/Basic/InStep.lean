import ParaHotstuff.Data.Checksum
import ParaHotstuff.Handler.Schedule
import ParaHotstuff.Proofs.Basic.Calls

/-! A basic node and its component go from view to view together. -/

namespace ParaHotstuff

namespace TrustedFun

variable {tf : TrustedFun} {v : View}

/-- A component is in one of the phases of a view, or it has just begun the next view. -/
def Level (tf : TrustedFun) (v : View) : Prop :=
  (tf.view = v ∧ (tf.phase = PH1_NEWVIEW ∨ tf.phase = PH1_PREPARE ∨ tf.phase = PH1_PRECOMMIT
      ∨ tf.phase = PH1_COMMIT))
    ∨ (tf.view = v + 1 ∧ tf.phase = PH1_NEWVIEW)

/-- How many statements the component signs up to the new-view statement of the next view. -/
def toGo (tf : TrustedFun) (v : View) : Nat := if tf.view = v then 5 - tf.phase.toNat else 1

theorem toGo_le : tf.toGo v ≤ 5 := by
  unfold toGo
  split <;> omega

/-- Any statement of the view takes the component one phase further. -/
theorem Level.signs (level : tf.Level v) (here : tf.view ≤ v) (room : v + 1 < wordSize) :
    tf.increment.Level v ∧ tf.increment.toGo v < tf.toGo v := by
  rcases level with ⟨rfl, phase⟩ | ⟨next, -⟩
  · have later : (tf.view + 1) % wordSize = tf.view + 1 := Nat.mod_eq_of_lt room
    have ahead : tf.view + 1 ≠ tf.view := Nat.succ_ne_self _
    -- The phases follow one after the other, and after the last one the next view begins.
    unfold increment Level toGo
    rcases phase with phase | phase | phase | phase <;>
      simp [phase, later, PH1_NEWVIEW, PH1_PREPARE, PH1_PRECOMMIT, PH1_COMMIT]
  · exact absurd here (by rw [next]; exact Nat.not_succ_le_self v)

/-- A component that has left the view has the new-view statement of the next one to sign. -/
theorem Level.late (level : tf.Level v) (late : v < tf.view) :
    tf.view = v + 1 ∧ tf.phase = PH1_NEWVIEW := by
  rcases level with ⟨here, -⟩ | next
  · exact absurd late (by rw [here]; exact Nat.lt_irrefl v)
  · exact next

end TrustedFun

namespace Handler

open Program Local

variable {cfg : Config} {l : State} {h : Handler} {v : View} {rdata : RData}
variable {H : List BasicEvent}

section Knowledge

/-- What a log holds for a view is about that view. -/
structure Filed (log : Log) : Prop where
  newviews : ∀ {v m}, m ∈ log.newviews.held v → m.rdata.propv = v
  prepares : ∀ {v m}, m ∈ log.prepares.held v → m.rdata.propv = v
  precommits : ∀ {v m}, m ∈ log.precommits.held v → m.rdata.propv = v
  proposals : ∀ {v m}, m ∈ log.proposals.held v →
    ∃ rdata, m.prop.just.getRData = some rdata ∧ rdata.propv = v

/-- A node whose component keeps up with it. -/
structure InStep (h : Handler) : Prop where
  small : h.view < wordSize
  within : h.tf.view < wordSize
  level : h.view + 1 < wordSize → h.tf.Level h.view
  filed : Filed h.log

/-- Nothing went wrong where a node entered a view. -/
def NothingWrong (H : List BasicEvent) : Prop := ∀ p v r, BasicEvent.wrong p v r ∉ H

/-- A node in step with its component, where nothing went wrong so far. -/
structure Orderly (l : State) : Prop where
  inStep : InStep l.node
  right : NothingWrong l.history

/-- Such a node while it works on a view. -/
structure At (v : View) (l : State) : Prop extends Orderly l where
  view : l.node.view = v

theorem Orderly.here (orderly : Orderly l) : At l.node.view l := ⟨orderly, rfl⟩

theorem NothingWrong.cons (right : NothingWrong H) {e : BasicEvent}
    (other : ∀ p v r, e ≠ .wrong p v r) : NothingWrong (e :: H) := by
  intro p v r member
  rcases List.mem_cons.1 member with new | old
  · exact other p v r new.symm
  · exact right p v r old

/-- Noting something else changes nothing. -/
theorem At.event (here : At v l) {e : BasicEvent} (other : ∀ p v r, e ≠ .wrong p v r) :
    At v { l with history := e :: l.history } :=
  { here with right := here.right.cons other }

/-- Packets are no concern of the component. -/
theorem At.sends (here : At v l) (packets : List (Packet MsgBasic)) :
    At v { l with sent := packets } := { here with }

/-- Nor is the block voted for. -/
theorem At.keeps (here : At v l) (block : Block) (rdata : RData) :
    At v { l with
      node := { l.node with blocks := l.node.blocks.insert l.node.view block }
      history := .voted l.node.myid rdata block l.node.tf.lockh l.node.tf.lockv :: l.history } where
  inStep := { here.inStep with }
  right := here.right.cons (by simp)
  view := here.view

/-- The component signs a statement of the view, or of an earlier one. -/
theorem At.signs (here : At v l) {tf : TrustedFun} (moved : tf.view = l.node.tf.view)
    (phase : tf.phase = l.node.tf.phase) (early : l.node.tf.view ≤ v) :
    At v { l with node := { l.node with tf := tf.increment } } where
  inStep :=
    { here.inStep with
      within := TrustedFun.view_increment_lt (by rw [moved]; exact here.inStep.within)
      level := fun room => by
        have level : tf.Level l.node.view := by
          unfold TrustedFun.Level
          rw [moved, phase]
          exact here.inStep.level room
        exact (level.signs (by rw [moved, here.view]; exact early) room).1 }
  right := here.right
  view := here.view

section Logs

theorem At.filing (here : At v l) {log : Log} (filed : Filed log) :
    At v { l with node := { l.node with log := log } } :=
  { here with inStep := { here.inStep with filed := filed } }

theorem At.storeNv (here : At v l) (m : MsgNewView) :
    At v { l with node := { l.node with log := (l.node.log.storeNv m).2 } } :=
  here.filing
    { here.inStep.filed with
      newviews := fun member => by
        rcases Messages.mem_store member with old | ⟨rfl, rfl⟩
        · exact here.inStep.filed.newviews old
        · rfl }

theorem At.storePrep (here : At v l) (m : MsgPrepare) :
    At v { l with node := { l.node with log := (l.node.log.storePrep m).2 } } :=
  here.filing
    { here.inStep.filed with
      prepares := fun member => by
        rcases Messages.mem_store member with old | ⟨rfl, rfl⟩
        · exact here.inStep.filed.prepares old
        · rfl }

theorem At.storePc (here : At v l) (m : MsgPreCommit) :
    At v { l with node := { l.node with log := (l.node.log.storePc m).2 } } :=
  here.filing
    { here.inStep.filed with
      precommits := fun member => by
        rcases Messages.mem_store member with old | ⟨rfl, rfl⟩
        · exact here.inStep.filed.precommits old
        · rfl }

theorem At.storeCom (here : At v l) (m : MsgCommit) :
    At v { l with node := { l.node with log := (l.node.log.storeCom m).2 } } :=
  here.filing { here.inStep.filed with }

theorem keeps_storeProp {msg : MsgLdrPrepare} : Keeps Orderly (storeProp msg) := by
  intro l orderly
  cases tagged : msg.prop.just.getRData with
  | none =>
    simp only [storeProp, Log.storeProp, tagged, gives_bind, gives_this, gives_ofOption_none]
    exact orderly
  | some rdata =>
    simp only [storeProp, Log.storeProp, tagged, gives_bind, gives_this, gives_ofOption_some,
      gives_modify]
    have filed : Filed { l.node.log with proposals :=
        (l.node.log.proposals.store (·.signs) MsgLdrPrepare.lt rdata.propv msg).2 } :=
      { orderly.inStep.filed with
        proposals := fun member => by
          rcases Messages.mem_store member with old | ⟨rfl, rfl⟩
          · exact orderly.inStep.filed.proposals old
          · exact ⟨rdata, tagged, rfl⟩ }
    exact (orderly.here.filing filed).toOrderly

end Logs

end Knowledge

section Calls

variable {just : Just}

/-- What a call to the component answers is about the view, or about an earlier one. -/
structure Answered (v : View) (out : Just) (l : State) : Prop extends At v l where
  le : ∀ rd, out.getRData = some rd → rd.propv ≤ v

theorem At.refused (here : At v l) : Answered v Just.default l :=
  ⟨here, fun rd tagged => by
    obtain rfl := Option.some.inj tagged
    exact Nat.zero_le v⟩

/-- A call for a vote, on a report for the view, leaves the node in step. -/
theorem At.callTEEprepare {hash : Hash} (here : At v l)
    (le : ∀ rd, just.getRData = some rd → rd.propv ≤ v) :
    (callTEEprepare cfg hash just).Gives (Answered v) Orderly l := by
  refine callTEEprepare_answer here.toOrderly here.refused fun rd tagged votes => ?_
  -- The component votes only on reports for its own view.
  have early : l.node.tf.view ≤ v := by
    rw [((TrustedFun.votesOn_iff tagged).1 votes).2.1]
    exact le rd tagged
  refine ⟨here.signs rfl rfl early, fun r same => ?_⟩
  obtain rfl := Option.some.inj same
  exact early

/-- So does a call with a certificate for the view. -/
theorem At.callTEEstore (here : At v l) (le : ∀ rd, just.getRData = some rd → rd.propv ≤ v) :
    (callTEEstore cfg just).Gives (Answered v) Orderly l := by
  simp only [Handler.callTEEstore, gives_bind, gives_this]
  refine gives_ofOption (fun result called => ?_) fun _ => here.toOrderly
  obtain ⟨out, tf'⟩ := result
  cases answer : out.set with
  | false =>
    obtain ⟨rfl, rfl⟩ := TrustedFun.TEEstore_unset called answer
    simpa [answer] using here.refused
  | true =>
    obtain ⟨rd, tagged, -, -, current, -, signed⟩ := TrustedFun.TEEstore_set called answer
    have early : l.node.tf.view ≤ v := by
      rw [current]
      exact le rd tagged
    simp only [TrustedFun.sign, Prod.mk.injEq] at signed
    obtain ⟨rfl, rfl⟩ := signed
    have signs : At v { l with node := { l.node with
        tf := (l.node.tf.storeBlock rd.proph rd.propv).increment } } :=
      here.signs rfl rfl early
    refine ⟨signs.event (by simp), fun r same => ?_⟩
    obtain rfl := Option.some.inj same
    exact early

/-- A statement signed to skip a phase of the view leaves the node in step. -/
theorem At.callTEEsign (here : At v l) (early : l.node.tf.view ≤ v) :
    At v { l with node := { l.node with tf := l.node.tf.increment } } :=
  here.signs rfl rfl early

end Calls

section Handlers

variable [Hashing] {next : M Unit}

/-- Executing enters the next view, from where the node goes on in step. -/
theorem keeps_executing (nextKept : Keeps Orderly next) :
    Keeps Orderly (executeRData cfg next rdata) := by
  intro l orderly
  have noted := (orderly.here.event (e := .executed l.node.myid l.node.view rdata)
    (by simp)).toOrderly
  have rest : ∀ queue, Gives (if cfg.timeToStop l.node.view = true then pure () else next)
      (fun _ => Orderly) Orderly
      { l with
        node := { l.node with rep_queue := queue }
        history := .executed l.node.myid l.node.view rdata :: l.history } := fun queue =>
    have after : Orderly
        { l with
          node := { l.node with rep_queue := queue }
          history := .executed l.node.myid l.node.view rdata :: l.history } :=
      { noted with inStep := { noted.inStep with } }
    gives_ite (fun _ => after) fun _ => nextKept _ after
  simp only [executeRData, gives_bind, gives_this, gives_note, replyHash]
  -- The clients are answered, or not, before the next view.
  split
  · refine gives_ite (fun _ => ?_) (fun _ => ?_)
    · simpa using rest _
    · simpa using rest l.node.rep_queue
  · simpa using rest l.node.rep_queue

theorem keeps_initiatingCommit (nextKept : Keeps Orderly next) :
    Keeps Orderly (initiateCommit cfg next rdata) := by
  intro l orderly
  simp only [initiateCommit, gives_bind, gives_this]
  refine gives_ite (fun _ => ?_) fun _ => orderly
  rw [gives_bind, gives_multicast]
  exact keeps_executing nextKept _ { orderly with }

theorem At.initiatePrecommit (nextKept : Keeps Orderly next) (here : At v l)
    (le : rdata.propv ≤ v) :
    (initiatePrecommit cfg next rdata).Gives (fun _ => Orderly) Orderly l := by
  simp only [Handler.initiatePrecommit, gives_bind, gives_this]
  refine gives_ite (fun _ => ?_) fun _ => here.toOrderly
  simp only [gives_bind, gives_multicast]
  refine ((here.sends _).callTEEstore fun rd tagged => ?_).mono (fun out l' answered => ?_)
    fun _ left => left
  · obtain rfl := Option.some.inj tagged
    exact le
  refine gives_ofOption (fun rdataCom _ => ?_) fun _ => answered.toOrderly
  rw [gives_storeCom]
  have stored := answered.toAt.storeCom ⟨rdataCom, out.signs⟩
  -- With a quorum of commit votes the leader executes at once.
  exact gives_ite (fun _ => keeps_initiatingCommit nextKept _ stored.toOrderly)
    fun _ => stored.toOrderly

theorem At.initiatePrepare (nextKept : Keeps Orderly next) (here : At v l)
    (le : rdata.propv ≤ v) :
    (initiatePrepare cfg next rdata).Gives (fun _ => Orderly) Orderly l := by
  simp only [Handler.initiatePrepare, gives_bind, gives_this]
  refine gives_ite (fun _ => ?_) fun _ => here.toOrderly
  simp only [gives_bind, gives_multicast]
  refine ((here.sends _).callTEEstore fun rd tagged => ?_).mono (fun out l' answered => ?_)
    fun _ left => left
  · obtain rfl := Option.some.inj tagged
    exact le
  refine gives_ofOption (fun rdataPc tagged => ?_) fun _ => answered.toOrderly
  rw [gives_storePc]
  have stored := answered.toAt.storePc ⟨rdataPc, out.signs⟩
  exact gives_ite (fun _ => stored.initiatePrecommit nextKept (answered.le rdataPc tagged))
    fun _ => stored.toOrderly

/-- A leader proposes on a report for its view. -/
theorem keeps_preparing (nextKept : Keeps Orderly next) :
    Keeps Orderly (prepare cfg next) := by
  intro l orderly
  have here := orderly.here
  -- What the log holds for the view is about the view; without a report, view 0 is reported.
  have reported : ∀ rd, (l.node.log.findHighestNv l.node.view).getRData = some rd →
      rd.propv ≤ l.node.view := by
    intro rd tagged
    rcases l.node.log.findHighestNv_mem l.node.view with ⟨-, none_held⟩ | ⟨m, held, found, -⟩
    · rw [none_held] at tagged
      exact here.refused.le rd tagged
    · rw [found] at tagged
      obtain rfl := Option.some.inj tagged
      exact (orderly.inStep.filed.newviews held).le
  simp only [prepare, createNewBlock, gives_bind, gives_this]
  refine gives_ofOption (fun rdataNV _ => ?_) fun _ => orderly
  simp only [gives_modify, gives_pure]
  have drained : At l.node.view { l with node := { l.node with
      transactions := l.node.transactions.drop cfg.maxNumTransactions } } :=
    { here with inStep := { here.inStep with } }
  refine (drained.callTEEprepare reported).mono (fun out l' answered => ?_) fun _ left => left
  refine gives_ite (fun _ => ?_) fun _ => answered.toOrderly
  rw [gives_bind]
  refine gives_ofOption (fun rdata tagged => ?_) fun _ => answered.toOrderly
  simp only [gives_bind, gives_keepBlock, gives_multicast, gives_storePrep]
  have stored := fun (block : Block) (packets : List (Packet MsgBasic)) =>
    ((answered.keeps block rdata).sends packets).storePrep ⟨rdata, out.signs⟩
  exact gives_ite
    (fun _ => (stored _ _).initiatePrepare nextKept (answered.le rdata tagged))
    fun _ => (stored _ _).toOrderly

/-- A backup answers a proposal on a report for its view. -/
theorem At.respondToProposal {just : Just} {block : Block} (here : At v l)
    (le : ∀ rd, just.getRData = some rd → rd.propv ≤ v) :
    (respondToProposal cfg just block).Gives (fun _ => Orderly) Orderly l := by
  simp only [Handler.respondToProposal, gives_bind]
  refine (here.callTEEprepare le).mono (fun out l' answered => ?_) fun _ left => left
  refine gives_ite (fun _ => ?_) fun _ => answered.toOrderly
  rw [gives_bind]
  refine gives_ofOption (fun rdata _ => ?_) fun _ => answered.toOrderly
  simp only [gives_bind, gives_keepBlock, gives_this, gives_multicast]
  exact ((answered.keeps block rdata).sends _).toOrderly

omit [Hashing] in
/-- A backup answers a prepare certificate for its view. -/
theorem At.respondToPrepareJust {just : Just} (here : At v l)
    (le : ∀ rd, just.getRData = some rd → rd.propv ≤ v) :
    (respondToPrepareJust cfg just).Gives (fun _ => Orderly) Orderly l := by
  simp only [Handler.respondToPrepareJust, gives_bind]
  refine (here.callTEEstore le).mono (fun out l' answered => ?_) fun _ left => left
  refine gives_ofOption (fun rdata _ => ?_) fun _ => answered.toOrderly
  simp only [gives_this, gives_multicast]
  exact (answered.sends _).toOrderly

omit [Hashing] in
theorem At.respondToPreCommitJust {just : Just} (here : At v l)
    (le : ∀ rd, just.getRData = some rd → rd.propv ≤ v) :
    (respondToPreCommitJust cfg just).Gives (fun _ => Orderly) Orderly l := by
  simp only [Handler.respondToPreCommitJust, gives_bind]
  refine (here.callTEEstore le).mono (fun out l' answered => ?_) fun _ left => left
  refine gives_ofOption (fun rdata _ => ?_) fun _ => answered.toOrderly
  simp only [gives_this, gives_multicast]
  exact (answered.sends _).toOrderly

/-- A node that has just entered its view skips no more phases than the view has. -/
theorem At.handleEarlierMessages (nextKept : Keeps Orderly next) (here : At v l)
    (now : l.node.tf.view = v) (phase : l.node.tf.phase = PH1_PREPARE) :
    (handleEarlierMessages cfg next).Gives (fun _ => Orderly) Orderly l := by
  simp only [Handler.handleEarlierMessages, gives_bind, gives_this, gives_amCurrentLeader]
  refine gives_ite (fun _ => ?_) fun _ => ?_
  · exact gives_ite (fun _ => keeps_preparing nextKept l here.toOrderly) fun _ => here.toOrderly
  -- A backup signs once for each phase that it finds decided already.
  have skipped := here.callTEEsign now.le
  have stays : l.node.tf.increment.view = v := by
    simp only [TrustedFun.increment, phase]
    exact now
  -- The certificate it answers then is about its view, as all that is held for it.
  have held : ∀ {kept : Messages View MsgRData},
      (∀ {w m}, m ∈ kept.held w → m.rdata.propv = w) →
      ∀ rd, (Log.firstOf kept l.node.view).getRData = some rd → rd.propv ≤ v := by
    intro kept filed rd tagged
    unfold Log.firstOf at tagged
    cases found : kept.first l.node.view with
    | none =>
      rw [found] at tagged
      exact here.refused.le rd tagged
    | some m =>
      rw [found] at tagged
      obtain rfl := Option.some.inj tagged
      exact ((filed (Messages.mem_of_first found)).trans here.view).le
  refine gives_ite (fun _ => ?_) fun _ => gives_ite (fun _ => ?_) fun _ => ?_
  · -- Two phases are skipped, and the third one is signed.
    simp only [gives_bind, gives_callTEEsign]
    refine ((skipped.callTEEsign stays.le).respondToPreCommitJust
      (held here.inStep.filed.precommits)).mono (fun _ l' after => ?_) fun _ left => left
    refine gives_ite (fun _ => ?_) fun _ => after
    rw [gives_bind]
    exact gives_ofOption (fun rdata _ => keeps_executing nextKept l' after) fun _ => after
  · simp only [gives_bind, gives_callTEEsign]
    exact skipped.respondToPrepareJust (held here.inStep.filed.prepares)
  · split
    · rename_i msgProp found
      refine gives_ite (fun _ => here.respondToProposal fun rd tagged => ?_)
        fun _ => here.toOrderly
      obtain ⟨rdata, tagged', view⟩ := here.inStep.filed.proposals (Messages.mem_of_first found)
      obtain rfl := Option.some.inj (tagged.symm.trans tagged')
      exact (view.trans here.view).le
    · exact here.toOrderly

theorem keeps_handlingNewview (nextKept : Keeps Orderly next) {msg : MsgNewView} :
    Keeps Orderly (handleNewview cfg next msg) := by
  intro l orderly
  simp only [handleNewview, gives_bind, gives_this]
  refine gives_ite (fun _ => ?_) fun _ => orderly
  rw [gives_bind, gives_storeNv]
  have stored := (orderly.here.storeNv msg).toOrderly
  exact gives_ite (fun _ => keeps_preparing nextKept _ stored) fun _ => stored

theorem keeps_handlingLdrPrepare {msg : MsgLdrPrepare} :
    Keeps Orderly (handleLdrPrepare cfg msg) := by
  intro l orderly
  simp only [handleLdrPrepare, gives_bind, gives_this]
  refine gives_ofOption (fun rdataNV tagged => ?_) fun _ => orderly
  refine gives_ite (fun _ => gives_ite (fun current => ?_) fun _ => ?_) fun _ => orderly
  -- Only a proposal for the node's own view is answered; later ones wait in the log.
  · refine orderly.here.respondToProposal fun rd same => ?_
    obtain rfl := Option.some.inj (same.symm.trans tagged)
    exact (beq_iff_eq.1 current).le
  · exact keeps_storeProp l orderly

theorem keeps_handlingPrepare (nextKept : Keeps Orderly next) {msg : MsgPrepare} :
    Keeps Orderly (handlePrepare cfg next msg) := by
  intro l orderly
  have stored := orderly.here.storePrep msg
  simp only [handlePrepare, gives_bind, gives_this]
  refine gives_ite (fun current => ?_) fun _ => gives_ite (fun _ => ?_) fun _ => orderly
  · have current : msg.rdata.propv ≤ l.node.view := (beq_iff_eq.1 current).le
    rw [gives_bind, gives_amCurrentLeader]
    refine gives_ite (fun _ => ?_) fun _ => gives_ite (fun _ => ?_) fun _ => orderly
    · rw [gives_bind, gives_storePrep]
      exact gives_ite (fun _ => stored.initiatePrepare nextKept current) fun _ => stored.toOrderly
    · refine orderly.here.respondToPrepareJust fun rd tagged => ?_
      obtain rfl := Option.some.inj tagged
      exact current
  · exact stored.toOrderly

theorem keeps_handlingPrecommit (nextKept : Keeps Orderly next) {msg : MsgPreCommit} :
    Keeps Orderly (handlePrecommit cfg next msg) := by
  intro l orderly
  have stored := orderly.here.storePc msg
  simp only [handlePrecommit, gives_bind, gives_this]
  refine gives_ite (fun current => ?_) fun _ => gives_ite (fun _ => ?_) fun _ => orderly
  · simp only [Bool.and_eq_true, beq_iff_eq] at current
    rw [gives_bind, gives_amCurrentLeader]
    refine gives_ite (fun _ => ?_) fun _ => gives_ite (fun _ => ?_) fun _ => orderly
    · rw [gives_bind, gives_storePc]
      exact gives_ite (fun _ => stored.initiatePrecommit nextKept current.1.le)
        fun _ => stored.toOrderly
    · refine orderly.here.respondToPreCommitJust fun rd tagged => ?_
      obtain rfl := Option.some.inj tagged
      exact current.1.le
  · exact stored.toOrderly

theorem keeps_handlingCommit (nextKept : Keeps Orderly next) {msg : MsgCommit} :
    Keeps Orderly (handleCommit cfg next msg) := by
  intro l orderly
  have stored := (orderly.here.storeCom msg).toOrderly
  simp only [handleCommit, gives_bind, gives_this]
  refine gives_ite (fun _ => ?_) fun _ => gives_ite (fun _ => ?_) fun _ => orderly
  · rw [gives_bind, gives_amCurrentLeader]
    refine gives_ite (fun _ => ?_) fun _ => gives_ite (fun _ => ?_) fun _ => orderly
    · rw [gives_bind, gives_storeCom]
      exact gives_ite (fun _ => keeps_initiatingCommit nextKept _ stored) fun _ => stored
    · exact keeps_executing nextKept l orderly
  · exact gives_ite (fun _ => stored) fun _ => gives_ite (fun _ => stored) fun _ => orderly

end Handlers

section Entering

/-- A statement is a new-view statement for a view. -/
def Reports (just : Just) (v : View) : Prop :=
  ∃ rd, just.getRData = some rd ∧ rd.propv = v ∧ rd.phase = PH1_NEWVIEW

/--
Where the component keeps up, signing on comes to the new-view statement of the next view.

The component is then to vote in that view. It has not come there only if the rounds were too few.
-/
theorem signUntil_level {rounds : Nat} {tf : TrustedFun} (level : tf.Level v)
    (room : v + 1 < wordSize) :
    (signUntil rounds v).Gives
      (fun just l' => Reports just (v + 1) ∧ ∃ tf', l' = { l with node := { l.node with tf := tf' } }
        ∧ tf'.view = v + 1 ∧ tf'.phase = PH1_PREPARE)
      (fun l' => rounds < tf.toGo v ∧ ∃ tf', l' = { l with node := { l.node with tf := tf' } }
        ∧ tf'.Level v)
      { l with node := { l.node with tf := tf } } := by
  -- Induction on the rounds; each one brings the component nearer to the next view.
  induction rounds generalizing tf with
  | zero =>
    refine ⟨?_, tf, rfl, level⟩
    unfold TrustedFun.toGo
    rcases level with ⟨here, phase⟩ | ⟨next, phase⟩
    · rw [if_pos here]
      rcases phase with phase | phase | phase | phase <;>
        simp [phase, PH1_NEWVIEW, PH1_PREPARE, PH1_PRECOMMIT, PH1_COMMIT]
    · rw [if_neg (by rw [next]; exact Nat.succ_ne_self v)]
      exact Nat.one_pos
  | succ rounds ih =>
    simp only [signUntil, gives_bind, gives_callTEEsign, TrustedFun.TEEsign, TrustedFun.sign,
      Just.getRData_ofRData, gives_ofOption_some, TrustedFun.statement]
    refine gives_ite (fun early => ?_) fun late => ?_
    · obtain ⟨level', nearer⟩ := level.signs early room
      -- Fewer statements are to go, by one at least.
      refine (ih level').mono (fun _ _ reached => reached) ?_
      rintro l' ⟨short, left⟩
      exact ⟨by omega, left⟩
    -- A statement of a later view can only be the first one of the next view.
    · obtain ⟨view, phase⟩ := level.late (Nat.lt_of_not_le late)
      refine ⟨⟨_, rfl, view, phase⟩, tf.increment, rfl, ?_⟩
      unfold TrustedFun.increment
      rw [phase]
      exact ⟨view, rfl⟩

/-- From the last view on the component signs forever. -/
theorem signUntil_endless {rounds : Nat} {tf : TrustedFun} (within : tf.view < wordSize)
    (last : wordSize ≤ v + 1) :
    (signUntil rounds v).Gives (fun _ _ => False)
      (fun l' => ∃ tf', l' = { l with node := { l.node with tf := tf' } } ∧ tf'.view < wordSize)
      { l with node := { l.node with tf := tf } } := by
  induction rounds generalizing tf with
  | zero => exact ⟨tf, rfl, within⟩
  | succ rounds ih =>
    simp only [signUntil, gives_bind, gives_callTEEsign, TrustedFun.TEEsign, TrustedFun.sign,
      Just.getRData_ofRData, gives_ofOption_some, TrustedFun.statement]
    exact gives_ite (fun _ => ih (TrustedFun.view_increment_lt within)) fun late => by lia

variable [Hashing]

/-- A node in step enters the next view with a new-view statement for it. -/
theorem keeps_startingNewView (depth : Nat) : Keeps Orderly (startNewView cfg depth) := by
  -- Induction on the depth: the views entered from within are entered with less of it.
  induction depth with
  | zero => exact keeps_halt
  | succ depth ih =>
    intro l orderly
    simp only [startNewView, gives_bind, gives_this, gives_modify, gives_setTimer]
    by_cases room : l.node.view + 1 < wordSize
    · refine (@signUntil_level l l.node.view (depth + 1) l.node.tf (orderly.inStep.level room)
        room).mono ?_ ?_
      · rintro just l' ⟨⟨rd, tagged, view, phase⟩, tf, rfl, now, ready⟩
        have entered : (l.node.view + 1) % wordSize = l.node.view + 1 := Nat.mod_eq_of_lt room
        -- The test on the statement finds the view and the phase that the node expects.
        rw [tagged, gives_ofOption_some, view, phase]
        simp only [entered, beq_self_eq_true, Bool.and_true, if_true, gives_bind, gives_note,
          gives_amCurrentLeader]
        -- Node and component are in the next view now, and the component is to vote there.
        have here : At (l.node.view + 1)
            { l with
              node := { l.node with tf := tf, view := l.node.view + 1, timer := true }
              history := .newview l.node.myid rd :: l.history } :=
          { inStep :=
              { small := room
                within := by
                  rw [now]
                  exact room
                level := fun _ => .inl ⟨now, .inr (.inl ready)⟩
                filed := orderly.inStep.filed }
            right := orderly.right.cons (by simp)
            view := rfl }
        refine gives_ite (fun _ => ?_) fun _ => ?_
        · rw [gives_bind]
          exact (here.handleEarlierMessages ih now ready).mono
            (fun _ l' after => keeps_handlingNewview ih l' after) fun _ left => left
        · rw [gives_bind, gives_multicast]
          exact (here.sends _).handleEarlierMessages ih now ready
      · rintro l' ⟨-, tf, rfl, level⟩
        exact
          { inStep :=
              { orderly.inStep with
                within := by
                  rcases level with ⟨view, -⟩ | ⟨view, -⟩ <;> rw [view]
                  · exact orderly.inStep.small
                  · exact room
                level := fun _ => level }
            right := orderly.right }
    · -- There is no later view, and the component signs forever.
      refine (@signUntil_endless l l.node.view (depth + 1) l.node.tf orderly.inStep.within
        (Nat.le_of_not_lt room)).mono (fun _ _ none' => none'.elim) ?_
      rintro l' ⟨tf, rfl, within⟩
      exact
        { inStep := { orderly.inStep with within := within, level := fun later => absurd later room }
          right := orderly.right }

/-- A node that starts while its component is in its view stays in step. -/
theorem At.getStarted (here : At v l) (timely : l.node.tf.view ≤ v) (depth : Nat) :
    (getStarted cfg depth).Gives (fun _ => Orderly) Orderly l := by
  -- The start signs one statement, in whatever phase of the view the component is.
  have signed := here.callTEEsign timely
  have rest : ∀ {l' : State} (rdata : RData) (signs : Signs) (recipients : List PID), Orderly l' →
      (sendNewview cfg (startNewView cfg depth) ⟨rdata, signs⟩ recipients).Gives
        (fun _ => Orderly) Orderly l' := by
    intro l' rdata signs recipients orderly
    unfold sendNewview
    rw [gives_bind, gives_amCurrentLeader]
    exact gives_ite (fun _ => keeps_handlingNewview (keeps_startingNewView depth) l' orderly)
      fun _ => (orderly.here.sends _).toOrderly
  simp only [Handler.getStarted, gives_bind, gives_callTEEsign, TrustedFun.TEEsign,
    TrustedFun.sign, Just.getRData_ofRData, gives_ofOption_some, gives_this]
  refine gives_ite (fun _ => ?_) fun _ => ?_
  · rw [gives_bind, gives_note]
    exact rest _ _ _ (signed.event (by simp)).toOrderly
  · exact rest _ _ _ signed.toOrderly

/-- A start finds a node that has not started, and its component, in the same view. -/
def Timely (h : Handler) : Stimulus MsgBasic Input → Prop
  | .input (.start _) => h.started = false → h.tf.view = h.view
  | _ => True

instance (h : Handler) : (stimulus : Stimulus MsgBasic Input) → Decidable (Timely h stimulus)
  | .input (.start _) => inferInstanceAs (Decidable (_ → _))
  | .input (.transaction _) => isTrue trivial
  | .input .timeout => isTrue trivial
  | .message _ => isTrue trivial

theorem answer_inStep (depth : Nat) (orderly : Orderly l) {stimulus : Stimulus MsgBasic Input}
    (timely : Timely l.node stimulus) :
    ((protocol cfg depth).answer stimulus).Gives (fun _ => Orderly) Orderly l := by
  have nextKept : Keeps Orderly (startNewView cfg depth) := keeps_startingNewView depth
  cases stimulus with
  | message msg =>
    cases msg with
    | newView m => exact keeps_handlingNewview nextKept l orderly
    | ldrPrepare m => exact keeps_handlingLdrPrepare l orderly
    | prepare m => exact keeps_handlingPrepare nextKept l orderly
    | preCommit m => exact keeps_handlingPrecommit nextKept l orderly
    | commit m => exact keeps_handlingCommit nextKept l orderly
  | input i =>
    cases i with
    | start cid =>
      have begun : ∀ clients, Gives (do
          if !l.node.started then
            modify fun h => { h with started := true }
            getStarted cfg depth)
          (fun _ => Orderly) Orderly { l with node := { l.node with clients := clients } } := by
        intro clients
        -- A further client is noted, which changes nothing else.
        have known : Orderly { l with node := { l.node with clients := clients } } :=
          { orderly with inStep := { orderly.inStep with } }
        refine gives_ite (fun fresh => ?_) fun _ => known
        rw [gives_bind, gives_modify]
        have started : At l.node.view
            { l with node := { l.node with clients := clients, started := true } } :=
          { known with inStep := { known.inStep with }, view := rfl }
        exact started.getStarted (timely (by simpa using fresh)).le depth
      simp only [Protocol.answer, protocol, handle_start, gives_bind, gives_this]
      exact gives_ite (fun _ => begun _) fun _ => begun l.node.clients
    | transaction trans =>
      simp only [Protocol.answer, protocol, handleTransaction, gives_bind, gives_this]
      split
      · exact { orderly with inStep := { orderly.inStep with } }
      · exact orderly
    | timeout =>
      simp only [Protocol.answer, protocol, handleTimeout, gives_bind, gives_this]
      refine gives_ite (fun _ => gives_ite (fun _ => orderly) fun _ => ?_) fun _ => orderly
      exact nextKept l orderly

end Entering

section Runs

theorem inStep_init (p : PID) : InStep (init cfg p) where
  small := show 0 < wordSize by decide
  within := show 0 < wordSize by decide
  level := fun _ => .inl ⟨rfl, .inl rfl⟩
  filed :=
    { newviews := fun member => by simp [init, Log.empty] at member
      prepares := fun member => by simp [init, Log.empty] at member
      precommits := fun member => by simp [init, Log.empty] at member
      proposals := fun member => by simp [init, Log.empty] at member }

/--
Every node is in the view of its component, unless that has just begun the next view; it can leave
its view with a new-view statement for the next one, while there is one; and wherever a node left a
view it did so.
-/
structure StaysInStep (net : Net Handler MsgBasic BasicEvent) : Prop where
  level : ∀ p, (net.nodes p).view + 1 < wordSize →
    (net.nodes p).tf.view = (net.nodes p).view
      ∨ ((net.nodes p).tf.view = (net.nodes p).view + 1 ∧ (net.nodes p).tf.phase = PH1_NEWVIEW)
  obtains : ∀ p rounds sent history, (net.nodes p).view + 1 < wordSize →
    (signUntil (rounds + 5) (net.nodes p).view).Gives
      (fun just _ => Reports just ((net.nodes p).view + 1)) (fun _ => False)
      ⟨net.nodes p, sent, history⟩
  right : NothingWrong net.history

theorem InStep.obtains (inStep : InStep h) (room : h.view + 1 < wordSize) (rounds : Nat)
    (sent : List (Packet MsgBasic)) :
    (signUntil (rounds + 5) h.view).Gives (fun just _ => Reports just (h.view + 1))
      (fun _ => False) ⟨h, sent, H⟩ := by
  refine (@signUntil_level ⟨h, sent, H⟩ h.view (rounds + 5) h.tf (inStep.level room) room).mono
    (fun just _ reached => reached.1) fun _ ⟨short, _⟩ => ?_
  -- Five statements are always enough.
  exact absurd (Nat.lt_of_lt_of_le short TrustedFun.toGo_le) (by omega)

variable [Hashing]

/--
In every run in which each node starts while its component is in its view, the nodes and their
components stay in step.
-/
theorem staysInStep_of_timely {depth : Nat} {actions : List (Action Input)}
    (timely : Net.Meets (protocol cfg depth) (Net.Finds Timely) (initial cfg) actions) :
    StaysInStep ((initial cfg).run (protocol cfg depth) actions) := by
  have reached : ((initial cfg).run (protocol cfg depth) actions).Known (fun _ => InStep)
      (fun _ => InStep) NothingWrong := by
    refine Net.known_run (fun p l stimulus inStep right fine => ?_) ?_ timely
    · exact (answer_inStep depth ⟨inStep, right⟩ fine).mono
        (fun _ _ after => ⟨after.inStep, after.right⟩) fun _ after => ⟨after.inStep, after.right⟩
    · exact
        { running := fun p _ => inStep_init p
          halted := fun p _ => inStep_init p
          facts := fun p v r member => by simp [initial] at member }
  have each : ∀ p, InStep (((initial cfg).run (protocol cfg depth) actions).nodes p) := by
    intro p
    cases stopped : ((initial cfg).run (protocol cfg depth) actions).stopped p with
    | false => exact reached.running p stopped
    | true => exact reached.halted p stopped
  exact
    { level := fun p room => ((each p).level room).imp_left And.left
      obtains := fun p rounds sent _ room => (each p).obtains room rounds sent
      right := reached.facts }

omit [Hashing] in
/-- All nodes but one start, and go through the first view and most of the second one. -/
def lateStarter : List (Action Input) :=
  Schedule.startAll 3 ++ Schedule.deliverFrom 0 44

omit [Hashing] in
/-- A node that starts after its first vote in view 0 is still in step. -/
theorem staysInStep_of_timely_firstView :
    let _ := Checksum.hashing
    StaysInStep ((initial Schedule.fourNodes).run (protocol Schedule.fourNodes 5)
      (Schedule.startAll 3 ++ Schedule.deliverFrom 0 8 ++ [.input 3 (.start 0)]
        ++ Schedule.deliverFrom 8 20)) :=
  @staysInStep_of_timely Schedule.fourNodes Checksum.hashing 5 _ (by decide +kernel)

omit [Hashing] in
/--
A node that starts after it has voted in all phases of view 1 leaves its component behind in view 2,
and when it enters that view itself, it has no new-view statement for it.
-/
theorem staysInStep_lateStarter :
    let _ := Checksum.hashing
    let run := (initial Schedule.fourNodes).run (protocol Schedule.fourNodes 5)
    ¬ StaysInStep (run (lateStarter ++ [.input 3 (.start 0)]))
      ∧ ∃ r, r.phase ≠ PH1_NEWVIEW ∧ BasicEvent.wrong 3 2 r
        ∈ (run (lateStarter ++ [.input 3 (.start 0), .deliver 46])).history := by
  intro hashing run
  refine ⟨fun inStep => ?_, ?_⟩
  · have level := inStep.level (3 : PID)
    revert level
    decide +kernel
  · have noted : ((run (lateStarter ++ [.input 3 (.start 0), .deliver 46])).history.any fun
        | .wrong p v r => p == 3 && v == 2 && r.phase != PH1_NEWVIEW
        | _ => false) = true := by decide +kernel
    obtain ⟨e, member, found⟩ := List.any_eq_true.1 noted
    cases e with
    | wrong p v r =>
      simp only [Bool.and_eq_true, beq_iff_eq, bne_iff_ne] at found
      obtain ⟨⟨rfl, rfl⟩, phase⟩ := found
      exact ⟨r, phase, member⟩
    | newview _ _ => cases found
    | voted _ _ _ _ _ => cases found
    | stored _ _ => cases found
    | executed _ _ _ => cases found

end Runs

end Handler

end ParaHotstuff
