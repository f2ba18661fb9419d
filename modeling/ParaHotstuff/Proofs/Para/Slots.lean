import ParaHotstuff.Proofs.Para.Proposals

/-! What keeps a leader of the parallel protocol from proposing two blocks for one slot. -/

namespace ParaHotstuff

namespace HandlerPara

namespace Slots

open Program Local

variable (cfg : Config)

section History

variable (H : List ParaEvent)

/-- A leader has begun to propose in a view. -/
def Begun (p : PID) (v : View) : Prop := ∃ r, ParaEvent.prepared p v r ∈ H

/-- The leader of a view has asked for blocks on a justification of the view. -/
def Asked (r : RDataPara) : Prop := ParaEvent.recovering (cfg.getLeaderOf r.propv) r ∈ H

/-- The component of the leader of a view has signed a block for the view. -/
def Proposed (v : View) (block : PBlock) : Prop :=
  ∃ r, ParaEvent.voted (cfg.getLeaderOf v) r block ∈ H ∧ r.propv = v

/-- Leaders propose one block for each slot, and on justifications of their views. -/
structure Facts : Prop where
  unique : ∀ {v block block'}, Proposed cfg H v block → Proposed cfg H v block' →
    block.seqNumber = block'.seqNumber → block = block'
  justified : ∀ {p v r}, ParaEvent.prepared p v r ∈ H → r.propv = v

/-- A proposal of another view's leader than the given node. -/
def Foreign (p : PID) (just : Just) : Prop :=
  ∀ rd, just.getRDataPara = some rd → cfg.getLeaderOf rd.propv ≠ p

/-- What is known of a node that runs. -/
structure Own (p : PID) (h : HandlerPara) (H : List ParaEvent) : Prop where
  myid : h.myid = p
  small : h.view < wordSize
  trusted : h.tpara.view < wordSize
  newviews : ∀ {v m}, m ∈ h.log.newviewsPara.held v → m.rdata.propv = v ∧ ∃ s, m.signs = [s]
  /-- With a quorum of reports for a view the node has entered that view. -/
  quorum : ∀ {v}, cfg.qsize ≤ (h.log.newviewsPara.held v).length → v ≤ h.view
  begun : ∀ {v}, Begun H p v → cfg.qsize ≤ (h.log.newviewsPara.held v).length
  asked : ∀ {r}, Asked cfg H r → cfg.getLeaderOf r.propv = p →
    cfg.qsize ≤ (h.log.newviewsPara.held r.propv).length
  /-- It proposes only after it has begun to. -/
  proposed : ∀ {v block}, Proposed cfg H v block → cfg.getLeaderOf v = p → Begun H p v
  proposals : ∀ {k m}, m ∈ h.log.proposalsPara.held k → Foreign cfg p m.prop.just
  verifies : ∀ {v m}, h.log.verifiesPara.lookup v = some m →
    cfg.getLeaderOf m.rdata.propv ≠ p ∧ m.rdata.propv < wordSize

/-- What is known of a packet; what a leader announces or proposes is not sent to itself. -/
def Good (packet : Packet MsgPara) (H : List ParaEvent) : Prop :=
  match packet.msg with
  | .newView m => m.rdata.propv < wordSize ∧ ∃ s, m.signs = [s]
  | .ldrRecover m => Asked cfg H m.rdata
  | .recover m => Asked cfg H m.rdata
  | .verify m => cfg.getLeaderOf m.rdata.propv ≠ packet.dest ∧ m.rdata.propv < wordSize
  | .ldrPrepare m => Foreign cfg packet.dest m.prop.just
    ∧ ∃ rd, m.prop.just.getRDataPara = some rd ∧ Proposed cfg H rd.propv m.prop.block
  | _ => True

end History

/-- The knowledge that makes proposals unique. -/
def knowledge : Knowledge HandlerPara MsgPara ParaEvent where
  actor := ParaEvent.actor
  own := Own cfg
  facts := Facts cfg
  good := Good cfg

variable {cfg} {H : List ParaEvent} {p : PID} {h h' : HandlerPara} {start : List ParaEvent}
variable {l : State}

section Mono

theorem Begun.mono {v : View} (begun : Begun H p v) (added : List ParaEvent) :
    Begun (added ++ H) p v := by
  obtain ⟨r, member⟩ := begun
  exact ⟨r, List.mem_append_right _ member⟩

theorem Asked.mono {r : RDataPara} (asked : Asked cfg H r) (added : List ParaEvent) :
    Asked cfg (added ++ H) r := List.mem_append_right _ asked

theorem Proposed.mono {v : View} {block : PBlock} (proposed : Proposed cfg H v block)
    (added : List ParaEvent) : Proposed cfg (added ++ H) v block := by
  obtain ⟨r, member, view⟩ := proposed
  exact ⟨r, List.mem_append_right _ member, view⟩

/-- What other nodes do is not what a leader does in its view. -/
theorem stable : (knowledge cfg).Stable where
  own := fun {p q h H added} own other mine => by
    have own : Own cfg q h H := own
    -- A new event of the other node is none of this node.
    have older : ∀ e : ParaEvent, e.actor = q → e ∈ added ++ H → e ∈ H := by
      intro e actor member
      rcases List.mem_append.1 member with new | old
      · exact absurd ((mine e new).symm.trans actor) other
      · exact old
    have kept : Own cfg q h (added ++ H) :=
      { own with
        begun := fun ⟨r, member⟩ => own.begun ⟨r, older _ rfl member⟩
        asked := fun member leads => own.asked (older _ leads member) leads
        proposed := fun ⟨r, member, view⟩ leads =>
          (own.proposed ⟨r, older _ leads member, view⟩ leads).mono added }
    exact kept
  good := fun {packet H} good added => by
    obtain ⟨dest, msg⟩ := packet
    cases msg with
    | newView m => exact good
    | ldrRecover m => exact Asked.mono good added
    | recover m => exact Asked.mono good added
    | verify m => exact good
    | ldrPrepare m =>
      obtain ⟨foreign, rd, tagged, proposed⟩ := good
      exact ⟨foreign, rd, tagged, proposed.mono added⟩
    | prepare m => trivial
    | preCommit m => trivial
    | commit m => trivial

/-- Only the node's place and the reports and announcements in its log matter. -/
theorem Own.node (own : Own cfg p h H) (myid : h'.myid = h.myid) (view : h'.view = h.view)
    (trusted : h'.tpara.view < wordSize)
    (newviews : h'.log.newviewsPara = h.log.newviewsPara)
    (proposals : h'.log.proposalsPara = h.log.proposalsPara)
    (verifies : h'.log.verifiesPara = h.log.verifiesPara) : Own cfg p h' H where
  myid := myid.trans own.myid
  small := view ▸ own.small
  trusted := trusted
  newviews := by rw [newviews]; exact own.newviews
  quorum := by rw [newviews, view]; exact own.quorum
  begun := by rw [newviews]; exact own.begun
  asked := by rw [newviews]; exact own.asked
  proposed := own.proposed
  proposals := by rw [proposals]; exact own.proposals
  verifies := by rw [verifies]; exact own.verifies

theorem framed : Framed (knowledge cfg) := by
  intro p h h' H frame own
  have own : Own cfg p h H := own
  have trusted : h'.tpara.view < wordSize := by rw [frame.tpara]; exact own.trusted
  exact Own.node own frame.myid frame.view trusted (by rw [frame.log]) (by rw [frame.log])
    (by rw [frame.log])

/-- Events that are no step of a leader in its view: no proposal, and no request for blocks. -/
structure Plain (cfg : Config) (e : ParaEvent) : Prop where
  prepared : ∀ q v r, e ≠ .prepared q v r
  recovering : ∀ q r, e ≠ .recovering q r
  voted : ∀ q r block, e = .voted q r block → cfg.getLeaderOf r.propv ≠ q

theorem Plain.begun {e : ParaEvent} (plain : Plain cfg e) {v : View} :
    Begun (e :: H) p v ↔ Begun H p v := by
  simp [Begun, (plain.prepared _ _ _).symm]

theorem Plain.asked {e : ParaEvent} (plain : Plain cfg e) {r : RDataPara} :
    Asked cfg (e :: H) r ↔ Asked cfg H r := by
  simp [Asked, (plain.recovering _ _).symm]

theorem Plain.proposed {e : ParaEvent} (plain : Plain cfg e) {v : View} {block : PBlock} :
    Proposed cfg (e :: H) v block ↔ Proposed cfg H v block := by
  constructor
  · rintro ⟨r, member, view⟩
    rcases List.mem_cons.1 member with new | old
    · exact absurd (congrArg cfg.getLeaderOf view) (plain.voted _ _ _ new.symm)
    · exact ⟨r, old, view⟩
  · exact fun proposed => proposed.mono [e]

/-- Such events keep the facts. -/
theorem Facts.plain (facts : Facts cfg H) {e : ParaEvent} (plain : Plain cfg e) :
    Facts cfg (e :: H) where
  unique := by
    simp only [plain.proposed]
    exact facts.unique
  justified := fun member => by
    rcases List.mem_cons.1 member with new | old
    · exact absurd new.symm (plain.prepared _ _ _)
    · exact facts.justified old

/-- They keep what is known of a node. -/
theorem Own.plain (own : Own cfg p h H) {e : ParaEvent} (plain : Plain cfg e) :
    Own cfg p h (e :: H) :=
  { own with
    begun := fun begun => own.begun (plain.begun.1 begun)
    asked := fun asked => own.asked (plain.asked.1 asked)
    proposed := fun proposed leads =>
      plain.begun.2 (own.proposed (plain.proposed.1 proposed) leads) }

end Mono

section Calls

/-- Inside, a plain event of the node may be noted, and its component may move on. -/
theorem plain_inside (inside : (knowledge cfg).Inside p start l) {e : ParaEvent}
    (plain : Plain cfg e) (mine : e.actor = p) (tpara : TrustedPara)
    (trusted : tpara.view < wordSize) :
    (knowledge cfg).Inside p start
      { l with node := { l.node with tpara := tpara }, history := e :: l.history } := by
  have own : Own cfg p l.node l.history := inside.own
  apply inside.event stable mine (inside.facts.plain plain)
  exact (own.plain plain).node rfl rfl trusted rfl rfl rfl

/-- What the state of the node has to do with the knowledge is kept by quiet programs. -/
theorem quiet_kept {α : Type} {program : M α} (quiet : Quiet program) :
    Keeps ((knowledge cfg).Inside p start) program := by
  intro l inside
  refine (quiet l).mono (fun _ _ ⟨h, frame, same⟩ => ?_) fun _ ⟨h, frame, same⟩ => ?_
  all_goals
    rw [same]
    exact inside.node (framed frame inside.own)

/-- Changing nothing the knowledge is about keeps it. -/
theorem kept_modify {f : HandlerPara → HandlerPara} (frame : ∀ h, Frame h (f h)) :
    Keeps ((knowledge cfg).Inside p start) (modify f) := quiet_kept (quiet_modify frame)

theorem storePrepPara_kept (msg : MsgPreparePara) :
    Keeps ((knowledge cfg).Inside p start) (storePrepPara msg) := by
  intro l inside
  have own : Own cfg p l.node l.history := inside.own
  exact inside.node (own.node rfl rfl own.trusted rfl rfl rfl)

theorem storePcPara_kept (msg : MsgPreCommitPara) :
    Keeps ((knowledge cfg).Inside p start) (storePcPara msg) := by
  intro l inside
  have own : Own cfg p l.node l.history := inside.own
  exact inside.node (own.node rfl rfl own.trusted rfl rfl rfl)

theorem storeComPara_kept (msg : MsgCommitPara) :
    Keeps ((knowledge cfg).Inside p start) (storeComPara msg) := by
  intro l inside
  have own : Own cfg p l.node l.history := inside.own
  exact inside.node (own.node rfl rfl own.trusted rfl rfl rfl)

/-- Proposals of other leaders may be stored. -/
theorem storePropPara_kept {msg : MsgLdrPreparePara} (foreign : Foreign cfg p msg.prop.just) :
    Keeps ((knowledge cfg).Inside p start) (storePropPara msg) := by
  intro l inside
  have own : Own cfg p l.node l.history := inside.own
  simp only [storePropPara, gives_bind, gives_this]
  refine gives_ofOption (fun result stored => ?_) fun _ => inside
  obtain ⟨count, log⟩ := result
  unfold LogPara.storePropPara at stored
  split at stored
  · cases stored
  · obtain ⟨-, rfl⟩ := Prod.mk.inj (Option.some.inj stored)
    apply inside.node
    exact
      { own with
        proposals := fun member => by
          rcases Messages.mem_storeAndCount member with old | ⟨rfl, _⟩
          · exact own.proposals old
          · exact foreign }

/-- Signing a statement of the node's phase is no step of a leader. -/
theorem callTEEsignPara_kept : Keeps ((knowledge cfg).Inside p start) callTEEsignPara := by
  intro l inside
  have own : Own cfg p l.node l.history := inside.own
  rw [gives_callTEEsignPara]
  have plain : Plain cfg (.signed l.node.myid l.node.tpara.nodeStatement) :=
    ⟨by simp, by simp, by simp⟩
  exact plain_inside inside plain own.myid _ (TrustedPara.view_increment_node_phase own.trusted)

/-- Nor is entering a later view. -/
theorem changeView_inside (inside : (knowledge cfg).Inside p start l) {v : View}
    (later : l.node.view ≤ v) (small : v < wordSize) :
    (knowledge cfg).Inside p start { l with node := l.node.entered cfg v } := by
  have own : Own cfg p l.node l.history := inside.own
  apply inside.node
  exact
    { own with
      myid := own.myid
      small := small
      trusted := small
      quorum := fun full => Nat.le_trans (own.quorum full) later }

variable [Hashing]

/-- Accepting a certificate is no step of a leader either. -/
theorem callTEEstorePara_kept (just : Just) :
    Keeps ((knowledge cfg).Inside p start) (callTEEstorePara cfg just) := by
  intro l inside
  have own : Own cfg p l.node l.history := inside.own
  simp only [callTEEstorePara, gives_bind, gives_this]
  refine gives_ofOption (fun result called => ?_) fun _ => inside
  obtain ⟨out, tpara⟩ := result
  simp only [gives_modify, gives_noteIf, gives_pure]
  cases answer : out.set with
  | false =>
    obtain ⟨-, rfl⟩ := TrustedPara.TEEstore_unset called answer
    exact inside
  | true =>
    obtain ⟨rd, -, -, -, -, -, signed⟩ := TrustedPara.TEEstore_set called answer
    obtain ⟨-, rfl⟩ := Prod.mk.inj signed
    have trusted : (l.node.tpara.record rd l.node.blockAt).view < wordSize := by
      simpa using own.trusted
    have plain : ∀ cert signs r, Plain cfg (.stored l.node.myid cert signs r) :=
      fun _ _ _ => ⟨by simp, by simp, by simp⟩
    exact plain_inside inside (plain _ _ _) own.myid _ trusted

theorem initiatePreparePara_kept (rdata : RDataPara) :
    Keeps ((knowledge cfg).Inside p start) (initiatePreparePara cfg rdata) := by
  apply keeps_this.bind
  intro h
  apply Keeps.bind (fun _ inside => inside.send _ _ fun _ _ => trivial)
  intro _
  apply (callTEEstorePara_kept _).bind
  intro justPc
  apply (keeps_ofOption _).bind
  intro rdataPc
  exact (storePcPara_kept _).bind fun _ => keeps_pure _

omit [Hashing] in
/-- A note that certificates were accepted is plain. -/
theorem notePrecommitted_kept (condition : Bool) (h : HandlerPara) (rdata : RDataPara)
    (mine : h.myid = p) :
    Keeps ((knowledge cfg).Inside p start)
      (noteIf condition (.precommitted h.myid rdata) : M Unit) := by
  intro l inside
  have own : Own cfg p l.node l.history := inside.own
  rw [gives_noteIf]
  split
  · have plain : Plain cfg (.precommitted h.myid rdata) := ⟨by simp, by simp, by simp⟩
    exact plain_inside inside plain mine _ own.trusted
  · exact inside

theorem initiatePrecommitPara_kept (rdata : RDataPara) :
    Keeps ((knowledge cfg).Inside p start) (initiatePrecommitPara cfg rdata) := by
  intro l inside
  have own : Own cfg p l.node l.history := inside.own
  unfold initiatePrecommitPara
  rw [gives_bind, gives_this]
  have rest : Keeps ((knowledge cfg).Inside p start) (do
      multicast_msg (.preCommit ⟨rdata, l.node.log.getPrecommitPara rdata.propv cfg.qsize
        rdata.seqNumber⟩) (cfg.remove_from_peers l.node.myid l.node.myid)
      let justComPara ← callTEEstorePara cfg (Just.ofRDataPara rdata
        (l.node.log.getPrecommitPara rdata.propv cfg.qsize rdata.seqNumber))
      noteIf justComPara.set (.precommitted l.node.myid rdata)
      let rdataCom ← Program.ofOption justComPara.getRDataPara
      let _ ← storeComPara ⟨rdataCom, justComPara.signs⟩) := by
    apply Keeps.bind (fun _ inside => inside.send _ _ fun _ _ => trivial)
    intro _
    apply (callTEEstorePara_kept _).bind
    intro justCom
    apply (notePrecommitted_kept _ _ _ own.myid).bind
    intro _
    apply (keeps_ofOption _).bind
    intro rdataCom
    exact (storeComPara_kept _).bind fun _ => keeps_pure _
  exact rest l inside

theorem respondToPrepareJustPara_kept (just : Just) :
    Keeps ((knowledge cfg).Inside p start) (respondToPrepareJustPara cfg just) := by
  apply (callTEEstorePara_kept _).bind
  intro justPc
  apply (keeps_ofOption _).bind
  intro rdataPc
  apply keeps_this.bind
  intro h
  exact fun _ inside => inside.send _ _ fun _ _ => trivial

theorem respondToPreCommitJustPara_kept (just : Just) :
    Keeps ((knowledge cfg).Inside p start) (respondToPreCommitJustPara cfg just) := by
  apply (keeps_ofOption _).bind
  intro cert
  apply (callTEEstorePara_kept _).bind
  intro justCom l inside
  have own : Own cfg p l.node l.history := inside.own
  rw [gives_bind, gives_this]
  have rest : Keeps ((knowledge cfg).Inside p start) (do
      noteIf justCom.set (.precommitted l.node.myid cert)
      let rdata ← Program.ofOption justCom.getRDataPara
      multicast_msg (.commit ⟨rdata, justCom.signs⟩)
        (cfg.keep_from_peers l.node.myid (cfg.getLeaderOf l.node.view))) := by
    apply (notePrecommitted_kept _ _ _ own.myid).bind
    intro _
    apply (keeps_ofOption _).bind
    intro rdata
    exact fun _ inside => inside.send _ _ fun _ _ => trivial
  exact rest l inside

/-- A vote for a proposal of another leader is no step of the node as a leader. -/
theorem respondToProposalPara_kept {just : Just} {block : PBlock}
    (foreign : Foreign cfg p just) :
    Keeps ((knowledge cfg).Inside p start) (respondToProposalPara cfg just block) := by
  intro l inside
  have own : Own cfg p l.node l.history := inside.own
  refine respondToProposalPara_gives inside inside fun rd tagged _ here _ r signed => ?_
  -- The statement is of the view of the justification, which another node leads.
  have view : r.propv = rd.propv := by
    rw [signed]
    exact here
  have voted : Plain cfg (.voted l.node.myid r block) :=
    ⟨by simp, by simp, fun q r' block' same => by
      cases same
      rw [view, own.myid]
      exact foreign rd tagged⟩
  have noted := plain_inside inside voted own.myid
    (l.node.tpara.increment_block_phase block.hash) own.trusted
  have set := noted.node (framed (frame_record _ l.node.view block) noted.own)
  have answered : Plain cfg (.answered l.node.myid r just l.node.verifiedJust
      (l.node.tpara.increment_block_phase block.hash).prefixLockedHash
      (l.node.tpara.increment_block_phase block.hash).prefixLockedView) :=
    ⟨by simp, by simp, by simp⟩
  have after := plain_inside set answered own.myid
    (l.node.tpara.increment_block_phase block.hash) own.trusted
  exact after.send (.prepare _) _ fun _ _ => trivial

/-- A proposal of another leader is voted for, or stored. -/
theorem handleLdrPreparePara_kept {msg : MsgLdrPreparePara}
    (foreign : Foreign cfg p msg.prop.just) :
    Keeps ((knowledge cfg).Inside p start) (handleLdrPreparePara cfg msg) := by
  apply keeps_this.bind
  intro h
  refine keeps_ite (fun _ => keeps_pure ()) fun _ => ?_
  apply (keeps_ofOption _).bind
  intro rdata
  apply (keeps_ofOption _).bind
  intro verified
  apply (keeps_ofOption _).bind
  intro valid
  refine keeps_ite (fun _ => keeps_pure ()) fun _ => keeps_ite (fun _ => ?_) fun _ => ?_
  · apply (quiet_kept (quiet_sameJust _ _)).bind
    intro same
    refine keeps_ite (fun _ => ?_) fun _ => ?_
    · refine keeps_ite (fun _ => quiet_kept (quiet_strayed _ _)) fun _ =>
        keeps_ite (fun _ => ?_) fun _ => keeps_pure ()
      exact respondToProposalPara_kept foreign
    · exact keeps_ite (fun _ => storePropPara_kept foreign) fun _ => keeps_pure ()
  · exact storePropPara_kept foreign

theorem handlePreparePara_kept (msg : MsgPreparePara) :
    Keeps ((knowledge cfg).Inside p start) (handlePreparePara cfg msg) := by
  apply keeps_this.bind
  intro h
  refine keeps_ite (fun _ => keeps_pure ()) fun _ => keeps_ite (fun _ => ?_) fun _ => ?_
  · apply Keeps.bind (fun _ inside => inside)
    intro leads
    refine keeps_ite (fun _ => ?_) fun _ => keeps_ite (fun _ => ?_) fun _ => keeps_pure ()
    · apply (storePrepPara_kept _).bind
      intro count
      exact keeps_ite (fun _ => initiatePreparePara_kept _) fun _ => keeps_pure ()
    · exact (storePrepPara_kept _).bind fun _ => respondToPrepareJustPara_kept _
  · exact keeps_ite (fun _ => (storePrepPara_kept _).bind fun _ => keeps_pure ())
      fun _ => keeps_pure ()

theorem handlePrecommitPara_kept (msg : MsgPreCommitPara) :
    Keeps ((knowledge cfg).Inside p start) (handlePrecommitPara cfg msg) := by
  apply keeps_this.bind
  intro h
  refine keeps_ite (fun _ => keeps_pure ()) fun _ => keeps_ite (fun _ => ?_) fun _ => ?_
  · apply Keeps.bind (fun _ inside => inside)
    intro leads
    refine keeps_ite (fun _ => ?_) fun _ => keeps_ite (fun _ => ?_) fun _ => keeps_pure ()
    · apply (storePcPara_kept _).bind
      intro count
      exact keeps_ite (fun _ => initiatePrecommitPara_kept _) fun _ => keeps_pure ()
    · exact (storePcPara_kept _).bind fun _ => respondToPreCommitJustPara_kept _
  · exact keeps_ite (fun _ => (storePcPara_kept _).bind fun _ => keeps_pure ())
      fun _ => keeps_pure ()

end Calls

end Slots

end HandlerPara

end ParaHotstuff
