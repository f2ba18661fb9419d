import ParaHotstuff.Proofs.Para.Knowledge

/-! What a node of the parallel protocol sends and stores in its view carries known signatures. -/

namespace ParaHotstuff

namespace HandlerPara

namespace Signed

open Program Local

variable {cfg : Config} {correct : PID → Bool} {H start : List ParaEvent} {p : PID}
variable {h : HandlerPara} {l : State} {signs : Signs} {just : Just}

section Calls

/-- The phase of the node stays one of its two phases. -/
theorem OwnTrusted.increment {tp : TrustedPara} (own : OwnTrusted cfg p tp) :
    OwnTrusted cfg p tp.increment_node_phase := by
  rcases own.phase with new | parallel
  · have next : tp.increment_node_phase = { tp with phase := PH1_PARALLEL } := by
      simp [TrustedPara.increment_node_phase, new]
    rw [next]
    exact { own with phase := .inr rfl }
  · have next : tp.increment_node_phase
        = TrustedPara.increment_view { tp with phase := PH1_NEWVIEW } := by
      obtain ⟨new, recover, verify⟩ : (PH1_PARALLEL == PH1_NEWVIEW) = false
          ∧ (PH1_PARALLEL == PH1_RECOVER) = false ∧ (PH1_PARALLEL == PH1_VERIFY) = false := by
        decide
      simp [TrustedPara.increment_node_phase, parallel, new, recover, verify]
    rw [next]
    exact { own with phase := .inl rfl }

/-- The component signs with the key of its node. -/
theorem OwnTrusted.signature {tp : TrustedPara} (own : OwnTrusted cfg p tp) (r : RDataPara) :
    tp.signature r = Sign.ofText p p r.toString := by
  rw [TrustedPara.signature, own.priv, own.id]

/-- A statement of the node's phase may be signed. -/
theorem signed_inside (inside : (knowledge cfg correct).Inside p start l) :
    (knowledge cfg correct).Inside p start
        { l with
          node := { l.node with tpara := l.node.tpara.increment_node_phase }
          history := .signed l.node.myid l.node.tpara.nodeStatement :: l.history }
      ∧ Known correct (.signed l.node.myid l.node.tpara.nodeStatement :: l.history)
        [l.node.tpara.signature l.node.tpara.nodeStatement] := by
  have own : Own cfg correct l.history p l.node := inside.own
  constructor
  · exact event_inside (e := .signed l.node.myid l.node.tpara.nodeStatement) inside
      own.trusted.phase own.myid _ own.trusted.increment
  · rw [own.trusted.signature, own.myid]
    exact known_made rfl

variable [Hashing]

/-- A vote may be signed on any justification. -/
theorem callTEEpreparePara_known {block : PBlock} {post : Just → State → Prop}
    (inside : (knowledge cfg correct).Inside p start l) (refused : post Just.defaultPara l)
    (accepted : ∀ r l', Known correct l'.history [l.node.tpara.signature r] →
      (knowledge cfg correct).Inside p start l' →
      l' = { l with
        node := { l.node with tpara := l.node.tpara.increment_block_phase block.hash }
        history := .voted l.node.myid r block :: l.history } →
      post (Just.ofRDataPara r [l.node.tpara.signature r]) l') :
    (callTEEpreparePara cfg block just).Gives post ((knowledge cfg correct).Inside p start) l := by
  have own : Own cfg correct l.history p l.node := inside.own
  refine callTEEpreparePara_gives inside refused fun rd _ _ _ _ r _ => accepted r _ ?_ ?_ rfl
  · rw [own.trusted.signature, own.myid]
    exact known_made rfl
  · exact event_inside (e := .voted l.node.myid r block) inside trivial own.myid _
      { own.trusted with }

/-- A certificate with known signatures may be accepted. -/
theorem callTEEstorePara_known {cert : RDataPara} {post : Just → State → Prop}
    (inside : (knowledge cfg correct).Inside p start l) (known : Known correct l.history signs)
    (refused : post Just.defaultPara l)
    (accepted : ∀ r s l', Known correct l'.history [s] →
      (knowledge cfg correct).Inside p start l' → l'.node.myid = l.node.myid →
      post (Just.ofRDataPara r [s]) l') :
    (callTEEstorePara cfg (Just.ofRDataPara cert signs)).Gives post
      ((knowledge cfg correct).Inside p start) l := by
  have own : Own cfg correct l.history p l.node := inside.own
  refine callTEEstorePara_gives (fun _ => inside) refused
    fun cert' tagged full verified here phase tp r recorded signed => ?_
  obtain rfl : cert = cert' := by simpa using tagged
  rw [Just.signs_ofRDataPara] at full
  -- Recording changes what is prepared and locked, and neither the key nor the phase of the node.
  have trusted : OwnTrusted cfg p tp := by
    rw [recorded]
    exact
      { id := by simpa using own.trusted.id
        priv := by simpa using own.trusted.priv
        qsize := by simpa using own.trusted.qsize
        phase := by simpa using own.trusted.phase }
  have view : r.propv = cert.propv := by
    rw [signed, ← here, recorded]
    simp [TrustedPara.blockStatement]
  have justified : Justified cfg correct l.history (.stored l.node.myid cert signs r) := by
    refine ⟨by rw [full, own.trusted.qsize], verified, known, phase, ?_, view, ?_⟩
    · rw [signed]
      rfl
    · rw [signed]
      rfl
  refine accepted r _ _ ?_
    (event_inside inside justified own.myid (tp.increment_block_phase cert.proph)
      { trusted with }) rfl
  rw [trusted.signature, own.myid]
  exact known_made rfl

end Calls

section Stores

variable {m : MsgRDataPara}

theorem storeNvPara_inside (inside : (knowledge cfg correct).Inside p start l)
    (known : Known correct l.history m.signs) :
    (knowledge cfg correct).Inside p start
      { l with node := { l.node with log := (l.node.log.storeNvPara m).2 } } :=
  log_inside inside ((show Own cfg correct l.history p l.node from inside.own).log.storeNvPara known)

theorem storePrepPara_inside (inside : (knowledge cfg correct).Inside p start l)
    (known : Known correct l.history m.signs) :
    (knowledge cfg correct).Inside p start
      { l with node := { l.node with log := (l.node.log.storePrepPara m).2 } } :=
  log_inside inside ((show Own cfg correct l.history p l.node from inside.own).log.storePrepPara known)

theorem storePcPara_inside (inside : (knowledge cfg correct).Inside p start l)
    (known : Known correct l.history m.signs) :
    (knowledge cfg correct).Inside p start
      { l with node := { l.node with log := (l.node.log.storePcPara m).2 } } :=
  log_inside inside ((show Own cfg correct l.history p l.node from inside.own).log.storePcPara known)

theorem storeComPara_inside (inside : (knowledge cfg correct).Inside p start l)
    (known : Known correct l.history m.signs) :
    (knowledge cfg correct).Inside p start
      { l with node := { l.node with log := (l.node.log.storeComPara m).2 } } :=
  log_inside inside ((show Own cfg correct l.history p l.node from inside.own).log.storeComPara known)

end Stores

section Leaders

variable [Hashing]

/-- Whatever is proposed on a known justification is known. -/
theorem proposeBlock_kept (known : Known correct start just.signs) (prevHash : Hash) :
    Keeps ((knowledge cfg correct).Inside p start) (proposeBlock cfg just prevHash) := by
  apply (quiet_kept (quiet_createNewBlockPara prevHash)).bind
  intro block
  refine Keeps.bind (fun l inside => ?_) fun _ l inside => ?_
  · have own : Own cfg correct l.history p l.node := inside.own
    exact inside.node { own with }
  rw [gives_bind]
  refine callTEEpreparePara_known inside (by simpa [Just.defaultPara] using inside)
    fun r l' fresh voted same => ?_
  simp only [Just.set_ofRDataPara, if_true, gives_bind, gives_modify,
    Just.getRDataPara_ofRDataPara, gives_ofOption_some, gives_this, gives_multicast,
    gives_storePrepPara, gives_pure]
  have set := voted.node (framed (frame_record _ l'.node.view block) voted.own)
  have sent := send_inside set (.ldrPrepare ⟨⟨just, block⟩, [l.node.tpara.signature r]⟩)
    (known_append.2 ⟨fresh, known.now set⟩) (cfg.remove_from_peers l'.node.myid l'.node.myid)
  exact storePrepPara_inside (m := ⟨r, [l.node.tpara.signature r]⟩) sent fresh

theorem proposeBlocks_kept (known : Known correct start just.signs) (slots : Nat)
    (prevHash : Hash) :
    Keeps ((knowledge cfg correct).Inside p start) (proposeBlocks cfg just slots prevHash) := by
  induction slots generalizing prevHash with
  | zero => exact keeps_pure ()
  | succ slots ih => exact (proposeBlock_kept known prevHash).bind ih

theorem preparePara_kept (known : Known correct start just.signs) :
    Keeps ((knowledge cfg correct).Inside p start) (preparePara cfg just) := by
  intro l inside
  have own : Own cfg correct l.history p l.node := inside.own
  unfold preparePara
  rw [gives_bind]
  refine gives_ofOption (fun rdata _ => ?_) fun _ => inside
  rw [gives_bind, gives_this, gives_bind, gives_note, gives_bind, gives_modify]
  have noted := event_inside (e := .prepared l.node.myid l.node.view rdata) inside trivial own.myid
    l.node.tpara own.trusted
  have begun : Own cfg correct _ p l.node := noted.own
  exact proposeBlocks_kept known _ _ _ (noted.node { begun with })

theorem initiateVerifyPara_kept (known : Known correct start just.signs) :
    Keeps ((knowledge cfg correct).Inside p start) (initiateVerifyPara cfg just) := by
  apply (keeps_ofOption _).bind
  intro rdata
  apply keeps_this.bind
  intro h
  refine Keeps.bind (quiet_kept (quiet_modify fun h' => ?_)) fun _ => ?_
  · split
    · exact frame_enterView h' rdata.justv
    · exact .refl h'
  · refine Keeps.bind (fun l inside => ?_) fun _ => preparePara_kept known
    exact send_inside inside (.verify ⟨rdata, just.signs, _⟩) (known.now inside) _

omit [Hashing] in
theorem initiateRecoverPara_kept (known : Known correct start just.signs) (missing : List Nat) :
    Keeps ((knowledge cfg correct).Inside p start) (initiateRecoverPara cfg missing just) := by
  intro l inside
  have own : Own cfg correct l.history p l.node := inside.own
  unfold initiateRecoverPara
  rw [gives_bind]
  refine gives_ofOption (fun rdata _ => ?_) fun _ => inside
  rw [gives_bind, gives_this, gives_bind, gives_note, gives_multicast]
  have noted := event_inside (e := .recovering l.node.myid rdata) inside trivial own.myid
    l.node.tpara own.trusted
  exact send_inside noted (.ldrRecover ⟨rdata, just.signs, missing⟩) (known.now noted) _

theorem verifyOrRecover_kept (known : Known correct start just.signs) (missing : List Nat) :
    Keeps ((knowledge cfg correct).Inside p start) (verifyOrRecover cfg just missing) :=
  keeps_ite (fun _ => initiateVerifyPara_kept known) fun _ => initiateRecoverPara_kept known missing

omit [Hashing] in
/-- The highest report is a known message, or the one without signatures. -/
theorem known_findHighestNvPara {log : LogPara} (known : KnownLog correct H log) (view : View) :
    Known correct H (log.findHighestNvPara view).signs := by
  rcases log.findHighestNvPara_mem view with ⟨_, none_held⟩ | ⟨msg, held, found, _⟩
  · simp [none_held, Just.defaultPara]
  · rw [found]
    exact known.newviews held

theorem actOnReports_kept : Keeps ((knowledge cfg correct).Inside p start) (actOnReports cfg) := by
  intro l inside
  have own : Own cfg correct l.history p l.node := inside.own
  have known := known_findHighestNvPara own.log l.node.view
  refine restart inside ?_
  unfold actOnReports
  rw [gives_bind, gives_this]
  generalize l.node.log.findHighestNvPara l.node.view = just at known
  have rest : Keeps ((knowledge cfg correct).Inside p l.history) (do
      let missing ← getMissingSeqNumbersForJust just
      let chanceRecover ← choose
      if l.node.view == 0 then initiateVerifyPara cfg just
      else if missing.isEmpty && chanceRecover < cfg.forceRecover then
        let rdata ← Program.ofOption just.getRDataPara
        modify fun h =>
          { h with
            pblocks := h.pblocks.insert rdata.justv
              (List.replicate cfg.maxBlocksInView PBlock.default) }
        let missing ← getMissingSeqNumbersForJust just
        initiateRecoverPara cfg missing just
      else verifyOrRecover cfg just missing) := by
    apply (quiet_kept (quiet_getMissingSeqNumbersForJust _)).bind
    intro missing
    apply (quiet_kept quiet_choose).bind
    intro chance
    refine keeps_ite (fun _ => initiateVerifyPara_kept known) fun _ => keeps_ite (fun _ => ?_)
      fun _ => verifyOrRecover_kept known missing
    apply (keeps_ofOption _).bind
    intro rdata
    refine Keeps.bind (quiet_kept (quiet_modify ?_)) fun _ => ?_
    · exact fun _ => ⟨rfl, rfl, rfl, rfl, rfl, rfl⟩
    · apply (quiet_kept (quiet_getMissingSeqNumbersForJust _)).bind
      exact fun missing => initiateRecoverPara_kept known missing
  exact rest l inside.refl

omit [Hashing] in
/-- Entering a view leaves the log and the keys. -/
theorem changeView_kept (v : View) :
    Keeps ((knowledge cfg correct).Inside p start) (changeView cfg v) := by
  intro l inside
  have own : Own cfg correct l.history p l.node := inside.own
  rw [gives_changeView]
  exact inside.node
    { own with trusted := { own.trusted with phase := .inl rfl } }

omit [Hashing] in
theorem callTEEsignPara_kept :
    Keeps ((knowledge cfg correct).Inside p start) callTEEsignPara := by
  intro l inside
  rw [gives_callTEEsignPara]
  exact (signed_inside inside).1

theorem handleNewViewPara_kept {msg : MsgNewViewPara} (known : Known correct start msg.signs) :
    Keeps ((knowledge cfg correct).Inside p start) (handleNewViewPara cfg msg) := by
  apply keeps_this.bind
  intro h
  refine keeps_ite (fun _ => keeps_pure ()) fun _ => keeps_ite (fun _ => ?_) fun _ => keeps_pure ()
  refine Keeps.bind (fun l inside => ?_) fun count => keeps_ite (fun _ => ?_) fun _ => keeps_pure ()
  · rw [gives_storeNvPara]
    exact storeNvPara_inside inside (known.now inside)
  · refine Keeps.bind ?_ fun _ => actOnReports_kept
    apply keeps_this.bind
    intro h
    refine keeps_ite (fun _ => ?_) fun _ => keeps_pure ()
    exact callTEEsignPara_kept.bind fun _ => changeView_kept _

omit [Hashing] in
theorem handleLdrRecoverPara_kept {msg : MsgLdrRecoverPara}
    (known : Known correct start msg.signs) :
    Keeps ((knowledge cfg correct).Inside p start) (handleLdrRecoverPara cfg msg) := by
  apply keeps_this.bind
  intro h
  refine keeps_ite (fun _ => keeps_pure ()) fun _ => ?_
  refine Keeps.bind (quiet_kept (quiet_modify fun h' => ?_)) fun _ => ?_
  · split
    · exact frame_enterView h' msg.rdata.justv
    · exact .refl h'
  · refine keeps_ite (fun _ => quiet_kept (quiet_strayed _ _)) fun _ l inside => ?_
    exact send_inside inside (.recover ⟨msg.rdata, msg.signs, _⟩) (known.now inside) _

/-- The justification verified last is known, and so is what a leader makes of it. -/
theorem recoverFromVerified_kept :
    Keeps ((knowledge cfg correct).Inside p start) (recoverFromVerified cfg) := by
  intro l inside
  have own : Own cfg correct l.history p l.node := inside.own
  refine restart inside ?_
  unfold recoverFromVerified
  rw [gives_bind, gives_this, gives_bind]
  refine gives_ofOption (fun verified _ => ?_) fun _ => inside.refl
  refine gives_ite (fun _ => ?_) fun _ => inside.refl
  rw [gives_bind, gives_note, gives_bind, gives_multicast]
  have noted := event_inside (e := .fallback l.node.myid l.node.view) inside.refl trivial own.myid
    l.node.tpara own.trusted
  have sent := send_inside noted (.verify ⟨⟨Hash.default, l.node.view, verified.justh,
    verified.justv, verified.phase, verified.seqNumber⟩, l.node.verifiedJust.signs, []⟩)
    (own.verified.now noted) (cfg.remove_from_peers l.node.myid l.node.myid)
  have just : Known correct l.history (Just.ofRDataPara ⟨Hash.default, l.node.view,
      verified.justh, verified.justv, verified.phase, verified.seqNumber⟩
      l.node.verifiedJust.signs).signs := own.verified
  exact preparePara_kept just _ sent

theorem handleRecoverPara_kept {msg : MsgRecoverPara} (known : Known correct start msg.signs) :
    Keeps ((knowledge cfg correct).Inside p start) (handleRecoverPara cfg msg) := by
  have just : Known correct start (Just.ofRDataPara msg.rdata msg.signs).signs := known
  apply keeps_this.bind
  intro h
  refine keeps_ite (fun _ => keeps_pure ()) fun _ => ?_
  apply Keeps.bind (fun _ inside => inside)
  intro leads
  refine keeps_ite (fun _ => keeps_pure ()) fun _ => ?_
  apply (quiet_kept (quiet_getMissingSeqNumbersForJust _)).bind
  intro missing
  refine keeps_ite (fun _ => keeps_pure ()) fun _ => ?_
  refine Keeps.bind (quiet_kept (quiet_modify fun h' => ?_)) fun _ => ?_
  · split <;> exact ⟨rfl, rfl, rfl, rfl, rfl, rfl⟩
  apply (keeps_ofOption _).bind
  intro valid
  apply (quiet_kept (quiet_recordValid _ _ _ _ _)).bind
  intro missing
  refine keeps_ite (fun _ => initiateVerifyPara_kept just) fun _ => ?_
  apply keeps_this.bind
  intro h
  refine Keeps.bind (quiet_kept (quiet_modify ?_)) fun _ => ?_
  · exact fun _ => ⟨rfl, rfl, rfl, rfl, rfl, rfl⟩
  refine keeps_ite (fun _ => ?_) fun _ => keeps_pure ()
  exact keeps_ite (fun _ => initiateVerifyPara_kept just) fun _ => recoverFromVerified_kept

/-- A leader forwards the votes it holds, and stores its own answer. -/
theorem initiatePreparePara_kept (rdata : RDataPara) :
    Keeps ((knowledge cfg correct).Inside p start) (initiatePreparePara cfg rdata) := by
  intro l inside
  have own : Own cfg correct l.history p l.node := inside.own
  have collected : Known correct l.history
      (l.node.log.getPreparePara rdata.propv cfg.qsize rdata.seqNumber) :=
    known_collected fun m member => own.log.prepares member
  simp only [initiatePreparePara, gives_bind, gives_this, gives_multicast]
  have sent := send_inside inside (.prepare ⟨{ rdata with phase := PH1_PREPARE },
    l.node.log.getPreparePara rdata.propv cfg.qsize rdata.seqNumber⟩) collected
    (cfg.remove_from_peers l.node.myid l.node.myid)
  refine callTEEstorePara_known sent collected ?_ fun r s l' fresh after _ => ?_
  · exact storePcPara_inside (m := ⟨.default, []⟩) sent known_nil
  · exact storePcPara_inside (m := ⟨r, [s]⟩) after fresh

theorem initiatePrecommitPara_kept (rdata : RDataPara) :
    Keeps ((knowledge cfg correct).Inside p start) (initiatePrecommitPara cfg rdata) := by
  intro l inside
  have own : Own cfg correct l.history p l.node := inside.own
  have collected : Known correct l.history
      (l.node.log.getPrecommitPara rdata.propv cfg.qsize rdata.seqNumber) :=
    known_collected fun m member => own.log.precommits member
  simp only [initiatePrecommitPara, gives_bind, gives_this, gives_multicast, gives_noteIf]
  have sent := send_inside inside (.preCommit ⟨rdata,
    l.node.log.getPrecommitPara rdata.propv cfg.qsize rdata.seqNumber⟩) collected
    (cfg.remove_from_peers l.node.myid l.node.myid)
  refine callTEEstorePara_known sent collected ?_ fun r s l' fresh after myid => ?_
  · exact storeComPara_inside (m := ⟨.default, []⟩) sent known_nil
  · have known : Own cfg correct l'.history p l'.node := after.own
    have noted := event_inside (e := .precommitted l.node.myid rdata) after trivial own.myid
      l'.node.tpara known.trusted
    exact storeComPara_inside (m := ⟨r, [s]⟩) noted (fresh.mono [_])

end Leaders

section Backups

variable [Hashing] {cert : RDataPara}

theorem respondToProposalPara_kept (block : PBlock) :
    Keeps ((knowledge cfg correct).Inside p start) (respondToProposalPara cfg just block) := by
  intro l inside
  have own : Own cfg correct l.history p l.node := inside.own
  unfold respondToProposalPara
  rw [gives_bind]
  refine callTEEpreparePara_known inside (by simpa [Just.defaultPara] using inside)
    fun r l' fresh voted same => ?_
  simp only [Just.set_ofRDataPara, if_true, gives_bind, gives_modify,
    Just.getRDataPara_ofRDataPara, gives_ofOption_some, gives_this, gives_note, gives_multicast]
  have set := voted.node (framed (frame_record _ l'.node.view block) voted.own)
  have after : Own cfg correct l'.history p l'.node := voted.own
  have noted := event_inside (e := .answered l'.node.myid r just l'.node.verifiedJust
    l'.node.tpara.prefixLockedHash l'.node.tpara.prefixLockedView) set trivial after.myid
    l'.node.tpara after.trusted
  exact send_inside noted (.prepare ⟨r, [l.node.tpara.signature r]⟩) (fresh.mono [_]) _

/-- An answer to a certificate carries the component's signature, or none. -/
theorem respondToPrepareJustPara_kept (known : Known correct start signs) :
    Keeps ((knowledge cfg correct).Inside p start)
      (respondToPrepareJustPara cfg (Just.ofRDataPara cert signs)) := by
  intro l inside
  unfold respondToPrepareJustPara
  rw [gives_bind]
  refine callTEEstorePara_known inside (known.now inside) ?_ fun r s l' fresh after _ => ?_
  · exact send_inside inside (.preCommit ⟨.default, []⟩) known_nil _
  · exact send_inside after (.preCommit ⟨r, [s]⟩) fresh _

theorem respondToPreCommitJustPara_kept (known : Known correct start signs) :
    Keeps ((knowledge cfg correct).Inside p start)
      (respondToPreCommitJustPara cfg (Just.ofRDataPara cert signs)) := by
  intro l inside
  have own : Own cfg correct l.history p l.node := inside.own
  simp only [respondToPreCommitJustPara, Just.getRDataPara_ofRDataPara, gives_bind,
    gives_ofOption_some, gives_this, gives_noteIf]
  refine callTEEstorePara_known inside (known.now inside) ?_ fun r s l' fresh after myid => ?_
  · exact send_inside inside (.commit ⟨.default, []⟩) known_nil _
  · have known : Own cfg correct l'.history p l'.node := after.own
    have noted := event_inside (e := .precommitted l'.node.myid cert) after trivial known.myid
      l'.node.tpara known.trusted
    exact send_inside noted (.commit ⟨r, [s]⟩) (fresh.mono [_]) _

omit [Hashing] in
theorem storePropPara_kept {msg : MsgLdrPreparePara}
    (known : Known correct start (msg.signs ++ msg.prop.just.signs)) :
    Keeps ((knowledge cfg correct).Inside p start) (storePropPara msg) := by
  intro l inside
  have own : Own cfg correct l.history p l.node := inside.own
  simp only [storePropPara, gives_bind, gives_this]
  refine gives_ofOption (fun result stored => ?_) fun _ => inside
  obtain ⟨count, log⟩ := result
  unfold LogPara.storePropPara at stored
  split at stored
  · cases stored
  · obtain ⟨-, rfl⟩ := Prod.mk.inj (Option.some.inj stored)
    exact log_inside inside
      { own.log with
        proposals := fun member => by
          rcases Messages.mem_storeAndCount member with old | ⟨rfl, _⟩
          · exact own.log.proposals old
          · exact known.now inside }

theorem handleLdrPreparePara_kept {msg : MsgLdrPreparePara}
    (known : Known correct start (msg.signs ++ msg.prop.just.signs)) :
    Keeps ((knowledge cfg correct).Inside p start) (handleLdrPreparePara cfg msg) := by
  apply keeps_this.bind
  intro h
  refine keeps_ite (fun _ => keeps_pure ()) fun _ => ?_
  apply (keeps_ofOption _).bind
  intro rdata
  apply (keeps_ofOption _).bind
  intro verified
  apply (keeps_ofOption _).bind
  intro valid
  refine keeps_ite (fun _ => keeps_pure ()) fun _ => keeps_ite (fun _ => ?_) fun _ => ?_
  · apply (quiet_kept (quiet_sameJust _ _)).bind
    intro same
    refine keeps_ite (fun _ => ?_) fun _ => ?_
    · refine keeps_ite (fun _ => quiet_kept (quiet_strayed _ _)) fun _ =>
        keeps_ite (fun _ => ?_) fun _ => keeps_pure ()
      exact respondToProposalPara_kept _
    · exact keeps_ite (fun _ => storePropPara_kept known) fun _ => keeps_pure ()
  · exact storePropPara_kept known

theorem handlePreparePara_kept {msg : MsgPreparePara} (known : Known correct start msg.signs) :
    Keeps ((knowledge cfg correct).Inside p start) (handlePreparePara cfg msg) := by
  have storing : Keeps ((knowledge cfg correct).Inside p start) (storePrepPara msg) :=
    fun l inside => storePrepPara_inside inside (known.now inside)
  apply keeps_this.bind
  intro h
  refine keeps_ite (fun _ => keeps_pure ()) fun _ => keeps_ite (fun _ => ?_) fun _ => ?_
  · apply Keeps.bind (fun _ inside => inside)
    intro leads
    refine keeps_ite (fun _ => ?_) fun _ => keeps_ite (fun _ => ?_) fun _ => keeps_pure ()
    · apply storing.bind
      intro count
      exact keeps_ite (fun _ => initiatePreparePara_kept _) fun _ => keeps_pure ()
    · exact storing.bind fun _ => respondToPrepareJustPara_kept known
  · exact keeps_ite (fun _ => storing.bind fun _ => keeps_pure ()) fun _ => keeps_pure ()

theorem handlePrecommitPara_kept {msg : MsgPreCommitPara}
    (known : Known correct start msg.signs) :
    Keeps ((knowledge cfg correct).Inside p start) (handlePrecommitPara cfg msg) := by
  have storing : Keeps ((knowledge cfg correct).Inside p start) (storePcPara msg) :=
    fun l inside => storePcPara_inside inside (known.now inside)
  apply keeps_this.bind
  intro h
  refine keeps_ite (fun _ => keeps_pure ()) fun _ => keeps_ite (fun _ => ?_) fun _ => ?_
  · apply Keeps.bind (fun _ inside => inside)
    intro leads
    refine keeps_ite (fun _ => ?_) fun _ => keeps_ite (fun _ => ?_) fun _ => keeps_pure ()
    · apply storing.bind
      intro count
      exact keeps_ite (fun _ => initiatePrecommitPara_kept _) fun _ => keeps_pure ()
    · exact storing.bind fun _ => respondToPreCommitJustPara_kept known
  · exact keeps_ite (fun _ => storing.bind fun _ => keeps_pure ()) fun _ => keeps_pure ()

end Backups

end Signed

end HandlerPara

end ParaHotstuff
