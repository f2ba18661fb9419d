import ParaHotstuff.Proofs.Para.Slots

/-! What a leader of the parallel protocol does in its view, until it proposes. -/

namespace ParaHotstuff

namespace HandlerPara

namespace Slots

open Program Local

variable {cfg : Config} {p : PID} {start : List ParaEvent} {l : State} {h : HandlerPara}
variable {H : List ParaEvent} {just : Just} {rd : RDataPara}

section Proposing

/-- A leader that holds a quorum of reports for its view, and a justification of the view. -/
structure Ready (cfg : Config) (p : PID) (h : HandlerPara) (rd : RDataPara) : Prop where
  leads : cfg.getLeaderOf h.view = p
  current : rd.propv = h.view
  collected : cfg.qsize ≤ (h.log.newviewsPara.held h.view).length

/-- A leader that proposes for the slots of its view in turn. -/
structure Proposing (cfg : Config) (p : PID) (l : State) : Prop where
  leads : cfg.getLeaderOf l.node.view = p
  begun : Begun l.history p l.node.view
  /-- The slots from the next one on hold no proposal yet. -/
  next : ∀ {block}, Proposed cfg l.history l.node.view block →
    block.seqNumber < l.node.localSeq

theorem Ready.frame {h' : HandlerPara} (ready : Ready cfg p h rd) (frame : Frame h h') :
    Ready cfg p h' rd where
  leads := by rw [frame.view]; exact ready.leads
  current := by rw [frame.view]; exact ready.current
  collected := by rw [frame.view, frame.log]; exact ready.collected

/-- A proposal of the leader of a view is its last vote, or an earlier one. -/
theorem proposed_voted {r : RDataPara} {block block' : PBlock} {v : View}
    (proposed : Proposed cfg (.voted p r block :: H) v block') :
    (r.propv = v ∧ block' = block) ∨ Proposed cfg H v block' := by
  obtain ⟨r', member, view⟩ := proposed
  rcases List.mem_cons.1 member with new | old
  · cases new
    exact .inl ⟨view, rfl⟩
  · exact .inr ⟨r', old, view⟩

/-- A block for a slot behind all others may be proposed. -/
theorem Facts.propose (facts : Facts cfg H) {r : RDataPara} {block : PBlock}
    (next : ∀ {block'}, Proposed cfg H r.propv block' → block'.seqNumber < block.seqNumber) :
    Facts cfg (.voted p r block :: H) where
  unique := fun {v block₁ block₂} first second same => by
    -- Two proposals are both old, or one of them is the new one, whose slot no old one has.
    rcases proposed_voted first with ⟨rfl, rfl⟩ | old
    · rcases proposed_voted second with ⟨_, rfl⟩ | old
      · rfl
      · have before := next old
        omega
    · rcases proposed_voted second with ⟨rfl, rfl⟩ | old'
      · have before := next old
        omega
      · exact facts.unique old old' same
  justified := fun member => by
    rcases List.mem_cons.1 member with new | old
    · cases new
    · exact facts.justified old

/-- A leader that has begun to propose in a view may do so. -/
theorem Own.propose (own : Own cfg p h H) {r : RDataPara} {block : PBlock}
    (begun : Begun H p r.propv) : Own cfg p h (.voted p r block :: H) :=
  { own with
    begun := fun ⟨r', member⟩ => own.begun ⟨r', by simpa using member⟩
    asked := fun asked => own.asked (by simpa [Asked] using asked)
    proposed := fun proposed leads => by
      rcases proposed_voted proposed with ⟨rfl, -⟩ | old
      · exact begun.mono [_]
      · exact (own.proposed old leads).mono [_] }

variable [Hashing]

/-- Proposing for a slot leaves the leader ready for the slot after it. -/
theorem proposeBlock_gives (inside : (knowledge cfg).Inside p start l)
    (proposing : Proposing cfg p l) (tagged : just.getRDataPara = some rd)
    (current : rd.propv = l.node.view) (prevHash : Hash) :
    (proposeBlock cfg just prevHash).Gives
      (fun _ l' => (knowledge cfg).Inside p start l' ∧ Proposing cfg p l'
        ∧ l'.node.view = l.node.view)
      ((knowledge cfg).Inside p start) l := by
  have own : Own cfg p l.node l.history := inside.own
  simp only [proposeBlock, createNewBlockPara, gives_bind, gives_this, gives_modify, gives_pure]
  -- The block is for the next slot, and the slot after it comes next.
  generalize made : PBlock.ofTransactions prevHash
    (min cfg.maxNumTransactions l.node.transactions.length) l.node.localSeq
    (cfg.fillBlock l.node.transactions) = block
  have slot : block.seqNumber = l.node.localSeq := by rw [← made]; rfl
  generalize counted : ({ l.node with
    transactions := l.node.transactions.drop cfg.maxNumTransactions
    localSeq := l.node.localSeq + 1 } : HandlerPara) = h₁
  have own₁ : Own cfg p h₁ l.history := by
    rw [← counted]
    exact own.node rfl rfl own.trusted rfl rfl rfl
  have inside₁ : (knowledge cfg).Inside p start { l with node := h₁ } := inside.node own₁
  have view : h₁.view = l.node.view := by rw [← counted]
  have seq : h₁.localSeq = block.seqNumber + 1 := by rw [← counted, slot]
  have later : Proposing cfg p { l with node := h₁ } :=
    { leads := by rw [view]; exact proposing.leads
      begun := by rw [view]; exact proposing.begun
      next := fun proposed => by
        have before := proposing.next (view ▸ proposed)
        change _ < h₁.localSeq
        omega }
  refine callTEEpreparePara_gives inside₁ ?_ fun rd' tagged' _ here _ r signed => ?_
  · -- A refused call changes nothing.
    simpa [Just.defaultPara] using ⟨inside₁, later, view⟩
  obtain rfl : rd = rd' := Option.some.inj (tagged.symm.trans tagged')
  have propv : r.propv = l.node.view := by
    rw [signed]
    exact here.trans current
  simp only [Just.set_ofRDataPara, if_true, gives_bind, gives_modify,
    Just.getRDataPara_ofRDataPara, gives_ofOption_some, gives_this, gives_multicast,
    gives_storePrepPara, gives_pure]
  obtain rfl : h₁.myid = p := own₁.myid
  have fresh : ∀ {block'}, Proposed cfg l.history r.propv block' →
      block'.seqNumber < block.seqNumber := by
    intro block' proposed
    rw [slot]
    exact proposing.next (propv ▸ proposed)
  have begun : Begun l.history h₁.myid r.propv := propv ▸ proposing.begun
  have voted : (knowledge cfg).Inside h₁.myid start
      { l with
        node := { h₁ with tpara := h₁.tpara.increment_block_phase block.hash }
        history := .voted h₁.myid r block :: l.history } := by
    apply inside₁.event stable rfl (Facts.propose inside.facts fresh)
    exact (own₁.propose begun).node rfl rfl own₁.trusted rfl rfl rfl
  have proposed : Proposed cfg (.voted h₁.myid r block :: l.history) rd.propv block := by
    refine ⟨r, ?_, propv.trans current.symm⟩
    rw [current, proposing.leads]
    simp
  have set := voted.node (framed (frame_record _ h₁.view block) voted.own)
  -- The others get the proposal, and the leader keeps its own vote.
  have sent := set.send (.ldrPrepare ⟨⟨just, block⟩, [h₁.tpara.signature r]⟩)
    (cfg.remove_from_peers h₁.myid h₁.myid) fun d recipient =>
      ⟨fun rd' tagged' => by
        obtain rfl : rd = rd' := Option.some.inj (tagged.symm.trans tagged')
        rw [current, proposing.leads]
        exact (Config.mem_remove_from_peers.1 recipient).2.symm, rd, tagged, proposed⟩
  have after : Own cfg h₁.myid _ _ := sent.own
  refine ⟨sent.node (after.node rfl rfl own₁.trusted rfl rfl rfl), ?_, view⟩
  exact
    { leads := by
        change cfg.getLeaderOf h₁.view = h₁.myid
        rw [view]
        exact proposing.leads
      begun := by
        change Begun _ h₁.myid h₁.view
        rw [view]
        exact proposing.begun.mono [_]
      next := fun {block'} proposed' => by
        change block'.seqNumber < h₁.localSeq
        rcases proposed_voted proposed' with ⟨_, rfl⟩ | old
        · omega
        · have before := proposing.next (view ▸ old)
          omega }

/-- Proposing for all slots in turn keeps the knowledge. -/
theorem proposeBlocks_gives (slots : Nat) (inside : (knowledge cfg).Inside p start l)
    (proposing : Proposing cfg p l) (tagged : just.getRDataPara = some rd)
    (current : rd.propv = l.node.view) (prevHash : Hash) :
    (proposeBlocks cfg just slots prevHash).Gives (fun _ => (knowledge cfg).Inside p start)
      ((knowledge cfg).Inside p start) l := by
  -- Induction on the slots; each proposal leaves the leader proposing for the next slot.
  induction slots generalizing l prevHash with
  | zero => exact inside
  | succ slots ih =>
    unfold proposeBlocks
    rw [gives_bind]
    refine (proposeBlock_gives inside proposing tagged current prevHash).mono ?_ fun _ left => left
    rintro next l' ⟨inside', proposing', view⟩
    exact ih inside' proposing' (current.trans view.symm) next

/-- A leader that is ready and has not proposed in its view yet may begin to. -/
theorem preparePara_gives (inside : (knowledge cfg).Inside p start l)
    (tagged : just.getRDataPara = some rd) (ready : Ready cfg p l.node rd)
    (fresh : ¬ Begun l.history p l.node.view) :
    (preparePara cfg just).Gives (fun _ => (knowledge cfg).Inside p start)
      ((knowledge cfg).Inside p start) l := by
  have own : Own cfg p l.node l.history := inside.own
  simp only [preparePara, tagged, gives_bind, gives_ofOption_some, gives_this, gives_note,
    gives_modify]
  obtain rfl : l.node.myid = p := own.myid
  have none_proposed : ∀ {block}, ¬ Proposed cfg l.history l.node.view block :=
    fun proposed => fresh (own.proposed proposed ready.leads)
  generalize localSeq : (if ((l.node.myid % 4 : Nat) : Int) = cfg.byzantine then 2 else 1) = first
  have proposed : ∀ {v block}, Proposed cfg (.prepared l.node.myid l.node.view rd :: l.history) v block
      ↔ Proposed cfg l.history v block := by
    simp [Proposed]
  have facts : Facts cfg (.prepared l.node.myid l.node.view rd :: l.history) :=
    { unique := by
        simp only [proposed]
        exact (show Facts cfg l.history from inside.facts).unique
      justified := fun member => by
        rcases List.mem_cons.1 member with new | old
        · cases new
          exact ready.current
        · exact (show Facts cfg l.history from inside.facts).justified old }
  have began : Own cfg l.node.myid { l.node with localSeq := first }
      (.prepared l.node.myid l.node.view rd :: l.history) :=
    { own with
      begun := fun {v} begun => by
        obtain ⟨r, member⟩ := begun
        rcases List.mem_cons.1 member with new | old
        · cases new
          exact ready.collected
        · exact own.begun ⟨r, old⟩
      asked := fun asked => own.asked (by simpa [Asked] using asked)
      proposed := fun old leads => (own.proposed (proposed.1 old) leads).mono [_] }
  have noted := inside.event (e := .prepared l.node.myid l.node.view rd) stable rfl facts began
  refine proposeBlocks_gives _ noted ?_ tagged ready.current _
  exact
    { leads := ready.leads
      begun := ⟨rd, by simp⟩
      next := fun old => absurd (proposed.1 old) none_proposed }

/-- So may one that announces the justification first. -/
theorem initiateVerifyPara_gives (inside : (knowledge cfg).Inside p start l)
    (tagged : just.getRDataPara = some rd) (ready : Ready cfg p l.node rd)
    (fresh : ¬ Begun l.history p l.node.view) :
    (initiateVerifyPara cfg just).Gives (fun _ => (knowledge cfg).Inside p start)
      ((knowledge cfg).Inside p start) l := by
  have own : Own cfg p l.node l.history := inside.own
  simp only [initiateVerifyPara, tagged, gives_bind, gives_ofOption_some, gives_this, gives_modify,
    gives_multicast]
  -- Looking the view of the justification up changes nothing that is known.
  have frame : Frame l.node (if rd.justv < l.node.pblocks.keys.length then
      l.node.enterView rd.justv else l.node) := by
    split
    · exact frame_enterView _ _
    · exact .refl _
  have entered := inside.node (framed frame inside.own)
  have announced := entered.send
    (.verify ⟨rd, just.signs, if rd.justv < l.node.pblocks.keys.length then
      announcedHashes (l.node.blocksOf rd.justv) else []⟩)
    (cfg.remove_from_peers l.node.myid l.node.myid) fun d recipient => by
      have other := (Config.mem_remove_from_peers.1 recipient).2
      have leader : cfg.getLeaderOf rd.propv = l.node.myid := by
        rw [ready.current, ready.leads, own.myid]
      refine ⟨?_, ?_⟩
      · rw [leader]
        exact other.symm
      · rw [ready.current]
        exact own.small
  have view := frame.view
  exact preparePara_gives announced tagged (ready.frame frame) (by rw [view]; exact fresh)

omit [Hashing] in
/-- A leader that is ready may also ask for blocks. -/
theorem initiateRecoverPara_gives (inside : (knowledge cfg).Inside p start l)
    (tagged : just.getRDataPara = some rd) (ready : Ready cfg p l.node rd) (missing : List Nat) :
    (initiateRecoverPara cfg missing just).Gives (fun _ => (knowledge cfg).Inside p start)
      ((knowledge cfg).Inside p start) l := by
  have own : Own cfg p l.node l.history := inside.own
  simp only [initiateRecoverPara, tagged, gives_bind, gives_ofOption_some, gives_this, gives_note,
    gives_multicast]
  have leader : cfg.getLeaderOf rd.propv = p := by rw [ready.current, ready.leads]
  obtain rfl : l.node.myid = p := own.myid
  have proposed : ∀ {v block}, Proposed cfg (.recovering l.node.myid rd :: l.history) v block
      ↔ Proposed cfg l.history v block := by
    simp [Proposed]
  have facts : Facts cfg (.recovering l.node.myid rd :: l.history) :=
    { unique := by
        simp only [proposed]
        exact (show Facts cfg l.history from inside.facts).unique
      justified := fun member =>
        (show Facts cfg l.history from inside.facts).justified (by simpa using member) }
  have asking : Own cfg l.node.myid l.node (.recovering l.node.myid rd :: l.history) :=
    { own with
      begun := fun begun => by
        obtain ⟨r, member⟩ := begun
        exact own.begun ⟨r, by simpa using member⟩
      asked := fun {r} asked leads => by
        rcases List.mem_cons.1 asked with new | old
        · obtain rfl : r = rd := (ParaEvent.recovering.inj new).2
          rw [ready.current]
          exact ready.collected
        · exact own.asked old leads
      proposed := fun old leads => (own.proposed (proposed.1 old) leads).mono [_] }
  have noted := inside.event (e := .recovering l.node.myid rd) stable rfl facts asking
  refine noted.send _ _ fun d _ => ?_
  change ParaEvent.recovering (cfg.getLeaderOf rd.propv) rd ∈ _
  rw [leader]
  simp

end Proposing

section Reports

variable {m : MsgNewViewPara} {s : Sign}

/-- A report with one signature is stored and counted, unless its signer has sent one before. -/
theorem storeNvPara_cases (log : LogPara) (single : m.signs = [s]) :
    log.storeNvPara m = (0, log)
      ∨ ∃ newviewsPara, log.storeNvPara m
          = ((log.newviewsPara.held m.rdata.propv).length + 1, { log with newviewsPara })
        ∧ (newviewsPara.held m.rdata.propv).Perm (m :: log.newviewsPara.held m.rdata.propv)
        ∧ ∀ v, v ≠ m.rdata.propv → newviewsPara.held v = log.newviewsPara.held v := by
  by_cases known : s.signer
      ∈ (Messages.allSigns (·.signs) (log.newviewsPara.held m.rdata.propv)).getSigners
  · -- Its only signer is known, so nothing is stored.
    have signed : Messages.allSigns (·.signs) (log.newviewsPara.held m.rdata.propv) ≠ [] := by
      intro none_held
      simp [none_held, Signs.getSigners] at known
    have covered : ∀ q ∈ m.signs.getSigners, q
        ∈ (Messages.allSigns (·.signs) (log.newviewsPara.held m.rdata.propv)).getSigners := by
      intro q member
      obtain rfl : q = s.signer := by simpa [single, Signs.getSigners] using member
      exact known
    have kept : log.newviewsPara.store (·.signs) MsgRDataPara.lt m.rdata.propv m
        = (0, log.newviewsPara) := Messages.store_covered covered signed
    left
    simp only [LogPara.storeNvPara, kept]
  · -- The signer is new, so the report is put in, wherever its place is.
    have signer : s.signer ∈ m.signs.getSigners := by simp [single, Signs.getSigners]
    obtain ⟨moved, counted⟩ := Messages.store_new (·.signs) MsgRDataPara.lt log.newviewsPara
      m.rdata.propv m (fun {a b} first second => MsgRDataPara.signers_of_equivalent first second)
      signer known
    refine .inr ⟨_, ?_, moved, fun v other => Messages.held_store_ne other⟩
    simp only [LogPara.storeNvPara, counted]

/-- A node that stores a report knows what it did, once it is in the view of a full quorum. -/
theorem Own.report (own : Own cfg p h H) (single : m.signs = [s])
    {newviewsPara : Messages View MsgNewViewPara}
    (moved : (newviewsPara.held m.rdata.propv).Perm (m :: h.log.newviewsPara.held m.rdata.propv))
    (others : ∀ v, v ≠ m.rdata.propv → newviewsPara.held v = h.log.newviewsPara.held v)
    {h' : HandlerPara} (myid : h'.myid = h.myid) (later : h.view ≤ h'.view)
    (small : h'.view < wordSize) (trusted : h'.tpara.view < wordSize)
    (log : h'.log = { h.log with newviewsPara })
    (reached : cfg.qsize ≤ (h.log.newviewsPara.held m.rdata.propv).length + 1 →
      m.rdata.propv ≤ h'.view) : Own cfg p h' H := by
  have length : (newviewsPara.held m.rdata.propv).length
      = (h.log.newviewsPara.held m.rdata.propv).length + 1 := by simpa using moved.length_eq
  have grown : ∀ v, (h.log.newviewsPara.held v).length ≤ (newviewsPara.held v).length := by
    intro v
    by_cases here : v = m.rdata.propv
    · subst here
      omega
    · rw [others v here]
  exact
    { myid := myid.trans own.myid
      small := small
      trusted := trusted
      newviews := fun {v m'} member => by
        rw [log] at member
        by_cases here : v = m.rdata.propv
        · subst here
          rcases List.mem_cons.1 (moved.mem_iff.1 member) with rfl | old
          · exact ⟨rfl, s, single⟩
          · exact own.newviews old
        · exact own.newviews (by rw [← others v here]; exact member)
      quorum := fun {v} full => by
        rw [log] at full
        by_cases here : v = m.rdata.propv
        · subst here
          exact reached (by simpa [length] using full)
        · have before := own.quorum (by rw [← others v here]; exact full)
          exact Nat.le_trans before later
      begun := fun {v} begun => by
        rw [log]
        exact Nat.le_trans (own.begun begun) (grown v)
      asked := fun {r} asked leads => by
        rw [log]
        exact Nat.le_trans (own.asked asked leads) (grown r.propv)
      proposed := own.proposed
      proposals := by
        rw [log]
        exact own.proposals
      verifies := by
        rw [log]
        exact own.verifies }

/-- A quiet program hands on what is known, and what depends on the frame of the node only. -/
theorem quiet_gives {α : Type} {program : M α} (quiet : Quiet program)
    (inside : (knowledge cfg).Inside p start l) {post : α → State → Prop}
    (rest : ∀ a h, Frame l.node h → (knowledge cfg).Inside p start { l with node := h } →
      post a { l with node := h }) :
    program.Gives post ((knowledge cfg).Inside p start) l := by
  refine (quiet l).mono (fun a l' ⟨h, frame, same⟩ => ?_) fun l' ⟨h, frame, same⟩ => ?_
  all_goals rw [same]
  · exact rest a h frame (inside.node (framed frame inside.own))
  · exact inside.node (framed frame inside.own)

variable [Hashing]

/-- A ready leader verifies its justification, or asks for the blocks that are missing. -/
theorem verifyOrRecover_gives (inside : (knowledge cfg).Inside p start l)
    (tagged : just.getRDataPara = some rd) (ready : Ready cfg p l.node rd)
    (fresh : ¬ Begun l.history p l.node.view) (missing : List Nat) :
    (verifyOrRecover cfg just missing).Gives (fun _ => (knowledge cfg).Inside p start)
      ((knowledge cfg).Inside p start) l :=
  gives_ite (fun _ => initiateVerifyPara_gives inside tagged ready fresh)
    fun _ => initiateRecoverPara_gives inside tagged ready missing

/-- A leader that has just collected a quorum of reports for its view acts on the highest one. -/
theorem actOnReports_gives (positive : 0 < cfg.qsize)
    (inside : (knowledge cfg).Inside p start l) (leads : cfg.getLeaderOf l.node.view = p)
    (collected : cfg.qsize ≤ (l.node.log.newviewsPara.held l.node.view).length)
    (fresh : ¬ Begun l.history p l.node.view) :
    (actOnReports cfg).Gives (fun _ => (knowledge cfg).Inside p start)
      ((knowledge cfg).Inside p start) l := by
  have own : Own cfg p l.node l.history := inside.own
  -- The highest report is one of those held, and they are all of this view.
  obtain ⟨msg, highest, current⟩ : ∃ msg : MsgNewViewPara,
      l.node.log.findHighestNvPara l.node.view = Just.ofRDataPara msg.rdata msg.signs
        ∧ msg.rdata.propv = l.node.view := by
    rcases l.node.log.findHighestNvPara_mem l.node.view with ⟨none_held, _⟩ | ⟨msg, held, found, _⟩
    · rw [none_held, List.length_nil] at collected
      omega
    · exact ⟨msg, found, (own.newviews held).1⟩
  have tagged : (Just.ofRDataPara msg.rdata msg.signs).getRDataPara = some msg.rdata := by simp
  have ready : Ready cfg p l.node msg.rdata := ⟨leads, current, collected⟩
  unfold actOnReports
  rw [gives_bind, gives_this, highest, gives_bind]
  refine quiet_gives (quiet_getMissingSeqNumbersForJust _) inside fun missing h₁ frame₁ inside₁ => ?_
  rw [gives_bind]
  refine quiet_gives quiet_choose inside₁ fun chance h₂ frame₂ inside₂ => ?_
  have frame : Frame l.node h₂ := frame₁.trans frame₂
  have still : ¬ Begun l.history p h₂.view := by rw [frame.view]; exact fresh
  refine gives_ite (fun _ => ?_) fun _ => gives_ite (fun _ => ?_) fun _ => ?_
  · exact initiateVerifyPara_gives inside₂ tagged (ready.frame frame) still
  · -- A forced recovery forgets the blocks first.
    rw [tagged, gives_bind, gives_ofOption_some, gives_bind, gives_modify]
    have forgot : Frame h₂ { h₂ with
        pblocks := h₂.pblocks.insert msg.rdata.justv
          (List.replicate cfg.maxBlocksInView PBlock.default) } := ⟨rfl, rfl, rfl, rfl, rfl, rfl⟩
    have inside₃ := inside₂.node (framed forgot inside₂.own)
    rw [gives_bind]
    refine quiet_gives (quiet_getMissingSeqNumbersForJust _) inside₃ fun missing h₄ frame₄ inside₄ => ?_
    exact initiateRecoverPara_gives inside₄ tagged
      (ready.frame ((frame.trans forgot).trans frame₄)) missing
  · exact verifyOrRecover_gives inside₂ tagged (ready.frame frame) still missing

/-- The quorum of reports for a view is reached once, and then the leader enters the view. -/
theorem handleNewViewPara_kept (positive : 0 < cfg.qsize) {msg : MsgNewViewPara}
    (small : msg.rdata.propv < wordSize) (single : msg.signs = [s]) :
    Keeps ((knowledge cfg).Inside p start) (handleNewViewPara cfg msg) := by
  intro l inside
  have own : Own cfg p l.node l.history := inside.own
  unfold handleNewViewPara
  rw [gives_bind, gives_this]
  refine gives_ite (fun _ => inside) fun _ => gives_ite (fun taken => ?_) fun _ => inside
  simp only [Bool.and_eq_true, decide_eq_true_eq, Config.amLeaderOf_iff] at taken
  obtain ⟨⟨⟨-, later⟩, -⟩, leads⟩ := taken
  have leader : cfg.getLeaderOf msg.rdata.propv = p := leads.trans own.myid
  rw [gives_bind, gives_storeNvPara]
  rcases storeNvPara_cases l.node.log single with covered | ⟨newviewsPara, stored, moved, others⟩
  · -- The count is 0, and no quorum is empty.
    rw [covered]
    refine gives_ite (fun full => ?_) fun _ => inside
    rw [beq_iff_eq] at full
    omega
  rw [stored]
  refine gives_ite (fun full => ?_) fun partly => ?_
  · -- With this report the quorum is full, so nothing has been done in the view yet.
    rw [beq_iff_eq] at full
    have fresh : ¬ Begun l.history p msg.rdata.propv := by
      intro begun
      have before := own.begun begun
      omega
    have collected : cfg.qsize ≤ (newviewsPara.held msg.rdata.propv).length := by
      have length := moved.length_eq
      rw [List.length_cons] at length
      omega
    rw [gives_bind]
    simp only [catchUp, gives_bind, gives_this]
    refine gives_ite (fun behind => ?_) fun here => ?_
    · simp only [gives_bind, gives_callTEEsignPara, gives_changeView]
      have plain : Plain cfg (.signed l.node.myid l.node.tpara.nodeStatement) :=
        ⟨by simp, by simp, by simp⟩
      have reported : Own cfg p
          (HandlerPara.entered cfg
            { l.node with
              log := { l.node.log with newviewsPara }
              tpara := l.node.tpara.increment_node_phase } msg.rdata.propv)
          (.signed l.node.myid l.node.tpara.nodeStatement :: l.history) :=
        (own.plain plain).report single moved others rfl later small small rfl
          fun _ => Nat.le_refl _
      have entered := inside.event (e := .signed l.node.myid l.node.tpara.nodeStatement) stable
        own.myid (inside.facts.plain plain) reported
      exact actOnReports_gives positive entered leader collected fun begun =>
        fresh (plain.begun.1 begun)
    · have current : msg.rdata.propv = l.node.view := by
        have notBehind := Nat.le_of_not_lt here
        exact Nat.le_antisymm notBehind later
      have reported : Own cfg p { l.node with log := { l.node.log with newviewsPara } }
          l.history :=
        own.report single moved others rfl (Nat.le_refl _) own.small own.trusted rfl
          fun _ => Nat.le_of_eq current
      rw [current] at leader collected fresh
      exact actOnReports_gives positive (inside.node reported) leader collected fresh
  · rw [beq_iff_eq] at partly
    -- A quorum that was full before has brought the node to the view then.
    apply inside.node
    refine own.report single moved others rfl (Nat.le_refl _) own.small own.trusted rfl fun full => ?_
    exact own.quorum (by omega)

end Reports

section Recovery

/-- Whether an answer to a request for blocks brings a block for a slot. -/
def fills (cfg : Config) (msg : MsgRecoverPara) (seq : Nat) : Bool :=
  msg.signs.verify cfg.nodes msg.rdata.toString && msg.blocks.any (·.seqNumber == seq)

/--
Whether a leader goes on to propose on an answer to a request for blocks.

It does with the last missing block, or with enough answers, unless the first slot is among the
missing ones; then it does only if it has verified a justification of the view before.
-/
def resumes (cfg : Config) (h : HandlerPara) (msg : MsgRecoverPara) : Bool :=
  let missing := h.missingSeqNumbers msg.rdata
  let responses := (h.recoverResponses.lookup msg.rdata.justv).getD 1 + 1
  let viewBefore := (h.view + wordSize - 1) % wordSize
  !maxViewsReached cfg h && cfg.amLeaderOf h.myid h.view && !missing.isEmpty
    && (missing.all (fills cfg msg)
      || (cfg.qsize ≤ responses && (!missing.contains 1 || fills cfg msg 1
        || h.verifiedJust.getRDataPara.map (·.propv) == some viewBefore)))

variable {rdata : RDataPara} {seq : Nat} {v w : View}

/-- A slot up to that of the justification is missing if it holds no block. -/
theorem mem_missingSeqNumbers : seq ∈ h.missingSeqNumbers rdata
    ↔ (1 ≤ seq ∧ seq ≤ rdata.seqNumber)
      ∧ ((h.blocksOf rdata.justv).getD (seq - 1) PBlock.default).isBlock = false := by
  simp only [missingSeqNumbers, List.mem_filter, List.mem_range'_1, Bool.not_eq_true']
  constructor
  · rintro ⟨⟨first, last⟩, empty⟩
    exact ⟨⟨first, by omega⟩, empty⟩
  · rintro ⟨⟨first, last⟩, empty⟩
    exact ⟨⟨first, by omega⟩, empty⟩

/-- The missing slots are listed in order. -/
theorem sorted_missingSeqNumbers : (h.missingSeqNumbers rdata).Pairwise (· < ·) :=
  List.Pairwise.filter _ List.pairwise_lt_range'

/-- Looking a view up leaves the missing slots. -/
theorem missingSeqNumbers_enterView :
    (h.enterView v).missingSeqNumbers rdata = h.missingSeqNumbers rdata :=
  missing_of_blocks (blocksOf_enterView h v rdata.justv)

/-- Giving a view its slots fills none. -/
theorem missing_resizeBlocks (missing : seq ∈ h.missingSeqNumbers rdata) :
    seq ∈ (h.resizeBlocks cfg v).missingSeqNumbers rdata := by
  obtain ⟨slot, empty⟩ := mem_missingSeqNumbers.1 missing
  refine mem_missingSeqNumbers.2 ⟨slot, ?_⟩
  by_cases same : rdata.justv = v
  · subst same
    simp only [blocksOf, resizeBlocks, AList.lookup_insert, Option.getD_some]
    change ((List.take cfg.maxBlocksInView (h.blocksOf rdata.justv) ++ _).getD _ _).isBlock = false
    -- A slot keeps its block, or is a new and empty one.
    rw [List.getD_eq_getElem?_getD, List.getElem?_append]
    split
    · rename_i before
      rw [List.length_take] at before
      rw [List.getElem?_take_of_lt (by omega), ← List.getD_eq_getElem?_getD]
      exact empty
    · rw [List.getElem?_replicate]
      split <;> rfl
  · simpa [blocksOf, resizeBlocks, same] using empty

/-- Setting a block fills no other slot. -/
theorem missing_setBlock {block : PBlock} (missing : seq ∈ h.missingSeqNumbers rdata)
    (other : block.seqNumber ≠ seq) (slots : block.seqNumber ≠ 0) :
    seq ∈ (h.setBlock v block).missingSeqNumbers rdata := by
  obtain ⟨slot, empty⟩ := mem_missingSeqNumbers.1 missing
  refine mem_missingSeqNumbers.2 ⟨slot, ?_⟩
  by_cases same : rdata.justv = v
  · subst same
    simp only [blocksOf, setBlock, AList.lookup_insert, Option.getD_some]
    change (((h.blocksOf rdata.justv).set _ _).getD _ _).isBlock = false
    have apart : block.seqNumber - 1 ≠ seq - 1 := by omega
    rw [List.getD_eq_getElem?_getD, List.getElem?_set_ne apart, ← List.getD_eq_getElem?_getD]
    exact empty
  · simpa [blocksOf, setBlock, same] using empty

/-- What recording blocks leaves missing: all slots for which no block has come. -/
structure Recorded (rdata : RDataPara) (brings : Nat → Prop) (h : HandlerPara)
    (missing left : List Nat) (h' : HandlerPara) : Prop where
  responses : h'.recoverResponses = h.recoverResponses
  sorted : left.Pairwise (· < ·)
  stays : ∀ {seq}, seq ∈ h.missingSeqNumbers rdata → seq ∈ missing → ¬ brings seq → seq ∈ left

/-- Recording fills only slots for which a block has come. -/
theorem recordBlocks_gives {blocks : List PBlock} {missing : List Nat}
    (tagged : just.getRDataPara = some rdata) (sorted : missing.Pairwise (· < ·)) :
    (recordBlocks cfg just v blocks missing).Gives
      (fun left l' => Recorded rdata (fun seq => ∃ block ∈ blocks, block.seqNumber = seq) l.node
        missing left l'.node)
      (fun _ => True) l := by
  -- Induction on the blocks received; a slot stays missing through every round.
  induction blocks generalizing l missing with
  | nil => exact ⟨rfl, sorted, fun _ listed _ => listed⟩
  | cons block rest ih =>
    unfold recordBlocks
    rw [gives_bind, gives_modify]
    generalize sized : (if (l.node.blocksOf v).length < block.seqNumber
        || (l.node.pblocks.lookup v).isNone then l.node.resizeBlocks cfg v else l.node) = h₁
    have responses₁ : h₁.recoverResponses = l.node.recoverResponses := by
      rw [← sized]
      split <;> rfl
    have stays₁ : ∀ {seq}, seq ∈ l.node.missingSeqNumbers rdata →
        seq ∈ h₁.missingSeqNumbers rdata := by
      intro seq missing
      rw [← sized]
      split
      · exact missing_resizeBlocks missing
      · exact missing
    have not_brought : ∀ {seq}, (¬ ∃ b ∈ block :: rest, b.seqNumber = seq) →
        ¬ ∃ b ∈ rest, b.seqNumber = seq := by
      intro seq none_brought brought
      obtain ⟨b, member, same⟩ := brought
      exact none_brought ⟨b, List.mem_cons_of_mem _ member, same⟩
    rw [gives_bind, gives_this]
    refine gives_ite (fun _ => trivial) fun within => gives_ite (fun _ => ?_) fun _ => ?_
    · simp only [Bool.or_eq_true, decide_eq_true_eq, not_or] at within
      simp only [gives_bind, gives_modify, getMissingSeqNumbersForJust, tagged,
        gives_ofOption_some, gives_this, gives_pure]
      have stays₂ : ∀ {seq}, seq ∈ l.node.missingSeqNumbers rdata →
          (¬ ∃ b ∈ block :: rest, b.seqNumber = seq) →
          seq ∈ ((h₁.setBlock v block).enterView rdata.justv).missingSeqNumbers rdata := by
        intro seq missing none_brought
        rw [missingSeqNumbers_enterView]
        exact missing_setBlock (stays₁ missing) (fun same => none_brought ⟨block, by simp, same⟩)
          within.1
      have responses₂ : ((h₁.setBlock v block).enterView rdata.justv).recoverResponses
          = l.node.recoverResponses := by
        rw [← responses₁]
        unfold enterView
        split <;> rfl
      refine gives_ite (fun none_left => ?_) fun _ => ?_
      · rw [List.isEmpty_iff] at none_left
        refine ⟨responses₂, List.Pairwise.nil, fun missing _ none_brought => ?_⟩
        rw [← none_left]
        exact stays₂ missing none_brought
      · refine (ih sorted_missingSeqNumbers).mono (fun left l' recorded => ?_) fun _ _ => trivial
        refine ⟨recorded.responses.trans responses₂, recorded.sorted,
          fun missing _ none_brought => ?_⟩
        have still := stays₂ missing none_brought
        exact recorded.stays still still (not_brought none_brought)
    · refine (ih sorted).mono (fun left l' recorded => ?_) fun _ _ => trivial
      exact ⟨recorded.responses.trans responses₁, recorded.sorted,
        fun missing listed none_brought =>
          recorded.stays (stays₁ missing) listed (not_brought none_brought)⟩

/-- Nothing is recorded from an invalid answer. -/
theorem recordValid_gives {blocks : List PBlock} {missing : List Nat} (valid : Bool)
    (tagged : just.getRDataPara = some rdata) (sorted : missing.Pairwise (· < ·)) :
    (recordValid cfg valid just v blocks missing).Gives
      (fun left l' => Recorded rdata
        (fun seq => valid = true ∧ ∃ block ∈ blocks, block.seqNumber = seq) l.node missing left
        l'.node)
      (fun _ => True) l := by
  refine gives_ite (fun taken => ?_) fun _ => ?_
  · refine (recordBlocks_gives tagged sorted).mono (fun left l' recorded => ?_) fun _ _ => trivial
    exact { recorded with
      stays := fun missing listed none_brought => recorded.stays missing listed fun brought =>
        none_brought ⟨taken, brought⟩ }
  · exact ⟨rfl, sorted, fun _ listed _ => listed⟩

/-- Without a missing slot nothing is missing; with the first one missing no slot comes before. -/
theorem Recorded.fills {msg : MsgRecoverPara} {left : List Nat} {h' : HandlerPara}
    (recorded : Recorded msg.rdata
      (fun seq => msg.signs.verify cfg.nodes msg.rdata.toString = true
        ∧ ∃ block ∈ msg.blocks, block.seqNumber = seq) h (h.missingSeqNumbers msg.rdata) left h')
    (missing : seq ∈ h.missingSeqNumbers msg.rdata) (filled : seq ∉ left) :
    fills cfg msg seq = true := by
  by_contra empty
  refine filled (recorded.stays missing missing fun ⟨valid, block, member, same⟩ => empty ?_)
  simp only [Slots.fills, valid, Bool.true_and, List.any_eq_true, beq_iff_eq]
  exact ⟨block, member, same⟩

variable [Hashing]

/-- A leader that gives up a recovery proposes on the justification of the view before. -/
theorem recoverFromVerified_gives (inside : (knowledge cfg).Inside p start l)
    (leads : cfg.getLeaderOf l.node.view = p)
    (ready : l.node.verifiedJust.getRDataPara.map (·.propv)
        = some ((l.node.view + wordSize - 1) % wordSize) →
      cfg.qsize ≤ (l.node.log.newviewsPara.held l.node.view).length
        ∧ ¬ Begun l.history p l.node.view) :
    (recoverFromVerified cfg).Gives (fun _ => (knowledge cfg).Inside p start)
      ((knowledge cfg).Inside p start) l := by
  have own : Own cfg p l.node l.history := inside.own
  unfold recoverFromVerified
  rw [gives_bind, gives_this, gives_bind]
  refine gives_ofOption (fun verified adopted => ?_) fun _ => inside
  refine gives_ite (fun before => ?_) fun _ => inside
  rw [beq_iff_eq] at before
  obtain ⟨collected, fresh⟩ := ready (by rw [adopted, Option.map_some, before])
  simp only [gives_bind, gives_note, gives_multicast]
  have plain : Plain cfg (.fallback l.node.myid l.node.view) := ⟨by simp, by simp, by simp⟩
  have noted := plain_inside inside plain own.myid l.node.tpara own.trusted
  -- The announcement is of the leader's own view, and goes to the others.
  have announced := noted.send
    (.verify ⟨⟨Hash.default, l.node.view, verified.justh, verified.justv, verified.phase,
      verified.seqNumber⟩, l.node.verifiedJust.signs, []⟩)
    (cfg.remove_from_peers l.node.myid l.node.myid) fun d recipient => by
      have other := (Config.mem_remove_from_peers.1 recipient).2
      refine ⟨?_, own.small⟩
      change cfg.getLeaderOf l.node.view ≠ d
      rw [leads, ← own.myid]
      exact other.symm
  exact preparePara_gives announced (Just.getRDataPara_ofRDataPara _ _) ⟨leads, rfl, collected⟩
    fun begun => fresh (plain.begun.1 begun)

/-- What makes a leader go on to propose, once it has counted an answer for the first time. -/
def Resumes (cfg : Config) (h : HandlerPara) (msg : MsgRecoverPara) : Prop :=
  (∀ seq ∈ h.missingSeqNumbers msg.rdata, fills cfg msg seq = true)
    ∨ (cfg.qsize ≤ (h.recoverResponses.lookup msg.rdata.justv).getD 0 + 1
      ∧ ((1 ∈ h.missingSeqNumbers msg.rdata → fills cfg msg 1 = true)
        ∨ h.verifiedJust.getRDataPara.map (·.propv) = some ((h.view + wordSize - 1) % wordSize)))

/-- After recording an answer a leader proposes only if it resumes. -/
theorem afterRecording_gives {msg : MsgRecoverPara}
    (inside : (knowledge cfg).Inside p start l) (leads : cfg.getLeaderOf l.node.view = p)
    (ready : Resumes cfg l.node msg →
      Ready cfg p l.node msg.rdata ∧ ¬ Begun l.history p l.node.view) :
    (handleAnswer cfg msg (msg.signs.verify cfg.nodes msg.rdata.toString)
      (l.node.missingSeqNumbers msg.rdata)).Gives
      (fun _ => (knowledge cfg).Inside p start) ((knowledge cfg).Inside p start) l := by
  have tagged : (Just.ofRDataPara msg.rdata msg.signs).getRDataPara = some msg.rdata := by simp
  have quiet : Quiet (recordValid cfg (msg.signs.verify cfg.nodes msg.rdata.toString)
      (Just.ofRDataPara msg.rdata msg.signs) msg.rdata.justv msg.blocks
      (l.node.missingSeqNumbers msg.rdata)) := quiet_recordValid _ _ _ _ _
  unfold handleAnswer
  rw [gives_bind]
  refine ((recordValid_gives _ tagged sorted_missingSeqNumbers).and (quiet l)).mono ?_ ?_
  swap
  · rintro l' ⟨-, h₁, frame, rfl⟩
    exact inside.node (framed frame inside.own)
  rintro left l' ⟨recorded, h₁, frame, rfl⟩
  have inside₁ := inside.node (framed frame inside.own)
  have still : ¬ Begun l.history p l.node.view → ¬ Begun l.history p h₁.view := by
    rw [frame.view]
    exact id
  refine gives_ite (fun none_left => ?_) fun some_left => ?_
  · -- Every missing slot has been filled.
    rw [List.isEmpty_iff] at none_left
    obtain ⟨ready, fresh⟩ := ready (.inl fun seq missing =>
      recorded.fills missing (by simp [none_left]))
    exact initiateVerifyPara_gives inside₁ tagged (ready.frame frame) (still fresh)
  · rw [gives_bind, gives_this, gives_bind, gives_modify]
    -- Counting the answer changes nothing else.
    have counting : ∀ responses, Frame h₁ { h₁ with
        recoverResponses := h₁.recoverResponses.insert msg.rdata.justv responses } :=
      fun _ => ⟨rfl, rfl, rfl, rfl, rfl, rfl⟩
    have inside₂ := fun responses => inside₁.node (framed (counting responses) inside₁.own)
    refine gives_ite (fun enough => ?_) fun _ => inside₂ _
    have enough : cfg.qsize ≤ (l.node.recoverResponses.lookup msg.rdata.justv).getD 0 + 1 := by
      rw [← recorded.responses]
      exact enough
    refine gives_ite (fun contiguous => ?_) fun _ => ?_
    · -- The first slot is there, so it is not the first one missing.
      have first : 1 ∈ l.node.missingSeqNumbers msg.rdata → fills cfg msg 1 = true := by
        intro missing
        refine recorded.fills missing fun listed => ?_
        cases left with
        | nil => simp at listed
        | cons next rest =>
          rw [List.headD_cons] at contiguous
          rcases List.mem_cons.1 listed with rfl | later
          · omega
          · have below := List.rel_of_pairwise_cons recorded.sorted later
            omega
      obtain ⟨ready, fresh⟩ := ready (.inr ⟨enough, .inl first⟩)
      exact initiateVerifyPara_gives (inside₂ _) tagged (ready.frame (frame.trans (counting _)))
        (still fresh)
    · refine recoverFromVerified_gives (inside₂ _) (frame.view ▸ leads) fun before => ?_
      have before : l.node.verifiedJust.getRDataPara.map (·.propv)
          = some ((l.node.view + wordSize - 1) % wordSize) := by
        rw [← frame.verifiedJust, ← frame.view]
        exact before
      obtain ⟨ready, fresh⟩ := ready (.inr ⟨enough, .inr before⟩)
      exact ⟨(ready.frame (frame.trans (counting 0))).collected, still fresh⟩

/-- On time, an answer to a request for blocks makes a leader propose only in the view asked for. -/
theorem handleRecoverPara_gives {msg : MsgRecoverPara}
    (inside : (knowledge cfg).Inside p start l) (asked : Asked cfg l.history msg.rdata)
    (timely : resumes cfg l.node msg = true →
      msg.rdata.propv = l.node.view ∧ ¬ Begun l.history p l.node.view) :
    (handleRecoverPara cfg msg).Gives (fun _ => (knowledge cfg).Inside p start)
      ((knowledge cfg).Inside p start) l := by
  have own : Own cfg p l.node l.history := inside.own
  rw [gives_handleRecoverPara]
  refine gives_ite (fun _ => inside) fun running => gives_ite (fun _ => inside) fun leader => ?_
  simp only [Bool.not_eq_true', Bool.not_eq_false] at leader
  rw [Bool.not_eq_true] at running
  have leads : cfg.getLeaderOf l.node.view = p :=
    (Config.amLeaderOf_iff.1 leader).trans own.myid
  have looked := frame_enterView l.node msg.rdata.justv
  refine gives_ite (fun _ => inside.node (framed looked inside.own)) fun some_missing => ?_
  rw [Bool.not_eq_true] at some_missing
  rw [gives_bind, gives_modify]
  -- The first answer counts twice; nothing else has changed so far.
  obtain ⟨h₂, counted⟩ : ∃ h₂, h₂ = l.node.collecting msg.rdata.justv := ⟨_, rfl⟩
  have frame : Frame l.node h₂ := counted ▸ frame_collecting l.node msg.rdata.justv
  have missing : h₂.missingSeqNumbers msg.rdata = l.node.missingSeqNumbers msg.rdata := by
    rw [counted]
    exact missing_of_blocks (blocksOf_collecting l.node msg.rdata.justv msg.rdata.justv)
  have responses : (h₂.recoverResponses.lookup msg.rdata.justv).getD 0
      = (l.node.recoverResponses.lookup msg.rdata.justv).getD 1 :=
    counted ▸ responses_collecting l.node msg.rdata.justv
  have resumed : Resumes cfg h₂ msg → resumes cfg l.node msg = true := by
    unfold Resumes
    rw [responses, frame.verifiedJust, frame.view, missing]
    intro cases
    simp only [resumes, running, leader, some_missing, Bool.not_false, Bool.true_and,
      Bool.or_eq_true, List.all_eq_true, Bool.and_eq_true, decide_eq_true_eq, beq_iff_eq,
      Bool.not_eq_true', List.contains_eq_mem, decide_eq_false_iff_not]
    rcases cases with all | ⟨enough, first | before⟩
    · exact .inl all
    · refine .inr ⟨enough, .inl ?_⟩
      by_cases listed : 1 ∈ l.node.missingSeqNumbers msg.rdata
      · exact .inr (first listed)
      · exact .inl listed
    · exact .inr ⟨enough, .inr before⟩
  have answered : (knowledge cfg).Inside p start { l with node := h₂ } :=
    inside.node (framed frame inside.own)
  have ready : Resumes cfg h₂ msg →
      Ready cfg p h₂ msg.rdata ∧ ¬ Begun l.history p h₂.view := by
    -- A leader that resumes is ready, since it asked on a full quorum of reports.
    intro resumes
    obtain ⟨current, fresh⟩ := timely (resumed resumes)
    have collected := own.asked asked (by rw [current, leads])
    refine ⟨Ready.frame ⟨leads, current, by rw [← current]; exact collected⟩ frame, ?_⟩
    rw [frame.view]
    exact fresh
  have after := afterRecording_gives answered (frame.view ▸ leads) ready
  rw [missing, counted] at after
  exact after

end Recovery

end Slots

end HandlerPara

end ParaHotstuff
