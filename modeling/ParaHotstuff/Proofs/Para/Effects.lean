import ParaHotstuff.Proofs.Para.Steps

/-! What every handler of a parallel node keeps, by what each of its effects keeps. -/

namespace ParaHotstuff

/-- Proposals, and votes before the commit, as opposed to what leaders agree on a view with. -/
def MsgPara.isVote : MsgPara → Bool
  | ldrPrepare _ | prepare _ | preCommit _ => true
  | _ => false

/-- Events that only say how far a node got. -/
def ParaEvent.isProgress : ParaEvent → Bool
  | newview _ _ | precommitted _ _ | fallback _ _ | leaving _ _ => true
  | _ => false

/-- Events that only say how far a node got where it stays. -/
def ParaEvent.isNotice : ParaEvent → Bool
  | newview _ _ | precommitted _ _ | fallback _ _ => true
  | _ => false

theorem ParaEvent.isProgress_of_isNotice {e : ParaEvent} (notice : e.isNotice = true) :
    e.isProgress = true := by
  cases e <;> first | rfl | cases notice

namespace LogPara

/-- The log has the same reports, proposals and announcements; votes may have been added. -/
structure SameReports (log log' : LogPara) : Prop where
  newviewsPara : log'.newviewsPara = log.newviewsPara
  proposalsPara : log'.proposalsPara = log.proposalsPara
  verifiesPara : log'.verifiesPara = log.verifiesPara

/-- One vote was added that is no commit. -/
inductive Voted (log : LogPara) : LogPara → Prop
  | prepare (m : MsgPreparePara) : Voted log (log.storePrepPara m).2
  | precommit (m : MsgPreCommitPara) : Voted log (log.storePcPara m).2

variable {log log' : LogPara}

theorem Voted.same (voted : Voted log log') : SameReports log log' := by
  cases voted with
  | prepare m => exact ⟨rfl, rfl, rfl⟩
  | precommit m => exact ⟨rfl, rfl, rfl⟩

theorem Voted.commits (voted : Voted log log') : log'.commitsPara = log.commitsPara := by
  cases voted with
  | prepare m => rfl
  | precommit m => rfl

/-- Votes are kept under the views they name, and commits under their slots. -/
structure Sorted (log : LogPara) : Prop where
  prepares : ∀ {v s m}, m ∈ log.preparesPara.held (v, s) → m.rdata.propv = v
  precommits : ∀ {v s m}, m ∈ log.precommitsPara.held (v, s) → m.rdata.propv = v
  commits : ∀ {v s m}, m ∈ log.commitsPara.held (v, s) → m.rdata.propv = v ∧ m.rdata.seqNumber = s

theorem sorted_empty : Sorted empty := ⟨by simp [empty], by simp [empty], by simp [empty]⟩

/-- Every vote is added where it belongs. -/
theorem Sorted.voted (sorted : Sorted log) (voted : Voted log log') : Sorted log' := by
  cases voted with
  | prepare m =>
    exact
      { sorted with
        prepares := fun member => by
          rcases Messages.mem_storeAndCount member with old | ⟨rfl, place⟩
          · exact sorted.prepares old
          · exact (Prod.mk.inj place).1.symm }
  | precommit m =>
    exact
      { sorted with
        precommits := fun member => by
          rcases Messages.mem_storeAndCount member with old | ⟨rfl, place⟩
          · exact sorted.precommits old
          · exact (Prod.mk.inj place).1.symm }

theorem Sorted.committed (sorted : Sorted log) (m : MsgCommitPara) :
    Sorted (log.storeComPara m).2 :=
  { sorted with
    commits := fun member => by
      rcases Messages.mem_storeAndCount member with old | ⟨rfl, place⟩
      · exact sorted.commits old
      · exact ⟨(Prod.mk.inj place).1.symm, (Prod.mk.inj place).2.symm⟩ }

/-- A slot with some commit message has a first one, which is for the slot. -/
theorem Sorted.getCommitForSeq (sorted : Sorted log) {v : View} {seq : Nat}
    (held : log.hasCommitForSeq v seq = true) :
    (log.getCommitForSeq v seq).rdata.seqNumber = seq := by
  unfold hasCommitForSeq at held
  unfold LogPara.getCommitForSeq Messages.first
  cases commits : log.commitsPara.held (v, seq) with
  | nil =>
    rw [commits] at held
    cases held
  | cons m rest =>
    have member : m ∈ log.commitsPara.held (v, seq) := by
      rw [commits]
      exact List.mem_cons_self
    exact (sorted.commits member).2

/-- A first commit message that is for a slot is for the view and the slot it is held for. -/
theorem Sorted.getCommitForSeq_place (sorted : Sorted log) {v : View} {seq : Nat}
    (positive : 0 < seq) (first : (log.getCommitForSeq v seq).rdata.seqNumber = seq) :
    (log.getCommitForSeq v seq).rdata.propv = v := by
  unfold LogPara.getCommitForSeq Messages.first at first ⊢
  cases commits : log.commitsPara.held (v, seq) with
  | nil =>
    -- Without any commit message the empty one is taken, which is for slot 0.
    rw [commits] at first
    exact absurd first (Nat.ne_of_lt positive)
  | cons m rest =>
    have member : m ∈ log.commitsPara.held (v, seq) := by
      rw [commits]
      exact List.mem_cons_self
    exact (sorted.commits member).1

end LogPara

/-- Numbers taken in a row while a test holds pass it. -/
theorem holds_of_takeWhile {test : Nat → Bool} {start n i : Nat} (first : start ≤ i)
    (taken : i < start + ((List.range' start n).takeWhile test).length) : test i = true := by
  -- Induction on the numbers there are; the first one is taken, or none is.
  induction n generalizing start with
  | zero =>
    simp only [List.range'_zero, List.takeWhile_nil, List.length_nil] at taken
    omega
  | succ n ih =>
    rw [List.range'_succ, List.takeWhile_cons] at taken
    split at taken
    · rename_i passes
      rw [List.length_cons] at taken
      rcases Nat.eq_or_lt_of_le first with rfl | later
      · exact passes
      · exact ih (show start + 1 ≤ i from later) (by omega)
    · rw [List.length_nil] at taken
      omega

/-- The slots up to the highest one found all have some commit message. -/
theorem HandlerPara.hasCommit_of_le {h : HandlerPara} (seqNumber : Nat) {i : Nat} (positive : 0 < i)
    (within : i ≤ h.findHighestSeq seqNumber) : h.log.hasCommitForSeq h.view i = true := by
  have taken : i < 1 + h.findHighestSeq seqNumber := by omega
  exact holds_of_takeWhile positive taken

/-- A justification on a statement of a view, or the dummy one. -/
def Just.OfView (v : View) (just : Just) : Prop :=
  ∀ cert, just.getRDataPara = some cert → cert.propv = v ∨ cert = .default

theorem Just.ofView_ofRDataPara {v : View} {rdata : RDataPara} {signs : Signs}
    (here : rdata.propv = v) : (Just.ofRDataPara rdata signs).OfView v := by
  intro cert tagged
  obtain rfl := Option.some.inj tagged
  exact .inl here

/-- The justification made of the first vote of a slot is of its view. -/
theorem LogPara.ofView_firstOf {msgs : Messages (View × Nat) MsgRDataPara} {v : View} {seq : Nat}
    (placed : ∀ m ∈ msgs.held (v, seq), m.rdata.propv = v) : (firstOf msgs v seq).OfView v := by
  unfold firstOf
  split
  · rename_i m found
    exact Just.ofView_ofRDataPara (placed m (Messages.mem_of_first found))
  · intro cert tagged
    exact .inr (Option.some.inj tagged).symm

namespace HandlerPara

open Program Local

/-- The node leads the view it is in. -/
def Leads (cfg : Config) (h : HandlerPara) : Prop := cfg.getLeaderOf h.view = h.myid

/-- Nothing changed but bookkeeping: clients, transactions, replies, the timer and draws. -/
structure Still (h h' : HandlerPara) : Prop where
  myid : h'.myid = h.myid
  view : h'.view = h.view
  started : h'.started = h.started
  lastExecutedSeq : h'.lastExecutedSeq = h.lastExecutedSeq
  pblocks : h'.pblocks = h.pblocks
  log : h'.log = h.log
  tpara : h'.tpara = h.tpara
  verifiedJust : h'.verifiedJust = h.verifiedJust
  outside : h'.outside = h.outside

/-- A node that has met the client that starts it. -/
def meeting (h : HandlerPara) (cid : CID) : HandlerPara :=
  match h.clients.lookup cid with
  | some _ => h
  | none => { h with clients := h.clients.insert cid ⟨true, 0, 0⟩ }

theorem still_meeting (h : HandlerPara) (cid : CID) : Still h (h.meeting cid) := by
  unfold meeting
  split
  · exact ⟨rfl, rfl, rfl, rfl, rfl, rfl, rfl, rfl, rfl⟩
  · exact ⟨rfl, rfl, rfl, rfl, rfl, rfl, rfl, rfl, rfl⟩

/-- Counting the own answer is bookkeeping. -/
theorem still_collecting (h : HandlerPara) (v : View) :
    Still (h.enterView v) (h.collecting v) := by
  unfold collecting
  split
  · exact ⟨rfl, rfl, rfl, rfl, rfl, rfl, rfl, rfl, rfl⟩
  · exact ⟨rfl, rfl, rfl, rfl, rfl, rfl, rfl, rfl, rfl⟩

/-- A leader records a block in its slot, gives a view its slots, or forgets the blocks of a view. -/
inductive Filed (cfg : Config) (h : HandlerPara) : HandlerPara → Prop
  | records (v : View) (block : PBlock) : Filed cfg h (h.setBlock v block)
  | resizes (v : View) : Filed cfg h (h.resizeBlocks cfg v)
  | forgets (v : View) : Filed cfg h { h with
      pblocks := h.pblocks.insert v (List.replicate cfg.maxBlocksInView PBlock.default) }

/-- Nothing but the blocks changes. -/
theorem Filed.blocks_only {cfg : Config} {h h' : HandlerPara} (filed : Filed cfg h h') :
    ∃ pblocks, h' = { h with pblocks := pblocks } := by
  cases filed with
  | records v block => exact ⟨_, rfl⟩
  | resizes v => exact ⟨_, rfl⟩
  | forgets v => exact ⟨_, rfl⟩

/-- The commits a node stores: those that arrive, its own as a leader, and the empty one. -/
inductive StoresCommit (cfg : Config) (Received : MsgPara → Prop) (l : State) : MsgCommitPara → Prop
  | arrived {m : MsgCommitPara} : Received (.commit m) →
    (m.rdata.propv = l.node.view ∧ m.rdata.phase = PH1_COMMIT ∨ l.node.view < m.rdata.propv) →
    (cfg.getLeaderOf m.rdata.propv = l.node.myid
      ∨ m.signs.verify cfg.nodes m.rdata.toString = true) → StoresCommit cfg Received l m
  | own {r : RDataPara} : Leads cfg l.node → r.propv = l.node.view →
    StoresCommit cfg Received l ⟨r, [l.node.tpara.signature r]⟩
  | refused : StoresCommit cfg Received l ⟨.default, []⟩

/-- The commits a node sends: certificates of a leader, votes for the leader, and the empty one. -/
inductive SendsCommit (cfg : Config) (Sorted : Prop) (l : State) : List PID → MsgCommitPara → Prop
  | certificate {rdata : RDataPara} : Leads cfg l.node → rdata.propv = l.node.view →
    rdata.phase = PH1_COMMIT →
    (l.node.log.getCommitPara rdata.propv cfg.qsize rdata.seqNumber).length = cfg.qsize →
    SendsCommit cfg Sorted l (cfg.remove_from_peers l.node.myid l.node.myid)
      ⟨rdata, l.node.log.getCommitPara rdata.propv cfg.qsize rdata.seqNumber⟩
  | vote {r : RDataPara} : (Sorted → r.propv = l.node.view) →
    SendsCommit cfg Sorted l (cfg.keep_from_peers l.node.myid (cfg.getLeaderOf l.node.view))
      ⟨r, [l.node.tpara.signature r]⟩
  | refused {recipients : List PID} : SendsCommit cfg Sorted l recipients ⟨.default, []⟩

/--
The slots that a node accesses without a look at how many there are.

In its own view it goes from the first slot of a view to the last one; other slots are named by
the messages it handles.
-/
inductive Accesses (cfg : Config) (Received : MsgPara → Prop) (l : State) : View → Nat → Prop
  | own {seq : Nat} : 0 < seq → seq ≤ cfg.maxBlocksInView → Accesses cfg Received l l.node.view seq
  | proposed {m : MsgLdrPreparePara} : Received (.ldrPrepare m) →
    Accesses cfg Received l l.node.view m.prop.block.seqNumber
  | asked {m : MsgLdrRecoverPara} {seq : Nat} : Received (.ldrRecover m) →
    l.node.blocksOf m.rdata.justv ≠ [] → seq ∈ m.missingSeqNumbers →
    Accesses cfg Received l m.rdata.justv seq

/-- What starting a new view does before the report for it is acted on. -/
def leave (cfg : Config) : M (Option MsgNewViewPara) := do
  let h ← this
  note (.leaving h.myid h.view)
  let just ← signUntil signRounds h.view
  changeView cfg ((h.view + 1) % wordSize)
  let rdata ← Program.ofOption just.getRDataPara
  let h ← this
  if rdata.propv == h.view && rdata.phase == PH1_NEWVIEW then
    note (.newview h.myid rdata)
    return some ⟨rdata, just.signs⟩
  else return none

/-- A node that starts a new view leaves its own, and acts on the report it signed for the next. -/
theorem startNewViewPara_gives [Hashing] {cfg : Config} {earlier : M Unit} {stop : State → Prop}
    {post : Unit → State → Prop} {l : State}
    (left : (leave cfg).Gives (fun report l' => match report with
      | none => post () l'
      | some msg =>
        if cfg.amLeaderOf l'.node.myid l'.node.view then
          (do earlier; handleNewViewPara cfg msg : M Unit).Gives post stop l'
        else
          (do
            multicast_msg (.newView msg)
              (cfg.keep_from_peers l'.node.myid (cfg.getLeaderOf l'.node.view))
            earlier : M Unit).Gives post stop l') stop l) :
    (startNewViewPara cfg earlier).Gives post stop l := by
  unfold leave at left
  unfold startNewViewPara
  simp only [gives_bind] at left ⊢
  refine left.mono (fun _ l₁ left => left.mono (fun _ l₂ left => left.mono (fun just l₃ left => ?_)
    fun _ stopped => stopped) fun _ stopped => stopped) fun _ stopped => stopped
  refine left.mono (fun _ l₄ left => left.mono (fun rdata l₅ left => ?_)
    fun _ stopped => stopped) fun _ stopped => stopped
  rw [gives_this] at left ⊢
  by_cases fits : (rdata.propv == l₅.node.view && rdata.phase == PH1_NEWVIEW) = true
  · rw [if_pos fits] at left ⊢
    rw [gives_bind, gives_note] at left ⊢
    rw [gives_bind, gives_amCurrentLeader]
    simp only [gives_pure] at left
    by_cases leader : cfg.amLeaderOf l₅.node.myid l₅.node.view = true
    · rw [if_pos leader] at left ⊢
      rw [gives_bind]
      exact left
    · rw [if_neg leader] at left ⊢
      exact left
  · rw [if_neg fits] at left ⊢
    exact left

/--
A property of a working node that each effect of its handlers keeps.

Messages that arrive, and those put away for later, are received; a leader builds its view on a
usable justification only. Views are compared only if those of messages are bounded, and those of
certificates are known only if votes are sorted by their views.
-/
structure Closed [Hashing] (cfg : Config) (K : State → Prop) (Received : MsgPara → Prop)
    (Usable : View → Just → Prop) (Bounded Sorted : Prop) : Prop where
  still : ∀ {l h}, K l → Still l.node h → K { l with node := h }
  /-- Looking a view up enters it among the blocks. -/
  looks : ∀ {l} (v : View), K l → K { l with node := l.node.enterView v }
  /-- A slot is accessed, which the view may not have. -/
  visits : ∀ {l v seq}, K l → Accesses cfg Received l v seq → K (visiting l v seq)
  blocks : ∀ {l h}, K l → Leads cfg l.node → Filed cfg l.node h → K { l with node := h }
  votes : ∀ {l log}, K l → l.node.log.Voted log → K { l with node := { l.node with log := log } }
  commits : ∀ {l m}, K l → StoresCommit cfg Received l m →
    K { l with node := { l.node with log := (l.node.log.storeComPara m).2 } }
  storeNv : ∀ {l msg}, K l → Received (.newView msg) →
    K { l with node := { l.node with log := (l.node.log.storeNvPara msg).2 } }
  storeProp : ∀ {l msg count log}, K l → Received (.ldrPrepare msg) →
    l.node.log.storePropPara msg = some (count, log) →
    K { l with node := { l.node with log := log } }
  storeVerify : ∀ {l msg}, K l → Received (.verify msg) →
    K { l with node := { l.node with log := l.node.log.storeVerifyPara msg } }
  /-- Proposals are looked up for the slots that a view has. -/
  proposals : ∀ {l v seq m}, K l → 0 < seq → seq ≤ cfg.maxBlocksInView →
    m ∈ l.node.log.proposalsPara.held (v, seq) → Received (.ldrPrepare m)
  verifies : ∀ {l v m}, K l → l.node.log.verifiesPara.lookup v = some m → Received (.verify m)
  reports : ∀ {l v m}, K l → m ∈ l.node.log.newviewsPara.held v →
    Usable v (Just.ofRDataPara m.rdata m.signs)
  noReports : ∀ v, cfg.qsize = 0 → Usable v Just.defaultPara
  sorted : ∀ {l}, Sorted → K l → l.node.log.Sorted
  small : ∀ {m}, Bounded → (Received (.newView m) → m.rdata.propv < wordSize)
  smallVerify : ∀ {m}, Bounded → Received (.verify m) → m.rdata.propv < wordSize
  sendVote : ∀ {l msg} (recipients : List PID), K l → msg.isVote = true →
    K { l with sent := l.sent ++ recipients.map (⟨·, msg⟩) }
  sendCommit : ∀ {l m recipients}, K l → SendsCommit cfg Sorted l recipients m →
    K { l with sent := l.sent ++ recipients.map (⟨·, .commit m⟩) }
  sendReport : ∀ {l m} (recipients : List PID), K l → Received (.newView m) →
    K { l with sent := l.sent ++ recipients.map (⟨·, .newView m⟩) }
  sendBlocks : ∀ {l m} (blocks : List PBlock) (recipients : List PID), K l →
    Received (.ldrRecover m) →
    K { l with sent := l.sent ++ recipients.map (⟨·, .recover ⟨m.rdata, m.signs, blocks⟩⟩) }
  /-- A leader asks for blocks. -/
  request : ∀ {l just rdata} (missing : List Nat) (recipients : List PID), K l →
    Leads cfg l.node → Usable l.node.view just → just.getRDataPara = some rdata →
    K { l with
      history := .recovering l.node.myid rdata :: l.history
      sent := l.sent ++ recipients.map (⟨·, .ldrRecover ⟨rdata, just.signs, missing⟩⟩) }
  /-- A leader announces its justification, and begins to propose. -/
  announce : ∀ {l just rdata} (hashes : List Hash) (recipients : List PID), K l →
    Leads cfg l.node → Usable l.node.view just → just.getRDataPara = some rdata →
    K { l with
      history := .prepared l.node.myid l.node.view rdata :: l.history
      sent := l.sent ++ recipients.map (⟨·, .verify ⟨rdata, just.signs, hashes⟩⟩) }
  note : ∀ {l e}, K l → e.isNotice = true → e.actor = l.node.myid →
    K { l with history := e :: l.history }
  /-- A slot of the view is executed, on the first commit message held for it. -/
  execute : ∀ {l seq}, K l → 0 < seq → seq ≤ cfg.maxBlocksInView →
    (Sorted → seq = l.node.lastExecutedSeq + 1) →
    (l.node.log.getCommitForSeq l.node.view seq).rdata.seqNumber = seq →
    K (marking l (l.node.log.getCommitForSeq l.node.view seq).rdata)
  /-- The node leaves its view, and signs the report for the next one. -/
  leaves : ∀ {l}, K l → (leave cfg).Gives
    (fun report l' => K l' ∧ ∀ m ∈ report, Received (.newView m)) K l
  /-- A leader that was left behind signs once more, and enters the view it leads. -/
  catches : ∀ {l} (v : View), K l → l.node.view < v → (Bounded → v < wordSize) →
    K { l with
      node := { l.node with tpara := l.node.tpara.increment_node_phase }.entered cfg v
      history := .signed l.node.myid l.node.tpara.nodeStatement :: l.history }
  /-- A node that starts signs its first report. -/
  starts : ∀ {l}, K l → l.node.started = false →
    K { l with
      node := { l.node with
        started := true
        tpara := l.node.tpara.increment_node_phase }
      history := .signed l.node.myid l.node.tpara.nodeStatement :: l.history }
    ∧ Received (.newView ⟨l.node.tpara.nodeStatement,
      [l.node.tpara.signature l.node.tpara.nodeStatement]⟩)
  /-- The component of a leader signs a block. -/
  propose : ∀ {l block} {just : Just} {rd r : RDataPara}, K l → Leads cfg l.node →
    just.getRDataPara = some rd →
    just.signs.verify cfg.nodes rd.toString = true → l.node.tpara.view = rd.propv →
    rd.phase = PH1_NEWVIEW →
    r = l.node.tpara.blockStatement block.hash rd.justh rd.justv block.seqNumber →
    K { l with
      node := { l.node with tpara := l.node.tpara.increment_block_phase block.hash }
      history := .voted l.node.myid r block :: l.history }
  /-- The component accepts a certificate. -/
  store : ∀ {l just cert out tpara r},
    K l → l.node.tpara.TEEstore cfg.nodes just l.node.blockAt = some (out, tpara) →
    out.set = true → just.getRDataPara = some cert → out.getRDataPara = some r →
    (Sorted → cert.propv = l.node.view) →
    K { l with
      node := { l.node with tpara := tpara }
      history := .stored l.node.myid cert just.signs r :: l.history }
  /-- The node votes for a proposal of its view whose slot holds no block yet. -/
  respond : ∀ {l msg rd r}, K l → Received (.ldrPrepare msg) →
    msg.prop.just.getRDataPara = some rd → rd.propv = l.node.view →
    0 < msg.prop.block.seqNumber →
    msg.prop.block.seqNumber ≤ (l.node.blocksOf l.node.view).length →
    (l.node.blockAt msg.prop.block.seqNumber).isBlock = false →
    msg.prop.just.eq? l.node.verifiedJust ≠ some false →
    msg.prop.just.signs.verify cfg.nodes rd.toString = true → l.node.tpara.view = rd.propv →
    rd.phase = PH1_NEWVIEW →
    r = l.node.tpara.blockStatement msg.prop.block.hash rd.justh rd.justv
      msg.prop.block.seqNumber →
    K (answering cfg l msg.prop.just msg.prop.block r)
  /-- The node adopts a justification of its view, which the lock was checked for if it is new. -/
  adopts : ∀ {l m verified}, K l → Received (.verify m) →
    m.signs.verify cfg.nodes m.rdata.toString = true → m.rdata.propv = l.node.tpara.view →
    m.rdata.propv = l.node.view → l.node.verifiedJust.getRDataPara = some verified →
    (verified.propv < m.rdata.justv →
      (∃ h ∈ m.blockHashes, h.hash = l.node.tpara.prefixLockedHash.hash)
        ∨ l.node.tpara.prefixLockedView < m.rdata.justv) →
    K { l with
      node := { l.node with verifiedJust := Just.ofRDataPara m.rdata m.signs }
      history := .adopted l.node.myid m.rdata m.blockHashes verified.propv
        l.node.tpara.prefixLockedHash l.node.tpara.prefixLockedView :: l.history }
  change : ∀ {l} (v : View), K l → l.node.view < v → (Bounded → v < wordSize) →
    K { l with node := l.node.entered cfg v }

/--
A property that the component's signing keeps, signature by signature, and that entering views
keeps: then it outlives whatever of this a node does in one go.
-/
structure Signing (cfg : Config) (K : State → Prop) (Received : MsgPara → Prop) (Bounded : Prop) :
    Prop where
  note : ∀ {l e}, K l → e.isProgress = true → e.actor = l.node.myid →
    K { l with history := e :: l.history }
  begin : ∀ {l}, K l → K { l with node := { l.node with started := true } }
  /-- The component signs a statement of the phase of the node, which makes a report. -/
  sign : ∀ {l}, K l →
    K { l with
      node := { l.node with tpara := l.node.tpara.increment_node_phase }
      history := .signed l.node.myid l.node.tpara.nodeStatement :: l.history }
  signed : ∀ {l}, K l → Received (.newView ⟨l.node.tpara.nodeStatement,
    [l.node.tpara.signature l.node.tpara.nodeStatement]⟩)
  counted : ∀ {l}, Bounded → K l → l.node.tpara.view < wordSize
  change : ∀ {l} (v : View), K l → (Bounded → l.node.view < v ∧ v < wordSize) →
    K { l with node := l.node.entered cfg v }

namespace Signing

variable {cfg : Config} {K : State → Prop} {Received : MsgPara → Prop} {Bounded : Prop}
variable (signing : Signing cfg K Received Bounded) {l : State}
include signing

/-- The last statement signed before the next view is entered makes a report for a later view. -/
theorem signUntil_gives {post : Just → State → Prop} (rounds : Nat) (held : K l) (view : View)
    (rest : ∀ r s l', K l' → l'.node.view = l.node.view → l'.node.myid = l.node.myid →
      view < r.propv → (Bounded → r.propv < wordSize) → Received (.newView ⟨r, [s]⟩) →
      post (Just.ofRDataPara r [s]) l') :
    (signUntil rounds view).Gives post K l := by
  -- Induction on the rounds; each signs one statement.
  induction rounds generalizing l with
  | zero => exact held
  | succ rounds ih =>
    unfold signUntil
    rw [gives_bind, gives_callTEEsignPara, Just.getRDataPara_ofRDataPara, gives_bind,
      gives_ofOption_some]
    have noted := signing.sign held
    refine gives_ite (fun _ => ?_) fun later => ?_
    · exact ih noted rest
    · exact rest _ _ _ noted rfl rfl (Nat.lt_of_not_le later)
        (fun bounded => signing.counted bounded held) (signing.signed held)

/-- A node leaves its view by signing until it has a report for a later one. -/
theorem leaves (held : K l) :
    (leave cfg).Gives (fun report l' => K l' ∧ ∀ m ∈ report, Received (.newView m)) K l := by
  unfold leave
  rw [gives_bind, gives_this, gives_bind, gives_note, gives_bind]
  have noted := signing.note (e := .leaving l.node.myid l.node.view) held rfl rfl
  refine signing.signUntil_gives signRounds noted l.node.view
    fun r s l₁ held₁ view₁ _ later small known => ?_
  rw [gives_bind, gives_changeView, Just.getRDataPara_ofRDataPara, gives_bind, gives_ofOption_some,
    gives_bind, gives_this]
  have entered := signing.change ((l.node.view + 1) % wordSize) held₁ fun bounded => by
    -- There is a later view, so the next view is the next number.
    have word := small bounded
    rw [Nat.mod_eq_of_lt (by lia), view₁]
    exact ⟨Nat.lt_succ_self _, by lia⟩
  refine gives_ite (fun _ => ?_) fun _ => ⟨entered, by simp⟩
  rw [gives_bind, gives_note]
  have reported := signing.note (e := .newview
    (l₁.node.entered cfg ((l.node.view + 1) % wordSize)).myid r) entered rfl rfl
  refine ⟨reported, fun m member => ?_⟩
  obtain rfl : (⟨r, [s]⟩ : MsgNewViewPara) = m := by simpa using member
  exact known

theorem catches (v : View) (held : K l) (later : l.node.view < v) (small : Bounded → v < wordSize) :
    K { l with
      node := { l.node with tpara := l.node.tpara.increment_node_phase }.entered cfg v
      history := .signed l.node.myid l.node.tpara.nodeStatement :: l.history } :=
  signing.change v (signing.sign held) fun bounded => ⟨later, small bounded⟩

/-- Where the node stays, what it notes is progress. -/
theorem notes {e : ParaEvent} (held : K l) (notice : e.isNotice = true)
    (mine : e.actor = l.node.myid) : K { l with history := e :: l.history } :=
  signing.note held (ParaEvent.isProgress_of_isNotice notice) mine

theorem starts (held : K l) :
    K { l with
      node := { l.node with
        started := true
        tpara := l.node.tpara.increment_node_phase }
      history := .signed l.node.myid l.node.tpara.nodeStatement :: l.history }
    ∧ Received (.newView ⟨l.node.tpara.nodeStatement,
      [l.node.tpara.signature l.node.tpara.nodeStatement]⟩) :=
  ⟨signing.sign (signing.begin held), signing.signed held⟩

end Signing

namespace Closed

variable [Hashing] {cfg : Config} {K : State → Prop} {Received : MsgPara → Prop}
variable {Usable : View → Just → Prop} {Bounded Sorted : Prop}
variable (closed : Closed cfg K Received Usable Bounded Sorted)
variable {l : State} {just : Just} {rdata : RDataPara} {earlier : M Unit}
include closed

/-- A node of which the property holds, and which leads its view. -/
def Leading (cfg : Config) (K : State → Prop) (l : State) : Prop := K l ∧ Leads cfg l.node

section Basics

omit [Hashing] closed in
/-- What a leader's program keeps with its lead holds after it. -/
theorem gives_of_leading {α : Type} {p : M α}
    (kept : p.Gives (fun _ => Leading cfg K) (Leading cfg K) l) : p.Gives (fun _ => K) K l :=
  kept.mono (fun _ _ leading => leading.1) fun _ left => left.1

/-- Bookkeeping keeps the property. -/
theorem still_kept {f : HandlerPara → HandlerPara} (still : ∀ h, Still h (f h)) :
    Keeps K (modify f) := fun l held => closed.still held (still l.node)

/-- It does not change who leads the view either. -/
theorem still_leading {f : HandlerPara → HandlerPara} (still : ∀ h, Still h (f h)) :
    Keeps (Leading cfg K) (modify f) := by
  intro l ⟨held, leads⟩
  refine ⟨closed.still held (still l.node), ?_⟩
  unfold Leads at leads ⊢
  rw [(still l.node).view, (still l.node).myid]
  exact leads

theorem collects_leading (v : View) : Keeps (Leading cfg K) (modify fun h => h.collecting v) := by
  intro l leading
  have frame := frame_collecting l.node v
  have looked : K { l with node := l.node.enterView v } := closed.looks v leading.1
  refine ⟨@Closed.still _ _ _ _ _ _ _ closed { l with node := l.node.enterView v } _ looked
    (still_collecting _ _), ?_⟩
  unfold Leads
  rw [frame.view, frame.myid]
  exact leading.2

theorem looks_leading (v : View) : Keeps (Leading cfg K) (modify fun h => h.enterView v) := by
  intro l ⟨held, leads⟩
  have frame := frame_enterView l.node v
  refine ⟨closed.looks v held, ?_⟩
  unfold Leads at leads ⊢
  rw [frame.view, frame.myid]
  exact leads

theorem getMissingSeqNumbersForJust_leading :
    Keeps (Leading cfg K) (getMissingSeqNumbersForJust just) := by
  apply (keeps_ofOption _).bind
  intro rdata
  apply (closed.looks_leading rdata.justv).bind
  intro _
  exact keeps_this.bind fun _ => keeps_pure _

/-- Comparing justifications draws a value at most, and finds no difference undone. -/
theorem sameJust_kept (a b : Just) {post : Bool → State → Prop} (held : K l)
    (rest : ∀ same h, Still l.node h → K { l with node := h } → a.eq? b ≠ some !same →
      post same { l with node := h }) :
    (sameJust a b).Gives post K l := by
  have drawn : Still l.node { l.node with choices := l.node.choices.tail } :=
    ⟨rfl, rfl, rfl, rfl, rfl, rfl, rfl, rfl, rfl⟩
  unfold sameJust
  cases compared : a.eq? b with
  | some same =>
    refine rest same _ ⟨rfl, rfl, rfl, rfl, rfl, rfl, rfl, rfl, rfl⟩ held ?_
    rw [compared]
    cases same <;> decide
  | none => exact rest _ _ drawn (closed.still held drawn) (by rw [compared]; exact nofun)

/-- A received proposal may be put away. -/
theorem storePropPara_kept {msg : MsgLdrPreparePara} (known : Received (.ldrPrepare msg)) :
    Keeps K (storePropPara msg) := by
  intro l held
  simp only [storePropPara, gives_bind, gives_this]
  refine gives_ofOption (fun result stored => ?_) fun _ => held
  exact closed.storeProp held known stored

/--
The component refuses a certificate, or accepts it and signs a statement for its view.

In neither case the place and the log of the node change.
-/
theorem callTEEstorePara_gives {post : Just → State → Prop} (held : K l)
    (here : Sorted → just.OfView l.node.view) (refused : post Just.defaultPara l)
    (accepted : ∀ cert, just.getRDataPara = some cert → (Sorted → cert.propv = l.node.view) →
      ∀ r l', K l' → r.propv = cert.propv → l'.node.view = l.node.view →
      l'.node.myid = l.node.myid → l'.node.log = l.node.log →
      post (Just.ofRDataPara r [l'.node.tpara.signature r]) l') :
    (callTEEstorePara cfg just).Gives post K l := by
  simp only [callTEEstorePara, gives_bind, gives_this]
  refine gives_ofOption (fun result called => ?_) fun _ => held
  obtain ⟨out, tpara⟩ := result
  simp only [gives_modify, gives_noteIf, gives_pure]
  cases answer : out.set with
  | false =>
    obtain ⟨rfl, rfl⟩ := TrustedPara.TEEstore_unset called answer
    exact refused
  | true =>
    obtain ⟨cert, tagged, -, -, current, phase, signed⟩ := TrustedPara.TEEstore_set called answer
    obtain ⟨rfl, rfl⟩ := Prod.mk.inj signed
    have view : Sorted → cert.propv = l.node.view := by
      intro sorted
      rcases here sorted cert tagged with same | dummy
      · exact same
      · -- The dummy justification is of no certificate's phase.
        subst dummy
        rcases phase with prepare | precommit
        · cases prepare
        · cases precommit
    have stored := closed.store held called answer tagged (Just.getRDataPara_ofRDataPara _ _) view
    have ofView : ((l.node.tpara.record cert l.node.blockAt).blockStatement cert.proph cert.justh
        cert.justv cert.seqNumber).propv = cert.propv := by
      simpa [TrustedPara.blockStatement] using current
    have given := accepted cert tagged view _ _ stored ofView rfl rfl rfl
    simpa [tagged, TrustedPara.signature, TrustedPara.increment_block_phase] using given

theorem noteIf_kept {condition : Bool} {e : ParaEvent} (notice : e.isNotice = true)
    (held : K l) (mine : e.actor = l.node.myid) :
    (noteIf condition e : M Unit).Gives (fun _ => K) K l := by
  rw [gives_noteIf]
  split
  · exact closed.note held notice mine
  · exact held

end Basics

section Leaders

/-- A leader proposes for one slot, and goes on with the next one. -/
theorem proposeBlock_leading (just : Just) (prevHash : Hash) (leading : Leading cfg K l)
    (positive : 0 < l.node.localSeq) (within : l.node.localSeq ≤ cfg.maxBlocksInView) :
    (proposeBlock cfg just prevHash).Gives
      (fun _ l' => Leading cfg K l' ∧ l'.node.localSeq = l.node.localSeq + 1) (Leading cfg K) l := by
  unfold proposeBlock
  simp only [createNewBlockPara, gives_bind, gives_this, gives_modify, gives_pure]
  generalize made : PBlock.ofTransactions prevHash
    (min cfg.maxNumTransactions l.node.transactions.length) l.node.localSeq
    (cfg.fillBlock l.node.transactions) = block
  have number : block.seqNumber = l.node.localSeq := by
    rw [← made]
    rfl
  have created : Still l.node { l.node with
      transactions := l.node.transactions.drop cfg.maxNumTransactions
      localSeq := l.node.localSeq + 1 } := ⟨rfl, rfl, rfl, rfl, rfl, rfl, rfl, rfl, rfl⟩
  have leads : Leads cfg l.node := leading.2
  have held := closed.still leading.1 created
  refine callTEEpreparePara_gives ⟨held, leads⟩ ?_ fun rd tagged verified here phase r signed => ?_
  · have unchanged : Leading cfg K { l with node := { l.node with
        transactions := l.node.transactions.drop cfg.maxNumTransactions
        localSeq := l.node.localSeq + 1 } } := ⟨held, leads⟩
    simpa [Just.defaultPara] using unchanged
  -- The vote is noted, the block recorded, and the proposal sent and counted.
  have voted := closed.propose held leads tagged verified here phase signed
  have visited := closed.visits voted (.own (number ▸ positive) (number ▸ within))
  have recorded := closed.blocks visited leads (.records l.node.view block)
  simp only [Just.set_ofRDataPara, if_true, gives_bind, gives_modify,
    Just.getRDataPara_ofRDataPara, gives_ofOption_some, gives_this, gives_multicast,
    gives_storePrepPara, gives_pure]
  have sent := @sendVote _ _ _ _ _ _ _ closed _
    (.ldrPrepare ⟨⟨just, block⟩, [l.node.tpara.signature r]⟩)
    (cfg.remove_from_peers l.node.myid l.node.myid) recorded rfl
  exact ⟨⟨closed.votes sent (.prepare _), leads⟩, rfl⟩

theorem proposeBlocks_leading (just : Just) (slots : Nat) (prevHash : Hash)
    (leading : Leading cfg K l) (positive : 0 < l.node.localSeq)
    (within : slots ≤ cfg.maxBlocksInView + 1 - l.node.localSeq) :
    (proposeBlocks cfg just slots prevHash).Gives (fun _ => Leading cfg K) (Leading cfg K) l := by
  -- Induction on the slots left; each block is for the slot after the one before.
  induction slots generalizing l prevHash with
  | zero => exact leading
  | succ slots ih =>
    unfold proposeBlocks
    rw [gives_bind]
    refine (closed.proposeBlock_leading just prevHash leading positive (by omega)).mono
      (fun next l' ⟨leading', counted⟩ => ?_) fun _ left => left
    exact ih next leading' (by omega) (by omega)

/-- A leader announces a usable justification, after whatever it sends first, and proposes. -/
theorem announced_leading (l : State) (hashes : List Hash) (held : K l) (leads : Leads cfg l.node)
    (usable : Usable l.node.view just) (tagged : just.getRDataPara = some rdata) :
    (do
      multicast_msg (.verify ⟨rdata, just.signs, hashes⟩)
        (cfg.remove_from_peers l.node.myid l.node.myid)
      preparePara cfg just : M Unit).Gives (fun _ => Leading cfg K) (Leading cfg K) l := by
  unfold preparePara
  rw [gives_bind, gives_multicast, tagged, gives_bind, gives_ofOption_some, gives_bind, gives_this,
    gives_bind, gives_note, gives_bind]
  have begun := closed.announce hashes (cfg.remove_from_peers l.node.myid l.node.myid) held leads
    usable tagged
  have counting : ∀ first, Keeps (Leading cfg K) (modify fun h => { h with localSeq := first }) :=
    fun _ => closed.still_leading fun h => ⟨rfl, rfl, rfl, rfl, rfl, rfl, rfl, rfl, rfl⟩
  rw [gives_modify]
  -- Some leaders leave out the first slot, and none goes beyond the last one.
  refine closed.proposeBlocks_leading just _ _ (counting _ _ ⟨begun, leads⟩) ?_ (Nat.le_refl _)
  dsimp only
  split <;> omega

theorem initiateVerifyPara_leading (leading : Leading cfg K l)
    (usable : Usable l.node.view just) :
    (initiateVerifyPara cfg just).Gives (fun _ => Leading cfg K) (Leading cfg K) l := by
  unfold initiateVerifyPara
  rw [gives_bind]
  refine gives_ofOption (fun rdata tagged => ?_) fun _ => leading
  rw [gives_bind, gives_this, gives_bind, gives_modify]
  -- The view of the justification may be looked up first.
  split
  · obtain ⟨held, leads⟩ := closed.looks_leading rdata.justv l leading
    have frame := frame_enterView l.node rdata.justv
    have announced := closed.announced_leading { l with node := l.node.enterView rdata.justv }
      (announcedHashes (l.node.blocksOf rdata.justv)) held leads
      (by rw [frame.view]; exact usable) tagged
    simpa [frame.myid] using announced
  · exact closed.announced_leading l [] leading.1 leading.2 usable tagged

theorem initiateRecoverPara_leading (leading : Leading cfg K l)
    (usable : Usable l.node.view just) (missing : List Nat) :
    (initiateRecoverPara cfg missing just).Gives (fun _ => Leading cfg K) (Leading cfg K) l := by
  unfold initiateRecoverPara
  rw [gives_bind]
  refine gives_ofOption (fun rdata tagged => ?_) fun _ => leading
  rw [gives_bind, gives_this, gives_bind, gives_note, gives_multicast]
  exact ⟨closed.request missing _ leading.1 leading.2 usable tagged, leading.2⟩

theorem verifyOrRecover_leading (leading : Leading cfg K l)
    (usable : Usable l.node.view just) (missing : List Nat) :
    (verifyOrRecover cfg just missing).Gives (fun _ => Leading cfg K) (Leading cfg K) l :=
  gives_ite (fun _ => closed.initiateVerifyPara_leading leading usable)
    fun _ => closed.initiateRecoverPara_leading leading usable missing

/-- Looking for blocks, and drawing, leave the view. -/
theorem lookingFor_gives {post : List Nat → State → Prop} (leading : Leading cfg K l)
    (rest : ∀ missing l', Leading cfg K l' → l'.node.view = l.node.view → post missing l') :
    (getMissingSeqNumbersForJust just).Gives post (Leading cfg K) l := by
  unfold getMissingSeqNumbersForJust
  rw [gives_bind]
  refine gives_ofOption (fun rdata _ => ?_) fun _ => leading
  rw [gives_bind, gives_modify, gives_bind, gives_this, gives_pure]
  exact rest _ _ (closed.looks_leading rdata.justv l leading)
    (frame_enterView l.node rdata.justv).view

/-- A leader acts on the highest of its reports, if that is usable. -/
theorem actOnReports_leading (leading : Leading cfg K l)
    (usable : Usable l.node.view (l.node.log.findHighestNvPara l.node.view)) :
    (actOnReports cfg).Gives (fun _ => Leading cfg K) (Leading cfg K) l := by
  unfold actOnReports
  rw [gives_bind, gives_this, gives_bind]
  generalize l.node.log.findHighestNvPara l.node.view = just at usable ⊢
  refine closed.lookingFor_gives leading fun missing l₁ leading₁ view₁ => ?_
  rw [gives_bind]
  have usable₁ : Usable l₁.node.view just := by rw [view₁]; exact usable
  simp only [choose, gives_bind, gives_this, gives_modify, gives_pure]
  have drawn : Still l₁.node { l₁.node with choices := l₁.node.choices.tail } :=
    ⟨rfl, rfl, rfl, rfl, rfl, rfl, rfl, rfl, rfl⟩
  have leading₂ : Leading cfg K { l₁ with
      node := { l₁.node with choices := l₁.node.choices.tail } } :=
    ⟨closed.still leading₁.1 drawn, leading₁.2⟩
  refine gives_ite (fun _ => ?_) fun _ => gives_ite (fun _ => ?_) fun _ => ?_
  · exact closed.initiateVerifyPara_leading leading₂ usable₁
  · -- A forced recovery forgets the blocks first.
    rw [gives_bind]
    refine gives_ofOption (fun rdata _ => ?_) fun _ => leading₂
    rw [gives_bind, gives_modify, gives_bind]
    have forgot := closed.blocks leading₂.1 leading₂.2 (.forgets rdata.justv)
    refine closed.lookingFor_gives ⟨forgot, leading₁.2⟩ fun missing l₃ leading₃ view₃ => ?_
    exact closed.initiateRecoverPara_leading leading₃ (by rw [view₃]; exact usable₁) missing
  · exact closed.verifyOrRecover_leading leading₂ usable₁ missing

/-- The highest of some reports is one of them; without a quorum there may be none. -/
theorem usable_highest (held : K l) {v : View}
    (collected : l.node.log.newviewsPara.held v ≠ [] ∨ cfg.qsize = 0) :
    Usable v (l.node.log.findHighestNvPara v) := by
  rcases l.node.log.findHighestNvPara_mem v with ⟨none_held, found⟩ | ⟨msg, member, found, -⟩
  · rw [found]
    exact closed.noReports v (collected.resolve_left fun some_held => some_held none_held)
  · rw [found]
    exact closed.reports held member

omit closed [Hashing] in
/-- After a report was stored there is one for its view. -/
theorem held_storeNvPara (log : LogPara) (msg : MsgNewViewPara) :
    (log.storeNvPara msg).2.newviewsPara.held msg.rdata.propv ≠ [] := by
  rcases Messages.store_cases (·.signs) MsgRDataPara.lt log.newviewsPara msg.rdata.propv msg with
    ⟨kept, signed, -⟩ | ⟨msgs, stored, -, filled, -⟩
  · -- Its signers were known, so there were reports before.
    intro none_held
    simp only [LogPara.storeNvPara, kept] at none_held
    exact signed (by rw [none_held]; rfl)
  · simpa [LogPara.storeNvPara, stored] using filled

/-- A leader that collects reports enters their view, and acts on them when there are enough. -/
theorem handleNewViewPara_kept {msg : MsgNewViewPara} (known : Received (.newView msg)) :
    Keeps K (handleNewViewPara cfg msg) := by
  intro l held
  unfold handleNewViewPara
  rw [gives_bind, gives_this]
  refine gives_ite (fun _ => held) fun _ => gives_ite (fun checks => ?_) fun _ => held
  simp only [Bool.and_eq_true, decide_eq_true_eq, beq_iff_eq, Config.amLeaderOf_iff] at checks
  obtain ⟨⟨⟨-, later⟩, -⟩, leader⟩ := checks
  rw [gives_bind, gives_storeNvPara]
  have stored := closed.storeNv held known
  refine gives_ite (fun _ => ?_) fun _ => stored
  rw [gives_bind]
  -- It leads the view of the report, whether it was there before or catches up.
  have acting : ∀ l' : State, K l' → l'.node.view = msg.rdata.propv →
      l'.node.myid = l.node.myid →
      l'.node.log = (l.node.log.storeNvPara msg).2 →
      (actOnReports cfg).Gives (fun _ => K) K l' := by
    intro l' held' view myid log
    have leads : Leads cfg l'.node := by
      unfold Leads
      rw [view, myid]
      exact leader
    have collected : l'.node.log.newviewsPara.held l'.node.view ≠ [] := by
      rw [view, log]
      exact held_storeNvPara _ _
    exact gives_of_leading (closed.actOnReports_leading ⟨held', leads⟩
      (closed.usable_highest held' (.inl collected)))
  unfold catchUp
  rw [gives_bind, gives_this]
  refine gives_ite (fun before => ?_) fun reached => ?_
  · rw [gives_bind]
    rw [gives_callTEEsignPara, gives_changeView]
    have caught := closed.catches msg.rdata.propv stored before fun bounded =>
      closed.small bounded known
    exact acting _ caught rfl rfl rfl
  · exact acting _ stored (Nat.le_antisymm later (Nat.le_of_not_lt reached)) rfl rfl

/-- A leader that gives up a recovery announces what it verified last, if that is usable. -/
theorem recoverFromVerified_leading (leading : Leading cfg K l)
    (usable : ∀ verified, l.node.verifiedJust.getRDataPara = some verified →
      verified.propv = (l.node.view + wordSize - 1) % wordSize →
      Usable l.node.view (Just.ofRDataPara ⟨Hash.default, l.node.view, verified.justh,
        verified.justv, verified.phase, verified.seqNumber⟩ l.node.verifiedJust.signs)) :
    (recoverFromVerified cfg).Gives (fun _ => Leading cfg K) (Leading cfg K) l := by
  unfold recoverFromVerified
  rw [gives_bind, gives_this, gives_bind]
  refine gives_ofOption (fun verified tagged => ?_) fun _ => leading
  refine gives_ite (fun last => ?_) fun _ => leading
  rw [beq_iff_eq] at last
  rw [gives_bind, gives_note]
  have noted := closed.note (e := .fallback l.node.myid l.node.view) leading.1 rfl rfl
  exact closed.announced_leading { l with history := .fallback l.node.myid l.node.view :: l.history }
    [] noted leading.2 (usable verified tagged last) (Just.getRDataPara_ofRDataPara _ _)

/-- A leader may record whatever blocks it receives, and go outside its blocks by them. -/
theorem recordBlocks_leading (visits : ∀ {l} (v : View) (seq : Nat), K l → K (visiting l v seq))
    (just : Just) (view : View) (blocks : List PBlock) (missing : List Nat) :
    Keeps (Leading cfg K) (recordBlocks cfg just view blocks missing) := by
  -- Induction on the blocks; each changes the blocks of the leader at most.
  induction blocks generalizing missing with
  | nil => exact keeps_pure _
  | cons block rest ih =>
    refine Keeps.bind (fun l leading => ?_) fun _ => ?_
    · rw [gives_modify]
      split
      · exact ⟨closed.blocks leading.1 leading.2 (.resizes view), leading.2⟩
      · exact leading
    · apply keeps_this.bind
      intro h
      refine keeps_ite (fun _ => ?_) fun _ => keeps_ite (fun _ => ?_) fun _ => ih missing
      · exact fun l leading => ⟨visits view block.seqNumber leading.1, leading.2⟩
      refine Keeps.bind (fun l leading =>
        ⟨closed.blocks leading.1 leading.2 (.records view block), leading.2⟩) fun _ => ?_
      apply closed.getMissingSeqNumbersForJust_leading.bind
      exact fun missing => keeps_ite (fun _ => keeps_pure _) fun _ => ih missing

theorem recordValid_leading (visits : ∀ {l} (v : View) (seq : Nat), K l → K (visiting l v seq))
    (valid : Bool) (just : Just) (view : View) (blocks : List PBlock) (missing : List Nat) :
    Keeps (Leading cfg K) (recordValid cfg valid just view blocks missing) :=
  keeps_ite (fun _ => closed.recordBlocks_leading visits just view blocks missing)
    fun _ => keeps_pure _

/-- If every justification is usable, a leader may go on with any answer to its request. -/
theorem handleRecoverPara_kept (usable : ∀ v just, Usable v just)
    (visits : ∀ {l} (v : View) (seq : Nat), K l → K (visiting l v seq)) (msg : MsgRecoverPara) :
    Keeps K (handleRecoverPara cfg msg) := by
  have verifying : ∀ just, Keeps (Leading cfg K) (initiateVerifyPara cfg just) :=
    fun just l leading => closed.initiateVerifyPara_leading leading (usable _ _)
  intro l held
  rw [gives_handleRecoverPara]
  refine gives_ite (fun _ => held) fun _ => gives_ite (fun _ => held) fun leads => ?_
  refine gives_ite (fun _ => closed.looks _ held) fun _ => ?_
  simp only [Bool.not_eq_true, Bool.not_eq_false', Config.amLeaderOf_iff] at leads
  -- From here on the node leads its view, and every effect keeps that too.
  refine gives_of_leading (Keeps.bind (closed.collects_leading _) (fun _ => ?_) l ⟨held, leads⟩)
  unfold handleAnswer
  apply (closed.recordValid_leading visits _ _ _ _ _).bind
  intro missing
  refine keeps_ite (fun _ => verifying _) fun _ => ?_
  apply keeps_this.bind
  intro h
  refine Keeps.bind (closed.still_leading fun h =>
    ⟨rfl, rfl, rfl, rfl, rfl, rfl, rfl, rfl, rfl⟩) fun _ => ?_
  refine keeps_ite (fun _ => keeps_ite (fun _ => verifying _) fun _ => ?_) fun _ => keeps_pure ()
  exact fun l leading => closed.recoverFromVerified_leading leading fun _ _ _ => usable _ _

end Leaders

section Backups

/-- A node sends the blocks it holds to the leader of its view. -/
theorem handleLdrRecoverPara_kept {msg : MsgLdrRecoverPara} (known : Received (.ldrRecover msg)) :
    Keeps K (handleLdrRecoverPara cfg msg) := by
  intro l held
  unfold handleLdrRecoverPara
  rw [gives_bind, gives_this]
  refine gives_ite (fun _ => held) fun _ => ?_
  rw [gives_bind, gives_modify]
  by_cases entered : msg.rdata.justv < l.node.pblocks.keys.length
  · have looked := closed.looks msg.rdata.justv held
    simp only [entered, if_true]
    refine gives_ite (fun strays => ?_) fun _ => ?_
    · -- The first of the slots asked for that the view does not have is accessed.
      obtain ⟨some_blocks, strays⟩ := Bool.and_eq_true_iff.1 strays
      have some_strays := List.find?_isSome.2 (List.any_eq_true.1 strays)
      obtain ⟨seq, found⟩ := Option.isSome_iff_exists.1 some_strays
      rw [found, Option.getD_some]
      refine closed.visits looked (.asked known ?_ (List.mem_of_find?_eq_some found))
      rw [blocksOf_enterView]
      simpa using some_blocks
    · rw [gives_multicast]
      exact closed.sendBlocks _ _ looked known
  · simp only [entered, if_false]
    rw [if_neg (by simp), gives_multicast]
    exact closed.sendBlocks _ _ held known

/-- A proposal is voted for, or put away. -/
theorem handleLdrPreparePara_kept {msg : MsgLdrPreparePara}
    (known : Received (.ldrPrepare msg)) : Keeps K (handleLdrPreparePara cfg msg) := by
  intro l held
  unfold handleLdrPreparePara
  rw [gives_bind, gives_this]
  refine gives_ite (fun _ => held) fun _ => ?_
  rw [gives_bind]
  refine gives_ofOption (fun rd tagged => ?_) fun _ => held
  rw [gives_bind]
  refine gives_ofOption (fun verified _ => ?_) fun _ => held
  rw [gives_bind]
  refine gives_ofOption (fun valid _ => ?_) fun _ => held
  refine gives_ite (fun _ => held) fun _ => gives_ite (fun here => ?_) fun _ => ?_
  · rw [gives_bind]
    refine closed.sameJust_kept _ _ held fun same h still held' compared => ?_
    refine gives_ite (fun alike => ?_) fun _ => ?_
    · refine gives_ite (fun _ => ?_) fun within => gives_ite (fun empty => ?_) fun _ => held'
      · have visited := closed.visits held' (.proposed known)
        rwa [still.view] at visited
      simp only [Bool.or_eq_true, decide_eq_true_eq, not_or, Nat.not_lt] at within
      have blocks : h.blocksOf h.view = l.node.blocksOf l.node.view := by
        unfold blocksOf
        rw [still.pblocks, still.view]
      have block : h.blockAt msg.prop.block.seqNumber = l.node.blockAt msg.prop.block.seqNumber := by
        unfold blockAt
        rw [blocks]
      have view : rd.propv = h.view := (beq_iff_eq.1 here).trans still.view.symm
      have fits : msg.prop.block.seqNumber ≤ (h.blocksOf h.view).length := by
        rw [blocks]
        exact within.2
      have free : (h.blockAt msg.prop.block.seqNumber).isBlock = false := by
        rw [block]
        simpa using empty
      have passes : msg.prop.just.eq? h.verifiedJust ≠ some false := by
        rw [still.verifiedJust]
        simpa [alike] using compared
      refine respondToProposalPara_gives held' held' fun rd' tagged' verified current phase r
        signed => ?_
      obtain rfl := Option.some.inj (tagged.symm.trans tagged')
      exact closed.respond held' known tagged view (Nat.pos_of_ne_zero within.1) fits free passes
        verified current phase signed
    · exact gives_ite (fun _ => closed.storePropPara_kept known _ held') fun _ => held'
  · exact closed.storePropPara_kept known l held

/-- A leader forwards prepare votes of its view, and stores what its component makes of them. -/
theorem initiatePreparePara_gives (held : K l) (here : rdata.propv = l.node.view) :
    (initiatePreparePara cfg rdata).Gives (fun _ => K) K l := by
  unfold initiatePreparePara
  rw [gives_bind, gives_this, gives_bind, gives_multicast, gives_bind]
  have sent := @sendVote _ _ _ _ _ _ _ closed _
    (.prepare ⟨{ rdata with phase := PH1_PREPARE },
      l.node.log.getPreparePara rdata.propv cfg.qsize rdata.seqNumber⟩)
    (cfg.remove_from_peers l.node.myid l.node.myid) held rfl
  refine closed.callTEEstorePara_gives sent (fun _ => Just.ofView_ofRDataPara here) ?_
    fun _ _ _ r l₁ held₁ _ _ _ _ => ?_
  · exact closed.votes sent (.precommit _)
  · exact closed.votes held₁ (.precommit _)

/-- A backup answers a prepare certificate, or the dummy one, which its component refuses. -/
theorem respondToPrepareJustPara_gives (held : K l) (here : Sorted → just.OfView l.node.view) :
    (respondToPrepareJustPara cfg just).Gives (fun _ => K) K l := by
  unfold respondToPrepareJustPara
  rw [gives_bind]
  refine closed.callTEEstorePara_gives held here ?_ fun _ _ _ r l₁ held₁ _ _ _ _ => ?_
  · exact @sendVote _ _ _ _ _ _ _ closed l (.preCommit ⟨.default, []⟩) _ held rfl
  · exact @sendVote _ _ _ _ _ _ _ closed l₁ (.preCommit ⟨r, [l₁.node.tpara.signature r]⟩) _ held₁
      rfl

/-- A leader forwards pre-commits of its view, and stores its own commit. -/
theorem initiatePrecommitPara_gives (held : K l) (leads : Leads cfg l.node)
    (here : rdata.propv = l.node.view) :
    (initiatePrecommitPara cfg rdata).Gives (fun _ => K) K l := by
  unfold initiatePrecommitPara
  rw [gives_bind, gives_this, gives_bind, gives_multicast, gives_bind]
  have sent := @sendVote _ _ _ _ _ _ _ closed _
    (.preCommit ⟨rdata, l.node.log.getPrecommitPara rdata.propv cfg.qsize rdata.seqNumber⟩)
    (cfg.remove_from_peers l.node.myid l.node.myid) held rfl
  refine closed.callTEEstorePara_gives sent (fun _ => Just.ofView_ofRDataPara here) ?_
    fun cert tagged _ r l₁ held₁ ofCert view myid _ => ?_
  · exact closed.commits sent .refused
  · obtain rfl := Option.some.inj tagged
    -- The acceptance is noted, and the commit is of the view the node leads.
    have noted := closed.note (e := .precommitted l.node.myid rdata) held₁ rfl myid.symm
    have leads₁ : Leads cfg l₁.node := by
      unfold Leads
      rw [view, myid]
      exact leads
    have ofView : r.propv = l₁.node.view := ofCert.trans (here.trans view.symm)
    exact closed.commits noted (.own leads₁ ofView)

/-- A backup answers a pre-commit certificate likewise. -/
theorem respondToPreCommitJustPara_gives (held : K l) (here : Sorted → just.OfView l.node.view) :
    (respondToPreCommitJustPara cfg just).Gives (fun _ => K) K l := by
  unfold respondToPreCommitJustPara
  rw [gives_bind]
  refine gives_ofOption (fun cert tagged => ?_) fun _ => held
  rw [gives_bind]
  refine closed.callTEEstorePara_gives held here ?_
    fun cert' tagged' ofView r l₁ held₁ ofCert view _ _ => ?_
  · exact closed.sendCommit held .refused
  · have noted := closed.note (e := .precommitted l₁.node.myid cert) held₁ rfl rfl
    refine closed.sendCommit noted (.vote fun sorted => ?_)
    exact ofCert.trans ((ofView sorted).trans view.symm)

/-- A leader acts on prepare votes, and a backup on a certificate of its view; others are kept. -/
theorem handlePreparePara_kept (msg : MsgPreparePara) : Keeps K (handlePreparePara cfg msg) := by
  intro l held
  have stored : K { l with node := { l.node with log := (l.node.log.storePrepPara msg).2 } } :=
    closed.votes held (.prepare msg)
  unfold handlePreparePara
  rw [gives_bind, gives_this]
  refine gives_ite (fun _ => held) fun _ => gives_ite (fun here => ?_) fun _ => ?_
  · rw [beq_iff_eq] at here
    rw [gives_bind, gives_amCurrentLeader]
    refine gives_ite (fun _ => ?_) fun _ => gives_ite (fun _ => ?_) fun _ => held
    · rw [gives_bind, gives_storePrepPara]
      exact gives_ite (fun _ => closed.initiatePreparePara_gives stored here) fun _ => stored
    · rw [gives_bind, gives_storePrepPara]
      exact closed.respondToPrepareJustPara_gives stored fun _ => Just.ofView_ofRDataPara here
  · exact gives_ite (fun _ => stored) fun _ => held

theorem handlePrecommitPara_kept (msg : MsgPreCommitPara) :
    Keeps K (handlePrecommitPara cfg msg) := by
  intro l held
  have stored : K { l with node := { l.node with log := (l.node.log.storePcPara msg).2 } } :=
    closed.votes held (.precommit msg)
  unfold handlePrecommitPara
  rw [gives_bind, gives_this]
  refine gives_ite (fun _ => held) fun _ => gives_ite (fun checks => ?_) fun _ => ?_
  · obtain ⟨here, -⟩ := Bool.and_eq_true_iff.1 checks
    rw [beq_iff_eq] at here
    rw [gives_bind, gives_amCurrentLeader]
    refine gives_ite (fun leader => ?_) fun _ => gives_ite (fun _ => ?_) fun _ => held
    · rw [gives_bind, gives_storePcPara]
      have leads : Leads cfg l.node := Config.amLeaderOf_iff.1 leader
      exact gives_ite (fun _ => closed.initiatePrecommitPara_gives stored leads here)
        fun _ => stored
    · rw [gives_bind, gives_storePcPara]
      exact closed.respondToPreCommitJustPara_gives stored fun _ => Just.ofView_ofRDataPara here
  · exact gives_ite (fun _ => stored) fun _ => held

end Backups

section Entering

variable (earlierKept : Keeps K earlier)
include earlierKept

/-- A node enters the next view and reports to its leader, which may be the node itself. -/
theorem startNewViewPara_kept : Keeps K (startNewViewPara cfg earlier) := by
  intro l held
  refine startNewViewPara_gives ((closed.leaves held).mono (fun report l₁ ⟨held₁, known⟩ => ?_)
    fun _ left => left)
  cases report with
  | none => exact held₁
  | some msg =>
    have received := known msg rfl
    -- A leader handles its own report, after what it holds for the view.
    by_cases leader : cfg.amLeaderOf l₁.node.myid l₁.node.view = true
    · simp only [leader, if_true]
      exact earlierKept.gives_bind held₁ fun _ l₂ held₂ =>
        closed.handleNewViewPara_kept received l₂ held₂
    · simp only [leader]
      rw [if_neg (by decide), gives_bind, gives_multicast]
      exact earlierKept _ (closed.sendReport _ held₁ received)

/-- Executing a slot on its first commit message leaves the view, unless it is the last slot. -/
theorem executeRDataPara_kept {seq : Nat} (held : K l) (positive : 0 < seq)
    (within : seq ≤ cfg.maxBlocksInView) (next : Sorted → seq = l.node.lastExecutedSeq + 1)
    (first : (l.node.log.getCommitForSeq l.node.view seq).rdata.seqNumber = seq) :
    (executeRDataPara cfg earlier (l.node.log.getCommitForSeq l.node.view seq).rdata).Gives
      (fun _ l' => K l' ∧ (seq ≠ cfg.maxBlocksInView → l'.node.view = l.node.view
        ∧ l'.node.log = l.node.log ∧ l'.node.lastExecutedSeq = seq)) K l := by
  have marked := closed.execute held positive within next first
  refine executeRDataPara_gives (fun _ => marked) (fun last => ?_) fun _ => ?_
  · rw [first] at last
    have entering := closed.startNewViewPara_kept earlierKept _ marked
    exact entering.mono (fun _ _ after => ⟨after, fun more => absurd last more⟩) fun _ left => left
  · exact ⟨marked, fun _ => ⟨rfl, rfl, first⟩⟩

/-- Slots of the view that all have a commit message are executed in turn, up to the last one. -/
theorem executeSlots_gives (slots seq : Nat) (prevHash : Hash) (prevBlockExists : Bool)
    (held : K l) (positive : 0 < seq) (within : seq + slots ≤ cfg.maxBlocksInView + 1)
    (next : Sorted → seq = l.node.lastExecutedSeq + 1)
    (found : ∀ i, seq ≤ i → i < seq + slots → l.node.log.hasCommitForSeq l.node.view i = true) :
    (executeSlots cfg earlier l.node.view slots seq prevHash prevBlockExists).Gives (fun _ => K)
      K l := by
  -- Induction on the slots; only the last slot of the view takes the node to the next view.
  induction slots generalizing l seq prevHash prevBlockExists with
  | zero => exact held
  | succ slots ih =>
    have visited := closed.visits held (.own positive (by omega))
    unfold executeSlots
    rw [gives_bind, gives_accessSlot, gives_bind, gives_this]
    refine gives_ite (fun _ => visited) fun _ => ?_
    rw [gives_bind]
    have slot : (executeSlot cfg earlier seq
        (l.node.log.getCommitForSeq l.node.view seq).rdata).Gives
        (fun _ l' => K l' ∧ (seq ≠ cfg.maxBlocksInView → l'.node.view = l.node.view
          ∧ l'.node.log = l.node.log ∧ (Sorted → l'.node.lastExecutedSeq = seq))) K
        (visiting l l.node.view seq) := by
      unfold executeSlot
      refine gives_ite (fun first => ?_) fun other => ?_
      · have executed := closed.executeRDataPara_kept earlierKept visited positive (by omega) next
          (beq_iff_eq.1 first)
        refine executed.mono (fun _ l' ⟨held', stays⟩ => ⟨held', fun more => ?_⟩) fun _ left => left
        obtain ⟨view, log, last⟩ := stays more
        exact ⟨view, log, fun _ => last⟩
      · -- The commit message found for a slot is for that slot, if votes are sorted.
        refine ⟨visited, fun _ => ⟨rfl, rfl, fun sorted => ?_⟩⟩
        have some_found := found seq (Nat.le_refl _) (by omega)
        have same := (closed.sorted sorted held).getCommitForSeq some_found
        exact absurd (beq_iff_eq.2 same) other
    refine slot.mono (fun _ l₁ ⟨held₁, stays⟩ => ?_) fun _ left => left
    have rest : ∀ prevHash prevBlockExists, (executeSlots cfg earlier l.node.view slots (seq + 1)
        prevHash prevBlockExists).Gives (fun _ => K) K l₁ := by
      intro prevHash prevBlockExists
      by_cases last : seq = cfg.maxBlocksInView
      · -- No slots are left then.
        obtain rfl : slots = 0 := by omega
        exact held₁
      · obtain ⟨view, log, executed⟩ := stays last
        rw [← view]
        refine ih (seq + 1) prevHash prevBlockExists held₁ (by omega) (by omega)
          (fun sorted => by rw [executed sorted]) fun i from_next before => ?_
        rw [view, log]
        exact found i (by omega) (by omega)
    exact gives_ite (fun _ => rest _ _) fun _ => rest _ _

/-- A node executes the slots after its last one that all have some commit message. -/
theorem executeUpTo_kept (seqNumber : Nat) : Keeps K (executeUpTo cfg earlier seqNumber) := by
  intro l held
  unfold executeUpTo
  rw [gives_bind, gives_this]
  refine gives_ite (fun further => ?_) fun _ => held
  unfold executeBlocksFrom
  refine gives_ite (fun _ => held) fun within => ?_
  simp only [Bool.or_eq_true, decide_eq_true_eq, not_or, Nat.not_lt] at within
  have found : ∀ i, l.node.lastExecutedSeq + 1 ≤ i →
      i < l.node.lastExecutedSeq + 1 + (l.node.findHighestSeq seqNumber + 1
        - (l.node.lastExecutedSeq + 1)) → l.node.log.hasCommitForSeq l.node.view i = true :=
    fun i from_next before => hasCommit_of_le seqNumber (by omega) (by omega)
  rw [gives_bind]
  -- The slot before the first one to execute is looked at, if there is one.
  have looked : ∀ l' : State, K l' → l'.node.view = l.node.view →
      l'.node.lastExecutedSeq = l.node.lastExecutedSeq → l'.node.log = l.node.log →
      ∀ prevHash prevBlockExists, (executeSlots cfg earlier l.node.view
        (l.node.findHighestSeq seqNumber + 1 - (l.node.lastExecutedSeq + 1))
        (l.node.lastExecutedSeq + 1) prevHash prevBlockExists).Gives (fun _ => K) K l' := by
    intro l' held' view last log prevHash prevBlockExists
    rw [← view]
    refine closed.executeSlots_gives earlierKept _ _ _ _ held' (Nat.succ_pos _) (by omega)
      (fun _ => by rw [last]) ?_
    rw [view, log]
    exact found
  unfold accessBefore
  refine gives_ite (fun later => ?_) fun _ => ?_
  · have visited := closed.visits held (.own (Nat.sub_pos_of_lt later) (by omega))
    rw [gives_accessSlot, gives_bind, gives_this]
    exact gives_ite (fun _ => looked _ visited rfl rfl rfl _ _) fun _ =>
      looked _ visited rfl rfl rfl _ _
  · rw [gives_pure, gives_bind, gives_this]
    exact gives_ite (fun _ => looked l held rfl rfl rfl _ _) fun _ => looked l held rfl rfl rfl _ _

/-- A leader forwards the commits of a slot of its view once there are enough. -/
theorem initiateCommitPara_gives (held : K l) (leads : Leads cfg l.node)
    (here : rdata.propv = l.node.view) (phase : rdata.phase = PH1_COMMIT) :
    (initiateCommitPara cfg earlier rdata).Gives (fun _ => K) K l := by
  unfold initiateCommitPara
  rw [gives_bind, gives_this]
  refine gives_ite (fun full => ?_) fun _ => held
  rw [gives_bind, gives_multicast]
  have sent := closed.sendCommit held (.certificate leads here phase (beq_iff_eq.1 full))
  exact closed.executeUpTo_kept earlierKept _ _ sent

/-- A leader collects the commits of its view; a backup executes on a certificate. -/
theorem handleCommitPara_kept {msg : MsgCommitPara} (known : Received (.commit msg)) :
    Keeps K (handleCommitPara cfg earlier msg) := by
  intro l held
  unfold handleCommitPara
  rw [gives_bind, gives_this]
  refine gives_ite (fun _ => held) fun _ => gives_ite (fun checks => ?_) fun _ => ?_
  · simp only [Bool.and_eq_true, beq_iff_eq] at checks
    obtain ⟨here, phase⟩ := checks
    rw [gives_bind, gives_amCurrentLeader]
    refine gives_ite (fun leader => ?_) fun _ => gives_ite (fun valid => ?_) fun _ => held
    · have leads : Leads cfg l.node := Config.amLeaderOf_iff.1 leader
      have stored := closed.commits held (.arrived known (.inl ⟨here, phase⟩)
        (.inl (by rw [here]; exact leads)))
      rw [gives_bind, gives_storeComPara]
      refine gives_ite (fun _ => ?_) fun _ => stored
      exact closed.initiateCommitPara_gives earlierKept stored leads here phase
    · obtain ⟨-, verified⟩ := Bool.and_eq_true_iff.1 valid
      have stored := closed.commits held (.arrived known (.inl ⟨here, phase⟩) (.inr verified))
      rw [gives_bind, gives_storeComPara]
      exact closed.executeUpTo_kept earlierKept _ _ stored
  · refine gives_ite (fun later => ?_) fun _ => held
    refine gives_ite (fun leader => ?_) fun _ => gives_ite (fun verified => ?_) fun _ => held
    · exact closed.commits held (.arrived known (.inr later) (.inl (Config.amLeaderOf_iff.1 leader)))
    · exact closed.commits held (.arrived known (.inr later) (.inr verified))

/-- What the log holds for a slot of the view of the node is handled as if it came now. -/
theorem handleEarlierSlot_kept {seqNumber : Nat} (positive : 0 < seqNumber)
    (within : seqNumber ≤ cfg.maxBlocksInView) :
    Keeps K (handleEarlierSlot cfg earlier seqNumber) := by
  intro l held
  simp only [handleEarlierSlot, gives_bind, gives_this]
  refine gives_ite (fun _ => ?_) fun _ => gives_ite (fun _ => ?_) fun _ => ?_
  · have ofView : Sorted → (l.node.log.firstPrecommitPara l.node.view seqNumber).OfView
        l.node.view := fun sorted =>
      LogPara.ofView_firstOf fun m member => (closed.sorted sorted held).precommits member
    have given := closed.respondToPreCommitJustPara_gives held ofView
    rw [gives_bind]
    refine given.mono (fun _ l₁ held₁ => ?_) fun _ left => left
    exact gives_ite (fun _ => closed.executeUpTo_kept earlierKept _ l₁ held₁) fun _ => held₁
  · have ofView : Sorted → (l.node.log.firstPreparePara l.node.view seqNumber).OfView
        l.node.view := fun sorted =>
      LogPara.ofView_firstOf fun m member => (closed.sorted sorted held).prepares member
    exact closed.respondToPrepareJustPara_gives held ofView
  · split
    · rename_i found
      refine gives_ite (fun _ => ?_) fun _ => held
      have known := closed.proposals held positive within (Messages.mem_of_first found)
      exact closed.handleLdrPreparePara_kept known l held
    · exact held

theorem handleEarlierSlots_kept (slots seqNumber : Nat) (positive : 0 < seqNumber)
    (within : seqNumber + slots ≤ cfg.maxBlocksInView + 1) :
    Keeps K (handleEarlierSlots cfg earlier slots seqNumber) := by
  induction slots generalizing seqNumber with
  | zero => exact keeps_pure ()
  | succ slots ih =>
    exact (closed.handleEarlierSlot_kept earlierKept positive (by omega)).bind
      fun _ => ih (seqNumber + 1) (by omega) (by omega)

/-- A node enters the view of an announcement, and adopts its justification if that is valid. -/
theorem handleVerifyPara_kept {msg : MsgVerifyPara} (known : Received (.verify msg)) :
    Keeps K (handleVerifyPara cfg earlier msg) := by
  -- In its view the node adopts what is valid; hashes are left unchecked only if nothing is new.
  have checking : ∀ checkHashes l verified, K l → msg.rdata.propv = l.node.view →
      l.node.verifiedJust.getRDataPara = some verified →
      (checkHashes = false → ¬ verified.propv < msg.rdata.justv) →
      (adoptChecked cfg earlier msg checkHashes).Gives (fun _ => K) K l := by
    intro checkHashes l verified held here tagged unchecked
    unfold adoptChecked
    rw [gives_bind]
    refine callTEEVerifyPara_gives held held fun valid current safe => ?_
    unfold adopt
    refine gives_ite (fun _ => ?_) fun _ => held
    rw [gives_bind, gives_this, gives_bind, gives_note, gives_bind, gives_modify]
    have adopted := closed.adopts held known valid current.symm here tagged fun newer => by
      -- A justification newer than a verified one is not built on view 0.
      cases checkHashes with
      | false => exact absurd newer (unchecked rfl)
      | true => exact (safe rfl).resolve_left (Nat.ne_zero_of_lt newer)
    rw [tagged]
    exact earlierKept _ adopted
  intro l held
  unfold handleVerifyPara
  rw [gives_bind, gives_this]
  refine gives_ite (fun _ => held) fun _ => gives_ite (fun _ => ?_) fun _ => held
  have entering : Keeps K (enterLater cfg msg.rdata.propv) := by
    intro l held
    unfold enterLater
    rw [gives_bind, gives_this]
    refine gives_ite (fun later => ?_) fun _ => held
    rw [gives_changeView]
    exact closed.change _ held later fun bounded => closed.smallVerify bounded known
  refine entering.gives_bind held fun _ l₁ held₁ => ?_
  rw [gives_bind, gives_this]
  refine gives_ite (fun here => ?_) fun _ => closed.storeVerify held₁ known
  rw [beq_iff_eq] at here
  rw [gives_bind]
  refine gives_ofOption (fun verified tagged => ?_) fun _ => held₁
  refine gives_ite (fun newer => ?_) fun same => ?_
  · rw [gives_bind, gives_modify]
    have looked := closed.looks msg.rdata.justv held₁
    have frame := frame_enterView l₁.node msg.rdata.justv
    refine gives_ite (fun _ => ?_) fun _ => looked
    exact checking true _ verified looked (by rw [frame.view]; exact here)
      (by rw [frame.verifiedJust]; exact tagged) (fun impossible => by cases impossible)
  · exact checking false _ verified held₁ here tagged fun _ => same

end Entering

section Reacting

/-- Going through earlier messages, however deep it nests, keeps the property. -/
theorem handleEarlierMessagesPara_kept (depth : Nat) :
    Keeps K (handleEarlierMessagesPara cfg depth) := by
  induction depth with
  | zero => exact keeps_halt
  | succ depth ih =>
    intro l held
    unfold handleEarlierMessagesPara
    rw [gives_bind, gives_this, gives_bind, gives_amCurrentLeader]
    refine gives_ite (fun leader => ?_) fun _ => ?_
    · refine gives_ite (fun full => ?_) fun _ => held
      have leading : Leading cfg K l := ⟨held, Config.amLeaderOf_iff.1 leader⟩
      -- A quorum of signatures comes from some report.
      have usable : Usable l.node.view (l.node.log.findHighestNvPara l.node.view) := by
        refine closed.usable_highest held (Classical.or_iff_not_imp_right.2 fun some_needed => ?_)
        intro none_held
        rw [beq_iff_eq, LogPara.getNewViewPara, Messages.getSigns_eq, none_held] at full
        exact some_needed (by simpa [Messages.allSigns] using full.symm)
      rw [gives_bind]
      refine (closed.lookingFor_gives leading fun missing l₁ leading₁ view₁ => ?_ :
        Gives _ (fun missing l₁ => _) (Leading cfg K) l).mono (fun _ _ given => given)
        fun _ left => left.1
      have usable₁ : Usable l₁.node.view (l.node.log.findHighestNvPara l.node.view) := by
        rw [view₁]; exact usable
      refine gives_ite (fun _ => ?_) fun _ => ?_
      · exact gives_of_leading (closed.initiateVerifyPara_leading leading₁ usable₁)
      · exact gives_of_leading (closed.verifyOrRecover_leading leading₁ usable₁ missing)
    · refine Keeps.gives_bind (keeps_ofOption _) held fun verified l₁ held₁ => ?_
      refine gives_ite (fun _ => gives_ite (fun announced => ?_) fun _ => held₁) fun _ => ?_
      · cases found : l.node.log.verifiesPara.lookup l.node.view with
        | none => simp [LogPara.getVerifyPara, found, MsgVerifyPara.isEmpty] at announced
        | some m =>
          simp only [LogPara.getVerifyPara, found, Option.getD_some]
          exact closed.handleVerifyPara_kept ih (closed.verifies held found) l₁ held₁
      · exact closed.handleEarlierSlots_kept ih _ _ Nat.one_pos (by omega) l₁ held₁

/-- A node that starts reports to the leader of the first view, which may be the node itself. -/
theorem getStarted_gives (held : K l) (fresh : l.node.started = false) :
    (getStarted cfg).Gives (fun _ => K) K { l with node := { l.node with started := true } } := by
  obtain ⟨begun, known⟩ := closed.starts held fresh
  have timed := closed.still begun (h := { l.node with
    started := true
    tpara := l.node.tpara.increment_node_phase
    timer := true }) ⟨rfl, rfl, rfl, rfl, rfl, rfl, rfl, rfl, rfl⟩
  unfold getStarted
  rw [gives_bind, gives_callTEEsignPara, Just.getRDataPara_ofRDataPara, gives_bind,
    gives_ofOption_some, gives_bind, gives_setTimer, gives_bind, gives_this, gives_bind]
  refine (closed.noteIf_kept rfl timed rfl).mono (fun _ l₂ held₂ => ?_) fun _ left => left
  rw [gives_bind, gives_amCurrentLeader]
  refine gives_ite (fun _ => closed.handleNewViewPara_kept known l₂ held₂) fun _ => ?_
  rw [gives_multicast]
  exact closed.sendReport _ held₂ known

/-- Every reaction to a received message keeps the property, if answers to requests do. -/
theorem handle_kept (depth : Nat) {msg : MsgPara} (known : Received msg)
    (recover : ∀ m, msg = .recover m → Keeps K (handleRecoverPara cfg m)) :
    Keeps K (handle cfg depth msg) := by
  have earlierKept := closed.handleEarlierMessagesPara_kept depth
  cases msg with
  | newView m => exact closed.handleNewViewPara_kept known
  | ldrRecover m => exact closed.handleLdrRecoverPara_kept known
  | recover m => exact recover m rfl
  | verify m => exact closed.handleVerifyPara_kept earlierKept known
  | ldrPrepare m => exact closed.handleLdrPreparePara_kept known
  | prepare m => exact closed.handlePreparePara_kept m
  | preCommit m => exact closed.handlePrecommitPara_kept m
  | commit m => exact closed.handleCommitPara_kept earlierKept known

/-- So does every reaction to the environment. -/
theorem react_kept (depth : Nat) (i : Input) : Keeps K (react cfg depth i) := by
  cases i with
  | start cid =>
    intro l held
    unfold react handle_start
    rw [gives_bind, gives_this, gives_bind, gives_modify]
    have met := still_meeting l.node cid
    have known : K { l with node := l.node.meeting cid } := closed.still held met
    refine gives_ite (fun unstarted => ?_) fun _ => known
    rw [gives_bind, gives_modify]
    have fresh : (l.node.meeting cid).started = false := by
      rw [met.started]
      simpa using unstarted
    exact closed.getStarted_gives known fresh
  | transaction trans =>
    apply keeps_this.bind
    intro h
    split
    · exact closed.still_kept fun h => ⟨rfl, rfl, rfl, rfl, rfl, rfl, rfl, rfl, rfl⟩
    · exact keeps_pure ()
  | timeout =>
    apply keeps_this.bind
    intro h
    refine keeps_ite (fun _ => keeps_ite (fun _ => keeps_halt) fun _ => ?_) fun _ => keeps_pure ()
    exact closed.startNewViewPara_kept (closed.handleEarlierMessagesPara_kept depth)

end Reacting

end Closed

end HandlerPara

end ParaHotstuff
