import ParaHotstuff.Proofs.Basic.Calls
import ParaHotstuff.Proofs.Votes

/-! Which proposals a node of the basic protocol votes for, whoever sends them. -/

namespace ParaHotstuff

/-- The statement a proposal is to be signed on, as the handler rebuilds it. -/
def MsgLdrPrepare.statement [Hashing] (msg : MsgLdrPrepare) (rd : RData) : RData :=
  ⟨msg.prop.block.hash, rd.propv, rd.justh, rd.justv, PH1_PREPARE⟩

namespace Handler

open Program Local

variable [Hashing] (cfg : Config)

/-- A proposal for a view whose signatures all verify on the statement it is to be signed on. -/
def Checked (msg : MsgLdrPrepare) (v : View) : Prop :=
  ∃ rd, msg.prop.just.getRData = some rd ∧ rd.propv = v
    ∧ verifyJust cfg (msg.statement rd) msg.signs = true

/-- A proposal that carries a valid signature of the leader of a view on its statement. -/
def FromLeader (msg : MsgLdrPrepare) (v : View) : Prop :=
  ∃ rd, msg.prop.just.getRData = some rd ∧ rd.propv = v
    ∧ Signs.SignedBy cfg.nodes (cfg.getLeaderOf v) (msg.statement rd).toString msg.signs

omit [Hashing] in
/-- A proposal that names the leader of its view among its signers. -/
def NamesLeader (msg : MsgLdrPrepare) : Prop :=
  ∀ rd, msg.prop.just.getRData = some rd → cfg.getLeaderOf rd.propv ∈ msg.signs.getSigners

/-- Whatever a node votes for in a program comes with the signature of the leader of its view. -/
def Authenticated (program : M Unit) (h : Handler) (msg : MsgLdrPrepare) : Prop :=
  ∀ sent q r block lockh lockv,
    BasicEvent.voted q r block lockh lockv ∈ (program ⟨h, sent, []⟩).state.history →
      FromLeader cfg msg r.propv

/-- Whether a node votes for a proposal as soon as it arrives. -/
def votesAtOnce (h : Handler) (msg : MsgLdrPrepare) : Bool :=
  match msg.prop.just.getRData with
  | none => false
  | some rd =>
    rd.propv == h.view && verifyJust cfg (msg.statement rd) msg.signs
      && msg.prop.block.extends' rd.justh && h.tf.votesOn cfg.nodes msg.prop.just

omit [Hashing] in
/-- The proposal a backup finds in its log for its view, unless it finds a certificate. -/
def found (h : Handler) : Option MsgLdrPrepare :=
  if cfg.amLeaderOf h.myid h.view || (h.log.getPrecommit h.view cfg.qsize).length == cfg.qsize
      || (h.log.getPrepare h.view cfg.qsize).length == cfg.qsize then none
  else h.log.firstProposal h.view

omit [Hashing] in
/-- Whether a node votes for a proposal it finds in its log. -/
def votesLater (h : Handler) (msg : MsgLdrPrepare) : Bool :=
  msg.signs.length == 1 && h.tf.votesOn cfg.nodes msg.prop.just

/-- A proposal that was put into the log of a node when it arrived there. -/
def TakenIn (msg : MsgLdrPrepare) : Prop :=
  ∃ h sent v, msg ∉ h.log.proposals.held v
    ∧ msg ∈ (handleLdrPrepare cfg msg ⟨h, sent, []⟩).state.node.log.proposals.held v

section OneProposal

variable {cfg} {l : State} {msg : MsgLdrPrepare} {rd : RData}

/-- Answering a proposal adds a vote to the history if the component accepts it, or nothing. -/
theorem history_respondToProposal (just : Just) (block : Block) (l : State) :
    (l.node.tf.votesOn cfg.nodes just = false
        ∧ (respondToProposal cfg just block l).state.history = l.history)
      ∨ ∃ rd, just.getRData = some rd ∧ l.node.tf.votesOn cfg.nodes just = true
        ∧ (respondToProposal cfg just block l).state.history
          = .voted l.node.myid (l.node.tf.statement block.hash rd.justh rd.justv) block
              l.node.tf.lockh l.node.tf.lockv :: l.history := by
  rcases l.node.tf.TEEprepare_cases cfg.nodes block.hash just with
    -- The component throws or refuses, or it signs for the view of the report.
    ⟨refused, answer⟩ | ⟨rd, tagged, accepted, answer⟩
  · have given : (respondToProposal cfg just block).Gives (fun _ l' => l'.history = l.history)
        (fun l' => l'.history = l.history) l := by
      rcases answer with thrown | unset
      · simp [respondToProposal, callTEEprepare, thrown]
      · simp [respondToProposal, callTEEprepare, unset, Just.default]
    exact .inl ⟨refused, given.state⟩
  · have given : (respondToProposal cfg just block).Gives
        (fun _ l' => l'.history = .voted l.node.myid
          (l.node.tf.statement block.hash rd.justh rd.justv) block l.node.tf.lockh
          l.node.tf.lockv :: l.history)
        (fun l' => l'.history = .voted l.node.myid
          (l.node.tf.statement block.hash rd.justh rd.justv) block l.node.tf.lockh
          l.node.tf.lockv :: l.history) l := by
      simp [respondToProposal, callTEEprepare, keepBlock, answer, TrustedFun.sign]
    exact .inr ⟨rd, tagged, accepted, given.state⟩

/-- A vote on a proposal is for the view of its justification. -/
theorem authenticated_vote (tagged : msg.prop.just.getRData = some rd)
    (verified : verifyJust cfg (msg.statement rd) msg.signs = true) {v : View} (view : v = rd.propv) :
    FromLeader cfg msg v ↔ NamesLeader cfg msg := by
  subst view
  constructor
  · rintro ⟨rd', tagged', view, signed⟩ rd'' tagged''
    obtain rfl : rd' = rd := Option.some.inj (tagged'.symm.trans tagged)
    obtain rfl : rd'' = rd' := Option.some.inj (tagged''.symm.trans tagged)
    exact (Signs.signedBy_of_verify verified).1 signed
  · intro names
    exact ⟨rd, tagged, rfl, (Signs.signedBy_of_verify verified).2 (names rd tagged)⟩

/-- What a node votes for on a checked proposal is signed by the leader exactly if that is named. -/
theorem respondToProposal_authenticated {h : Handler} (tagged : msg.prop.just.getRData = some rd)
    (verified : verifyJust cfg (msg.statement rd) msg.signs = true) :
    Authenticated cfg (respondToProposal cfg msg.prop.just msg.prop.block) h msg
      ↔ (h.tf.votesOn cfg.nodes msg.prop.just = true → NamesLeader cfg msg) := by
  have history := fun sent => @history_respondToProposal _ cfg msg.prop.just msg.prop.block
    ⟨h, sent, []⟩
  constructor
  · intro authenticated accepts
    -- A vote that was given is the newest event, so it must be authenticated.
    rcases history [] with ⟨refused, _⟩ | ⟨rd', tagged', -, noted⟩
    · simp [refused] at accepts
    obtain rfl : rd' = rd := Option.some.inj (tagged'.symm.trans tagged)
    have here := ((TrustedFun.votesOn_iff tagged).1 accepts).2.1
    refine (authenticated_vote tagged verified here).1 ?_
    exact authenticated [] _ _ _ _ _ (by rw [noted]; exact List.mem_cons_self)
  · intro names sent q r block lockh lockv member
    -- The only vote there can be is this one.
    rcases history sent with ⟨_, noted⟩ | ⟨rd', tagged', accepts, noted⟩
    · simp [noted] at member
    obtain rfl : rd' = rd := Option.some.inj (tagged'.symm.trans tagged)
    have here := ((TrustedFun.votesOn_iff tagged).1 accepts).2.1
    rw [noted, List.mem_singleton] at member
    cases member
    exact (authenticated_vote tagged verified here).2 (names accepts)

/-- Programs that do the same are authenticated alike. -/
theorem authenticated_congr {program program' : M Unit} {h : Handler}
    (same : ∀ sent, program ⟨h, sent, []⟩ = program' ⟨h, sent, []⟩) :
    Authenticated cfg program h msg ↔ Authenticated cfg program' h msg := by
  simp only [Authenticated, same]

/-- A program that adds nothing to the history is authenticated. -/
theorem authenticated_of_quiet {program : M Unit} {h : Handler}
    (quiet : ∀ sent, (program ⟨h, sent, []⟩).state.history = []) :
    Authenticated cfg program h msg := by
  intro sent q r block lockh lockv member
  simp [quiet] at member

/-- What handling a proposal with basic round data amounts to. -/
theorem handleLdrPrepare_eq (tagged : msg.prop.just.getRData = some rd) (l : State) :
    handleLdrPrepare cfg msg l
      = (if l.node.view ≤ rd.propv && verifyJust cfg (msg.statement rd) msg.signs
          && msg.prop.block.extends' rd.justh then
        if rd.propv == l.node.view then respondToProposal cfg msg.prop.just msg.prop.block
        else storeProp msg
      else pure ()) l := by
  simp only [handleLdrPrepare, tagged]
  rfl

omit [Hashing] in
/-- Storing a proposal adds nothing to the history. -/
theorem history_storeProp (l : State) : (storeProp msg l).state.history = l.history := by
  have given : (storeProp msg).Gives (fun _ l' => l'.history = l.history)
      (fun l' => l'.history = l.history) l := by
    simp only [storeProp, gives_bind, gives_this]
    exact gives_ofOption (fun _ _ => rfl) fun _ => rfl
  exact given.state

/-- A node that votes for a proposal at once has the leader's signature exactly if it is named. -/
theorem handleLdrPrepare_authenticated {h : Handler} :
    Authenticated cfg (handleLdrPrepare cfg msg) h msg
      ↔ (votesAtOnce cfg h msg = true → NamesLeader cfg msg) := by
  cases tagged : msg.prop.just.getRData with
  | none =>
    have thrown : Authenticated cfg (handleLdrPrepare cfg msg) h msg :=
      authenticated_of_quiet fun sent => by simp only [handleLdrPrepare, tagged]; rfl
    simp [thrown, votesAtOnce, tagged]
  | some rd =>
    have branch : ∀ sent, handleLdrPrepare cfg msg ⟨h, sent, []⟩
        = (if h.view ≤ rd.propv && verifyJust cfg (msg.statement rd) msg.signs
            && msg.prop.block.extends' rd.justh then
          if rd.propv == h.view then respondToProposal cfg msg.prop.just msg.prop.block
          else storeProp msg
        else pure ()) ⟨h, sent, []⟩ := fun sent => handleLdrPrepare_eq tagged _
    rw [authenticated_congr branch]
    simp only [votesAtOnce, tagged, Bool.and_eq_true, beq_iff_eq]
    -- Every check of the handler but the component's comes before the vote.
    by_cases checks : (decide (h.view ≤ rd.propv) = true
        ∧ verifyJust cfg (msg.statement rd) msg.signs = true)
        ∧ msg.prop.block.extends' rd.justh = true
    · rw [if_pos checks]
      obtain ⟨⟨-, verified⟩, extended⟩ := checks
      by_cases here : rd.propv = h.view
      · rw [if_pos here, respondToProposal_authenticated tagged verified]
        simp [here, verified, extended]
      · rw [if_neg here]
        -- A proposal of a later view is stored, and nobody votes for it now.
        have stored : Authenticated cfg (storeProp msg) h msg :=
          authenticated_of_quiet fun sent => history_storeProp _
        simp [stored, here]
    · rw [if_neg checks]
      have ignored : Authenticated cfg (pure ()) h msg := authenticated_of_quiet fun sent => rfl
      simp only [ignored, true_iff]
      rintro ⟨⟨⟨here, verified⟩, extended⟩, _⟩
      exact absurd (by simp [here, verified, extended]) checks

/-- A proposal is put into a log only if its signatures verify. -/
theorem TakenIn.checked (taken : TakenIn cfg msg) :
    ∃ rd, msg.prop.just.getRData = some rd
      ∧ verifyJust cfg (msg.statement rd) msg.signs = true := by
  obtain ⟨h, sent, v, absent, present⟩ := taken
  cases tagged : msg.prop.just.getRData with
  | none =>
    simp only [handleLdrPrepare, tagged] at present
    exact absurd present absent
  | some rd =>
    rw [handleLdrPrepare_eq tagged] at present
    by_cases checks : (decide (h.view ≤ rd.propv) && verifyJust cfg (msg.statement rd) msg.signs
        && msg.prop.block.extends' rd.justh) = true
    · simp only [Bool.and_eq_true, decide_eq_true_eq] at checks
      exact ⟨rd, rfl, checks.1.2⟩
    · rw [if_neg checks] at present
      exact absurd present absent

/-- The same holds of a vote for a proposal from the log, which was checked when it arrived. -/
theorem handleEarlierMessages_authenticated {h : Handler} {next : M Unit}
    (taken : TakenIn cfg msg) (held : found cfg h = some msg) :
    Authenticated cfg (handleEarlierMessages cfg next) h msg
      ↔ (votesLater cfg h msg = true → NamesLeader cfg msg) := by
  obtain ⟨rd, tagged, verified⟩ := taken.checked
  have branch : ∀ sent, handleEarlierMessages cfg next ⟨h, sent, []⟩
      = (if msg.signs.length == 1 then respondToProposal cfg msg.prop.just msg.prop.block
        else pure ()) ⟨h, sent, []⟩ := by
    intro sent
    unfold found at held
    split at held
    · cases held
    -- The node is a backup that holds no certificate of its view.
    rename_i others
    simp only [Bool.or_eq_true, not_or] at others
    obtain ⟨⟨backup, pc⟩, prep⟩ := others
    change (if cfg.amLeaderOf h.myid h.view then _ else _ : M Unit) _ = _
    rw [if_neg backup]
    change (if (h.log.getPrecommit h.view cfg.qsize).length == cfg.qsize then _ else _ : M Unit) _
      = _
    rw [if_neg pc]
    change (if (h.log.getPrepare h.view cfg.qsize).length == cfg.qsize then _ else _ : M Unit) _
      = _
    rw [if_neg prep, held]
  rw [authenticated_congr branch]
  simp only [votesLater, Bool.and_eq_true, beq_iff_eq]
  by_cases single : msg.signs.length = 1
  · rw [if_pos single, respondToProposal_authenticated tagged verified]
    simp [single]
  · have ignored : Authenticated cfg (pure ()) h msg := authenticated_of_quiet fun sent => rfl
    simp [single, ignored]

end OneProposal

section Runs

variable (p : PID) (received : MsgLdrPrepare → Prop)

/-- What holds of a node to which anybody may send anything, some proposals among it. -/
structure Wary (l : State) : Prop where
  myid : l.node.myid = p
  newviews : ∀ {v m}, m ∈ l.node.log.newviews.held v → m.rdata.propv = v
  proposals : ∀ {v m}, m ∈ l.node.log.proposals.held v → received m ∧ ∃ w, Checked cfg m w
  votes : ∀ {q r block lockh lockv}, BasicEvent.voted q r block lockh lockv ∈ l.history →
    cfg.getLeaderOf r.propv = p
      ∨ ∃ m, received m ∧ m.prop.block = block ∧ Checked cfg m r.propv

variable {cfg p received} {l : State} {next : M Unit} {rdata : RData}

/-- Only new-view messages and proposals in the log matter. -/
theorem Wary.node (wary : Wary cfg p received l) {h : Handler} (myid : h.myid = l.node.myid)
    (newviews : h.log.newviews = l.node.log.newviews)
    (proposals : h.log.proposals = l.node.log.proposals) :
    Wary cfg p received { l with node := h } where
  myid := myid.trans wary.myid
  newviews := fun member => wary.newviews (newviews ▸ member)
  proposals := fun member => wary.proposals (proposals ▸ member)
  votes := wary.votes

/-- Events other than votes may be noted. -/
theorem Wary.event (wary : Wary cfg p received l) {e : BasicEvent}
    (other : ∀ q r block lockh lockv, e ≠ .voted q r block lockh lockv) :
    Wary cfg p received { l with history := e :: l.history } :=
  { wary with
    votes := fun member => by
      rcases List.mem_cons.1 member with new | old
      · exact absurd new.symm (other _ _ _ _ _)
      · exact wary.votes old }

/-- Sending needs nothing. -/
theorem keeps_send {msg : MsgBasic} {recipients : List PID} :
    Keeps (Wary cfg p received) (multicast_msg msg recipients : M Unit) :=
  keeps_multicast fun _ _ wary => { wary with }

theorem keeps_setTimer : Keeps (Wary cfg p received) setTimer :=
  keeps_modify fun _ wary => wary.node rfl rfl rfl

theorem keeps_callTEEsign : Keeps (Wary cfg p received) callTEEsign := by
  apply keeps_this.bind
  intro h
  exact (keeps_modify fun _ wary => wary.node rfl rfl rfl).bind fun _ => keeps_pure _

theorem keeps_storePrep {msg : MsgPrepare} : Keeps (Wary cfg p received) (storePrep msg) :=
  fun _ wary => wary.node rfl rfl rfl

theorem keeps_storePc {msg : MsgPreCommit} : Keeps (Wary cfg p received) (storePc msg) :=
  fun _ wary => wary.node rfl rfl rfl

theorem keeps_storeCom {msg : MsgCommit} : Keeps (Wary cfg p received) (storeCom msg) :=
  fun _ wary => wary.node rfl rfl rfl

/-- New-view messages are stored under the view they name. -/
theorem Wary.storeNv (wary : Wary cfg p received l) (msg : MsgNewView) :
    Wary cfg p received
      { l with node := { l.node with log := (l.node.log.storeNv msg).2 } } :=
  { wary with
    newviews := fun member => by
      rcases Messages.mem_store member with old | ⟨rfl, rfl⟩
      · exact wary.newviews old
      · rfl }

theorem keeps_callTEEstore {just : Just} : Keeps (Wary cfg p received) (callTEEstore cfg just) := by
  apply keeps_this.bind
  intro h
  apply (keeps_ofOption _).bind
  rintro ⟨out, tf⟩
  apply Keeps.bind (keeps_modify fun _ wary => wary.node rfl rfl rfl)
  intro _
  have noted : Keeps (Wary cfg p received) (note (.stored h.myid just.rdata) : M Unit) :=
    keeps_note fun _ wary => wary.event (by simp)
  exact keeps_ite (fun _ => noted.bind fun _ => keeps_pure out) fun _ => keeps_pure out

theorem keeps_replyHash {hash : Hash} : Keeps (Wary cfg p received) (replyHash hash) := by
  apply keeps_this.bind
  intro h
  split
  · refine keeps_ite (fun _ => ?_) fun _ => keeps_pure ()
    exact keeps_modify fun _ wary => wary.node rfl rfl rfl
  · exact keeps_pure ()

/-- A vote may be noted for a received and checked proposal, or in a view the node leads. -/
theorem Wary.vote (wary : Wary cfg p received l) {h : Handler} {q : PID} {block : Block}
    {lockh : Hash} {lockv : View} (myid : h.myid = l.node.myid) (log : h.log = l.node.log)
    (fine : cfg.getLeaderOf rdata.propv = p
      ∨ ∃ m, received m ∧ m.prop.block = block ∧ Checked cfg m rdata.propv) :
    Wary cfg p received
      { l with node := h, history := .voted q rdata block lockh lockv :: l.history } :=
  { wary.node myid (congrArg Log.newviews log) (congrArg Log.proposals log) with
    votes := fun member => by
      rcases List.mem_cons.1 member with new | old
      · cases new
        exact fine
      · exact wary.votes old }

/-- Answering a received and checked proposal is all a backup votes for. -/
theorem respondToProposal_wary (wary : Wary cfg p received l) {m : MsgLdrPrepare}
    (known : received m) (checked : ∃ w, Checked cfg m w) :
    (respondToProposal cfg m.prop.just m.prop.block).Gives (fun _ => Wary cfg p received)
      (Wary cfg p received) l := by
  unfold respondToProposal
  rw [gives_bind]
  refine callTEEprepare_answer wary (by simpa [Just.default] using wary) fun rd tagged accepts => ?_
  obtain ⟨w, rd', tagged', -, verified⟩ := checked
  obtain rfl : rd' = rd := Option.some.inj (tagged'.symm.trans tagged)
  have here : l.node.tf.view = rd'.propv := ((TrustedFun.votesOn_iff tagged).1 accepts).2.1
  simp only [Just.set_ofRData, if_true, gives_bind, Just.getRData_ofRData, gives_ofOption_some,
    gives_keepBlock, gives_this, gives_multicast, Just.signs_ofRData]
  have fine : cfg.getLeaderOf (l.node.tf.statement m.prop.block.hash rd'.justh rd'.justv).propv = p
      ∨ ∃ m', received m' ∧ m'.prop.block = m.prop.block
        ∧ Checked cfg m' (l.node.tf.statement m.prop.block.hash rd'.justh rd'.justv).propv :=
    .inr ⟨m, known, rfl, rd', tagged, here.symm, verified⟩
  exact { wary.vote rfl rfl fine with }

theorem keeps_executeRData (nextKept : Keeps (Wary cfg p received) next) :
    Keeps (Wary cfg p received) (executeRData cfg next rdata) := by
  apply keeps_this.bind
  intro h
  apply Keeps.bind (keeps_note fun _ wary => wary.event (by simp))
  intro _
  apply keeps_replyHash.bind
  intro _
  exact keeps_ite (fun _ => keeps_pure ()) fun _ => nextKept

theorem keeps_initiateCommit (nextKept : Keeps (Wary cfg p received) next) :
    Keeps (Wary cfg p received) (initiateCommit cfg next rdata) := by
  apply keeps_this.bind
  intro h
  refine keeps_ite (fun _ => ?_) fun _ => keeps_pure ()
  exact keeps_send.bind fun _ => keeps_executeRData nextKept

theorem keeps_initiatePrecommit (nextKept : Keeps (Wary cfg p received) next) :
    Keeps (Wary cfg p received) (initiatePrecommit cfg next rdata) := by
  apply keeps_this.bind
  intro h
  refine keeps_ite (fun _ => ?_) fun _ => keeps_pure ()
  apply keeps_send.bind
  intro _
  apply keeps_callTEEstore.bind
  intro just
  apply (keeps_ofOption _).bind
  intro rdataCom
  apply keeps_storeCom.bind
  intro count
  exact keeps_ite (fun _ => keeps_initiateCommit nextKept) fun _ => keeps_pure ()

theorem keeps_initiatePrepare (nextKept : Keeps (Wary cfg p received) next) :
    Keeps (Wary cfg p received) (initiatePrepare cfg next rdata) := by
  apply keeps_this.bind
  intro h
  refine keeps_ite (fun _ => ?_) fun _ => keeps_pure ()
  apply keeps_send.bind
  intro _
  apply keeps_callTEEstore.bind
  intro just
  apply (keeps_ofOption _).bind
  intro rdataPc
  apply keeps_storePc.bind
  intro count
  exact keeps_ite (fun _ => keeps_initiatePrecommit nextKept) fun _ => keeps_pure ()

/-- A leader that holds new-view messages of its view votes for its own block in that view. -/
theorem prepare_wary (nextKept : Keeps (Wary cfg p received) next) (wary : Wary cfg p received l)
    (leads : cfg.getLeaderOf l.node.view = p)
    (some_held : l.node.log.newviews.held l.node.view ≠ []) :
    (prepare cfg next).Gives (fun _ => Wary cfg p received) (Wary cfg p received) l := by
  rcases l.node.log.findHighestNv_mem l.node.view with ⟨none_held, _⟩ | ⟨msg, held, highest, _⟩
  · exact absurd none_held some_held
  unfold prepare
  simp only [gives_bind, gives_this, highest, Just.getRData_ofRData, gives_ofOption_some,
    createNewBlock, gives_modify, gives_pure]
  -- Taking transactions off the queue changes nothing that matters here.
  have filled := wary.node (h := { l.node with
    transactions := l.node.transactions.drop cfg.maxNumTransactions }) rfl rfl rfl
  refine callTEEprepare_answer filled (by simpa [Just.default] using filled)
    fun rd tagged accepts => ?_
  obtain rfl : msg.rdata = rd := by simpa using tagged
  -- The vote is for the view of the new-view message, which is the one led.
  have here : l.node.tf.view = msg.rdata.propv := ((TrustedFun.votesOn_iff tagged).1 accepts).2.1
  have mine : cfg.getLeaderOf l.node.tf.view = p := by rw [here, wary.newviews held, leads]
  simp only [Just.set_ofRData, if_true, gives_bind, Just.getRData_ofRData, gives_ofOption_some,
    gives_keepBlock, gives_multicast, gives_storePrep, Just.signs_ofRData]
  have rest : ∀ l', Wary cfg p received l' → ∀ (count : Nat) (r : RData),
      Gives (if cfg.qsize ≤ count then initiatePrepare cfg next r else pure ())
        (fun _ => Wary cfg p received) (Wary cfg p received) l' := fun l' wary' count r =>
    gives_ite (fun _ => keeps_initiatePrepare nextKept l' wary') fun _ => wary'
  apply rest
  -- The own block is kept and sent, and the own vote is counted.
  exact { (wary.vote rfl rfl (.inl mine)).node rfl rfl rfl with }

theorem keeps_respondToPrepareJust {just : Just} :
    Keeps (Wary cfg p received) (respondToPrepareJust cfg just) := by
  apply keeps_callTEEstore.bind
  intro justPc
  apply (keeps_ofOption _).bind
  intro rdataPc
  exact keeps_this.bind fun _ => keeps_send

theorem keeps_respondToPreCommitJust {just : Just} :
    Keeps (Wary cfg p received) (respondToPreCommitJust cfg just) := by
  apply keeps_callTEEstore.bind
  intro justCom
  apply (keeps_ofOption _).bind
  intro rdataCom
  exact keeps_this.bind fun _ => keeps_send

/-- Earlier messages make a node vote for its own block as a leader, or for a stored proposal. -/
theorem keeps_handleEarlierMessages (positive : 0 < cfg.qsize)
    (nextKept : Keeps (Wary cfg p received) next) :
    Keeps (Wary cfg p received) (handleEarlierMessages cfg next) := by
  intro l wary
  simp only [handleEarlierMessages, gives_bind, gives_this, gives_amCurrentLeader, beq_iff_eq,
    wary.myid, Config.amLeaderOf_iff]
  refine gives_ite (fun leads => ?_) fun _ => ?_
  · refine gives_ite (fun full => ?_) fun _ => wary
    obtain ⟨m, _, held⟩ := Messages.first_of_collected positive full
    -- A quorum of reports is held, so there is a highest one among them.
    exact prepare_wary nextKept wary leads (List.ne_nil_of_mem held)
  refine gives_ite (fun _ => ?_) fun _ => gives_ite (fun _ => ?_) fun _ => ?_
  -- A pre-commit certificate, then perhaps a commit certificate.
  · refine Keeps.gives_bind keeps_callTEEsign wary fun _ _ wary => ?_
    refine Keeps.gives_bind keeps_callTEEsign wary fun _ _ wary => ?_
    refine Keeps.gives_bind keeps_respondToPreCommitJust wary fun _ _ wary => ?_
    rw [gives_bind, gives_this]
    refine gives_ite (fun _ => ?_) fun _ => wary
    exact Keeps.gives_bind (keeps_ofOption _) wary fun _ _ wary =>
      keeps_executeRData nextKept _ wary
  -- A prepare certificate.
  · refine Keeps.gives_bind keeps_callTEEsign wary fun _ _ wary => ?_
    exact keeps_respondToPrepareJust _ wary
  -- A proposal, which was checked when it was received.
  · split
    · rename_i msg held
      refine gives_ite (fun _ => ?_) fun _ => wary
      obtain ⟨known, checked⟩ := wary.proposals (Messages.mem_of_first held)
      exact respondToProposal_wary wary known checked
    · exact wary

theorem keeps_handleNewview (positive : 0 < cfg.qsize)
    (nextKept : Keeps (Wary cfg p received) next) {msg : MsgNewView} :
    Keeps (Wary cfg p received) (handleNewview cfg next msg) := by
  intro l wary
  simp only [handleNewview, gives_bind, gives_this, Bool.and_eq_true, beq_iff_eq,
    decide_eq_true_eq, Config.amLeaderOf_iff, wary.myid]
  refine gives_ite (fun heeded => ?_) fun _ => wary
  have leads := heeded.2
  have stored := wary.storeNv msg
  simp only [gives_bind, gives_storeNv]
  -- The report is for the view the node is in, and completes the quorum.
  refine gives_ite (fun quorum => ?_) fun _ => stored
  obtain ⟨counted, here⟩ := quorum
  refine prepare_wary nextKept stored (here ▸ leads) ?_
  -- The count shows that the message is held now.
  rw [← here, ← List.length_pos_iff_ne_nil, Log.length_storeNv positive counted]
  exact positive

/-- A received proposal is answered or stored only after it has been checked. -/
theorem keeps_handleLdrPrepare {msg : MsgLdrPrepare} (known : received msg) :
    Keeps (Wary cfg p received) (handleLdrPrepare cfg msg) := by
  intro l wary
  cases tagged : msg.prop.just.getRData with
  | none =>
    simp only [handleLdrPrepare, tagged, gives_bind, gives_this, gives_ofOption_none]
    exact wary
  | some rd =>
    have branch := @handleLdrPrepare_eq _ cfg msg rd tagged l
    unfold Gives
    rw [branch]
    change Gives _ (fun _ => Wary cfg p received) (Wary cfg p received) l
    refine gives_ite (fun checks => ?_) fun _ => wary
    simp only [Bool.and_eq_true, decide_eq_true_eq] at checks
    have checked : Checked cfg msg rd.propv := ⟨rd, tagged, rfl, checks.1.2⟩
    refine gives_ite (fun _ => respondToProposal_wary wary known ⟨_, checked⟩) fun _ => ?_
    -- A proposal of a later view waits in the log, checked as it is.
    simp only [storeProp, gives_bind, gives_this, Log.storeProp, tagged, gives_ofOption_some,
      gives_modify]
    exact
      { wary with
        proposals := fun member => by
          rcases Messages.mem_store member with old | ⟨rfl, rfl⟩
          · exact wary.proposals old
          · exact ⟨known, _, checked⟩ }

theorem keeps_handlePrepare (nextKept : Keeps (Wary cfg p received) next) {msg : MsgPrepare} :
    Keeps (Wary cfg p received) (handlePrepare cfg next msg) := by
  apply keeps_this.bind
  intro h
  refine keeps_ite (fun _ => ?_) fun _ => ?_
  · apply Keeps.bind (fun _ wary => wary)
    intro leads
    refine keeps_ite (fun _ => ?_) fun _ => keeps_ite (fun _ => ?_) fun _ => keeps_pure ()
    · apply keeps_storePrep.bind
      intro count
      exact keeps_ite (fun _ => keeps_initiatePrepare nextKept) fun _ => keeps_pure ()
    · exact keeps_respondToPrepareJust
  · exact keeps_ite (fun _ => keeps_storePrep.bind fun _ => keeps_pure ()) fun _ => keeps_pure ()

theorem keeps_handlePrecommit (nextKept : Keeps (Wary cfg p received) next)
    {msg : MsgPreCommit} : Keeps (Wary cfg p received) (handlePrecommit cfg next msg) := by
  apply keeps_this.bind
  intro h
  refine keeps_ite (fun _ => ?_) fun _ => ?_
  · apply Keeps.bind (fun _ wary => wary)
    intro leads
    refine keeps_ite (fun _ => ?_) fun _ => keeps_ite (fun _ => ?_) fun _ => keeps_pure ()
    · apply keeps_storePc.bind
      intro count
      exact keeps_ite (fun _ => keeps_initiatePrecommit nextKept) fun _ => keeps_pure ()
    · exact keeps_respondToPreCommitJust
  · exact keeps_ite (fun _ => keeps_storePc.bind fun _ => keeps_pure ()) fun _ => keeps_pure ()

theorem keeps_handleCommit (nextKept : Keeps (Wary cfg p received) next) {msg : MsgCommit} :
    Keeps (Wary cfg p received) (handleCommit cfg next msg) := by
  have storing : Keeps (Wary cfg p received) (do let _ ← storeCom msg) :=
    keeps_storeCom.bind fun _ => keeps_pure ()
  apply keeps_this.bind
  intro h
  refine keeps_ite (fun _ => ?_) fun _ => ?_
  · apply Keeps.bind (fun _ wary => wary)
    intro leads
    refine keeps_ite (fun _ => ?_) fun _ => keeps_ite (fun _ => ?_) fun _ => keeps_pure ()
    · apply keeps_storeCom.bind
      intro count
      exact keeps_ite (fun _ => keeps_initiateCommit nextKept) fun _ => keeps_pure ()
    · exact keeps_executeRData nextKept
  · refine keeps_ite (fun _ => ?_) fun _ => keeps_pure ()
    exact keeps_ite (fun _ => storing) fun _ => keeps_ite (fun _ => storing) fun _ => keeps_pure ()

theorem keeps_signUntil (rounds : Nat) (view : View) :
    Keeps (Wary cfg p received) (signUntil rounds view) := by
  induction rounds with
  | zero => exact keeps_halt
  | succ rounds ih =>
    apply keeps_callTEEsign.bind
    intro just
    apply (keeps_ofOption _).bind
    intro rdata
    exact keeps_ite (fun _ => ih) fun _ => keeps_pure just

/-- Entering views, from within each other as deep as it may be, makes for no other votes. -/
theorem keeps_startNewView (positive : 0 < cfg.qsize) (depth : Nat) :
    Keeps (Wary cfg p received) (startNewView cfg depth) := by
  induction depth with
  | zero => exact keeps_halt
  | succ depth ih =>
    apply keeps_this.bind
    intro h
    apply (keeps_signUntil _ _).bind
    intro just
    apply Keeps.bind (keeps_modify fun _ wary => wary.node rfl rfl rfl)
    intro _
    apply keeps_setTimer.bind
    intro _
    apply (keeps_ofOption _).bind
    intro rdata
    apply keeps_this.bind
    intro h
    refine keeps_ite (fun _ => ?_) fun _ => keeps_note fun _ wary => wary.event (by simp)
    apply Keeps.bind (keeps_note fun _ wary => wary.event (by simp))
    intro _
    apply Keeps.bind (fun _ wary => wary)
    intro leads
    refine keeps_ite (fun _ => ?_) fun _ => ?_
    -- The leader goes through what it holds, and then hands its own report to itself.
    · apply (keeps_handleEarlierMessages positive ih).bind
      exact fun _ => keeps_handleNewview positive ih
    · exact keeps_send.bind fun _ => keeps_handleEarlierMessages positive ih

theorem keeps_getStarted (positive : 0 < cfg.qsize) (depth : Nat) :
    Keeps (Wary cfg p received) (getStarted cfg depth) := by
  apply keeps_callTEEsign.bind
  intro just
  apply (keeps_ofOption _).bind
  intro rdata
  apply keeps_this.bind
  intro h
  have rest : Keeps (Wary cfg p received)
      (sendNewview cfg (startNewView cfg depth) ⟨rdata, just.signs⟩
        (cfg.keep_from_peers h.myid (cfg.getLeaderOf h.view))) := by
    apply Keeps.bind (fun _ wary => wary)
    intro leads
    exact keeps_ite
      (fun _ => keeps_handleNewview positive (keeps_startNewView positive depth))
      fun _ => keeps_send
  have noted : Keeps (Wary cfg p received) (note (.newview h.myid rdata) : M Unit) :=
    keeps_note fun _ wary => wary.event (by simp)
  exact keeps_ite (fun _ => noted.bind fun _ => rest) fun _ => rest

/-- Whatever happens to a node, it stays wary, if the proposals it receives are known. -/
theorem keeps_answer (positive : 0 < cfg.qsize) (depth : Nat)
    {stimulus : Stimulus MsgBasic Input}
    (known : ∀ m, stimulus = .message (.ldrPrepare m) → received m) :
    Keeps (Wary cfg p received) ((protocol cfg depth).answer stimulus) := by
  have nextKept : Keeps (Wary cfg p received) (startNewView cfg depth) :=
    keeps_startNewView positive depth
  cases stimulus with
  | message msg =>
    cases msg with
    | newView m => exact keeps_handleNewview positive nextKept
    | ldrPrepare m => exact keeps_handleLdrPrepare (known m rfl)
    | prepare m => exact keeps_handlePrepare nextKept
    | preCommit m => exact keeps_handlePrecommit nextKept
    | commit m => exact keeps_handleCommit nextKept
  | input i =>
    cases i with
    | start cid =>
      apply keeps_this.bind
      intro h
      -- Only the first client that says so starts the node.
      have begun : Keeps (Wary cfg p received) (do
          if !h.started then
            modify fun h => { h with started := true }
            getStarted cfg depth) := by
        refine keeps_ite (fun _ => ?_) fun _ => keeps_pure ()
        apply Keeps.bind (keeps_modify fun _ wary => wary.node rfl rfl rfl)
        exact fun _ => keeps_getStarted positive depth
      refine keeps_ite (fun _ => ?_) fun _ => begun
      exact Keeps.bind (keeps_modify fun _ wary => wary.node rfl rfl rfl) fun _ => begun
    | transaction trans =>
      apply keeps_this.bind
      intro h
      split
      · exact keeps_modify fun _ wary => wary.node rfl rfl rfl
      · exact keeps_pure ()
    | timeout =>
      apply keeps_this.bind
      intro h
      refine keeps_ite (fun _ => ?_) fun _ => keeps_pure ()
      exact keeps_ite (fun _ => keeps_halt) fun _ => nextKept

/-- Whatever happens to a node, its votes as a backup are for checked proposals it received. -/
theorem voted_received (positive : 0 < cfg.qsize) (depth : Nat) (p : PID)
    (stimuli : List (Stimulus MsgBasic Input)) {q : PID} {r : RData} {block : Block}
    {lockh : Hash} {lockv : View}
    (voted : BasicEvent.voted q r block lockh lockv
      ∈ ((protocol cfg depth).serve stimuli ⟨init cfg p, [], []⟩).state.history)
    (backup : cfg.getLeaderOf r.propv ≠ p) :
    ∃ m, Stimulus.message (.ldrPrepare m) ∈ stimuli ∧ m.prop.block = block
      ∧ Checked cfg m r.propv := by
  have start : Wary cfg p (fun m => Stimulus.message (.ldrPrepare m) ∈ stimuli)
      ⟨init cfg p, [], []⟩ :=
    { myid := rfl
      newviews := by simp [init, Log.empty]
      proposals := by simp [init, Log.empty]
      votes := by simp }
  have kept : Keeps (Wary cfg p fun m => Stimulus.message (.ldrPrepare m) ∈ stimuli)
      ((protocol cfg depth).serve stimuli) :=
    Protocol.keeps_serve fun stimulus member =>
      keeps_answer positive depth fun m same => same ▸ member
  -- A vote is for a received block or in a view the node leads, and it does not lead this one.
  exact ((kept.state start).votes voted).resolve_left backup

end Runs

end Handler

end ParaHotstuff
