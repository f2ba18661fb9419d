import ParaHotstuff.Handler.Chained
import ParaHotstuff.Proofs.Votes

/-! Which proposals a node of the chained protocol votes for, whoever sends them. -/

namespace ParaHotstuff

namespace HandlerCh

open Program Local

variable [Hashing] [SignatureBytes] (cfg : Config)

/-- A proposal whose signature verifies on the statement it is to be signed on. -/
def Checked (msg : MsgLdrPrepareCh) : Prop :=
  (ldrPrepareCh2just msg).signs.verify cfg.nodes (ldrPrepareCh2just msg).rdata.toString = true

/-- A proposal that carries a valid signature of the leader of its view on its statement. -/
def FromLeader (msg : MsgLdrPrepareCh) : Prop :=
  Signs.SignedBy cfg.nodes (cfg.getLeaderOf msg.block.view)
    (ldrPrepareCh2just msg).rdata.toString (ldrPrepareCh2just msg).signs

omit [Hashing] [SignatureBytes] in
/-- A proposal that names the leader of its view as its signer. -/
def NamesLeader (msg : MsgLdrPrepareCh) : Prop :=
  msg.sign.signer = cfg.getLeaderOf msg.block.view

/-- If a node votes in a program for the proposed block, the leader of its view has signed it. -/
def Authenticated (program : M Unit) (h : HandlerCh) (msg : MsgLdrPrepareCh) : Prop :=
  ∀ sent q r, ChEvent.voted q r msg.block ∈ (program ⟨h, sent, []⟩).state.history →
    FromLeader cfg msg

/-- Whether the component signs a vote for a block that the node takes up. -/
def votesFor (h : HandlerCh) (block : JBlock) : Bool :=
  let jblocks := h.jblocks.insert h.view block
  match jblocks.lookup block.just.getCView with
  | some block0 =>
    match jblocks.lookup block0.just.getCView with
    | some block1 =>
      h.tp.checks cfg.nodes block block0
        && (h.tp.storeChain block.just block0.just block0 block1).safeNode block.just
    | none => false
  | none => false

/-- Whether a node votes for a proposal as soon as it arrives. -/
def votesAtOnce (h : HandlerCh) (msg : MsgLdrPrepareCh) : Bool :=
  !maxViewsReached cfg h.view && !cfg.amLeaderOf h.myid msg.block.view
    && (ldrPrepareCh2just msg).signs.verify cfg.nodes (ldrPrepareCh2just msg).rdata.toString
    && votesFor cfg h msg.block

/-- Whether a node votes for a proposal it finds in its log. -/
def votesLater (h : HandlerCh) (msg : MsgLdrPrepareCh) : Bool :=
  msg.sign.set && (h.jblocks.lookup h.view).isNone && votesFor cfg h msg.block

omit [Hashing] [SignatureBytes] in
/-- The proposal a backup finds in its log for its view. -/
def found (h : HandlerCh) : Option MsgLdrPrepareCh :=
  if cfg.amLeaderOf h.myid h.view then none else h.log.firstLdrPrepareCh h.view

/-- A proposal that was put into the log of a node when it arrived there. -/
def TakenIn (msg : MsgLdrPrepareCh) : Prop :=
  ∃ depth h sent v, msg ∉ h.log.ldrpreparesCh.held v
    ∧ msg ∈ (handleLdrPrepareCh cfg depth msg ⟨h, sent, []⟩).state.node.log.ldrpreparesCh.held v

variable {cfg} in
/-- A checked proposal comes from the leader exactly if it names the leader. -/
theorem Checked.fromLeader_iff {msg : MsgLdrPrepareCh} (checked : Checked cfg msg) :
    FromLeader cfg msg ↔ NamesLeader cfg msg := by
  rw [FromLeader, Signs.signedBy_of_verify checked]
  -- A proposal carries a single signature, so its signer is the one that is named.
  simp only [ldrPrepareCh2just, Just.signs_ofRData, Signs.getSigners, List.map_cons,
    List.map_nil, List.mem_singleton]
  exact eq_comm

section Runs

variable (p : PID) (allowed : JBlock → Prop) (noted : List ChEvent)

/-- What holds of a node that is to vote for allowed blocks only, and that noted some events. -/
structure Wary (l : State) : Prop where
  myid : l.node.myid = p
  proposals : ∀ {v m}, m ∈ l.node.log.ldrpreparesCh.held v → allowed m.block
  votes : ∀ {q r block}, ChEvent.voted q r block ∈ l.history →
    cfg.getLeaderOf block.view = p ∨ allowed block
  noted : ∀ e ∈ noted, e ∈ l.history

variable {cfg p allowed noted} {l : State} {voteNext : JBlock → M Unit}

omit [Hashing] [SignatureBytes]

/-- Only the proposals in the log matter. -/
theorem Wary.node (wary : Wary cfg p allowed noted l) {h : HandlerCh}
    (myid : h.myid = l.node.myid) (proposals : h.log.ldrpreparesCh = l.node.log.ldrpreparesCh) :
    Wary cfg p allowed noted { l with node := h } where
  myid := myid.trans wary.myid
  proposals := fun member => wary.proposals (proposals ▸ member)
  votes := wary.votes
  noted := wary.noted

/-- A vote for an allowed block, or in a view the node leads, may be noted. -/
theorem Wary.vote (wary : Wary cfg p allowed noted l) {q : PID} {r : RData} {block : JBlock}
    (fine : cfg.getLeaderOf block.view = p ∨ allowed block) :
    Wary cfg p allowed (.voted q r block :: noted)
      { l with history := .voted q r block :: l.history } :=
  { wary with
    votes := fun member => by
      rcases List.mem_cons.1 member with new | old
      · cases new
        exact fine
      · exact wary.votes old
    noted := fun e member => by
      rcases List.mem_cons.1 member with new | old
      · exact new ▸ List.mem_cons_self
      · exact List.mem_cons_of_mem _ (wary.noted e old) }

theorem Wary.execute (wary : Wary cfg p allowed noted l) {q : PID} {block : JBlock} :
    Wary cfg p allowed noted { l with history := .executed q block :: l.history } :=
  { wary with
    votes := fun member => wary.votes (by simpa using member)
    noted := fun e member => List.mem_cons_of_mem _ (wary.noted e member) }

theorem keeps_noteView : Keeps (Wary cfg p allowed noted) noteView := by
  apply keeps_this.bind
  intro h
  -- Entering a view is no vote.
  refine keeps_note fun l wary => { wary with votes := ?_, noted := ?_ }
  · exact fun member => wary.votes (by simpa using member)
  · exact fun e member => List.mem_cons_of_mem _ (wary.noted e member)

theorem keeps_send {msg : MsgCh} {recipients : List PID} :
    Keeps (Wary cfg p allowed noted) (multicast_msg msg recipients : M Unit) :=
  keeps_multicast fun _ _ wary => { wary with }

theorem keeps_setTimer : Keeps (Wary cfg p allowed noted) setTimer :=
  keeps_modify fun _ wary => wary.node rfl rfl

theorem keeps_callTEEsignCh : Keeps (Wary cfg p allowed noted) callTEEsignCh := by
  apply keeps_this.bind
  intro h
  exact (keeps_modify fun _ wary => wary.node rfl rfl).bind fun _ => keeps_pure _

theorem keeps_storeNvCh {msg : MsgNewViewCh} :
    Keeps (Wary cfg p allowed noted) (storeNvCh msg) :=
  fun _ wary => wary.node rfl rfl

theorem keeps_storePrepCh {msg : MsgPrepareCh} :
    Keeps (Wary cfg p allowed noted) (storePrepCh msg) :=
  fun _ wary => wary.node rfl rfl

/-- Proposals of allowed blocks may be stored. -/
theorem keeps_storeLdrPrepCh {msg : MsgLdrPrepareCh} (fine : allowed msg.block) :
    Keeps (Wary cfg p allowed noted) (storeLdrPrepCh msg) := fun _ wary =>
  { wary with
    proposals := fun member => by
      rcases Messages.mem_store member with old | ⟨rfl, rfl⟩
      · exact wary.proposals old
      · exact fine }

theorem keeps_executeAllCh (blocks : List JBlock) :
    Keeps (Wary cfg p allowed noted) (executeAllCh blocks) := by
  induction blocks with
  | nil => exact keeps_pure ()
  | cons block blocks ih =>
    apply Keeps.bind _ fun _ => ih
    apply keeps_this.bind
    intro h
    apply Keeps.bind (keeps_note fun _ wary => wary.execute)
    exact fun _ => keeps_modify fun _ wary => wary.node rfl rfl

theorem keeps_tryExecuteCh (block block0 block1 : JBlock) :
    Keeps (Wary cfg p allowed noted) (tryExecuteCh block block0 block1) := by
  apply keeps_this.bind
  intro h
  refine keeps_ite (fun _ => ?_) fun _ => keeps_pure ()
  exact (keeps_ofOption _).bind fun blocks => keeps_executeAllCh blocks

theorem keeps_passNvCh {msg : MsgNewViewCh} :
    Keeps (Wary cfg p allowed noted) (passNvCh cfg msg) := by
  apply keeps_this.bind
  intro h
  exact keeps_ite (fun _ => keeps_storeNvCh.bind fun _ => keeps_pure ()) fun _ => keeps_send

theorem keeps_passPrepCh {block : JBlock} {rdata : RData} {sign : Sign} :
    Keeps (Wary cfg p allowed noted) (passPrepCh cfg block rdata sign) := by
  apply keeps_this.bind
  intro h
  refine keeps_ite (fun _ => keeps_send) fun _ => ?_
  exact keeps_ite (fun _ => keeps_storePrepCh.bind fun _ => keeps_pure ()) fun _ => keeps_send

section Voting

-- What is known of the votes that views entered later lead to.
variable (voting : ∀ block, cfg.getLeaderOf block.view = p ∨ allowed block →
  Keeps (Wary cfg p allowed noted) (voteNext block))
include voting

/-- A leader takes up a block of its own view. -/
theorem prepareCh_wary (wary : Wary cfg p allowed noted l)
    (leads : cfg.getLeaderOf l.node.view = p) :
    (prepareCh cfg voteNext).Gives (fun _ => Wary cfg p allowed noted) (Wary cfg p allowed noted)
      l := by
  -- Whichever justification is taken, the block proposed is of the view the node leads.
  have propose : ∀ l', Wary cfg p allowed noted l' → l'.node.view = l.node.view →
      (do let block ← createNewBlockCh cfg; voteNext block : M Unit).Gives
        (fun _ => Wary cfg p allowed noted) (Wary cfg p allowed noted) l' := by
    intro l' wary' same
    simp only [createNewBlockCh, gives_bind, gives_this, gives_modify, gives_pure]
    have filled := wary'.node (h := { l'.node with
      transactions := l'.node.transactions.drop cfg.maxNumTransactions }) rfl rfl
    refine voting _ (.inl ?_) _ filled
    change cfg.getLeaderOf l'.node.view = p
    rw [same, leads]
  unfold prepareCh selectJustCh
  rw [gives_bind, gives_bind, gives_this, gives_bind]
  refine gives_ofOption (fun rdata _ => ?_) fun _ => wary
  -- The justification is replaced, or the one held is kept.
  refine gives_ite (fun _ => ?_) fun _ => propose l wary rfl
  exact propose _ (wary.node rfl rfl) rfl

/-- The leader of the next view may begin it. -/
theorem checkNewJustCh_wary (wary : Wary cfg p allowed noted l) {data : RData}
    (leads : cfg.getLeaderOf (nextView l.node.view) = p) :
    (checkNewJustCh cfg voteNext data).Gives (fun _ => Wary cfg p allowed noted)
      (Wary cfg p allowed noted) l := by
  unfold checkNewJustCh
  rw [gives_bind, gives_this]
  refine gives_ite (fun _ => ?_) fun _ => wary
  rw [gives_bind, gives_modify, gives_bind]
  have entered := wary.node (h := { l.node with
    justNV := Just.ofRData data (l.node.log.getPrepareCh data.propv cfg.qsize)
    view := nextView l.node.view }) rfl rfl
  have noted := gives_noteView.1 (keeps_noteView _ entered)
  rw [gives_noteView, gives_bind]
  exact prepareCh_wary voting (noted.node rfl rfl) leads

/-- Earlier messages make a backup vote for a stored proposal. -/
theorem keeps_handleEarlierMessagesCh :
    Keeps (Wary cfg p allowed noted) (handleEarlierMessagesCh cfg voteNext) := by
  intro l wary
  unfold handleEarlierMessagesCh
  rw [gives_bind, gives_this]
  refine gives_ite (fun _ => wary) fun _ => ?_
  split
  · rename_i msg held
    refine gives_ite (fun _ => ?_) fun _ => wary
    -- What the log holds are allowed blocks.
    exact voting _ (.inr (wary.proposals (Messages.mem_of_first held))) l wary
  · exact wary

theorem keeps_leaveViewCh {rdata : RData} :
    Keeps (Wary cfg p allowed noted) (leaveViewCh cfg voteNext rdata) := by
  intro l wary
  unfold leaveViewCh
  rw [gives_bind, gives_this]
  refine gives_ite (fun leads => ?_) fun _ => ?_
  · rw [Config.amLeaderOf_iff, wary.myid] at leads
    exact checkNewJustCh_wary voting wary leads
  · rw [gives_bind, gives_modify, gives_bind]
    have entered := wary.node (h := { l.node with view := nextView l.node.view }) rfl rfl
    have noted := gives_noteView.1 (keeps_noteView _ entered)
    rw [gives_noteView, gives_bind]
    exact keeps_handleEarlierMessagesCh voting _ (noted.node rfl rfl)

end Voting

/-- More noted events are noted events. -/
theorem Wary.weaken {e : ChEvent} (wary : Wary cfg p allowed (e :: noted) l) :
    Wary cfg p allowed noted l :=
  { wary with noted := fun e' member => wary.noted e' (List.mem_cons_of_mem _ member) }

end Runs

section Votes

variable {cfg} {p : PID} {allowed : JBlock → Prop} {noted : List ChEvent} {l : State}

/-- Taking up a block the component does not sign changes nothing but the own state. -/
theorem voteCh_refused {depth : Nat} {block : JBlock} (refused : votesFor cfg l.node block = false)
    {post : State → Prop} (same : ∀ h : HandlerCh, h.myid = l.node.myid → h.log = l.node.log →
      post { l with node := h }) :
    (voteCh cfg (depth + 1) block).Gives (fun _ => post) post l := by
  simp only [voteCh, gives_bind, gives_modify, gives_this]
  unfold votesFor at refused
  split
  · rename_i block0 found0
    simp only [found0] at refused
    split
    · rename_i block1 found1
      simp only [found1, Bool.and_eq_false_iff] at refused
      simp only [callTEEprepareCh, gives_bind, gives_this]
      rcases l.node.tp.TEEprepare_cases cfg.nodes block block0 block1 with
        ⟨_, thrown | unset⟩ | ⟨passed, ⟨_, unset⟩ | ⟨safe, _⟩⟩
      -- The component throws on a justification of the other kind.
      · rw [thrown]
        exact same _ rfl rfl
      · rw [unset]
        exact same _ rfl rfl
      · rw [unset]
        exact same _ rfl rfl
      -- It signs, which it was not to do.
      · simp [passed, safe] at refused
    · exact same _ rfl rfl
  · exact same _ rfl rfl

/-- Taking up a block the component signs notes a vote, whatever comes after it. -/
theorem voteCh_voted {depth : Nat} {block : JBlock} (wary : Wary cfg p allowed noted l)
    (fine : cfg.getLeaderOf block.view = p ∨ allowed block)
    (voting : ∀ (noted : List ChEvent) (block : JBlock),
      cfg.getLeaderOf block.view = p ∨ allowed block →
        Keeps (Wary cfg p allowed noted) (voteCh cfg depth block))
    (votes : votesFor cfg l.node block = true) :
    (voteCh cfg (depth + 1) block).Gives
      (fun _ l' => ∃ r, Wary cfg p allowed (.voted l.node.myid r block :: noted) l')
      (fun l' => ∃ r, Wary cfg p allowed (.voted l.node.myid r block :: noted) l') l := by
  -- What follows the vote keeps it in the history.
  have rest : ∀ (block0 block1 : JBlock) (r : RData) (sign : Sign) (msgNv : MsgNewViewCh)
      (l' : State), Wary cfg p allowed (.voted l.node.myid r block :: noted) l' →
      (do
        passPrepCh cfg block r sign
        passNvCh cfg msgNv
        tryExecuteCh block block0 block1
        leaveViewCh cfg (voteCh cfg depth) r : M Unit).Gives
        (fun _ l'' => ∃ r, Wary cfg p allowed (.voted l.node.myid r block :: noted) l'')
        (fun l'' => ∃ r, Wary cfg p allowed (.voted l.node.myid r block :: noted) l'') l' := by
    intro block0 block1 r sign msgNv l' wary'
    have kept : Keeps (Wary cfg p allowed (.voted l.node.myid r block :: noted)) (do
        passPrepCh cfg block r sign
        passNvCh cfg msgNv
        tryExecuteCh block block0 block1
        leaveViewCh cfg (voteCh cfg depth) r : M Unit) := by
      -- What comes after the vote notes more events, and forgets none.
      apply keeps_passPrepCh.bind
      intro _
      apply keeps_passNvCh.bind
      intro _
      apply (keeps_tryExecuteCh block block0 block1).bind
      intro _
      exact keeps_leaveViewCh (voting _)
    exact (kept l' wary').mono (fun _ _ wary => ⟨r, wary⟩) fun _ wary => ⟨r, wary⟩
  simp only [voteCh, gives_bind, gives_modify, gives_this]
  unfold votesFor at votes
  split
  swap
  · rename_i missing
    simp [missing] at votes
  rename_i block0 found0
  simp only [found0] at votes
  split
  swap
  · rename_i missing
    simp [missing] at votes
  rename_i block1 found1
  simp only [found1, Bool.and_eq_true] at votes
  simp only [callTEEprepareCh, gives_bind, gives_this]
  rcases l.node.tp.TEEprepare_cases cfg.nodes block block0 block1 with
    ⟨failed, _⟩ | ⟨_, ⟨unsafe', _⟩ | ⟨_, signed⟩⟩
  · simp [failed] at votes
  · simp [unsafe'] at votes
  rw [signed]
  simp only [gives_ofOption_some, gives_modify, gives_pure, TrustedCh.sign, Just.signs_ofRData,
    Just.getRData_ofRData, gives_bind, gives_note, callTEEsignCh, gives_this, TrustedCh.TEEsign]
  simp only [gives_bind] at rest
  refine rest block0 block1 _ _ _ _ ?_
  exact { (wary.node (h := { l.node with
    jblocks := l.node.jblocks.insert l.node.view block
    tp := (l.node.tp.storeChain block.just block0.just block0 block1).increment.increment })
    rfl rfl).vote fine with }

/-- Voting for allowed blocks, or in views the node leads, is all that taking up blocks does. -/
theorem keeps_voteCh (depth : Nat) (noted : List ChEvent) (block : JBlock)
    (fine : cfg.getLeaderOf block.view = p ∨ allowed block) :
    Keeps (Wary cfg p allowed noted) (voteCh cfg depth block) := by
  induction depth generalizing noted block with
  | zero => exact keeps_halt
  | succ depth ih =>
    intro l wary
    cases votes : votesFor cfg l.node block with
    | false => exact voteCh_refused votes fun h myid log => wary.node myid (congrArg _ log)
    | true =>
      exact (voteCh_voted wary fine ih votes).mono (fun _ _ ⟨_, after⟩ => after.weaken)
        fun _ ⟨_, after⟩ => after.weaken

end Votes

section OneProposal

variable {cfg} {msg : MsgLdrPrepareCh} {h : HandlerCh} {depth : Nat}

omit [Hashing] [SignatureBytes] in
/-- Nothing is asked of a node that is to vote for any block, and that has noted nothing yet. -/
theorem wary_any (h : HandlerCh) (sent : List (Packet MsgCh)) :
    Wary cfg h.myid (fun _ => True) [] ⟨h, sent, []⟩ where
  myid := rfl
  proposals := fun _ => trivial
  votes := fun _ => .inr trivial
  noted := by simp

/-- If a node takes up a checked block, the leader has signed it exactly if it is named. -/
theorem voteCh_authenticated (checked : Checked cfg msg) :
    Authenticated cfg (voteCh cfg (depth + 1) msg.block) h msg
      ↔ (votesFor cfg h msg.block = true → NamesLeader cfg msg) := by
  constructor
  · intro authenticated votes
    -- The node is asked nothing else, so the vote it notes is for this block.
    have voted := (voteCh_voted (wary_any h []) (.inr trivial)
      (fun noted block fine => keeps_voteCh depth noted block fine) votes).state
    obtain ⟨r, after⟩ := voted
    exact checked.fromLeader_iff.1 (authenticated [] _ _ (after.noted _ List.mem_cons_self))
  · intro names sent q r member
    -- A block that the component does not sign leads to no vote.
    cases votes : votesFor cfg h msg.block with
    | true => exact checked.fromLeader_iff.2 (names votes)
    | false =>
      have quiet : (voteCh cfg (depth + 1) msg.block).Gives (fun _ l' => l'.history = [])
          (fun l' => l'.history = []) ⟨h, sent, []⟩ :=
        @voteCh_refused _ _ cfg ⟨h, sent, []⟩ depth msg.block votes (·.history = [])
          fun _ _ _ => rfl
      have quiet := quiet.state
      simp [quiet] at member

omit [Hashing] [SignatureBytes] in
/-- Counting a proposal as a vote changes the log of votes, and nothing else. -/
theorem keepPrepCh_eq (v : View) (m : MsgPrepareCh) (h : HandlerCh) : ∃ h', h'.myid = h.myid
    ∧ h'.view = h.view ∧ h'.jblocks = h.jblocks ∧ h'.tp = h.tp
    ∧ h'.log.ldrpreparesCh = h.log.ldrpreparesCh
    ∧ ∀ sent, keepPrepCh cfg v m ⟨h, sent, []⟩ = .done () ⟨h', sent, []⟩ := by
  by_cases leads : cfg.amLeaderOf h.myid (nextView v) = true
  · refine ⟨{ h with log := (h.log.storePrepCh m).2 }, rfl, rfl, rfl, rfl, rfl, fun sent => ?_⟩
    change (if _ then _ else _ : M Unit) _ = _
    rw [if_pos leads]
    rfl
  · refine ⟨h, rfl, rfl, rfl, rfl, rfl, fun sent => ?_⟩
    change (if _ then _ else _ : M Unit) _ = _
    rw [if_neg leads]
    rfl

/-- A proposal that does not pass the handler's checks changes nothing. -/
theorem handleLdrPrepareCh_ignored {l : State}
    (failed : (!maxViewsReached cfg l.node.view && (decide (l.node.view ≤ msg.block.view)
      && !cfg.amLeaderOf l.node.myid msg.block.view
      && (ldrPrepareCh2just msg).signs.verify cfg.nodes (ldrPrepareCh2just msg).rdata.toString)) = false) :
    handleLdrPrepareCh cfg depth msg l = .done () l := by
  change (if maxViewsReached cfg l.node.view then pure () else _ : M Unit) l = _
  -- Either the last view has been reached, or one of the checks fails.
  by_cases last : maxViewsReached cfg l.node.view = true
  · rw [if_pos last]
    rfl
  · rw [if_neg last]
    simp only [last, Bool.not_false, Bool.true_and] at failed
    change (if _ then _ else pure () : M Unit) l = _
    rw [if_neg (by rw [Bool.not_eq_true]; exact failed)]
    rfl

/-- A proposal of the current view that passes the checks is counted, and taken up. -/
theorem handleLdrPrepareCh_taken {l : State} (last : maxViewsReached cfg l.node.view = false)
    (now : msg.block.view = l.node.view)
    (backup : cfg.amLeaderOf l.node.myid msg.block.view = false) (checked : Checked cfg msg) :
    handleLdrPrepareCh cfg depth msg l
      = (do
        keepPrepCh cfg msg.block.view ⟨(ldrPrepareCh2just msg).rdata, msg.sign⟩
        voteCh cfg depth msg.block : M Unit) l := by
  have checks : (decide (l.node.view ≤ msg.block.view)
      && !cfg.amLeaderOf l.node.myid msg.block.view
      && (ldrPrepareCh2just msg).signs.verify cfg.nodes (ldrPrepareCh2just msg).rdata.toString) = true := by
    simp [now ▸ backup, now, show Signs.verify _ _ _ = true from checked]
  change (if maxViewsReached cfg l.node.view then pure () else _ : M Unit) l = _
  rw [if_neg (by simp [last])]
  change (if _ then _ else pure () : M Unit) l = _
  rw [if_pos checks]
  have here : (msg.block.view == l.node.view) = true := by simp [now]
  simp only [here, if_true]

/-- A node that votes for a proposal at once has the leader's signature exactly if it is named. -/
theorem handleLdrPrepareCh_authenticated (now : msg.block.view = h.view) :
    Authenticated cfg (handleLdrPrepareCh cfg (depth + 1) msg) h msg
      ↔ (votesAtOnce cfg h msg = true → NamesLeader cfg msg) := by
  by_cases checks : (maxViewsReached cfg h.view = false
      ∧ cfg.amLeaderOf h.myid msg.block.view = false) ∧ Checked cfg msg
  · obtain ⟨⟨last, backup⟩, checked⟩ := checks
    obtain ⟨h', myid, view, jblocks, tp, -, kept⟩ := @keepPrepCh_eq cfg msg.block.view
      ⟨(ldrPrepareCh2just msg).rdata, msg.sign⟩ h
    -- Counting the proposal touches neither the blocks nor the component.
    have same : votesFor cfg h' msg.block = votesFor cfg h msg.block := by
      simp only [votesFor, view, jblocks, tp]
    have branch : ∀ sent, handleLdrPrepareCh cfg (depth + 1) msg ⟨h, sent, []⟩
        = voteCh cfg (depth + 1) msg.block ⟨h', sent, []⟩ := by
      intro sent
      rw [handleLdrPrepareCh_taken last now backup checked]
      change andThen _ _ _ = _
      simp only [andThen, kept]
    have voting := @voteCh_authenticated _ _ cfg msg h' depth checked
    simp only [Authenticated, branch] at voting ⊢
    rw [voting, same]
    simp [votesAtOnce, last, backup, show Signs.verify _ _ _ = true from checked]
  -- The proposal is ignored, and there is no vote on either side.
  · have failed : votesAtOnce cfg h msg = false := by
      rw [Bool.eq_false_iff]
      intro votes
      simp only [votesAtOnce, Bool.and_eq_true, Bool.not_eq_true'] at votes
      exact checks ⟨votes.1.1, votes.1.2⟩
    have ignored : Authenticated cfg (handleLdrPrepareCh cfg (depth + 1) msg) h msg := by
      intro sent q r member
      rw [handleLdrPrepareCh_ignored] at member
      · simp [Outcome.state] at member
      · rw [Bool.eq_false_iff]
        intro passed
        simp only [Bool.and_eq_true, Bool.not_eq_true'] at passed
        exact checks ⟨⟨passed.1, passed.2.1.2⟩, passed.2.2⟩
    simp [ignored, failed]

/-- A proposal is put into a log only if its signature verifies. -/
theorem TakenIn.checked (taken : TakenIn cfg msg) : Checked cfg msg := by
  obtain ⟨depth, h, sent, v, absent, present⟩ := taken
  -- A proposal that fails the check leaves the log as it was.
  by_contra failed
  rw [handleLdrPrepareCh_ignored] at present
  · exact absent present
  · rw [Checked, Bool.not_eq_true] at failed
    simp [failed]

/-- The same holds of a vote for a proposal from the log, which was checked when it arrived. -/
theorem handleEarlierMessagesCh_authenticated (taken : TakenIn cfg msg)
    (held : found cfg h = some msg) :
    Authenticated cfg (handleEarlierMessagesCh cfg (voteCh cfg (depth + 1))) h msg
      ↔ (votesLater cfg h msg = true → NamesLeader cfg msg) := by
  have branch : ∀ sent, handleEarlierMessagesCh cfg (voteCh cfg (depth + 1)) ⟨h, sent, []⟩
      = (if msg.sign.set && (h.jblocks.lookup h.view).isNone then
          voteCh cfg (depth + 1) msg.block else pure ()) ⟨h, sent, []⟩ := by
    intro sent
    unfold found at held
    split at held
    · cases held
    rename_i backup
    change (if cfg.amLeaderOf h.myid h.view then _ else _ : M Unit) _ = _
    rw [if_neg backup, held]
  simp only [Authenticated, branch]
  -- The stored proposal is taken up only while the view has no block.
  by_cases fresh : (msg.sign.set && (h.jblocks.lookup h.view).isNone) = true
  · rw [if_pos fresh]
    have voting := @voteCh_authenticated _ _ cfg msg h depth taken.checked
    simp only [Authenticated] at voting
    simp only [voting, votesLater, fresh, Bool.true_and]
  · rw [if_neg fresh]
    rw [Bool.not_eq_true] at fresh
    simp only [votesLater, fresh, Bool.false_and, Bool.false_eq_true, false_implies, iff_true]
    intro sent q r member
    simp [Outcome.state, pure, Pure.pure, ret] at member

end OneProposal

section Handlers

variable {cfg} {p : PID} {received : MsgLdrPrepareCh → Prop} {depth : Nat} {l : State}

/-- A block that a checked proposal among those received is for. -/
def Proposed (cfg : Config) (received : MsgLdrPrepareCh → Prop) (block : JBlock) : Prop :=
  ∃ m, received m ∧ m.block = block ∧ Checked cfg m

theorem keeps_handleNewviewCh {msg : MsgNewViewCh} :
    Keeps (Wary cfg p (Proposed cfg received) []) (handleNewviewCh cfg depth msg) := by
  intro l wary
  have storing : ∀ l', Wary cfg p (Proposed cfg received) [] l' →
      (do let _ ← storeNvCh msg : M Unit).Gives
        (fun _ => Wary cfg p (Proposed cfg received) [])
        (Wary cfg p (Proposed cfg received) []) l' :=
    keeps_storeNvCh.bind fun _ => keeps_pure ()
  unfold handleNewviewCh
  rw [gives_bind, gives_this]
  refine gives_ite (fun _ => wary) fun _ => gives_ite (fun checks => ?_) fun _ => wary
  simp only [Bool.and_eq_true, Config.amLeaderOf_iff, wary.myid] at checks
  refine gives_ite (fun here => ?_) fun _ => storing l wary
  have stored : Wary cfg p (Proposed cfg received) []
      { l with node := { l.node with log := (l.node.log.storeNvCh msg).2 } } := wary.node rfl rfl
  rw [gives_bind]
  change Gives (ite _ _ _) _ _ { l with node := { l.node with log := (l.node.log.storeNvCh msg).2 } }
  refine gives_ite (fun _ => ?_) fun _ => storing _ stored
  -- The node leads the view it is in, so its own proposal is one of its view.
  refine prepareCh_wary (fun block fine => keeps_voteCh depth [] block fine) stored ?_
  rw [beq_iff_eq] at here
  exact here ▸ checks.2

theorem keeps_handleLdrPrepareCh {msg : MsgLdrPrepareCh} (known : received msg) :
    Keeps (Wary cfg p (Proposed cfg received) []) (handleLdrPrepareCh cfg depth msg) := by
  apply keeps_this.bind
  intro h
  refine keeps_ite (fun _ => keeps_pure ()) fun _ => keeps_ite (fun checks => ?_) fun _ =>
    keeps_pure ()
  simp only [Bool.and_eq_true] at checks
  -- From here on the block is one that a checked proposal is for.
  have fine : Proposed cfg received msg.block := ⟨msg, known, rfl, checks.2⟩
  apply Keeps.bind
  · apply keeps_this.bind
    intro h
    exact keeps_ite (fun _ => keeps_storePrepCh.bind fun _ => keeps_pure ()) fun _ => keeps_pure ()
  intro _
  -- The block is taken up at once, or stored for a later view.
  refine keeps_ite (fun _ => keeps_voteCh depth [] msg.block (.inr fine)) fun _ => ?_
  apply (keeps_storeLdrPrepCh fine).bind
  exact fun _ => keeps_handleEarlierMessagesCh fun block fine => keeps_voteCh depth [] block fine

theorem keeps_handlePrepareCh {msg : MsgPrepareCh} :
    Keeps (Wary cfg p (Proposed cfg received) []) (handlePrepareCh cfg depth msg) := by
  intro l wary
  unfold handlePrepareCh
  rw [gives_bind, gives_this]
  refine gives_ite (fun _ => wary) fun _ => gives_ite (fun here => ?_) fun _ => ?_
  · refine gives_ite (fun leads => ?_) fun _ => wary
    simp only [Config.amLeaderOf_iff, wary.myid] at leads
    have stored : Wary cfg p (Proposed cfg received) []
        { l with node := { l.node with log := (l.node.log.storePrepCh msg).2 } } :=
      wary.node rfl rfl
    rw [gives_bind]
    change Gives (ite _ _ _) _ _
      { l with node := { l.node with log := (l.node.log.storePrepCh msg).2 } }
    refine gives_ite (fun _ => ?_) fun _ => stored
    -- The node leads the next view, which the votes take it into.
    refine checkNewJustCh_wary (fun block fine => keeps_voteCh depth [] block fine) stored ?_
    rw [beq_iff_eq] at here
    exact here ▸ leads
  · refine gives_ite (fun _ => ?_) fun _ => wary
    exact keeps_storePrepCh.bind (fun _ => keeps_pure ()) l wary

theorem keeps_signUntilCh (rounds : Nat) (view : View) :
    Keeps (Wary cfg p (Proposed cfg received) []) (signUntilCh rounds view) := by
  induction rounds with
  | zero => exact keeps_halt
  | succ rounds ih =>
    apply keeps_callTEEsignCh.bind
    intro just
    apply (keeps_ofOption _).bind
    intro rdata
    exact keeps_ite (fun _ => ih) fun _ => keeps_pure just

theorem keeps_startNewViewCh :
    Keeps (Wary cfg p (Proposed cfg received) []) (startNewViewCh cfg depth) := by
  apply keeps_this.bind
  intro h
  apply (keeps_signUntilCh _ _).bind
  intro just
  split
  · apply (keeps_ofOption _).bind
    intro rdata
    apply keeps_passNvCh.bind
    intro _
    apply Keeps.bind (keeps_modify fun _ wary => wary.node rfl rfl)
    intro _
    apply keeps_noteView.bind
    intro _
    apply keeps_setTimer.bind
    intro _
    apply keeps_this.bind
    intro h
    refine keeps_ite (fun _ => keeps_pure ()) fun _ => ?_
    exact keeps_handleEarlierMessagesCh fun block fine => keeps_voteCh depth [] block fine
  · exact keeps_pure ()

theorem keeps_getStarted :
    Keeps (Wary cfg p (Proposed cfg received) []) (getStarted cfg depth) := by
  apply keeps_callTEEsignCh.bind
  intro just
  apply (keeps_ofOption _).bind
  intro rdata
  apply keeps_this.bind
  intro h
  apply Keeps.bind (keeps_modify fun _ wary => wary.node rfl rfl)
  intro _
  apply keeps_noteView.bind
  intro _
  refine keeps_ite (fun _ => keeps_handleNewviewCh) fun _ => ?_
  apply keeps_send.bind
  exact fun _ => keeps_handleEarlierMessagesCh fun block fine => keeps_voteCh depth [] block fine

/-- Whatever happens to a node, it stays wary, if the proposals it receives are known. -/
theorem keeps_answer {stimulus : Stimulus MsgCh Input}
    (known : ∀ m, stimulus = .message (.ldrPrepare m) → received m) :
    Keeps (Wary cfg p (Proposed cfg received) []) ((protocol cfg depth).answer stimulus) := by
  cases stimulus with
  | message msg =>
    cases msg with
    | newView m => exact keeps_handleNewviewCh
    | ldrPrepare m => exact keeps_handleLdrPrepareCh (known m rfl)
    | prepare m => exact keeps_handlePrepareCh
  | input i =>
    cases i with
    | start cid =>
      apply Keeps.bind (keeps_modify fun l wary => ?_)
      · intro _
        apply keeps_this.bind
        intro h
        refine keeps_ite (fun _ => ?_) fun _ => keeps_pure ()
        exact Keeps.bind (keeps_modify fun _ wary => wary.node rfl rfl) fun _ => keeps_getStarted
      · split
        · exact wary
        · exact wary.node rfl rfl
    | transaction trans =>
      apply keeps_this.bind
      intro h
      split
      · exact keeps_modify fun _ wary => wary.node rfl rfl
      · exact keeps_pure ()
    | timeout =>
      apply keeps_this.bind
      intro h
      refine keeps_ite (fun _ => ?_) fun _ => keeps_pure ()
      exact keeps_ite (fun _ => keeps_halt) fun _ => keeps_startNewViewCh

/-- Whatever happens to a node, its votes as a backup are for checked proposals it received. -/
theorem voted_received (depth : Nat) (p : PID) (stimuli : List (Stimulus MsgCh Input)) {q : PID}
    {r : RData} {block : JBlock}
    (voted : ChEvent.voted q r block
      ∈ ((protocol cfg depth).serve stimuli ⟨init cfg p, [], []⟩).state.history)
    (backup : cfg.getLeaderOf block.view ≠ p) :
    ∃ m, Stimulus.message (.ldrPrepare m) ∈ stimuli ∧ m.block = block ∧ Checked cfg m := by
  have start : Wary cfg p (Proposed cfg fun m => Stimulus.message (.ldrPrepare m) ∈ stimuli) []
      ⟨init cfg p, [], []⟩ :=
    { myid := rfl
      proposals := by simp [init, LogCh.empty]
      votes := by simp
      noted := by simp }
  have kept : Keeps
      (Wary cfg p (Proposed cfg fun m => Stimulus.message (.ldrPrepare m) ∈ stimuli) [])
      ((protocol cfg depth).serve stimuli) :=
    Protocol.keeps_serve fun stimulus member => keeps_answer fun m same => same ▸ member
  -- A vote is for a received block or in a view the node leads, and it does not lead this one.
  exact ((kept.state start).votes voted).resolve_left backup

end Handlers

end HandlerCh

end ParaHotstuff
