import ParaHotstuff.Proofs.Para.Effects

/-! Which proposals a node of the parallel protocol votes for, whoever sends them. -/

namespace ParaHotstuff

/-- The statement a proposal for a slot is to be signed on. -/
def MsgLdrPreparePara.statement [Hashing] (msg : MsgLdrPreparePara) (rd : RDataPara) : RDataPara :=
  ⟨msg.prop.block.hash, rd.propv, rd.justh, rd.justv, PH1_PREPARE, msg.prop.block.seqNumber⟩

namespace HandlerPara

open Program Local

variable [Hashing] (cfg : Config)

/-- A proposal that carries a valid signature of the leader of a view on its statement. -/
def FromLeader (msg : MsgLdrPreparePara) (v : View) : Prop :=
  ∃ rd, msg.prop.just.getRDataPara = some rd ∧ rd.propv = v
    ∧ Signs.SignedBy cfg.nodes (cfg.getLeaderOf v) (msg.statement rd).toString msg.signs

/-- A proposal with verified signatures, the leader's among them; no handler checks this. -/
def Checked (msg : MsgLdrPreparePara) : Prop :=
  ∀ rd, msg.prop.just.getRDataPara = some rd →
    msg.signs.verify cfg.nodes (msg.statement rd).toString = true
      ∧ cfg.getLeaderOf rd.propv ∈ msg.signs.getSigners

/-- Whatever proposal a node votes for in a program comes with the signature of the leader. -/
def Authenticated (program : M Unit) (h : HandlerPara) (msg : MsgLdrPreparePara) : Prop :=
  ∀ sent q r just verified lockh lockv,
    ParaEvent.answered q r just verified lockh lockv
        ∈ (program ⟨h, sent, []⟩).state.history → FromLeader cfg msg r.propv

omit [Hashing] in
/-- Whether a justification passes for the one verified, by whatever the comparison gives. -/
def passesAsVerified (h : HandlerPara) (just : Just) : Bool :=
  (just.eq? h.verifiedJust).getD (h.choices.headD 0 != 0)

omit [Hashing] in
/-- Whether a node votes for a proposed block, however the proposal is signed. -/
def votesFor (h : HandlerPara) (prop : ParaProposal) : Bool :=
  match prop.just.getRDataPara, h.verifiedJust.getRDataPara with
  | some rd, some _ =>
    !maxViewsReached cfg h && prop.just.signs.verify cfg.nodes rd.toString
      && rd.propv == h.view && passesAsVerified h prop.just
      && !(prop.block.seqNumber = 0 || (h.blocksOf h.view).length < prop.block.seqNumber)
      && !(h.blockAt prop.block.seqNumber).isBlock && h.tpara.votesOn cfg.nodes prop.just
  | _, _ => false

section OneProposal

variable {cfg} {l : State} {msg : MsgLdrPreparePara} {h : HandlerPara}

/-- What a node that answers a proposal adds to its history, last first. -/
def AnswerNoted (prop : ParaProposal) (v : View) (before after : List ParaEvent) : Prop :=
  ∃ q r verified lockh lockv, r.propv = v ∧ r.proph = prop.block.hash
    ∧ r.seqNumber = prop.block.seqNumber
    ∧ after = .answered q r prop.just verified lockh lockv :: .voted q r prop.block :: before

/-- Answering a proposal is noted if the component accepts it, or nothing happens. -/
theorem history_respondToProposalPara (prop : ParaProposal) (l : State) :
    (l.node.tpara.votesOn cfg.nodes prop.just = false
        ∧ (respondToProposalPara cfg prop.just prop.block l).state.history = l.history)
      ∨ (l.node.tpara.votesOn cfg.nodes prop.just = true
        ∧ AnswerNoted prop l.node.tpara.view l.history
          (respondToProposalPara cfg prop.just prop.block l).state.history) := by
  rcases l.node.tpara.TEEprepare_cases cfg.nodes prop.block prop.just with
    ⟨refused, answer⟩ | ⟨rd, tagged, accepted, answer⟩
  · have given : (respondToProposalPara cfg prop.just prop.block).Gives
        (fun _ l' => l'.history = l.history) (fun l' => l'.history = l.history) l := by
      rcases answer with thrown | unset
      · simp [respondToProposalPara, callTEEpreparePara, thrown]
      · simp [respondToProposalPara, callTEEpreparePara, unset, Just.defaultPara]
    exact .inl ⟨refused, given.state⟩
  · have given : (respondToProposalPara cfg prop.just prop.block).Gives
        (fun _ l' => AnswerNoted prop l.node.tpara.view l.history l'.history)
        (fun l' => AnswerNoted prop l.node.tpara.view l.history l'.history) l := by
      simp only [respondToProposalPara, callTEEpreparePara, gives_bind, gives_this, answer,
        gives_ofOption_some, gives_modify, gives_noteIf, gives_pure, TrustedPara.signBlock,
        Just.set_ofRDataPara, if_true, Just.getRDataPara_ofRDataPara, gives_note, gives_multicast,
        Option.getD_some]
      exact ⟨_, _, _, _, _, rfl, rfl, rfl, rfl⟩
    exact .inr ⟨accepted, given.state⟩

omit [Hashing] in
/-- Comparing justifications leaves all but the open choices, and finds what passes as verified. -/
theorem sameJust_eq (just : Just) (l : State) : ∃ choices,
    sameJust just l.node.verifiedJust l
      = .done (passesAsVerified l.node just) { l with node := { l.node with choices := choices } } := by
  unfold sameJust passesAsVerified
  cases compared : just.eq? l.node.verifiedJust with
  | some same => exact ⟨l.node.choices, rfl⟩
  | none => exact ⟨l.node.choices.tail, rfl⟩

omit [Hashing] in
/-- So comparing justifications is quiet. -/
theorem quiet_sameJust (a b : Just) : Quiet (sameJust a b) := by
  unfold sameJust
  split
  · exact quiet_pure _
  · exact quiet_choose.bind fun _ => quiet_pure _

/-- What handling a proposal may make of a history: an answer noted, or nothing new. -/
def Handled (cfg : Config) (prop : ParaProposal) (l : State) (after : State) : Prop :=
  (votesFor cfg l.node prop = false ∧ after.history = l.history)
    ∨ (votesFor cfg l.node prop = true
      ∧ AnswerNoted prop l.node.view l.history after.history)

/-- A node that handles a proposal notes an answer if it votes for it, and nothing if it does not. -/
theorem handleLdrPreparePara_gives (msg : MsgLdrPreparePara) (l : State) :
    (handleLdrPreparePara cfg msg).Gives (fun _ => Handled cfg msg.prop l)
      (Handled cfg msg.prop l) l := by
  have nothing : votesFor cfg l.node msg.prop = false → ∀ l' : State,
      l'.history = l.history → Handled cfg msg.prop l l' := fun refused _ same => .inl ⟨refused, same⟩
  have storing : votesFor cfg l.node msg.prop = false → ∀ l' : State, l'.history = l.history →
      (storePropPara msg).Gives (fun _ => Handled cfg msg.prop l) (Handled cfg msg.prop l) l' := by
    intro refused l' same
    simp only [storePropPara, gives_bind, gives_this]
    exact gives_ofOption (fun _ _ => nothing refused _ same) fun _ => nothing refused _ same
  unfold handleLdrPreparePara
  rw [gives_bind, gives_this]
  refine gives_ite (fun last => ?_) fun going => ?_
  · refine nothing ?_ l rfl
    unfold votesFor
    split
    · simp [last]
    · rfl
  rw [Bool.not_eq_true] at going
  cases tagged : msg.prop.just.getRDataPara with
  | none =>
    simp only [tagged, gives_bind, gives_ofOption_none]
    exact nothing (by simp [votesFor, tagged]) l rfl
  | some rd =>
    cases adopted : l.node.verifiedJust.getRDataPara with
    | none =>
      simp only [tagged, gives_bind, gives_ofOption_some, gives_ofOption_none]
      exact nothing (by simp [votesFor, tagged, adopted]) l rfl
    | some verified =>
      have votes : votesFor cfg l.node msg.prop
          = (msg.prop.just.signs.verify cfg.nodes rd.toString && rd.propv == l.node.view
            && passesAsVerified l.node msg.prop.just
            && !(msg.prop.block.seqNumber = 0
              || (l.node.blocksOf l.node.view).length < msg.prop.block.seqNumber)
            && !(l.node.blockAt msg.prop.block.seqNumber).isBlock
            && l.node.tpara.votesOn cfg.nodes msg.prop.just) := by
        simp [votesFor, tagged, adopted, going]
      simp only [verifyJustPara, tagged, gives_bind, gives_ofOption_some]
      refine gives_ite (fun failed => ?_) fun checks => ?_
      · refine nothing ?_ l rfl
        simp only [Bool.or_eq_true, decide_eq_true_eq, Bool.not_eq_true'] at failed
        rcases failed with early | bad
        · simp [votes, Nat.ne_of_lt early]
        · simp [votes, bad]
      simp only [Bool.or_eq_true, decide_eq_true_eq, Bool.not_eq_true', not_or,
        Bool.not_eq_false] at checks
      refine gives_ite (fun here => ?_) fun away => ?_
      swap
      · refine storing ?_ l rfl
        rw [Bool.not_eq_true] at away
        simp [votes, away]
      -- The justification is compared with the verified one.
      obtain ⟨choices, compared⟩ := sameJust_eq msg.prop.just l
      rw [gives_bind]
      unfold Gives
      rw [compared]
      change Gives (ite _ _ _) (fun _ => Handled cfg msg.prop l) (Handled cfg msg.prop l)
        { l with node := { l.node with choices := choices } }
      refine gives_ite (fun passes => ?_) fun fails => ?_
      swap
      · rw [Bool.not_eq_true] at fails
        refine gives_ite (fun _ => storing ?_ _ rfl) fun _ => nothing ?_ _ rfl
        all_goals simp [votes, fails]
      refine gives_ite (fun outside => ?_) fun inside => ?_
      · exact nothing (by simp only [votes, outside, Bool.not_true, Bool.and_false, Bool.false_and])
          _ rfl
      rw [Bool.not_eq_true] at inside
      refine gives_ite (fun free => ?_) fun taken => ?_
      swap
      · rw [Bool.not_eq_true, Bool.not_eq_false'] at taken
        exact nothing (by simp [votes, taken]) _ rfl
      have decides : votesFor cfg l.node msg.prop
          = l.node.tpara.votesOn cfg.nodes msg.prop.just := by
        simp only [votes, checks.2, here, passes, inside, free, Bool.not_false, Bool.true_and,
          Bool.and_true]
      apply gives_of_state
      rcases @history_respondToProposalPara _ cfg msg.prop
        { l with node := { l.node with choices := choices } } with ⟨refused, same⟩ | ⟨agrees, noted⟩
      · exact nothing (decides.trans refused) _ same
      · refine .inr ⟨decides.trans agrees, ?_⟩
        have current : l.node.tpara.view = l.node.view := by
          simp only [TrustedPara.votesOn, tagged, Bool.and_eq_true, beq_iff_eq] at agrees
          exact agrees.1.2.trans (beq_iff_eq.1 here)
        exact current ▸ noted

/-- A node that votes for a proposal has the leader's signature exactly if the message carries it. -/
theorem handleLdrPreparePara_authenticated :
    Authenticated cfg (handleLdrPreparePara cfg msg) h msg
      ↔ (votesFor cfg h msg.prop = true → FromLeader cfg msg h.view) := by
  have handled := fun sent => (@handleLdrPreparePara_gives _ cfg msg ⟨h, sent, []⟩).state
  constructor
  · intro authenticated votes
    rcases handled [] with ⟨refused, _⟩ | ⟨_, q, r, verified, lockh, lockv, view, -, -, noted⟩
    · exact absurd (votes.symm.trans refused) (by simp)
    · have member : ParaEvent.answered q r msg.prop.just verified lockh lockv
          ∈ (handleLdrPreparePara cfg msg ⟨h, [], []⟩).state.history := by simp [noted]
      exact view ▸ authenticated [] _ _ _ _ _ _ member
  · intro signed sent q r just verified lockh lockv member
    rcases handled sent with ⟨_, same⟩ | ⟨votes, q', r', verified', lockh', lockv', view, -, -, noted⟩
    · simp [same] at member
    · rw [noted] at member
      have last : r = r' := by
        rcases List.mem_cons.1 member with new | old
        · cases new
          rfl
        · simp at old
      rw [last, view]
      exact signed votes

/-- Whether a node votes does not depend on the signatures, so it is right only to refuse. -/
theorem handleLdrPreparePara_unsigned (prop : ParaProposal) :
    (∀ signs, Authenticated cfg (handleLdrPreparePara cfg ⟨prop, signs⟩) h ⟨prop, signs⟩)
      ↔ votesFor cfg h prop = false := by
  constructor
  · intro always
    rw [Bool.eq_false_iff]
    intro votes
    -- Without any signature there is none of the leader.
    obtain ⟨_, -, -, s, none_held, -⟩ := handleLdrPreparePara_authenticated.1 (always []) votes
    simp at none_held
  · intro refused signs
    exact handleLdrPreparePara_authenticated.2 fun votes =>
      absurd (votes.symm.trans refused) (by simp)

omit [Hashing] in
/-- The proposal a backup finds in its log for a slot of its view, unless it finds a certificate. -/
def found (cfg : Config) (h : HandlerPara) (seqNumber : Nat) : Option MsgLdrPreparePara :=
  if (h.log.getPrecommitPara h.view cfg.qsize seqNumber).length == cfg.qsize
      || (h.log.getPreparePara h.view cfg.qsize seqNumber).length == cfg.qsize then none
  else h.log.firstProposalPara h.view seqNumber

/-- The same holds of a vote for a proposal from the log. -/
theorem handleEarlierSlot_authenticated {earlier : M Unit} {seqNumber : Nat}
    (held : found cfg h seqNumber = some msg) :
    Authenticated cfg (handleEarlierSlot cfg earlier seqNumber) h msg
      ↔ (msg.signs.length = 1 → votesFor cfg h msg.prop = true → FromLeader cfg msg h.view) := by
  have branch : ∀ sent, handleEarlierSlot cfg earlier seqNumber ⟨h, sent, []⟩
      = (if msg.signs.length == 1 then handleLdrPreparePara cfg msg else pure ())
        ⟨h, sent, []⟩ := by
    intro sent
    unfold found at held
    split at held
    · cases held
    rename_i others
    simp only [Bool.or_eq_true, not_or] at others
    obtain ⟨pc, prep⟩ := others
    change (if (h.log.getPrecommitPara h.view cfg.qsize seqNumber).length == cfg.qsize
      then _ else _ : M Unit) _ = _
    rw [if_neg pc]
    change (if (h.log.getPreparePara h.view cfg.qsize seqNumber).length == cfg.qsize
      then _ else _ : M Unit) _ = _
    rw [if_neg prep, held]
  have same : Authenticated cfg (handleEarlierSlot cfg earlier seqNumber) h msg
      ↔ Authenticated cfg (if msg.signs.length == 1 then handleLdrPreparePara cfg msg
        else pure ()) h msg := by
    simp only [Authenticated, branch]
  rw [same]
  by_cases single : msg.signs.length = 1
  · rw [if_pos (by simpa using single), handleLdrPreparePara_authenticated]
    simp [single]
  · rw [if_neg (by simpa using single)]
    simp only [single, false_implies, iff_true]
    intro sent q r just verified lockh lockv member
    simp [Outcome.state, pure, Pure.pure, ret] at member

end OneProposal

section Runs

variable (received : MsgLdrPreparePara → Prop)

/-- What holds of a node to which anybody may send anything, some proposals among it. -/
structure Wary (l : State) : Prop where
  proposals : ∀ {k m}, m ∈ l.node.log.proposalsPara.held k → received m
  answers : ∀ {q r just verified lockh lockv},
    ParaEvent.answered q r just verified lockh lockv ∈ l.history →
      ∃ m, received m ∧ m.prop.just = just ∧ m.prop.block.hash = r.proph
        ∧ m.prop.block.seqNumber = r.seqNumber
        ∧ ∃ rd, just.getRDataPara = some rd ∧ rd.propv = r.propv

variable {cfg received} {l : State} {earlier : M Unit} {rdata : RDataPara} {just : Just}

/-- Only the proposals in the log matter. -/
theorem Wary.node (wary : Wary received l) {h : HandlerPara}
    (proposals : h.log.proposalsPara = l.node.log.proposalsPara) :
    Wary received { l with node := h } where
  proposals := fun member => wary.proposals (proposals ▸ member)
  answers := wary.answers

/-- Events other than answers may be noted. -/
theorem Wary.event (wary : Wary received l) {e : ParaEvent}
    (other : ∀ q r just verified lockh lockv, e ≠ .answered q r just verified lockh lockv) :
    Wary received { l with history := e :: l.history } :=
  { wary with
    answers := fun member => by
      rcases List.mem_cons.1 member with new | old
      · exact absurd new.symm (other _ _ _ _ _ _)
      · exact wary.answers old }

/-- What a wary node receives: only known proposals, and anything else. -/
def Expected (received : MsgLdrPreparePara → Prop) : MsgPara → Prop
  | .ldrPrepare m => received m
  | _ => True

/-- A node that answers a received proposal stays wary. -/
theorem Wary.respond (wary : Wary received l) {msg : MsgLdrPreparePara} {rd r : RDataPara}
    (known : received msg) (tagged : msg.prop.just.getRDataPara = some rd)
    (here : l.node.tpara.view = rd.propv)
    (signed : r = l.node.tpara.blockStatement msg.prop.block.hash rd.justh rd.justv
      msg.prop.block.seqNumber) :
    Wary received (answering cfg l msg.prop.just msg.prop.block r) where
  proposals := wary.proposals
  answers := fun {q r' just verified lockh lockv} member => by
    -- The answer is about the block of the proposal.
    simp only [answering, List.mem_cons, ParaEvent.answered.injEq, reduceCtorEq, false_or] at member
    rcases member with ⟨rfl, rfl, rfl, rfl, rfl, rfl⟩ | old
    · exact ⟨msg, known, rfl, by rw [signed]; rfl, by rw [signed]; rfl, rd, tagged,
        by rw [signed]; exact here.symm⟩
    · exact wary.answers old

/-- A node that signs reports and enters views stays wary. -/
theorem Wary.signing : Signing cfg (Wary received) (Expected received) False where
  note := fun {l e} wary progress _ => wary.event fun _ _ _ _ _ _ same => by
    rw [same] at progress
    cases progress
  begin := fun wary => wary.node rfl
  sign := fun wary => (wary.event (e := .signed _ _) (by simp)).node rfl
  signed := fun _ => trivial
  counted := fun impossible _ => impossible.elim
  change := fun _ wary _ => wary.node rfl

/-- Every effect of a handler keeps a node wary. -/
theorem Wary.closed : Closed cfg (Wary received) (Expected received) (fun _ _ => True) False False where
  still := fun wary still => wary.node (by rw [still.log])
  looks := fun {l} v wary => wary.node (congrArg LogPara.proposalsPara (frame_enterView l.node v).log)
  visits := fun wary _ => wary.node rfl
  blocks := fun wary _ filed => by
    obtain ⟨pblocks, rfl⟩ := filed.blocks_only
    exact wary.node rfl
  votes := fun wary voted => wary.node voted.same.proposalsPara
  commits := fun wary _ => wary.node rfl
  storeNv := fun wary _ => wary.node rfl
  storeProp := fun wary known stored => by
    unfold LogPara.storePropPara at stored
    split at stored
    · cases stored
    · obtain ⟨-, rfl⟩ := Prod.mk.inj (Option.some.inj stored)
      exact
        { wary with
          proposals := fun member => by
            rcases Messages.mem_storeAndCount member with old | ⟨rfl, rfl⟩
            · exact wary.proposals old
            · exact known }
  storeVerify := fun wary _ => wary.node rfl
  proposals := fun wary _ _ member => wary.proposals member
  verifies := fun _ _ => trivial
  reports := fun _ _ => trivial
  noReports := fun _ _ => trivial
  sorted := fun impossible _ => impossible.elim
  small := fun impossible _ => impossible.elim
  smallVerify := fun impossible _ => impossible.elim
  sendVote := fun _ wary _ => { wary with }
  sendCommit := fun wary _ => { wary with }
  sendReport := fun _ wary _ => { wary with }
  sendBlocks := fun _ _ wary _ => { wary with }
  request := fun _ _ wary _ _ _ => { wary.event (e := .recovering _ _) (by simp) with }
  announce := fun _ _ wary _ _ _ => { wary.event (e := .prepared _ _ _) (by simp) with }
  note := (@Wary.signing _ cfg received).notes
  execute := fun {l seq} wary _ _ _ _ =>
    ((wary.node (h := l.node.executing (l.node.log.getCommitForSeq l.node.view seq).rdata) rfl).event
      (e := .executed _ _ _ _) (by simp)).event (e := .marked _ _ _ _ _ _) (by simp)
  leaves := Wary.signing.leaves
  catches := Wary.signing.catches
  starts := fun held _ => (@Wary.signing _ cfg received).starts held
  propose := fun wary _ _ _ _ _ _ => (wary.event (e := .voted _ _ _) (by simp)).node rfl
  store := fun {l just cert out tpara r} wary _ _ _ _ _ =>
    (wary.event (e := .stored _ _ _ _) (by simp)).node rfl
  respond := fun wary known tagged _ _ _ _ _ _ here _ signed =>
    wary.respond known tagged here signed
  adopts := fun wary _ _ _ _ _ _ => (wary.event (e := .adopted _ _ _ _ _ _) (by simp)).node rfl
  change := fun _ wary _ _ => wary.node rfl

/-- Whatever happens to a node, it stays wary, if the proposals it receives are known. -/
theorem keeps_answer (depth : Nat) {stimulus : Stimulus MsgPara Input}
    (known : ∀ m, stimulus = .message (.ldrPrepare m) → received m) :
    Keeps (Wary received) ((protocol cfg depth).answer stimulus) := by
  cases stimulus with
  | message msg =>
    refine Wary.closed.handle_kept depth ?_ fun m _ =>
      Wary.closed.handleRecoverPara_kept (fun _ _ => trivial) (fun _ _ wary => wary.node rfl) m
    cases msg with
    | ldrPrepare m => exact known m rfl
    | _ => trivial
  | input i => exact Wary.closed.react_kept depth i

/-- Whatever happens to a node, what it answers as a backup are proposals it received. -/
theorem answered_received (choices : PID → List Nat) (depth : Nat) (p : PID)
    (stimuli : List (Stimulus MsgPara Input)) {q : PID} {r : RDataPara} {just verified : Just}
    {lockh : Hash} {lockv : View}
    (answered : ParaEvent.answered q r just verified lockh lockv
      ∈ ((protocol cfg depth).serve stimuli ⟨init cfg choices p, [], []⟩).state.history) :
    ∃ m, Stimulus.message (.ldrPrepare m) ∈ stimuli ∧ m.prop.just = just
      ∧ m.prop.block.hash = r.proph ∧ m.prop.block.seqNumber = r.seqNumber
      ∧ ∃ rd, just.getRDataPara = some rd ∧ rd.propv = r.propv := by
  have start : Wary (fun m => Stimulus.message (.ldrPrepare m) ∈ stimuli)
      ⟨init cfg choices p, [], []⟩ :=
    { proposals := by simp [init, LogPara.empty]
      answers := by simp }
  have kept : Keeps (Wary fun m => Stimulus.message (.ldrPrepare m) ∈ stimuli)
      ((protocol cfg depth).serve stimuli) :=
    Protocol.keeps_serve fun stimulus member => keeps_answer depth fun m same => same ▸ member
  exact (kept.state start).answers answered

end Runs

end HandlerPara

end ParaHotstuff
