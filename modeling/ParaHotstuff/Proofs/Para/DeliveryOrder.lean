import ParaHotstuff.Data.Checksum
import ParaHotstuff.Handler.Schedule
import ParaHotstuff.Lib.KeyedUpdates
import ParaHotstuff.Proofs.Para.OneVote
import ParaHotstuff.Proofs.Para.Voting

/-! The votes of a backup, in whatever order the announcement of a view and its proposals arrive. -/

namespace ParaHotstuff

namespace HandlerPara

open Program Local

section Definitions

variable (cfg : Config) (h : HandlerPara) (msg : MsgVerifyPara)

/-- Whether a node adopts the justification of an announcement. -/
def accepts [Hashing] : Bool :=
  let entry := h.entering cfg msg.rdata.propv
  match h.verifiedJust.getRDataPara with
  | none => false
  | some verified =>
    let newer := verified.propv < msg.rdata.justv
    !maxViewsReached cfg h && decide (h.view ≤ msg.rdata.propv)
      && (!newer || hashesMatch (entry.blocksOf msg.rdata.justv) msg.blockHashes)
      && entry.tpara.TEEverifyLeaderQC cfg.nodes msg.just msg.blockHashes newer == some msg.just

/-- Whether it has adopted that justification in that view already. -/
def adoptedBefore : Bool :=
  h.view == msg.rdata.propv && msg.just.eq? h.verifiedJust == some true

/-- Whether it puts away proposals on that justification until it adopts it. -/
def putsAway : Bool :=
  decide (h.view < msg.rdata.propv)
    || decide ((h.verifiedJust.getRDataPara.getD .default).justv < msg.rdata.justv)

/-- What it answers a proposal with, if nothing is answered for the slot yet. -/
def offered (entry : HandlerPara) (p : MsgLdrPreparePara) : Option ParaProposal :=
  if vacant cfg entry p.prop.block.seqNumber then some p.prop else none

end Definitions

variable [Hashing] {cfg : Config} {h : HandlerPara} {msg : MsgVerifyPara}

/-- What has been checked of an announcement that is accepted. -/
structure Accepted (cfg : Config) (h : HandlerPara) (msg : MsgVerifyPara) (verified : RDataPara) :
    Prop where
  running : maxViewsReached cfg h = false
  current : h.view ≤ msg.rdata.propv
  tagged : h.verifiedJust.getRDataPara = some verified
  hashes : verified.propv < msg.rdata.justv →
    hashesMatch ((h.entering cfg msg.rdata.propv).blocksOf msg.rdata.justv) msg.blockHashes = true
  checked : (h.entering cfg msg.rdata.propv).tpara.TEEverifyLeaderQC cfg.nodes msg.just
    msg.blockHashes (verified.propv < msg.rdata.justv) = some msg.just
  valid : msg.signs.verify cfg.nodes msg.rdata.toString = true
  component : (h.entering cfg msg.rdata.propv).tpara.view = msg.rdata.propv
  phase : msg.rdata.phase = PH1_NEWVIEW

omit [Hashing] in
/-- An announcement takes a node that is running to its view. -/
theorem view_entering (running : maxViewsReached cfg h = false) {v : View} (current : h.view ≤ v) :
    (h.entering cfg v).view = v := by
  unfold entering
  by_cases later : h.view < v
  · rw [if_pos ⟨running, later⟩]
    rfl
  · rw [if_neg fun both => later both.2]
    exact Nat.le_antisymm current (Nat.not_lt.1 later)

omit [Hashing] in
/-- The justification verified last stays on entering a view. -/
theorem verifiedJust_entering (h : HandlerPara) (v : View) :
    (h.entering cfg v).verifiedJust = h.verifiedJust := by
  unfold entering
  split <;> rfl

omit [Hashing] in
theorem log_entering (h : HandlerPara) (v : View) : (h.entering cfg v).log = h.log := by
  unfold entering
  split <;> rfl

omit [Hashing] in
/-- A log is taken along to the view that is entered. -/
theorem entering_log (h : HandlerPara) (v : View) (log : LogPara) :
    ({ h with log := log } : HandlerPara).entering cfg v = { h.entering cfg v with log := log } := by
  unfold entering
  change (if maxViewsReached cfg h = false ∧ h.view < v then _ else _) = _
  split <;> rfl

omit [Hashing] in
/-- A node in a view has entered it. -/
theorem entering_of_view {v : View} (here : h.view = v) : h.entering cfg v = h := by
  rw [entering, if_neg fun both => Nat.lt_irrefl _ (here ▸ both.2)]

/-- A backup that waits for an announcement, as far as its votes are concerned. -/
structure Waiting (cfg : Config) (entry : HandlerPara) (candidate : ParaProposal → Prop)
    (u v : View) (held : Nat → List MsgLdrPreparePara) (answers : Nat → Option ParaProposal)
    (l : State) : Prop where
  running : maxViewsReached cfg l.node = false
  view : l.node.view = u
  voting : Voting cfg entry candidate entry.verifiedJust held answers
    { l with node := l.node.entering cfg v }
  lock : l.node.tpara.prefixLockedHash = entry.tpara.prefixLockedHash
    ∧ l.node.tpara.prefixLockedView = entry.tpara.prefixLockedView

section Adopting

variable {entry : HandlerPara} {candidate : ParaProposal → Prop}
variable {held : Nat → List MsgLdrPreparePara} {answers : Nat → Option ParaProposal} {l : State}
variable {verified : RDataPara}

/-- A backup that waits adopts an announcement it accepts, and goes through what it holds. -/
theorem Waiting.verify (accepted : Accepted cfg h msg verified)
    (waiting : Waiting cfg (h.entering cfg msg.rdata.propv) candidate h.view msg.rdata.propv held
      answers l)
    (ready : Ready cfg (h.entering cfg msg.rdata.propv) candidate)
    (undisturbed : Undisturbed cfg (h.entering cfg msg.rdata.propv) candidate msg.just held)
    (admits : ∀ seq, 0 < seq → seq ≤ cfg.maxBlocksInView → ∀ prop,
      opens cfg (h.entering cfg msg.rdata.propv) msg.just held seq = some prop → candidate prop)
    (fresh : verified.propv < msg.rdata.justv → msg.rdata.justv = msg.rdata.propv →
      ∀ seq, answers seq = none) (depth : Nat) :
    (handle cfg (depth + 1) (.verify msg)).Gives
      (fun _ => Voting cfg (h.entering cfg msg.rdata.propv) candidate msg.just held
        fun i => if 0 < i ∧ i ≤ cfg.maxBlocksInView then
          (answers i).or (opens cfg (h.entering cfg msg.rdata.propv) msg.just held i)
        else answers i) (fun _ => False) l := by
  have here := view_entering accepted.running accepted.current
  -- Once adopted, the justification leads through the slots of the view.
  have adopting : ∀ l₁ : State, Voting cfg (h.entering cfg msg.rdata.propv) candidate
      (h.entering cfg msg.rdata.propv).verifiedJust held answers l₁ →
      l₁.node.tpara.TEEverifyLeaderQC cfg.nodes msg.just msg.blockHashes
        (verified.propv < msg.rdata.justv) = some msg.just →
      (adoptChecked cfg (handleEarlierMessagesPara cfg (depth + 1)) msg
          (verified.propv < msg.rdata.justv)).Gives
        (fun _ => Voting cfg (h.entering cfg msg.rdata.propv) candidate msg.just held
          fun i => if 0 < i ∧ i ≤ cfg.maxBlocksInView then
            (answers i).or (opens cfg (h.entering cfg msg.rdata.propv) msg.just held i)
          else answers i) (fun _ => False) l₁ := by
    intro l₁ voting checked
    have same : Just.ofRDataPara msg.rdata msg.signs = msg.just := rfl
    unfold adoptChecked callTEEVerifyPara adopt
    rw [same, gives_bind, gives_bind, gives_this, checked, gives_ofOption_some]
    refine gives_ite (fun _ => ?_) fun unset => absurd rfl unset
    rw [gives_bind, gives_this, gives_bind, gives_note, gives_bind, gives_modify]
    have adopted : Voting cfg (h.entering cfg msg.rdata.propv) candidate msg.just held answers
        { l₁ with
          node := { l₁.node with verifiedJust := msg.just }
          history := .adopted l₁.node.myid (msg.just.getRDataPara.getD .default) msg.blockHashes
            (l₁.node.verifiedJust.getRDataPara.getD .default).propv l₁.node.tpara.prefixLockedHash
            l₁.node.tpara.prefixLockedView :: l₁.history } :=
      { voting with adopted := rfl, filled := voting.filled }
    exact adopted.handleEarlierMessagesPara_gives ready undisturbed admits rfl accepted.phase
      here.symm depth
  have component : (l.node.entering cfg msg.rdata.propv).tpara.prefixLockedHash
      = (h.entering cfg msg.rdata.propv).tpara.prefixLockedHash
      ∧ (l.node.entering cfg msg.rdata.propv).tpara.prefixLockedView
        = (h.entering cfg msg.rdata.propv).tpara.prefixLockedView := by
    have kept : (l.node.entering cfg msg.rdata.propv).tpara.prefixLockedHash
        = l.node.tpara.prefixLockedHash
        ∧ (l.node.entering cfg msg.rdata.propv).tpara.prefixLockedView
          = l.node.tpara.prefixLockedView := by
      unfold entering
      split <;> exact ⟨rfl, rfl⟩
    exact ⟨kept.1.trans waiting.lock.1, kept.2.trans waiting.lock.2⟩
  unfold handle handleVerifyPara
  rw [gives_bind, gives_this, if_neg (by rw [waiting.running]; simp),
    if_pos (by rw [waiting.view]; exact accepted.current), gives_bind]
  refine (enterLater_gives waiting.running).mono (fun _ l₁ entered => ?_)
    fun _ impossible => impossible
  have voting := waiting.voting
  rw [← entered] at voting
  have checked : l₁.node.tpara.TEEverifyLeaderQC cfg.nodes msg.just msg.blockHashes
      (verified.propv < msg.rdata.justv) = some msg.just := by
    rw [← accepted.checked]
    unfold TrustedPara.TEEverifyLeaderQC TrustedPara.prefixLockedInHashes
    rw [voting.component.1]
    rw [entered, component.1, component.2]
  rw [gives_bind, gives_this, if_pos (by rw [voting.view, here]; exact beq_self_eq_true _),
    voting.adopted, verifiedJust_entering, accepted.tagged, gives_bind, gives_ofOption_some]
  refine gives_ite (fun newer => ?_) fun older => ?_
  · rw [gives_bind, gives_modify]
    have looked : Voting cfg (h.entering cfg msg.rdata.propv) candidate
        (h.entering cfg msg.rdata.propv).verifiedJust held answers
        { l₁ with node := l₁.node.enterView msg.rdata.justv } :=
      @Voting.frame _ cfg _ candidate _ held answers l₁ l₁.history voting _
        (frame_enterView l₁.node msg.rdata.justv) (blocksOf_enterView l₁.node msg.rdata.justv)
    have hashes : hashesMatch (l₁.node.blocksOf msg.rdata.justv) msg.blockHashes = true := by
      rw [voting.blocks msg.rdata.justv fun current => fresh newer (current.trans here)]
      exact accepted.hashes newer
    rw [if_pos hashes]
    have adopted := adopting _ looked (by
      rw [(frame_enterView l₁.node msg.rdata.justv).tpara]
      exact checked)
    rw [decide_eq_true newer] at adopted
    exact adopted
  · have adopted := adopting _ voting checked
    rw [decide_eq_false older] at adopted
    exact adopted

/-- A proposal for a later view than that of the node is put away. -/
theorem Waiting.puts_away (accepted : Accepted cfg h msg verified)
    (waiting : Waiting cfg (h.entering cfg msg.rdata.propv) candidate h.view msg.rdata.propv held
      answers l) (later : h.view < msg.rdata.propv) {p : MsgLdrPreparePara}
    (built : p.prop.just = msg.just) :
    (handleLdrPreparePara cfg p).Gives (fun _ => Waiting cfg (h.entering cfg msg.rdata.propv)
      candidate h.view msg.rdata.propv (Function.update held p.prop.block.seqNumber
        (LogPara.withProposal (held p.prop.block.seqNumber) p)) answers) (fun _ => False) l := by
  have here := view_entering accepted.running accepted.current
  have tagged : p.prop.just.getRDataPara = some msg.rdata := by rw [built]; rfl
  have known : l.node.verifiedJust.getRDataPara = some verified := by
    have adopted := waiting.voting.adopted
    rw [verifiedJust_entering, verifiedJust_entering] at adopted
    rw [adopted]
    exact accepted.tagged
  have valid : verifyJustPara cfg p.prop.just = some true := by
    rw [verifyJustPara, tagged, built]
    exact congrArg some accepted.valid
  unfold handleLdrPreparePara
  rw [gives_bind, gives_this, if_neg (by rw [waiting.running]; simp)]
  simp only [tagged, known, valid, gives_bind, gives_ofOption_some]
  rw [if_neg (by simp [waiting.view, Nat.not_lt.2 (Nat.le_of_lt later)]),
    if_neg (by simp [waiting.view, Nat.ne_of_gt later])]
  refine storePropPara_gives tagged fun proposals now => ?_
  refine ⟨waiting.running, waiting.view, ?_, waiting.lock⟩
  -- It is put away for the view that is entered later.
  have stored := @Voting.stored _ _ _ _ _ _ _ _ waiting.voting p proposals fun seq => by
    rw [here, log_entering]
    exact now seq
  rw [log_entering] at stored
  rw [@entering_log cfg l.node]
  exact stored

/-- A proposal for the view of the node is answered if its justification is adopted already. -/
theorem Waiting.answers_early (accepted : Accepted cfg h msg verified)
    (waiting : Waiting cfg (h.entering cfg msg.rdata.propv) candidate h.view msg.rdata.propv held
      answers l) (ready : Ready cfg (h.entering cfg msg.rdata.propv) candidate)
    (current : h.view = msg.rdata.propv) {p : MsgLdrPreparePara} (built : p.prop.just = msg.just)
    (positive : 0 < p.prop.block.seqNumber)
    (within : p.prop.block.seqNumber ≤ cfg.maxBlocksInView)
    (can : vacant cfg (h.entering cfg msg.rdata.propv) p.prop.block.seqNumber = true →
      candidate p.prop) {same : Bool} (compared : msg.just.eq? h.verifiedJust = some same) :
    (handleLdrPreparePara cfg p).Gives (fun _ => Waiting cfg (h.entering cfg msg.rdata.propv)
      candidate h.view msg.rdata.propv
      (if same = false ∧ verified.justv < msg.rdata.justv then
        Function.update held p.prop.block.seqNumber
          (LogPara.withProposal (held p.prop.block.seqNumber) p) else held)
      (if same then Function.update answers p.prop.block.seqNumber
          ((answers p.prop.block.seqNumber).or (offered cfg (h.entering cfg msg.rdata.propv) p))
        else answers)) (fun _ => False) l := by
  have here := view_entering accepted.running accepted.current
  have tagged : p.prop.just.getRDataPara = some msg.rdata := by rw [built]; rfl
  have voting := waiting.voting
  rw [entering_of_view (waiting.view.trans current)] at voting
  have adopted : l.node.verifiedJust = h.verifiedJust := by
    rw [voting.adopted, verifiedJust_entering]
  have known : l.node.verifiedJust.getRDataPara = some verified := by
    rw [adopted]
    exact accepted.tagged
  have compared' : p.prop.just.eq? l.node.verifiedJust = some same := by
    rw [built, adopted]
    exact compared
  have fits : p.prop.block.seqNumber ≤ (l.node.blocksOf l.node.view).length := by
    rw [voting.view, voting.slots]
    exact within
  have ofView : msg.rdata.propv = l.node.view := by rw [voting.view, here]
  -- The lock stays whatever becomes of the proposal.
  have locked : (handleLdrPreparePara cfg p).Gives (fun _ l' =>
      l'.node.tpara.prefixLockedHash = (h.entering cfg msg.rdata.propv).tpara.prefixLockedHash
      ∧ l'.node.tpara.prefixLockedView = (h.entering cfg msg.rdata.propv).tpara.prefixLockedView)
      (fun _ => False) l := by
    refine handleLdrPreparePara_here tagged known ofView compared' positive fits
      (fun _ => waiting.lock) (fun _ valid _ _ => ?_) fun _ _ => ?_
    · refine respondToProposalPara_answers tagged valid ?_ accepted.phase waiting.lock
      rw [voting.component.1, accepted.component]
    · exact storePropPara_gives tagged fun _ _ => waiting.lock
  have voted : (handleLdrPreparePara cfg p).Gives (fun _ => Voting cfg
      (h.entering cfg msg.rdata.propv) candidate (h.entering cfg msg.rdata.propv).verifiedJust
      (if same = false ∧ verified.justv < msg.rdata.justv then
        Function.update held p.prop.block.seqNumber
          (LogPara.withProposal (held p.prop.block.seqNumber) p) else held)
      (if same then Function.update answers p.prop.block.seqNumber
          ((answers p.prop.block.seqNumber).or (offered cfg (h.entering cfg msg.rdata.propv) p))
        else answers)) (fun _ => False) l := by
    cases same with
    | true =>
      rw [if_neg (by simp), if_pos rfl]
      refine voting.heeds ready tagged here.symm accepted.phase ?_ ?_ positive within can
      · rw [← voting.adopted]
        exact compared'
      · rw [built]
        exact accepted.valid
    | false =>
      rw [if_neg (show ¬ (false = true) by simp)]
      refine handleLdrPreparePara_here tagged known ofView compared' positive fits ?_ ?_ ?_
      · rintro (reached | invalid | ⟨alike, -⟩ | ⟨-, older⟩)
        · rw [waiting.running] at reached
          cases reached
        · rw [built] at invalid
          have valid : msg.just.signs.verify cfg.nodes msg.rdata.toString = true := accepted.valid
          rw [valid] at invalid
          cases invalid
        · cases alike
        · rw [if_neg fun both => older both.2]
          exact voting
      · intro _ _ alike _
        cases alike
      · intro _ newer
        rw [if_pos ⟨rfl, newer⟩]
        refine storePropPara_gives tagged fun proposals now => ?_
        exact voting.stored fun seq => by
          rw [here]
          exact now seq
  refine (voted.and locked).mono (fun _ l' ⟨votes, lock⟩ => ?_) fun _ impossible => impossible.1
  have view : l'.node.view = msg.rdata.propv := votes.view.trans here
  refine ⟨?_, view.trans current.symm, ?_, lock⟩
  · rw [← waiting.running, maxViewsReached, maxViewsReached, view, ← ofView]
  · rw [entering_of_view view]
    exact votes

/-- Whatever is the case, a proposal changes what is held, or answered, for its own slot. -/
theorem Waiting.proposal (accepted : Accepted cfg h msg verified)
    (waiting : Waiting cfg (h.entering cfg msg.rdata.propv) candidate h.view msg.rdata.propv held
      answers l) (ready : Ready cfg (h.entering cfg msg.rdata.propv) candidate)
    {p : MsgLdrPreparePara} (built : p.prop.just = msg.just) (positive : 0 < p.prop.block.seqNumber)
    (within : p.prop.block.seqNumber ≤ cfg.maxBlocksInView)
    (can : vacant cfg (h.entering cfg msg.rdata.propv) p.prop.block.seqNumber = true →
      candidate p.prop)
    (compared : h.view = msg.rdata.propv → msg.just.eq? h.verifiedJust ≠ none) :
    (handleLdrPreparePara cfg p).Gives (fun _ => Waiting cfg (h.entering cfg msg.rdata.propv)
      candidate h.view msg.rdata.propv
      (if adoptedBefore h msg = false ∧ putsAway h msg = true then
        Function.update held p.prop.block.seqNumber
          (LogPara.withProposal (held p.prop.block.seqNumber) p) else held)
      (if adoptedBefore h msg then Function.update answers p.prop.block.seqNumber
          ((answers p.prop.block.seqNumber).or (offered cfg (h.entering cfg msg.rdata.propv) p))
        else answers)) (fun _ => False) l := by
  rcases Nat.lt_or_eq_of_le accepted.current with later | current
  · have before : adoptedBefore h msg = false := by
      simp [adoptedBefore, Nat.ne_of_lt later]
    have away : putsAway h msg = true := by simp [putsAway, later]
    rw [before, if_pos ⟨rfl, away⟩]
    exact waiting.puts_away accepted later built
  · obtain ⟨same, compared'⟩ := Option.ne_none_iff_exists'.1 (compared current)
    have before : adoptedBefore h msg = same := by
      cases same <;> simp [adoptedBefore, current, compared']
    have away : putsAway h msg = decide (verified.justv < msg.rdata.justv) := by
      simp [putsAway, current, accepted.tagged]
    simp only [before, away, decide_eq_true_eq]
    exact waiting.answers_early accepted ready current built positive within can compared'

end Adopting

section Orders

variable (cfg h msg)

/-- The proposals that a backup may answer: those delivered, and those it goes through itself. -/
def Candidate (props : List MsgLdrPreparePara) (prop : ParaProposal) : Prop :=
  let entry := h.entering cfg msg.rdata.propv
  vacant cfg entry prop.block.seqNumber = true ∧ ((∃ p ∈ props, p.prop = prop)
    ∨ ∃ seq, 0 < seq ∧ seq ≤ cfg.maxBlocksInView ∧ opens cfg entry msg.just
      (fun seq => h.log.proposalsPara.held (msg.rdata.propv, seq)) seq = some prop)

/--
The proposals delivered are for slots of the view, on a justification that compares, and no two
blocks that may be answered have the same hash in different slots; and going through what it holds
does not disturb the backup.
-/
structure Orderly (props : List MsgLdrPreparePara) : Prop where
  slots : ((h.entering cfg msg.rdata.propv).blocksOf msg.rdata.propv).length = cfg.maxBlocksInView
  within : ∀ p ∈ props, 0 < p.prop.block.seqNumber ∧ p.prop.block.seqNumber ≤ cfg.maxBlocksInView
  compared : props ≠ [] → h.view = msg.rdata.propv → msg.just.eq? h.verifiedJust ≠ none
  apart : ∀ a b, Candidate cfg h msg props a → Candidate cfg h msg props b →
    a.block.hash.hash = b.block.hash.hash → a.block.seqNumber = b.block.seqNumber
  undisturbed : Undisturbed cfg (h.entering cfg msg.rdata.propv) (Candidate cfg h msg props)
    msg.just fun seq => h.log.proposalsPara.held (msg.rdata.propv, seq)

/-- What a backup answers for the slot of a proposal that comes before the announcement. -/
def early (p : MsgLdrPreparePara) : Option ParaProposal :=
  let held := h.log.proposalsPara.held (msg.rdata.propv, p.prop.block.seqNumber)
  if adoptedBefore h msg then some p.prop
  else replayed cfg msg.just h.log msg.rdata.propv p.prop.block.seqNumber
    (if putsAway h msg then LogPara.withProposal held p else held)

/-- What it answers for the slot of a proposal that comes after the announcement. -/
def late (p : MsgLdrPreparePara) : ParaProposal :=
  (replayed cfg msg.just h.log msg.rdata.propv p.prop.block.seqNumber
    (h.log.proposalsPara.held (msg.rdata.propv, p.prop.block.seqNumber))).getD p.prop

/-- The proposals held before the announcement comes. -/
def heldBefore (before : List MsgLdrPreparePara) : Nat → List MsgLdrPreparePara :=
  let held := fun seq => h.log.proposalsPara.held (msg.rdata.propv, seq)
  if adoptedBefore h msg = false ∧ putsAway h msg = true then
    KeyedUpdates.applyAll (·.prop.block.seqNumber) (fun p held => LogPara.withProposal held p)
      before held
  else held

/-- The proposals answered before the announcement comes. -/
def answeredBefore (before : List MsgLdrPreparePara) : Nat → Option ParaProposal :=
  if adoptedBefore h msg then
    KeyedUpdates.applyAll (·.prop.block.seqNumber)
      (fun p answer => answer.or (offered cfg (h.entering cfg msg.rdata.propv) p)) before
      fun _ => none
  else fun _ => none

/-- The proposals answered in the end, some of them delivered before the announcement. -/
def answered (before after : List MsgLdrPreparePara) : Nat → Option ParaProposal :=
  let entry := h.entering cfg msg.rdata.propv
  KeyedUpdates.applyAll (·.prop.block.seqNumber)
    (fun p answer => answer.or (offered cfg entry p)) after
    fun seq => if 0 < seq ∧ seq ≤ cfg.maxBlocksInView then
        (answeredBefore cfg h msg before seq).or
          (opens cfg entry msg.just (heldBefore h msg before) seq)
      else answeredBefore cfg h msg before seq

end Orders

section Runs

variable {props before after : List MsgLdrPreparePara} {verified : RDataPara}
variable {candidate : ParaProposal → Prop} {held : Nat → List MsgLdrPreparePara}
variable {answers : Nat → Option ParaProposal} {l : State}

/-- Proposals that come to a waiting backup. -/
theorem Waiting.proposals (accepted : Accepted cfg h msg verified)
    (ready : Ready cfg (h.entering cfg msg.rdata.propv) candidate) (depth : Nat)
    (built : ∀ p ∈ before, p.prop.just = msg.just)
    (within : ∀ p ∈ before, 0 < p.prop.block.seqNumber
      ∧ p.prop.block.seqNumber ≤ cfg.maxBlocksInView)
    (can : ∀ p ∈ before, vacant cfg (h.entering cfg msg.rdata.propv) p.prop.block.seqNumber = true →
      candidate p.prop)
    (compared : before ≠ [] → h.view = msg.rdata.propv → msg.just.eq? h.verifiedJust ≠ none)
    (waiting : Waiting cfg (h.entering cfg msg.rdata.propv) candidate h.view msg.rdata.propv held
      answers l) :
    ((protocol cfg depth).serve (before.map fun p => .message (.ldrPrepare p))).Gives
      (fun _ => Waiting cfg (h.entering cfg msg.rdata.propv) candidate h.view msg.rdata.propv
        (if adoptedBefore h msg = false ∧ putsAway h msg = true then
          KeyedUpdates.applyAll (·.prop.block.seqNumber)
            (fun p held => LogPara.withProposal held p) before held else held)
        (if adoptedBefore h msg then KeyedUpdates.applyAll (·.prop.block.seqNumber)
            (fun p answer => answer.or (offered cfg (h.entering cfg msg.rdata.propv) p)) before
            answers else answers)) (fun _ => False) l := by
  -- Induction on the proposals; each acts on its own slot.
  induction before generalizing l held answers with
  | nil =>
    simp only [KeyedUpdates.applyAll, ite_self]
    exact waiting
  | cons p before ih =>
    have first := waiting.proposal accepted ready (built p List.mem_cons_self)
      (within p List.mem_cons_self).1 (within p List.mem_cons_self).2 (can p List.mem_cons_self)
      (compared (by simp))
    rw [List.map_cons]
    unfold Protocol.serve
    rw [gives_bind]
    refine Gives.mono first (fun _ l₁ waiting₁ => ?_) fun _ impossible => impossible
    refine (ih (fun q member => built q (List.mem_cons_of_mem _ member))
      (fun q member => within q (List.mem_cons_of_mem _ member))
      (fun q member => can q (List.mem_cons_of_mem _ member)) (fun _ => compared (by simp))
      waiting₁).mono (fun _ l₂ waiting₂ => ?_) fun _ impossible => impossible
    cases adopted : adoptedBefore h msg with
    | true =>
      simp only [adopted, if_true, Bool.true_eq_false, false_and, if_false] at waiting₂ ⊢
      exact waiting₂
    | false =>
      cases away : putsAway h msg with
      | true =>
        simp only [adopted, away, and_self, if_true] at waiting₂ ⊢
        exact waiting₂
      | false =>
        simp only [adopted, away, Bool.false_eq_true, and_false, if_false] at waiting₂ ⊢
        exact waiting₂

/-- Proposals that come to a backup which has adopted their justification. -/
theorem Voting.proposals (accepted : Accepted cfg h msg verified)
    (ready : Ready cfg (h.entering cfg msg.rdata.propv) candidate) (depth : Nat)
    (built : ∀ p ∈ after, p.prop.just = msg.just)
    (within : ∀ p ∈ after, 0 < p.prop.block.seqNumber
      ∧ p.prop.block.seqNumber ≤ cfg.maxBlocksInView)
    (can : ∀ p ∈ after, vacant cfg (h.entering cfg msg.rdata.propv) p.prop.block.seqNumber = true →
      candidate p.prop)
    (voting : Voting cfg (h.entering cfg msg.rdata.propv) candidate msg.just held answers l) :
    ((protocol cfg depth).serve (after.map fun p => .message (.ldrPrepare p))).Gives
      (fun _ => Voting cfg (h.entering cfg msg.rdata.propv) candidate msg.just held
        (KeyedUpdates.applyAll (·.prop.block.seqNumber)
          (fun p answer => answer.or (offered cfg (h.entering cfg msg.rdata.propv) p)) after
          answers)) (fun _ => False) l := by
  induction after generalizing l answers with
  | nil => exact voting
  | cons p after ih =>
    have here := view_entering accepted.running accepted.current
    have tagged : p.prop.just.getRDataPara = some msg.rdata := by
      rw [built p List.mem_cons_self]
      rfl
    have same : p.prop.just.eq? msg.just = some true := by
      rw [built p List.mem_cons_self]
      exact Just.eq?_self _
    have valid : p.prop.just.signs.verify cfg.nodes msg.rdata.toString = true := by
      rw [built p List.mem_cons_self]
      exact accepted.valid
    have first := voting.heeds ready tagged here.symm accepted.phase same valid
      (within p List.mem_cons_self).1 (within p List.mem_cons_self).2 (can p List.mem_cons_self)
    rw [List.map_cons]
    unfold Protocol.serve
    rw [gives_bind]
    refine Gives.mono first (fun _ l₁ voting₁ => ?_) fun _ impossible => impossible
    exact ih (fun q member => built q (List.mem_cons_of_mem _ member))
      (fun q member => within q (List.mem_cons_of_mem _ member))
      (fun q member => can q (List.mem_cons_of_mem _ member)) voting₁

section Slots

variable {p : MsgLdrPreparePara} {seq : Nat}

end Slots

end Runs

section Example

end Example

end HandlerPara

end ParaHotstuff
