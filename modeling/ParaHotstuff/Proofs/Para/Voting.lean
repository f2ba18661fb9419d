import ParaHotstuff.Proofs.Para.Rejections

/-! What a backup answers of the proposals of its view, those it gets and those it holds. -/

namespace ParaHotstuff

/-- The justification that an announcement carries. -/
def MsgVerifyPara.just (msg : MsgVerifyPara) : Just := Just.ofRDataPara msg.rdata msg.signs

/-- Justifications that compare equal have the same signatures, and alike statements. -/
theorem Just.eq?_true {a b : Just} {r : RDataPara} (tagged : a.getRDataPara = some r)
    (same : a.eq? b = some true) :
    ∃ r', b.getRDataPara = some r' ∧ a.signs = b.signs ∧ (r == r') = true := by
  unfold eq? at same
  split at same
  · cases same
  -- The tags are the same, and so are the signatures.
  cases dataA : a.data with
  | RData _ => simp [getRDataPara, dataA] at tagged
  | RDataPara s =>
    obtain rfl : s = r := by simpa [getRDataPara, dataA] using tagged
    cases dataB : b.data with
    | RData _ => simp [dataA, dataB] at same
    | RDataPara s' =>
      simp only [dataA, dataB] at same
      split at same
      · rename_i signs
        exact ⟨s', by simp [getRDataPara, dataB], by simpa using signs, by simpa using same⟩
      · cases same

/-- A justification compares equal with itself. -/
theorem Just.eq?_self (a : Just) : a.eq? a = some true := by
  unfold eq?
  rw [if_neg (by simp)]
  cases a.data with
  | RData r =>
    have same : (r == r) = true := by
      change (r.proph == r.proph && r.propv == r.propv && r.justh == r.justh && r.justv == r.justv
        && r.phase == r.phase) = true
      simp [Hash.beq_iff]
    simp [same]
  | RDataPara r =>
    have same : (r == r) = true := by
      change (r.proph == r.proph && r.propv == r.propv && r.justh == r.justh && r.justv == r.justv
        && r.phase == r.phase && r.seqNumber == r.seqNumber) = true
      simp [Hash.beq_iff]
    simp [same]

/-- Alike statements are of the same view and phase. -/
theorem RDataPara.of_beq {r r' : RDataPara} (alike : (r == r') = true) :
    r.propv = r'.propv ∧ r.phase = r'.phase := by
  change (r.proph == r'.proph && r.propv == r'.propv && r.justh == r'.justh
    && r.justv == r'.justv && r.phase == r'.phase && r.seqNumber == r'.seqNumber) = true at alike
  simp only [Bool.and_eq_true, beq_iff_eq] at alike
  exact ⟨alike.1.1.1.1.2, alike.1.2⟩

namespace LogPara

/-- The proposals held for a slot once another one is stored there. -/
def withProposal (held : List MsgLdrPreparePara) (msg : MsgLdrPreparePara) :
    List MsgLdrPreparePara :=
  if Messages.msgFrom (·.signs) held msg.signs.getSigners then held
  else OrderedSet.insert MsgLdrPreparePara.lt msg held

/-- A proposal is stored for its slot, in the view of its justification. -/
theorem held_storePropPara {log : LogPara} {msg : MsgLdrPreparePara} {rd : RDataPara}
    (tagged : msg.prop.just.getRDataPara = some rd) :
    ∃ count proposals, log.storePropPara msg = some (count, { log with proposalsPara := proposals })
      ∧ ∀ v seq, proposals.held (v, seq) = if (v, seq) = (rd.propv, msg.prop.block.seqNumber) then
          withProposal (log.proposalsPara.held (v, seq)) msg
        else log.proposalsPara.held (v, seq) := by
  refine ⟨_, _, by rw [storePropPara, tagged], fun v seq => ?_⟩
  rw [Messages.storeAndCount, Messages.held_insert]
  by_cases here : (v, seq) = (rd.propv, msg.prop.block.seqNumber)
  · rw [if_pos here, if_pos here, withProposal, here]
    cases Messages.msgFrom (·.signs)
      (log.proposalsPara.held (rd.propv, msg.prop.block.seqNumber)) msg.signs.getSigners <;> rfl
  · rw [if_neg here, if_neg here]

/-- A proposal with a signature that is held already is not stored again. -/
theorem withProposal_of_mem {held : List MsgLdrPreparePara} {msg : MsgLdrPreparePara}
    (member : msg ∈ held) (signed : msg.signs ≠ []) : withProposal held msg = held := by
  have covered : Messages.msgFrom (·.signs) held msg.signs.getSigners = true := by
    -- Each of its signers has a signature among those held, its own.
    have among : ∀ s ∈ msg.signs, s ∈ Messages.allSigns (·.signs) held := fun s signs =>
      List.mem_flatMap.2 ⟨msg, member, signs⟩
    rw [Messages.msgFrom, Messages.signersFrom_iff]
    constructor
    · obtain ⟨s, signs⟩ := List.exists_mem_of_ne_nil _ signed
      intro none_held
      have none_signed : Messages.allSigns (·.signs) held = [] := by
        simpa [Signs.getSigners] using none_held
      have listed := among s signs
      rw [none_signed] at listed
      cases listed
    · intro p signer
      obtain ⟨s, signs, rfl⟩ := List.mem_map.1 signer
      exact List.mem_map.2 ⟨s, among s signs, rfl⟩
  rw [withProposal, if_pos covered]

variable (log : LogPara) (qsize : Nat) (view : View) (seqNumber : Nat)

/-- The certificate that a backup goes through for a slot, if the log holds a full one. -/
def certificate : Option Just :=
  if (log.getPrecommitPara view qsize seqNumber).length == qsize then
    some (log.firstPrecommitPara view seqNumber)
  else if (log.getPreparePara view qsize seqNumber).length == qsize then
    some (log.firstPreparePara view seqNumber)
  else none

/-- The proposal that it goes through instead: the first one held, if that has one signature. -/
def recalled (held : List MsgLdrPreparePara) : Option MsgLdrPreparePara :=
  if (log.certificate qsize view seqNumber).isSome then none
  else held.head?.filter fun msg => msg.signs.length == 1

end LogPara

/-- The vote that a component signs for a proposal. -/
def TrustedPara.voteFor [Hashing] (tp : TrustedPara) (prop : ParaProposal) : MsgPreparePara :=
  let rdata := prop.just.getRDataPara.getD .default
  let vote := tp.blockStatement prop.block.hash rdata.justh rdata.justv prop.block.seqNumber
  ⟨vote, [tp.signature vote]⟩

namespace HandlerPara

open Program Local

section Definitions

variable (cfg : Config)

/-- Whether a slot of the view of a node can still be voted for. -/
def vacant (h : HandlerPara) (seqNumber : Nat) : Bool :=
  !maxViewsReached cfg h && !(h.blockAt seqNumber).isBlock

/-- Whether a proposal rests on a justification, and that on valid signatures. -/
def restsOn (just : Just) (prop : ParaProposal) : Bool :=
  prop.just.eq? just == some true && verifyJustPara cfg prop.just == some true

/-- The proposal for a slot that a backup answers when it adopts a justification. -/
def replayed (just : Just) (log : LogPara) (view : View) (seqNumber : Nat)
    (held : List MsgLdrPreparePara) : Option ParaProposal :=
  ((log.recalled cfg.qsize view seqNumber held).map (·.prop)).filter (restsOn cfg just)

/-- The prepare votes among packets. -/
def prepareVotes (sent : List (Packet MsgPara)) : List MsgPreparePara :=
  sent.filterMap fun packet => match packet.msg with
    | .prepare msg => some msg
    | _ => none

variable [Hashing]

/--
How a backup has come from where it entered its view: the justification it adopted, the proposals it
holds, and those it has answered, slot by slot.

Nothing else matters to what it answers further on.
-/
structure Voting (entry : HandlerPara) (candidate : ParaProposal → Prop) (adopted : Just)
    (held : Nat → List MsgLdrPreparePara) (answers : Nat → Option ParaProposal) (l : State) :
    Prop where
  myid : l.node.myid = entry.myid
  view : l.node.view = entry.view
  adopted : l.node.verifiedJust = adopted
  component : l.node.tpara.view = entry.tpara.view ∧ l.node.tpara.id = entry.tpara.id
    ∧ l.node.tpara.priv = entry.tpara.priv
  log : { l.node.log with proposalsPara := entry.log.proposalsPara } = entry.log
  held : ∀ seq, l.node.log.proposalsPara.held (entry.view, seq) = held seq
  slots : (l.node.blocksOf entry.view).length = cfg.maxBlocksInView
  blocks : ∀ v, (v = entry.view → ∀ seq, answers seq = none) →
    l.node.blocksOf v = entry.blocksOf v
  filled : ∀ seq, 0 < seq → seq ≤ cfg.maxBlocksInView →
    (l.node.blockAt seq).isBlock = ((entry.blockAt seq).isBlock || (answers seq).isSome)
  phases : ∀ prop, candidate prop → answers prop.block.seqNumber = none →
    l.node.tpara.phaseOf prop.block.hash = entry.tpara.phaseOf prop.block.hash
  own : ∀ seq prop, answers seq = some prop → prop.block.seqNumber = seq
  votes : ∀ vote, vote ∈ prepareVotes l.sent ↔
    ∃ seq prop, answers seq = some prop ∧ vote = entry.tpara.voteFor prop

end Definitions

section Packets

theorem mem_prepareVotes {sent : List (Packet MsgPara)} {vote : MsgPreparePara} :
    vote ∈ prepareVotes sent ↔ ∃ packet ∈ sent, packet.msg = .prepare vote := by
  unfold prepareVotes
  rw [List.mem_filterMap]
  constructor
  · rintro ⟨packet, member, found⟩
    cases packet with
    | mk dest msg => cases msg with
      | prepare m => exact ⟨_, member, congrArg MsgPara.prepare (Option.some.inj found)⟩
      | _ => cases found
  · rintro ⟨packet, member, same⟩
    exact ⟨packet, member, by rw [same]⟩

/-- Packets with other messages are no votes. -/
theorem mem_prepareVotes_append {sent : List (Packet MsgPara)} {dests : List Nat} {msg : MsgPara}
    (other : ∀ m, msg ≠ .prepare m) {vote : MsgPreparePara} :
    vote ∈ prepareVotes (sent ++ dests.map (⟨·, msg⟩)) ↔ vote ∈ prepareVotes sent := by
  rw [mem_prepareVotes, mem_prepareVotes]
  constructor
  · rintro ⟨packet, member, same⟩
    rcases List.mem_append.1 member with old | new
    · exact ⟨packet, old, same⟩
    · obtain ⟨dest, -, rfl⟩ := List.mem_map.1 new
      exact absurd same (other vote)
  · rintro ⟨packet, member, same⟩
    exact ⟨packet, List.mem_append_left _ member, same⟩

/-- A vote that is sent to somebody is among the votes. -/
theorem mem_prepareVotes_vote {sent : List (Packet MsgPara)} {dests : List Nat}
    {m : MsgPreparePara} (some_dest : dests ≠ []) {vote : MsgPreparePara} :
    vote ∈ prepareVotes (sent ++ dests.map (⟨·, .prepare m⟩))
      ↔ vote ∈ prepareVotes sent ∨ vote = m := by
  rw [mem_prepareVotes, mem_prepareVotes]
  constructor
  · rintro ⟨packet, member, same⟩
    rcases List.mem_append.1 member with old | new
    · exact .inl ⟨packet, old, same⟩
    · obtain ⟨dest, -, rfl⟩ := List.mem_map.1 new
      exact .inr (MsgPara.prepare.inj same).symm
  · rintro (⟨packet, member, same⟩ | rfl)
    · exact ⟨packet, List.mem_append_left _ member, same⟩
    · obtain ⟨dest, member⟩ := List.exists_mem_of_ne_nil _ some_dest
      exact ⟨⟨dest, .prepare vote⟩,
        List.mem_append_right _ (List.mem_map.2 ⟨dest, member, rfl⟩), rfl⟩

end Packets

variable [Hashing] {cfg : Config} {entry : HandlerPara} {candidate : ParaProposal → Prop}
variable {adopted : Just} {held : Nat → List MsgLdrPreparePara}
variable {answers : Nat → Option ParaProposal} {l : State} {H : List ParaEvent}

omit [Hashing] in
/-- A proposal is stored for its slot, in the view of its justification. -/
theorem storePropPara_gives {msg : MsgLdrPreparePara} {rd : RDataPara} {post : State → Prop}
    (tagged : msg.prop.just.getRDataPara = some rd)
    (given : ∀ proposals : Messages (View × Nat) MsgLdrPreparePara,
      (∀ seq, proposals.held (rd.propv, seq) = if seq = msg.prop.block.seqNumber then
          LogPara.withProposal (l.node.log.proposalsPara.held (rd.propv, seq)) msg
        else l.node.log.proposalsPara.held (rd.propv, seq)) →
      post { l with
        node := { l.node with log := { l.node.log with proposalsPara := proposals } } }) :
    (storePropPara msg).Gives (fun _ => post) (fun _ => False) l := by
  obtain ⟨count, proposals, stored, now⟩ := @LogPara.held_storePropPara l.node.log msg rd tagged
  unfold storePropPara
  rw [gives_bind, gives_this, stored, gives_bind, gives_ofOption_some, gives_modify]
  refine given proposals fun seq => ?_
  rw [now]
  by_cases same : seq = msg.prop.block.seqNumber
  · rw [if_pos same, if_pos (by rw [same])]
  · rw [if_neg same, if_neg fun both => same (Prod.mk.inj both).2]

namespace Voting

/-- It makes no difference how much is executed. -/
theorem frame (voting : Voting cfg entry candidate adopted held answers l) {h : HandlerPara}
    (same : Frame l.node h) (blocks : ∀ v, h.blocksOf v = l.node.blocksOf v) :
    Voting cfg entry candidate adopted held answers { l with node := h, history := H } where
  myid := same.myid.trans voting.myid
  view := same.view.trans voting.view
  adopted := same.verifiedJust.trans voting.adopted
  component := by rw [same.tpara]; exact voting.component
  log := by rw [same.log]; exact voting.log
  held := by rw [same.log]; exact voting.held
  slots := by rw [blocks]; exact voting.slots
  blocks := fun v none_here => (blocks v).trans (voting.blocks v none_here)
  filled := fun seq positive within => by
    have block : h.blockAt seq = l.node.blockAt seq := by
      unfold blockAt
      rw [same.view, blocks]
    rw [block]
    exact voting.filled seq positive within
  phases := by rw [same.tpara]; exact voting.phases
  own := voting.own
  votes := voting.votes

/-- Nor what else is sent. -/
theorem send (voting : Voting cfg entry candidate adopted held answers l) {msg : MsgPara}
    (other : ∀ m, msg ≠ .prepare m) (dests : List Nat) :
    Voting cfg entry candidate adopted held answers
      { l with sent := l.sent ++ dests.map (⟨·, msg⟩) } :=
  { voting with
    votes := fun vote => by
      rw [← voting.votes vote]
      exact mem_prepareVotes_append other }

/-- The component may move on as long as the phases of the candidates stay. -/
theorem trust (voting : Voting cfg entry candidate adopted held answers l) {tp : TrustedPara}
    (same : tp.view = l.node.tpara.view ∧ tp.id = l.node.tpara.id ∧ tp.priv = l.node.tpara.priv)
    (phases : ∀ prop, candidate prop → tp.phaseOf prop.block.hash
      = l.node.tpara.phaseOf prop.block.hash) :
    Voting cfg entry candidate adopted held answers
      { l with node := { l.node with tpara := tp }, history := H } :=
  { voting with
    component := ⟨same.1.trans voting.component.1, same.2.1.trans voting.component.2.1,
      same.2.2.trans voting.component.2.2⟩
    phases := fun prop can open' => (phases prop can).trans (voting.phases prop can open')
    filled := voting.filled }

/-- Storing a proposal changes what is held for its slot. -/
theorem stored (voting : Voting cfg entry candidate adopted held answers l)
    {msg : MsgLdrPreparePara} {proposals : Messages (View × Nat) MsgLdrPreparePara}
    (now : ∀ seq, proposals.held (entry.view, seq) = if seq = msg.prop.block.seqNumber then
      LogPara.withProposal (l.node.log.proposalsPara.held (entry.view, seq)) msg
    else l.node.log.proposalsPara.held (entry.view, seq)) :
    Voting cfg entry candidate adopted
      (Function.update held msg.prop.block.seqNumber
        (LogPara.withProposal (held msg.prop.block.seqNumber) msg)) answers
      { l with node := { l.node with log := { l.node.log with proposalsPara := proposals } } } :=
  { voting with
    filled := voting.filled
    held := fun seq => by
      rw [now]
      by_cases same : seq = msg.prop.block.seqNumber
      · subst same
        rw [if_pos rfl, Function.update_self, voting.held]
      · rw [if_neg same, Function.update_of_ne same, voting.held] }

omit [Hashing] in
/-- Moving the phase of one block on leaves that of every other one. -/
theorem phaseOf_increment_of_ne {tp : TrustedPara} {hash other : Hash}
    (differ : other.hash ≠ hash.hash) :
    (tp.increment_block_phase hash).phaseOf other = tp.phaseOf other := by
  unfold TrustedPara.increment_block_phase TrustedPara.phaseOf
  rw [AList.lookup_insert_ne differ]

/-- The first proposal answered for a slot fills it, and the vote for it is sent. -/
theorem answer (voting : Voting cfg entry candidate adopted held answers l)
    (apart : ∀ a b, candidate a → candidate b → a.block.hash.hash = b.block.hash.hash →
      a.block.seqNumber = b.block.seqNumber)
    (backup : cfg.amLeaderOf entry.myid entry.view = false) {prop : ParaProposal} {rd : RDataPara}
    (tagged : prop.just.getRDataPara = some rd) (can : candidate prop)
    (open' : answers prop.block.seqNumber = none) (positive : 0 < prop.block.seqNumber)
    (within : prop.block.seqNumber ≤ cfg.maxBlocksInView) :
    Voting cfg entry candidate adopted held
      (Function.update answers prop.block.seqNumber (some prop))
      (answering cfg l prop.just prop.block (l.node.tpara.blockStatement prop.block.hash rd.justh
        rd.justv prop.block.seqNumber)) := by
  obtain ⟨component, id, priv⟩ := voting.component
  -- What is signed is what the component would have signed on entering the view.
  have signed : (⟨l.node.tpara.blockStatement prop.block.hash rd.justh rd.justv
      prop.block.seqNumber, [l.node.tpara.signature (l.node.tpara.blockStatement prop.block.hash
        rd.justh rd.justv prop.block.seqNumber)]⟩ : MsgPreparePara) = entry.tpara.voteFor prop := by
    unfold TrustedPara.voteFor TrustedPara.blockStatement TrustedPara.signature
    rw [tagged, Option.getD_some, component, id, priv, voting.phases prop can open']
  have sends : cfg.keep_from_peers l.node.myid (cfg.getLeaderOf l.node.view) ≠ [] := by
    have other : cfg.getLeaderOf entry.view ≠ entry.myid := fun leads => by
      rw [Config.amLeaderOf_iff.2 leads] at backup
      cases backup
    rw [voting.myid, voting.view]
    apply List.ne_nil_of_mem
    exact Config.mem_keep_from_peers.2 ⟨Nat.mod_lt _ (Nat.succ_pos _), other, rfl⟩
  have recorded : ∀ v, (answering cfg l prop.just prop.block (l.node.tpara.blockStatement
      prop.block.hash rd.justh rd.justv prop.block.seqNumber)).node.blocksOf v
      = if v = entry.view then
          (l.node.blocksOf entry.view).set (prop.block.seqNumber - 1) prop.block
        else l.node.blocksOf v := by
    intro v
    rw [← voting.view]
    by_cases same : v = l.node.view
    · subst same
      simp [answering, setBlock, blocksOf]
    · simp [answering, setBlock, blocksOf, same]
  refine
    { myid := voting.myid
      view := voting.view
      adopted := voting.adopted
      component := voting.component
      log := voting.log
      held := voting.held
      slots := by rw [recorded, if_pos rfl, List.length_set, voting.slots]
      blocks := fun v none_here => ?_
      filled := fun seq positive' within' => ?_
      phases := fun other can' open'' => ?_
      own := fun seq q found => ?_
      votes := fun vote => ?_ }
  · have elsewhere : v ≠ entry.view := fun same => by
      have none_there := none_here same prop.block.seqNumber
      rw [Function.update_self] at none_there
      cases none_there
    rw [recorded, if_neg elsewhere]
    exact voting.blocks v fun same => absurd same elsewhere
  · have before := voting.filled seq positive' within'
    have view : (answering cfg l prop.just prop.block (l.node.tpara.blockStatement prop.block.hash
      rd.justh rd.justv prop.block.seqNumber)).node.view = entry.view := voting.view
    have slots := voting.slots
    rw [blockAt, if_neg (Nat.pos_iff_ne_zero.1 positive'), view, recorded, if_pos rfl]
    rw [blockAt, if_neg (Nat.pos_iff_ne_zero.1 positive'), voting.view] at before
    by_cases same : seq = prop.block.seqNumber
    · subst same
      rw [Function.update_self, List.getD_eq_getElem?_getD, List.getElem?_set_self (by omega)]
      simp [PBlock.isBlock, Nat.pos_iff_ne_zero.1 positive']
    · rw [Function.update_of_ne same, ← before, List.getD_eq_getElem?_getD,
        List.getElem?_set_ne (by omega), List.getD_eq_getElem?_getD]
  · by_cases same : other.block.seqNumber = prop.block.seqNumber
    · rw [same, Function.update_self] at open''
      cases open''
    · rw [Function.update_of_ne same] at open''
      have differ : other.block.hash.hash ≠ prop.block.hash.hash :=
        fun alike => same (apart other prop can' can alike)
      exact (phaseOf_increment_of_ne differ).trans (voting.phases other can' open'')
  · by_cases same : seq = prop.block.seqNumber
    · rw [same, Function.update_self] at found
      rw [same, Option.some.inj found]
    · rw [Function.update_of_ne same] at found
      exact voting.own seq q found
  · refine (mem_prepareVotes_vote sends).trans ?_
    rw [voting.votes vote, signed]
    constructor
    · rintro (⟨seq, q, found, rfl⟩ | rfl)
      · have other : seq ≠ prop.block.seqNumber := fun same => by
          rw [same, open'] at found
          cases found
        exact ⟨seq, q, by rw [Function.update_of_ne other]; exact found, rfl⟩
      · exact ⟨prop.block.seqNumber, prop, Function.update_self .., rfl⟩
    · rintro ⟨seq, q, found, rfl⟩
      by_cases same : seq = prop.block.seqNumber
      · rw [same, Function.update_self] at found
        obtain rfl := Option.some.inj found
        exact .inr rfl
      · rw [Function.update_of_ne same] at found
        exact .inl ⟨seq, q, found, rfl⟩

end Voting

section Handling

variable {msg : MsgLdrPreparePara} {rd vr : RDataPara} {same : Bool} {post : State → Prop}

/-- A proposal for the view of a backup is answered, stored, or passed over. -/
theorem handleLdrPreparePara_here (tagged : msg.prop.just.getRDataPara = some rd)
    (verified : l.node.verifiedJust.getRDataPara = some vr) (here : rd.propv = l.node.view)
    (compared : msg.prop.just.eq? l.node.verifiedJust = some same)
    (positive : 0 < msg.prop.block.seqNumber)
    (within : msg.prop.block.seqNumber ≤ (l.node.blocksOf l.node.view).length)
    (passes : (maxViewsReached cfg l.node = true ∨ msg.prop.just.signs.verify cfg.nodes rd.toString
        = false ∨ (same = true ∧ (l.node.blockAt msg.prop.block.seqNumber).isBlock = true)
        ∨ (same = false ∧ ¬ vr.justv < rd.justv)) → post l)
    (answers : maxViewsReached cfg l.node = false →
      msg.prop.just.signs.verify cfg.nodes rd.toString = true → same = true →
      (l.node.blockAt msg.prop.block.seqNumber).isBlock = false →
      (respondToProposalPara cfg msg.prop.just msg.prop.block).Gives (fun _ => post)
        (fun _ => False) l)
    (stores : same = false → vr.justv < rd.justv →
      (storePropPara msg).Gives (fun _ => post) (fun _ => False) l) :
    (handleLdrPreparePara cfg msg).Gives (fun _ => post) (fun _ => False) l := by
  have valid : verifyJustPara cfg msg.prop.just
      = some (msg.prop.just.signs.verify cfg.nodes rd.toString) := by
    rw [verifyJustPara, tagged]
  unfold handleLdrPreparePara
  rw [gives_bind, gives_this]
  refine gives_ite (fun reached => passes (.inl reached)) fun running => ?_
  simp only [tagged, verified, valid, gives_bind, gives_ofOption_some]
  refine gives_ite (fun refused => ?_) fun accepted => ?_
  · -- Its view is no earlier one, so its signatures are not valid.
    simp only [here, Nat.lt_irrefl, decide_false, Bool.false_or, Bool.not_eq_true'] at refused
    exact passes (.inr (.inl refused))
  simp only [here, Nat.lt_irrefl, decide_false, Bool.false_or, Bool.not_eq_true',
    Bool.not_eq_false] at accepted
  rw [if_pos (beq_iff_eq.2 here), gives_bind]
  refine sameJust_gives (fun answer known => ?_) fun unknown => ?_
  · obtain rfl := Option.some.inj (compared.symm.trans known)
    refine gives_ite (fun alike => ?_) fun differ => ?_
    · refine gives_ite (fun outside => ?_) fun _ => gives_ite (fun empty => ?_) fun full => ?_
      · simp only [Bool.or_eq_true, decide_eq_true_eq] at outside
        omega
      · exact answers (by simpa using running) accepted alike (by simpa using empty)
      · exact passes (.inr (.inr (.inl ⟨alike, by simpa using full⟩)))
    · rw [Bool.not_eq_true] at differ
      refine gives_ite (fun newer => ?_) fun older => ?_
      · exact stores differ newer
      · exact passes (.inr (.inr (.inr ⟨differ, older⟩)))
  · rw [compared] at unknown
    cases unknown

/-- The component of a backup votes on a justification that it has checked. -/
theorem respondToProposalPara_answers (tagged : msg.prop.just.getRDataPara = some rd)
    (valid : msg.prop.just.signs.verify cfg.nodes rd.toString = true)
    (here : l.node.tpara.view = rd.propv) (phase : rd.phase = PH1_NEWVIEW)
    (answered : post (answering cfg l msg.prop.just msg.prop.block
      (l.node.tpara.blockStatement msg.prop.block.hash rd.justh rd.justv
        msg.prop.block.seqNumber))) :
    (respondToProposalPara cfg msg.prop.just msg.prop.block).Gives (fun _ => post)
      (fun _ => False) l := by
  have votes : l.node.tpara.votesOn cfg.nodes msg.prop.just = true := by
    simp [TrustedPara.votesOn, tagged, valid, here, phase]
  rcases TrustedPara.TEEprepare_cases l.node.tpara cfg.nodes msg.prop.block msg.prop.just with
    ⟨refuses, -⟩ | ⟨rd', tagged', -, signs⟩
  · rw [votes] at refuses
    cases refuses
  · obtain rfl := Option.some.inj (tagged.symm.trans tagged')
    unfold respondToProposalPara callTEEpreparePara
    rw [gives_bind, gives_bind, gives_this, signs]
    exact answered

end Handling

/-- What holds of a backup on entering a view, and of the proposals that it may answer there. -/
structure Ready (cfg : Config) (entry : HandlerPara) (candidate : ParaProposal → Prop) : Prop where
  backup : cfg.amLeaderOf entry.myid entry.view = false
  component : entry.tpara.view = entry.view
  apart : ∀ a b, candidate a → candidate b → a.block.hash.hash = b.block.hash.hash →
    a.block.seqNumber = b.block.seqNumber

namespace Voting

/-- A slot that is answered is vacant no more. -/
theorem vacant_cases (voting : Voting cfg entry candidate adopted held answers l) {seq : Nat}
    (positive : 0 < seq) (within : seq ≤ cfg.maxBlocksInView)
    (closed : maxViewsReached cfg l.node = true ∨ (l.node.blockAt seq).isBlock = true)
    (more : Option ParaProposal) :
    (answers seq).or (if vacant cfg entry seq then more else none) = answers seq := by
  cases open' : answers seq with
  | some prop => rfl
  | none =>
    -- It was filled, or the last view reached, from the beginning.
    have taken : vacant cfg entry seq = false := by
      have filled := voting.filled seq positive within
      rw [open', Option.isSome_none, Bool.or_false] at filled
      rcases closed with reached | full
      · have same : maxViewsReached cfg entry = true := by
          rw [← reached, maxViewsReached, maxViewsReached, voting.view]
        simp [vacant, same]
      · simp [vacant, ← filled, full]
    simp [taken]

/-- A proposal on the justification adopted is answered if its slot is still vacant. -/
theorem heeds (voting : Voting cfg entry candidate adopted held answers l)
    (ready : Ready cfg entry candidate) {msg : MsgLdrPreparePara} {rd : RDataPara}
    (tagged : msg.prop.just.getRDataPara = some rd) (here : rd.propv = entry.view)
    (phase : rd.phase = PH1_NEWVIEW) (same : msg.prop.just.eq? adopted = some true)
    (valid : msg.prop.just.signs.verify cfg.nodes rd.toString = true)
    (positive : 0 < msg.prop.block.seqNumber)
    (within : msg.prop.block.seqNumber ≤ cfg.maxBlocksInView)
    (can : vacant cfg entry msg.prop.block.seqNumber = true → candidate msg.prop) :
    (handleLdrPreparePara cfg msg).Gives (fun _ => Voting cfg entry candidate adopted held
      (Function.update answers msg.prop.block.seqNumber ((answers msg.prop.block.seqNumber).or
        (if vacant cfg entry msg.prop.block.seqNumber then some msg.prop else none))))
      (fun _ => False) l := by
  obtain ⟨vr, verified, -, -⟩ := Just.eq?_true tagged same
  rw [← voting.adopted] at same verified
  refine handleLdrPreparePara_here tagged verified (here.trans voting.view.symm) same positive
    (by rw [voting.view, voting.slots]; exact within) ?_ ?_ fun differ => by cases differ
  · -- The node passes over it, since its slot is filled.
    rintro (reached | invalid | ⟨-, full⟩ | ⟨differ, -⟩)
    · rw [voting.vacant_cases positive within (.inl reached), Function.update_eq_self]
      exact voting
    · rw [valid] at invalid
      cases invalid
    · rw [voting.vacant_cases positive within (.inr full), Function.update_eq_self]
      exact voting
    · cases differ
  · intro running _ _ empty
    have filled := voting.filled _ positive within
    rw [empty, eq_comm, Bool.or_eq_false_iff] at filled
    have open' : answers msg.prop.block.seqNumber = none := by simpa using filled.2
    have free : vacant cfg entry msg.prop.block.seqNumber = true := by
      have same : maxViewsReached cfg entry = false := by
        rw [← running, maxViewsReached, maxViewsReached, voting.view]
      simp [vacant, same, filled.1]
    rw [open', free]
    exact respondToProposalPara_answers tagged valid
      (voting.component.1.trans (ready.component.trans here.symm)) phase
      (voting.answer ready.apart ready.backup tagged (can free) open' positive within)

end Voting

section Replaying

variable {earlier : M Unit} {cert : RDataPara}

omit [Hashing] in
/-- The slots counted lie in front of the one that they lead to. -/
theorem findHighestSeq_le (h : HandlerPara) (seqNumber : Nat) :
    h.findHighestSeq seqNumber ≤ seqNumber := by
  unfold findHighestSeq
  calc _ ≤ (List.range' 1 seqNumber).length := (List.takeWhile_sublist _).length_le
    _ = seqNumber := List.length_range'

namespace Voting

/-- Executing slots before the last one leaves the node in its view. -/
theorem executeSlots_waits (voting : Voting cfg entry candidate adopted held answers l)
    (slots seq : Nat) (prevHash : Hash) (prevBlockExists : Bool)
    (within : seq + slots ≤ cfg.maxBlocksInView) :
    (executeSlots cfg earlier entry.view slots seq prevHash prevBlockExists).Gives
      (fun _ => Voting cfg entry candidate adopted held answers) (fun _ => False) l := by
  induction slots generalizing l seq prevHash prevBlockExists with
  | zero => exact voting
  | succ slots ih =>
    have visited : Voting cfg entry candidate adopted held answers (visiting l entry.view seq) :=
      voting.frame (frame_visit _ _ _) fun _ => rfl
    unfold executeSlots
    rw [gives_bind, gives_accessSlot, gives_bind, gives_this]
    refine gives_ite (fun _ => visited) fun _ => ?_
    rw [gives_bind]
    have slot : (executeSlot cfg earlier seq
        (l.node.log.getCommitForSeq entry.view seq).rdata).Gives
        (fun _ => Voting cfg entry candidate adopted held answers) (fun _ => False)
        (visiting l entry.view seq) := by
      unfold executeSlot
      refine gives_ite (fun first => ?_) fun _ => visited
      -- It is not the last slot, so there is nothing but a mark.
      have before : (l.node.log.getCommitForSeq entry.view seq).rdata.seqNumber
          ≠ cfg.maxBlocksInView := by
        rw [beq_iff_eq.1 first]
        omega
      refine executeRDataPara_gives (fun last => absurd last before)
        (fun last => absurd last before) fun _ => ?_
      exact visited.frame (frame_executing _ _) fun _ => rfl
    refine slot.mono (fun _ l₁ voting₁ => ?_) fun _ impossible => impossible
    refine gives_ite (fun _ => ?_) fun _ => ?_
    · exact ih voting₁ _ _ _ (by omega)
    · exact ih voting₁ _ _ _ (by omega)

/-- So does executing up to a slot, unless all slots of the view have commit messages. -/
theorem executeUpTo_waits (voting : Voting cfg entry candidate adopted held answers l)
    (seqNumber : Nat) (short : l.node.findHighestSeq seqNumber < cfg.maxBlocksInView) :
    (executeUpTo cfg earlier seqNumber).Gives
      (fun _ => Voting cfg entry candidate adopted held answers) (fun _ => False) l := by
  unfold executeUpTo
  rw [gives_bind, gives_this]
  refine gives_ite (fun further => ?_) fun _ => voting
  unfold executeBlocksFrom
  refine gives_ite (fun _ => voting) fun _ => ?_
  rw [gives_bind, voting.view]
  unfold accessBefore
  refine gives_ite (fun _ => ?_) fun _ => ?_
  · have visited : Voting cfg entry candidate adopted held answers
        (visiting l entry.view (l.node.lastExecutedSeq + 1 - 1)) :=
      voting.frame (frame_visit _ _ _) fun _ => rfl
    rw [gives_accessSlot, gives_bind, gives_this]
    exact gives_ite (fun _ => visited.executeSlots_waits _ _ _ _ (by omega)) fun _ =>
      visited.executeSlots_waits _ _ _ _ (by omega)
  · rw [gives_pure, gives_bind, gives_this]
    exact gives_ite (fun _ => voting.executeSlots_waits _ _ _ _ (by omega)) fun _ =>
      voting.executeSlots_waits _ _ _ _ (by omega)

/-- A certificate moves on the phase of its own block only. -/
theorem accept (voting : Voting cfg entry candidate adopted held answers l)
    (covered : ∀ prop, candidate prop → prop.block.hash.hash ≠ cert.proph.hash) :
    Voting cfg entry candidate adopted held answers
      { l with
        node := { l.node with
          tpara := (l.node.tpara.record cert l.node.blockAt).increment_block_phase cert.proph }
        history := H } := by
  refine voting.trust ⟨?_, ?_, ?_⟩ fun prop can => ?_
  · exact TrustedPara.view_record _ cert _
  · exact TrustedPara.id_record _ cert _
  · exact TrustedPara.priv_record _ cert _
  · rw [phaseOf_increment_of_ne (covered prop can)]
    unfold TrustedPara.phaseOf
    rw [TrustedPara.blockPhases_record]

/-- Answering a prepare certificate is no vote for a proposal. -/
theorem respondToPrepare (voting : Voting cfg entry candidate adopted held answers l) {just : Just}
    (tagged : just.getRDataPara = some cert)
    (covered : ∀ prop, candidate prop → prop.block.hash.hash ≠ cert.proph.hash) :
    (respondToPrepareJustPara cfg just).Gives
      (fun _ => Voting cfg entry candidate adopted held answers) (fun _ => False) l := by
  unfold respondToPrepareJustPara
  rw [gives_bind]
  refine callTEEstorePara_gives (fun untagged => ?_) ?_ fun cert' tagged' _ _ _ _ tp r recorded _ => ?_
  · rw [tagged] at untagged
    cases untagged
  · exact voting.send (fun m (same : MsgPara.preCommit ⟨.default, []⟩ = .prepare m) => by cases same) _
  · obtain rfl := Option.some.inj (tagged.symm.trans tagged')
    subst recorded
    exact (voting.accept covered).send
      (fun m (same : MsgPara.preCommit ⟨r, [_]⟩ = .prepare m) => by cases same) _

/-- Nor is answering a pre-commit certificate. -/
theorem respondToPreCommit (voting : Voting cfg entry candidate adopted held answers l)
    {just : Just} (tagged : just.getRDataPara = some cert)
    (covered : ∀ prop, candidate prop → prop.block.hash.hash ≠ cert.proph.hash) :
    (respondToPreCommitJustPara cfg just).Gives
      (fun _ => Voting cfg entry candidate adopted held answers) (fun _ => False) l := by
  unfold respondToPreCommitJustPara
  rw [tagged, gives_bind, gives_ofOption_some, gives_bind]
  refine callTEEstorePara_gives (fun untagged => ?_) ?_ fun cert' tagged' _ _ _ _ tp r recorded _ => ?_
  · rw [tagged] at untagged
    cases untagged
  · exact voting.send (fun m (same : MsgPara.commit ⟨.default, []⟩ = .prepare m) => by cases same) _
  · obtain rfl := Option.some.inj (tagged.symm.trans tagged')
    subst recorded
    exact (voting.accept covered).send
      (fun m (same : MsgPara.commit ⟨r, [_]⟩ = .prepare m) => by cases same) _

end Voting

omit [Hashing] in
/-- What a backup answers for a slot when it goes through what it holds. -/
def opens (cfg : Config) (entry : HandlerPara) (just : Just)
    (held : Nat → List MsgLdrPreparePara) (seq : Nat) : Option ParaProposal :=
  if vacant cfg entry seq then replayed cfg just entry.log entry.view seq (held seq) else none

/--
What a backup holds lets it go through it without being disturbed.

The proposals it would go through are kept under their own slots and views, and compare with the
justification adopted; the certificates it goes through are for other blocks than those of the
candidates; and what it executes does not complete the view.
-/
structure Undisturbed (cfg : Config) (entry : HandlerPara) (candidate : ParaProposal → Prop)
    (just : Just) (held : Nat → List MsgLdrPreparePara) : Prop where
  filed : ∀ seq, 0 < seq → seq ≤ cfg.maxBlocksInView → ∀ msg,
    entry.log.recalled cfg.qsize entry.view seq (held seq) = some msg →
      msg.prop.block.seqNumber = seq ∧ msg.prop.just.eq? just ≠ none
        ∧ ∃ rd, msg.prop.just.getRDataPara = some rd ∧ rd.propv = entry.view
  covered : ∀ seq, 0 < seq → seq ≤ cfg.maxBlocksInView → ∀ cert rd,
    entry.log.certificate cfg.qsize entry.view seq = some cert → cert.getRDataPara = some rd →
      ∀ prop, candidate prop → prop.block.hash.hash ≠ rd.proph.hash
  stays : (entry.log.getPrecommitPara entry.view cfg.qsize cfg.maxBlocksInView).length = cfg.qsize →
    (entry.log.getCommitPara entry.view cfg.qsize cfg.maxBlocksInView).length = cfg.qsize →
      ∃ seq, 0 < seq ∧ seq ≤ cfg.maxBlocksInView ∧ entry.log.hasCommitForSeq entry.view seq = false

namespace Voting

variable {just : Just}

omit [Hashing] in
/-- The justification made of the first message of a slot has round data. -/
theorem firstOf_tagged (msgs : Messages (View × Nat) MsgRDataPara) (view : View) (seq : Nat) :
    ∃ rd, (LogPara.firstOf msgs view seq).getRDataPara = some rd := by
  unfold LogPara.firstOf
  cases msgs.first (view, seq) with
  | some msg => exact ⟨msg.rdata, rfl⟩
  | none => exact ⟨.default, rfl⟩

/-- A proposal that the node goes through is answered if it rests on the justification. -/
theorem recalls (voting : Voting cfg entry candidate just held answers l)
    (ready : Ready cfg entry candidate) (undisturbed : Undisturbed cfg entry candidate just held)
    (admits : ∀ seq, 0 < seq → seq ≤ cfg.maxBlocksInView → ∀ prop,
      opens cfg entry just held seq = some prop → candidate prop)
    {jr : RDataPara} (justified : just.getRDataPara = some jr) (newView : jr.phase = PH1_NEWVIEW)
    {seq : Nat} (positive : 0 < seq) (within : seq ≤ cfg.maxBlocksInView)
    {msg : MsgLdrPreparePara}
    (recalled : entry.log.recalled cfg.qsize entry.view seq (held seq) = some msg)
    (member : msg ∈ held seq) (signed : msg.signs ≠ []) :
    (handleLdrPreparePara cfg msg).Gives (fun _ => Voting cfg entry candidate just held
      (Function.update answers seq ((answers seq).or (opens cfg entry just held seq))))
      (fun _ => False) l := by
  obtain ⟨rfl, comparable, rd, tagged, here⟩ := undisturbed.filed seq positive within msg recalled
  obtain ⟨same, compared⟩ := Option.ne_none_iff_exists'.1 comparable
  have checked : verifyJustPara cfg msg.prop.just
      = some (msg.prop.just.signs.verify cfg.nodes rd.toString) := by
    rw [verifyJustPara, tagged]
  have answers_rests : replayed cfg just entry.log entry.view msg.prop.block.seqNumber
      (held msg.prop.block.seqNumber)
      = if restsOn cfg just msg.prop then some msg.prop else none := by
    rw [replayed, recalled]
    cases rests : restsOn cfg just msg.prop with
    | true => simp [rests]
    | false => simp [rests]
  by_cases rests : restsOn cfg just msg.prop = true
  · have both := rests
    simp only [restsOn, Bool.and_eq_true, beq_iff_eq, checked, Option.some.injEq] at both
    obtain ⟨r', tagged', -, alike⟩ := Just.eq?_true tagged both.1
    obtain rfl := Option.some.inj (justified.symm.trans tagged')
    have phase := (RDataPara.of_beq alike).2.trans newView
    have answered : opens cfg entry just held msg.prop.block.seqNumber
        = if vacant cfg entry msg.prop.block.seqNumber then some msg.prop else none := by
      rw [opens, answers_rests, if_pos rests]
    rw [answered]
    refine voting.heeds ready tagged here phase both.1 both.2 positive within fun free => ?_
    exact admits _ positive within _ (by rw [answered, if_pos free])
  · -- It is not answered, and at most stored where it is already.
    have none_answered : opens cfg entry just held msg.prop.block.seqNumber = none := by
      rw [opens, answers_rests, if_neg rests, ite_self]
    rw [none_answered, Option.or_none, Function.update_eq_self]
    have verified : l.node.verifiedJust.getRDataPara = some jr := by
      rw [voting.adopted]
      exact justified
    refine handleLdrPreparePara_here tagged verified (here.trans voting.view.symm)
      (by rw [voting.adopted]; exact compared) positive
      (by rw [voting.view, voting.slots]; exact within) (fun _ => voting) ?_ fun _ _ => ?_
    · intro _ valid alike _
      refine absurd ?_ rests
      simp [restsOn, compared, alike, checked, valid]
    · refine storePropPara_gives tagged fun proposals now => ?_
      rw [here] at now
      have stored := voting.stored now
      rw [LogPara.withProposal_of_mem member signed, Function.update_eq_self] at stored
      exact stored

/-- Votes and certificates do not come or go meanwhile. -/
theorem log_eq (voting : Voting cfg entry candidate adopted held answers l) {α : Type}
    (part : LogPara → α)
    (other : ∀ log proposals, part { log with proposalsPara := proposals } = part log) :
    part l.node.log = part entry.log := by
  have same : part { l.node.log with proposalsPara := entry.log.proposalsPara } = part entry.log :=
    congrArg part voting.log
  exact (other _ _).symm.trans same

/-- What the log holds for a slot is gone through. -/
theorem handleEarlierSlot_gives {earlier : M Unit}
    (voting : Voting cfg entry candidate just held answers l)
    (ready : Ready cfg entry candidate) (undisturbed : Undisturbed cfg entry candidate just held)
    (admits : ∀ seq, 0 < seq → seq ≤ cfg.maxBlocksInView → ∀ prop,
      opens cfg entry just held seq = some prop → candidate prop)
    {jr : RDataPara} (justified : just.getRDataPara = some jr) (newView : jr.phase = PH1_NEWVIEW)
    {seq : Nat} (positive : 0 < seq) (within : seq ≤ cfg.maxBlocksInView) :
    (handleEarlierSlot cfg earlier seq).Gives (fun _ => Voting cfg entry candidate just held
      (Function.update answers seq ((answers seq).or (opens cfg entry just held seq))))
      (fun _ => False) l := by
  -- With a certificate there is nothing to answer.
  have certified : ∀ cert, entry.log.certificate cfg.qsize entry.view seq = some cert →
      Function.update answers seq ((answers seq).or (opens cfg entry just held seq)) = answers := by
    intro cert found
    have none_answered : opens cfg entry just held seq = none := by
      simp [opens, replayed, LogPara.recalled, found]
    rw [none_answered, Option.or_none, Function.update_eq_self]
  unfold handleEarlierSlot
  rw [gives_bind, gives_this]
  refine gives_ite (fun full => ?_) fun short => ?_
  · -- A pre-commit certificate is answered, and slots may be executed.
    rw [voting.view, voting.log_eq LogPara.getPrecommitPara fun _ _ => rfl] at full
    have found : entry.log.certificate cfg.qsize entry.view seq
        = some (entry.log.firstPrecommitPara entry.view seq) := if_pos full
    obtain ⟨rd, tagged⟩ := firstOf_tagged entry.log.precommitsPara entry.view seq
    have covered := undisturbed.covered seq positive within _ rd found tagged
    rw [certified _ found, gives_bind, voting.view,
      voting.log_eq LogPara.firstPrecommitPara fun _ _ => rfl]
    refine (voting.respondToPreCommit tagged covered).mono (fun _ l₁ voting₁ => ?_)
      fun _ impossible => impossible
    rw [gives_bind, gives_this]
    refine gives_ite (fun committed => ?_) fun _ => voting₁
    rw [voting₁.view, voting₁.log_eq LogPara.getCommitPara fun _ _ => rfl] at committed
    refine voting₁.executeUpTo_waits seq ?_
    refine Nat.lt_of_le_of_ne (Nat.le_trans (findHighestSeq_le _ _) within) fun complete => ?_
    -- Otherwise this is the last slot, and every slot has a commit message.
    have last : seq = cfg.maxBlocksInView :=
      Nat.le_antisymm within (complete ▸ findHighestSeq_le _ _)
    obtain ⟨seq', positive', within', missing⟩ := undisturbed.stays
      (last ▸ beq_iff_eq.1 full) (last ▸ beq_iff_eq.1 committed)
    have some_commit := hasCommit_of_le (h := l₁.node) seq positive' (by omega)
    rw [voting₁.view, voting₁.log_eq LogPara.hasCommitForSeq fun _ _ => rfl, missing] at some_commit
    cases some_commit
  rw [voting.view, voting.log_eq LogPara.getPrecommitPara fun _ _ => rfl] at short
  refine gives_ite (fun full => ?_) fun short' => ?_
  · -- So is a prepare certificate.
    rw [voting.view, voting.log_eq LogPara.getPreparePara fun _ _ => rfl] at full
    have found : entry.log.certificate cfg.qsize entry.view seq
        = some (entry.log.firstPreparePara entry.view seq) := by
      rw [LogPara.certificate, if_neg short]
      exact if_pos full
    obtain ⟨rd, tagged⟩ := firstOf_tagged entry.log.preparesPara entry.view seq
    have covered := undisturbed.covered seq positive within _ rd found tagged
    rw [certified _ found, voting.view, voting.log_eq LogPara.firstPreparePara fun _ _ => rfl]
    exact voting.respondToPrepare tagged covered
  rw [voting.view, voting.log_eq LogPara.getPreparePara fun _ _ => rfl] at short'
  have none_found : entry.log.certificate cfg.qsize entry.view seq = none := by
    rw [LogPara.certificate, if_neg short]
    exact if_neg short'
  have first : l.node.log.firstProposalPara l.node.view seq = (held seq).head? := by
    rw [LogPara.firstProposalPara, Messages.first, voting.view, voting.held]
  rw [first]
  have passes : (held seq).head?.filter (fun msg => msg.signs.length == 1) = none →
      Function.update answers seq ((answers seq).or (opens cfg entry just held seq)) = answers := by
    intro none_recalled
    have none_answered : opens cfg entry just held seq = none := by
      simp [opens, replayed, LogPara.recalled, none_found, none_recalled]
    rw [none_answered, Option.or_none, Function.update_eq_self]
  cases head : (held seq).head? with
  | none =>
    rw [passes (by rw [head]; rfl)]
    exact voting
  | some msg =>
    refine gives_ite (fun single => ?_) fun other => ?_
    · refine voting.recalls ready undisturbed admits justified newView positive within ?_
        (List.mem_of_mem_head? head) fun unsigned => ?_
      · simp [LogPara.recalled, none_found, head, single]
      · rw [unsigned] at single
        cases single
    · rw [passes (by simpa [head] using other)]
      exact voting

/-- One slot after the other is gone through. -/
theorem handleEarlierSlots_gives {earlier : M Unit}
    (voting : Voting cfg entry candidate just held answers l)
    (ready : Ready cfg entry candidate) (undisturbed : Undisturbed cfg entry candidate just held)
    (admits : ∀ seq, 0 < seq → seq ≤ cfg.maxBlocksInView → ∀ prop,
      opens cfg entry just held seq = some prop → candidate prop)
    {jr : RDataPara} (justified : just.getRDataPara = some jr) (newView : jr.phase = PH1_NEWVIEW)
    (slots seq : Nat) (positive : 0 < seq) (within : seq + slots ≤ cfg.maxBlocksInView + 1) :
    (handleEarlierSlots cfg earlier slots seq).Gives (fun _ => Voting cfg entry candidate just held
      fun i => if seq ≤ i ∧ i < seq + slots then (answers i).or (opens cfg entry just held i)
        else answers i) (fun _ => False) l := by
  induction slots generalizing l seq answers with
  | zero =>
    have same : (fun i => if seq ≤ i ∧ i < seq + 0 then
        (answers i).or (opens cfg entry just held i) else answers i) = answers := by
      funext i
      exact if_neg (by omega)
    rw [same]
    exact voting
  | succ slots ih =>
    unfold handleEarlierSlots
    rw [gives_bind]
    refine (voting.handleEarlierSlot_gives ready undisturbed admits justified newView positive
      (by omega)).mono (fun _ l₁ voting₁ => ?_) fun _ impossible => impossible
    refine (ih voting₁ (seq + 1) (by omega) (by omega)).mono (fun _ l₂ voting₂ => ?_)
      fun _ impossible => impossible
    -- The slot gone through first is no longer touched.
    have same : (fun i => if seq + 1 ≤ i ∧ i < seq + 1 + slots then
          (Function.update answers seq ((answers seq).or (opens cfg entry just held seq)) i).or
            (opens cfg entry just held i)
        else Function.update answers seq ((answers seq).or (opens cfg entry just held seq)) i)
        = fun i => if seq ≤ i ∧ i < seq + (slots + 1) then
            (answers i).or (opens cfg entry just held i) else answers i := by
      funext i
      by_cases here : i = seq
      · subst here
        rw [if_neg (by omega), if_pos (by omega), Function.update_self]
      · rw [Function.update_of_ne here]
        by_cases later : seq + 1 ≤ i ∧ i < seq + 1 + slots
        · rw [if_pos later, if_pos (by omega)]
        · rw [if_neg later, if_neg (by omega)]
    rw [same] at voting₂
    exact voting₂

/-- A backup that has adopted a justification goes through all slots of its view. -/
theorem handleEarlierMessagesPara_gives
    (voting : Voting cfg entry candidate just held answers l)
    (ready : Ready cfg entry candidate) (undisturbed : Undisturbed cfg entry candidate just held)
    (admits : ∀ seq, 0 < seq → seq ≤ cfg.maxBlocksInView → ∀ prop,
      opens cfg entry just held seq = some prop → candidate prop)
    {jr : RDataPara} (justified : just.getRDataPara = some jr) (newView : jr.phase = PH1_NEWVIEW)
    (here : jr.propv = entry.view) (depth : Nat) :
    (handleEarlierMessagesPara cfg (depth + 1)).Gives (fun _ => Voting cfg entry candidate just held
      fun i => if 0 < i ∧ i ≤ cfg.maxBlocksInView then
        (answers i).or (opens cfg entry just held i) else answers i) (fun _ => False) l := by
  have backup : cfg.amLeaderOf l.node.myid l.node.view = false := by
    rw [voting.myid, voting.view]
    exact ready.backup
  have verified : l.node.verifiedJust.getRDataPara = some jr := by
    rw [voting.adopted]
    exact justified
  unfold handleEarlierMessagesPara
  simp only [gives_bind, gives_this, gives_amCurrentLeader, backup, Bool.false_eq_true, if_false,
    verified, gives_ofOption_some]
  have adopted : (jr.propv != l.node.view) = false := by
    rw [voting.view, here]
    simp
  rw [if_neg (by rw [adopted]; simp)]
  refine (voting.handleEarlierSlots_gives ready undisturbed admits justified newView
    cfg.maxBlocksInView 1 Nat.one_pos (by omega)).mono (fun _ l₁ voting₁ => ?_)
    fun _ impossible => impossible
  have same : (fun i => if 1 ≤ i ∧ i < 1 + cfg.maxBlocksInView then
      (answers i).or (opens cfg entry just held i) else answers i)
      = fun i => if 0 < i ∧ i ≤ cfg.maxBlocksInView then
        (answers i).or (opens cfg entry just held i) else answers i := by
    funext i
    have bounds : (1 ≤ i ∧ i < 1 + cfg.maxBlocksInView) ↔ 0 < i ∧ i ≤ cfg.maxBlocksInView := by
      omega
    simp only [bounds]
  rw [same] at voting₁
  exact voting₁

end Voting

end Replaying

end HandlerPara

end ParaHotstuff
