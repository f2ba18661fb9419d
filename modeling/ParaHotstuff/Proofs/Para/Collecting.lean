import ParaHotstuff.Data.Checksum
import ParaHotstuff.Handler.Schedule
import ParaHotstuff.Proofs.Counting
import ParaHotstuff.Proofs.Para.Watching

/-! When the votes that a leader collects make a certificate. -/

namespace ParaHotstuff

/-- The votes that a leader collects in its view, phase by phase. -/
inductive Collects where
  | prepare
  | preCommit
  | commit
deriving DecidableEq, Repr

namespace Collects

variable (kind : Collects)

/-- The message of a vote, or of a certificate. -/
def message (m : MsgRDataPara) : MsgPara :=
  match kind with
  | prepare => .prepare m
  | preCommit => .preCommit m
  | commit => .commit m

/-- The messages that votes are stored among. -/
def stored : VoteKind :=
  match kind with
  | prepare => .prepare
  | preCommit => .preCommit
  | commit => .commit

/-- The votes of a phase, by their slots. -/
def messages (log : LogPara) : Messages (View × Nat) MsgRDataPara :=
  match kind with
  | prepare => log.preparesPara
  | preCommit => log.precommitsPara
  | commit => log.commitsPara

/-- The phase that the votes are of. -/
def phase : Phase1 :=
  match kind with
  | prepare => PH1_PREPARE
  | preCommit => PH1_PRECOMMIT
  | commit => PH1_COMMIT

/-- Whether a leader counts a vote in its view: prepare votes are counted whatever their phase. -/
def counts (v : View) (rdata : RDataPara) : Bool :=
  match kind with
  | prepare => rdata.propv == v
  | preCommit | commit => rdata.propv == v && rdata.phase == kind.phase

/-- The statement that a leader forwards with the votes: that of the last vote, in their phase. -/
def certified (rdata : RDataPara) : RDataPara :=
  match kind with
  | prepare => { rdata with phase := PH1_PREPARE }
  | preCommit | commit => rdata

theorem message_inj {kind : Collects} {m m' : MsgRDataPara} (same : kind.message m = kind.message m') :
    m = m' := by
  cases kind <;> (cases same; rfl)

end Collects

namespace HandlerPara

open Program Local

section Definitions

variable (cfg : Config) (kind : Collects) (rd : RDataPara)

/-- The log of a node once it has stored a vote. -/
def storing (h : HandlerPara) (m : MsgRDataPara) : LogPara := (h.log.storeVote kind.stored m).2

/-- The signatures collected for the slot of a vote once it is stored. -/
def collected (h : HandlerPara) (m : MsgRDataPara) : Signs :=
  (storing kind h m).getVotes kind.stored m.rdata.propv m.rdata.seqNumber cfg.qsize

/--
A vote completes a certificate for a statement, which there are others to send to.

With it there are just as many votes for its slot as needed, the signatures collected of them are
on the statement, and the vote itself is for the statement.
-/
structure Completes (h : HandlerPara) (m : MsgRDataPara) : Prop where
  others : 1 < cfg.total
  running : maxViewsReached cfg h = false
  counted : kind.counts h.view m.rdata = true
  enough : (h.log.storeVote kind.stored m).1 = cfg.qsize
  statement : kind.certified m.rdata = rd
  full : (collected cfg kind h m).length = cfg.qsize
  valid : (collected cfg kind h m).verify cfg.nodes rd.toString = true

/-- A vote on a statement, with one signature that is valid. -/
structure SingleVote (m : MsgRDataPara) : Prop where
  statement : m.rdata = rd
  single : m.signs.length = 1
  valid : m.signs.verify cfg.nodes rd.toString = true

/-- A leader holds and gets nothing but votes on one statement, of enough nodes. -/
structure OnlyVotes (h : HandlerPara) (msgs : List MsgRDataPara) : Prop where
  others : 1 < cfg.total
  running : maxViewsReached cfg h = false
  current : rd.propv = h.view
  phase : rd.phase = kind.phase
  held : ∀ m ∈ h.log.votes kind.stored rd.propv rd.seqNumber, SingleVote cfg rd m
  room : (h.log.votes kind.stored rd.propv rd.seqNumber).length < cfg.qsize
  delivered : ∀ m ∈ msgs, SingleVote cfg rd m
  quorum : ∃ signers : List PID, signers.Nodup ∧ signers.length = cfg.qsize
    ∧ ∀ p ∈ signers, p ∈ (Messages.allSigns (·.signs)
        (h.log.votes kind.stored rd.propv rd.seqNumber)).getSigners
      ∨ ∃ m ∈ msgs, p ∈ m.signs.getSigners

variable [Hashing] (depth : Nat)

/--
The first thing a leader does with a vote is to send all others, and there are some, a certificate
for a statement, with as many signatures as needed, which verifies.
-/
def Broadcasts (l : State) (m : MsgRDataPara) : Prop :=
  cfg.remove_from_peers l.node.myid l.node.myid ≠ []
    ∧ ∃ signs rest, (handle cfg depth (kind.message m) l).state.sent
      = l.sent ++ (cfg.remove_from_peers l.node.myid l.node.myid).map
        (⟨·, kind.message ⟨rd, signs⟩⟩) ++ rest
    ∧ signs.length = cfg.qsize ∧ verifyJustPara cfg (Just.ofRDataPara rd signs) = some true

/-- A leader that has got some votes still runs, and leads the view it was in. -/
def StaysFor (l : State) (votes : List MsgRDataPara) (l' : State) : Prop :=
  (protocol cfg depth).serve (votes.map fun m => .message (kind.message m)) l = .done () l'
    ∧ l'.node.view = l.node.view ∧ Leads cfg l'.node

/-- Of votes delivered while a leader stays in its view, one makes it do something. -/
def SomeVote (l : State) (msgs : List MsgRDataPara) (does : State → MsgRDataPara → Prop) : Prop :=
  ∃ i m l', msgs[i]? = some m ∧ StaysFor cfg kind depth l (msgs.take i) l' ∧ does l' m

end Definitions

variable {cfg : Config} {kind : Collects} {rd : RDataPara} {l : State} {m : MsgRDataPara}

section Steps

variable [Hashing] {depth : Nat}

/-- What a leader does with the statement of a vote that makes enough of them. -/
def forward (cfg : Config) (kind : Collects) (earlier : M Unit) (rdata : RDataPara) : M Unit :=
  match kind with
  | .prepare => initiatePreparePara cfg rdata
  | .preCommit => initiatePrecommitPara cfg rdata
  | .commit => initiateCommitPara cfg earlier rdata

/-- A leader stores the votes it counts, and forwards them when they are just enough. -/
theorem handle_counted (leads : Leads cfg l.node) (running : maxViewsReached cfg l.node = false)
    (counted : kind.counts l.node.view m.rdata = true) :
    handle cfg depth (kind.message m) l
      = (if (l.node.log.storeVote kind.stored m).1 == cfg.qsize then
          forward cfg kind (handleEarlierMessagesPara cfg depth) m.rdata
        else pure () : M Unit) { l with node := { l.node with log := storing kind l.node m } } := by
  have state : (this : M HandlerPara) l = .done l.node l := rfl
  have leader : (amCurrentLeader cfg l : Outcome State Bool) = .done true l := by
    rw [← Config.amLeaderOf_iff.2 leads]
    rfl
  have unreached : ¬ maxViewsReached cfg l.node = true := by rw [running]; decide
  cases kind with
  | prepare =>
    change handlePreparePara cfg m l = _
    unfold handlePreparePara
    have here : (m.rdata.propv == l.node.view) = true := counted
    rw [bind_of_done state, if_neg unreached, if_pos here, bind_of_done leader, if_pos rfl]
    rfl
  | preCommit =>
    change handlePrecommitPara cfg m l = _
    unfold handlePrecommitPara
    have here : (m.rdata.propv == l.node.view && m.rdata.phase == PH1_PRECOMMIT) = true := counted
    rw [bind_of_done state, if_neg unreached, if_pos here, bind_of_done leader, if_pos rfl]
    rfl
  | commit =>
    change handleCommitPara cfg _ m l = _
    unfold handleCommitPara
    have here : (m.rdata.propv == l.node.view && m.rdata.phase == PH1_COMMIT) = true := counted
    rw [bind_of_done state]
    dsimp only
    rw [if_neg unreached, if_pos here, bind_of_done leader, if_pos rfl]
    rfl

/-- With a vote that it does not count it sends nothing, nor at the last view. -/
theorem handle_uncounted (uncounted : maxViewsReached cfg l.node = false →
      kind.counts l.node.view m.rdata = false) :
    (handle cfg depth (kind.message m) l).state.sent = l.sent := by
  have given : (handle cfg depth (kind.message m)).Gives (fun _ l' => l'.sent = l.sent)
      (fun l' => l'.sent = l.sent) l := by
    cases kind with
    | prepare =>
      change (handlePreparePara cfg m).Gives _ _ _
      unfold handlePreparePara
      rw [gives_bind, gives_this]
      refine gives_ite (fun _ => rfl) fun unreached => ?_
      have other : (m.rdata.propv == l.node.view) = false :=
        uncounted (Bool.eq_false_iff.2 unreached)
      rw [other, if_neg (by decide)]
      exact gives_ite (fun _ => rfl) fun _ => rfl
    | preCommit =>
      change (handlePrecommitPara cfg m).Gives _ _ _
      unfold handlePrecommitPara
      rw [gives_bind, gives_this]
      refine gives_ite (fun _ => rfl) fun unreached => ?_
      have other : (m.rdata.propv == l.node.view && m.rdata.phase == PH1_PRECOMMIT) = false :=
        uncounted (Bool.eq_false_iff.2 unreached)
      rw [other, if_neg (by decide)]
      exact gives_ite (fun _ => rfl) fun _ => rfl
    | commit =>
      change (handleCommitPara cfg _ m).Gives _ _ _
      unfold handleCommitPara
      rw [gives_bind, gives_this]
      refine gives_ite (fun _ => rfl) fun unreached => ?_
      have other : (m.rdata.propv == l.node.view && m.rdata.phase == PH1_COMMIT) = false :=
        uncounted (Bool.eq_false_iff.2 unreached)
      rw [other, if_neg (by decide)]
      refine gives_ite (fun _ => ?_) fun _ => rfl
      exact gives_ite (fun _ => rfl) fun _ => gives_ite (fun _ => rfl) fun _ => rfl
  exact given.state

/-- Sending goes on behind what was sent. -/
theorem closed_sent {base : List (Packet MsgPara)} :
    Closed cfg (fun l => base <+: l.sent) (fun _ => True) (fun _ _ => True) False False :=
  closed_trace (fun _ sent => base <+: sent) (fun sent _ => sent)
    (fun packets sent => sent.trans (List.prefix_append _ packets)) fun _ sent => sent

/-- The certificate a leader forwards once it has stored a vote, for each of the others. -/
def forwarded (cfg : Config) (kind : Collects) (h : HandlerPara) (m : MsgRDataPara) :
    List (Packet MsgPara) :=
  (cfg.remove_from_peers h.myid h.myid).map
    (⟨·, kind.message ⟨kind.certified m.rdata, collected cfg kind h m⟩⟩)

/-- A leader forwards what it collected before anything else; commits only if it has enough. -/
theorem forward_first (full : kind = .commit → (collected cfg kind l.node m).length = cfg.qsize) :
    (l.sent ++ forwarded cfg kind l.node m)
      <+: (forward cfg kind (handleEarlierMessagesPara cfg depth) m.rdata
        { l with node := { l.node with log := storing kind l.node m } }).state.sent := by
  have closed := @closed_sent cfg _ (l.sent ++ forwarded cfg kind l.node m)
  have sent : (l.sent ++ forwarded cfg kind l.node m)
      <+: (l.sent ++ forwarded cfg kind l.node m) := List.prefix_refl _
  suffices given : (forward cfg kind (handleEarlierMessagesPara cfg depth) m.rdata).Gives
      (fun _ l' => (l.sent ++ forwarded cfg kind l.node m) <+: l'.sent)
      (fun l' => (l.sent ++ forwarded cfg kind l.node m) <+: l'.sent)
      { l with node := { l.node with log := storing kind l.node m } } from given.state
  cases kind with
  | prepare =>
    change (initiatePreparePara cfg m.rdata).Gives _ _ _
    unfold initiatePreparePara
    rw [gives_bind, gives_this, gives_bind, gives_multicast, gives_bind]
    exact closed.callTEEstorePara_gives sent (fun impossible => impossible.elim) sent
      fun _ _ _ _ _ held _ _ _ _ => held
  | preCommit =>
    change (initiatePrecommitPara cfg m.rdata).Gives _ _ _
    unfold initiatePrecommitPara
    rw [gives_bind, gives_this, gives_bind, gives_multicast, gives_bind]
    exact closed.callTEEstorePara_gives sent (fun impossible => impossible.elim) sent
      fun _ _ _ _ _ held _ _ _ _ => held
  | commit =>
    change (initiateCommitPara cfg _ m.rdata).Gives _ _ _
    unfold initiateCommitPara
    rw [gives_bind, gives_this]
    refine gives_ite (fun _ => ?_) fun short => absurd (beq_iff_eq.2 (full rfl)) short
    rw [gives_bind, gives_multicast]
    exact closed.executeUpTo_kept (closed.handleEarlierMessagesPara_kept depth) _ _ sent

/-- Without enough signatures a leader forwards no commits. -/
theorem forward_short (commit : kind = .commit)
    (short : (collected cfg kind l.node m).length ≠ cfg.qsize) :
    (forward cfg kind (handleEarlierMessagesPara cfg depth) m.rdata
      { l with node := { l.node with log := storing kind l.node m } }).state.sent = l.sent := by
  subst commit
  suffices given : (initiateCommitPara cfg (handleEarlierMessagesPara cfg depth) m.rdata).Gives
      (fun _ l' => l'.sent = l.sent) (fun l' => l'.sent = l.sent)
      { l with node := { l.node with log := storing .commit l.node m } } from given.state
  unfold initiateCommitPara
  rw [gives_bind, gives_this]
  exact gives_ite (fun full => absurd (beq_iff_eq.1 full) short) fun _ => rfl

omit [Hashing] in
/-- Where there are other nodes, a node has somebody to send its certificates to. -/
theorem remove_from_peers_ne_nil_iff {myid : PID} (known : myid < cfg.total) :
    cfg.remove_from_peers myid myid ≠ [] ↔ 1 < cfg.total := by
  constructor
  · intro some_peer
    obtain ⟨d, member⟩ := List.exists_mem_of_ne_nil _ some_peer
    obtain ⟨within, other⟩ := Config.mem_remove_from_peers.1 member
    lia
  · intro others nobody
    have member : (if myid = 0 then 1 else 0) ∈ cfg.remove_from_peers myid myid :=
      Config.mem_remove_from_peers.2 (by split <;> lia)
    rw [nobody] at member
    exact absurd member List.not_mem_nil

/-- A leader starts with sending a certificate exactly when a vote completes it. -/
theorem broadcasts_iff_completes (leads : Leads cfg l.node) :
    Broadcasts cfg kind rd depth l m ↔ Completes cfg kind rd l.node m := by
  have known : l.node.myid < cfg.total := leads ▸ Nat.mod_lt _ (Nat.succ_pos _)
  have handled : maxViewsReached cfg l.node = false → kind.counts l.node.view m.rdata = true →
      handle cfg depth (kind.message m) l = _ := fun running => handle_counted leads running
  constructor
  · rintro ⟨some_peer, signs, rest, sent, full, verified⟩
    obtain ⟨d, ds, peers⟩ := List.exists_cons_of_ne_nil some_peer
    -- Something is sent, so the vote is counted, and there are enough votes and signatures.
    have speaks : (handle cfg depth (kind.message m) l).state.sent ≠ l.sent := by
      rw [sent, peers, List.append_assoc]
      intro silent
      cases List.append_right_eq_self.1 silent
    have running : maxViewsReached cfg l.node = false := by
      by_contra reached
      exact speaks (handle_uncounted fun running => absurd running reached)
    have counted : kind.counts l.node.view m.rdata = true := by
      by_contra uncounted
      exact speaks (handle_uncounted fun _ => Bool.eq_false_iff.2 uncounted)
    rw [handled running counted] at sent speaks
    by_cases enough : (l.node.log.storeVote kind.stored m).1 = cfg.qsize
    · rw [if_pos (beq_iff_eq.2 enough)] at sent speaks
      have collects : kind = .commit → (collected cfg kind l.node m).length = cfg.qsize := by
        intro commit
        by_contra short
        exact speaks (forward_short commit short)
      -- The first packet is the same.
      have first := @forward_first cfg kind l m _ depth collects
      rw [sent, List.append_assoc, List.prefix_append_right_inj, forwarded, peers, List.map_cons,
        List.map_cons, List.cons_append, List.cons_prefix_cons] at first
      have same := Collects.message_inj (Packet.mk.inj first.1).2
      obtain ⟨statement, signatures⟩ := MsgRDataPara.mk.inj same
      have valid : signs.verify cfg.nodes rd.toString = true := Option.some.inj verified
      exact ⟨(remove_from_peers_ne_nil_iff known).1 some_peer, running, counted, enough, statement,
        signatures ▸ full, signatures ▸ valid⟩
    · rw [if_neg (by simpa using enough)] at speaks
      exact absurd rfl speaks
  · intro completes
    have first := @forward_first cfg kind l m _ depth fun _ => completes.full
    obtain ⟨rest, sent⟩ := first
    refine ⟨(remove_from_peers_ne_nil_iff known).2 completes.others, collected cfg kind l.node m,
      rest, ?_, completes.full, congrArg some completes.valid⟩
    rw [handled completes.running completes.counted, if_pos (beq_iff_eq.2 completes.enough),
      ← sent, forwarded, completes.statement]

end Steps

section Counting

variable {h : HandlerPara} {msgs : List MsgRDataPara}

theorem votes_eq (kind : Collects) (log : LogPara) (v : View) (seq : Nat) :
    log.votes kind.stored v seq = (kind.messages log).held (v, seq) := by
  cases kind <;> rfl

/-- A vote is counted and stored among those of its phase and slot. -/
theorem storing_eq (kind : Collects) (h : HandlerPara) (m : MsgRDataPara) :
    kind.messages (storing kind h m) = ((kind.messages h.log).storeAndCount (·.signs)
        MsgRDataPara.lt (m.rdata.propv, m.rdata.seqNumber) m).2
      ∧ (h.log.storeVote kind.stored m).1 = ((kind.messages h.log).storeAndCount (·.signs)
        MsgRDataPara.lt (m.rdata.propv, m.rdata.seqNumber) m).1 := by
  cases kind <;> exact ⟨rfl, rfl⟩

theorem collected_eq (kind : Collects) (h : HandlerPara) (m : MsgRDataPara) :
    collected cfg kind h m = (Messages.allSigns (·.signs) ((kind.messages (storing kind h m)).held
      (m.rdata.propv, m.rdata.seqNumber))).take cfg.qsize := by
  rw [← Messages.getSigns_eq]
  cases kind <;> rfl

/-- Single votes have as many signatures as there are votes, all valid. -/
theorem length_singleVotes (votes : ∀ m ∈ msgs, SingleVote cfg rd m) :
    (Messages.allSigns (·.signs) msgs).length = msgs.length := by
  induction msgs with
  | nil => rfl
  | cons m msgs ih =>
    have first := (votes m List.mem_cons_self).single
    have rest := ih fun m' member => votes m' (List.mem_cons_of_mem _ member)
    simp only [Messages.allSigns, List.flatMap_cons, List.length_append, List.length_cons] at rest ⊢
    omega

theorem verify_singleVotes (votes : ∀ m ∈ msgs, SingleVote cfg rd m) (n : Nat) :
    Signs.verify cfg.nodes rd.toString ((Messages.allSigns (·.signs) msgs).take n) = true := by
  refine Signs.verify_iff.2 fun s member => ?_
  obtain ⟨m, held, signed⟩ := List.mem_flatMap.1 (List.mem_of_mem_take member)
  exact Signs.verify_iff.1 (votes m held).valid s signed

namespace OnlyVotes

/-- A vote on the statement is one that the leader counts. -/
theorem counted (only : OnlyVotes cfg kind rd h (m :: msgs)) :
    kind.counts h.view m.rdata = true := by
  rw [(only.delivered m List.mem_cons_self).statement]
  have current := only.current
  have phase := only.phase
  cases kind <;> simp_all [Collects.counts, Collects.phase]

/-- With another vote the leader still holds nothing but votes on the statement. -/
theorem stored (only : OnlyVotes cfg kind rd h (m :: msgs)) {m' : MsgRDataPara}
    (held : m' ∈ (kind.messages (storing kind h m)).held (rd.propv, rd.seqNumber)) :
    SingleVote cfg rd m' := by
  rw [(storing_eq kind h m).1] at held
  rcases Messages.mem_storeAndCount held with old | ⟨rfl, -⟩
  · exact only.held m' (by rw [votes_eq]; exact old)
  · exact only.delivered m' List.mem_cons_self

/-- The vote with which there are enough completes a certificate. -/
theorem completes (only : OnlyVotes cfg kind rd h (m :: msgs))
    (enough : (h.log.storeVote kind.stored m).1 = cfg.qsize) : Completes cfg kind rd h m := by
  have vote := only.delivered m List.mem_cons_self
  have votes : ∀ m' ∈ (kind.messages (storing kind h m)).held (m.rdata.propv, m.rdata.seqNumber),
      SingleVote cfg rd m' := by
    rw [vote.statement]
    exact fun m' held => only.stored held
  refine ⟨only.others, only.running, only.counted, enough, ?_, ?_, ?_⟩
  · rw [vote.statement]
    have phase := only.phase
    cases kind with
    | prepare =>
      change { rd with phase := PH1_PREPARE } = rd
      rw [show PH1_PREPARE = rd.phase from phase.symm]
    | preCommit => rfl
    | commit => rfl
  · have count := Messages.storeAndCount_count (·.signs) MsgRDataPara.lt (kind.messages h.log)
      (m.rdata.propv, m.rdata.seqNumber) m
    rw [← (storing_eq kind h m).1, ← (storing_eq kind h m).2, enough] at count
    rw [collected_eq, List.length_take, length_singleVotes votes, count, Nat.min_self]
  · rw [collected_eq]
    exact verify_singleVotes votes cfg.qsize

/-- Any other vote leaves room for more, and its signer has voted. -/
theorem next (only : OnlyVotes cfg kind rd h (m :: msgs))
    (short : (h.log.storeVote kind.stored m).1 ≠ cfg.qsize) :
    OnlyVotes cfg kind rd { h with log := storing kind h m } msgs := by
  have vote := only.delivered m List.mem_cons_self
  have room := only.room
  rw [votes_eq] at room
  refine
    { others := only.others
      running := only.running
      current := only.current
      phase := only.phase
      held := fun m' held => only.stored (by rw [votes_eq] at held; exact held)
      room := ?_
      delivered := fun m' member => only.delivered m' (List.mem_cons_of_mem _ member)
      quorum := ?_ }
  · rw [votes_eq, (storing_eq kind h m).1]
    rw [(storing_eq kind h m).2, vote.statement] at short
    obtain ⟨held, stored, cases⟩ := Messages.storeAndCount_cases (·.signs) MsgRDataPara.lt
      (kind.messages h.log) (rd.propv, rd.seqNumber) m
    rw [vote.statement, stored, Messages.held_insert, if_pos rfl]
    rw [stored] at short
    -- At most one vote was added.
    rcases cases with ⟨same, -⟩ | ⟨moved | same, -⟩
    · rw [same]
      exact room
    · have length := moved.length_eq
      rw [List.length_cons] at length
      omega
    · rw [same]
      exact room
  · obtain ⟨signers, distinct, length, voted⟩ := only.quorum
    refine ⟨signers, distinct, length, fun p member => ?_⟩
    rw [votes_eq, (storing_eq kind h m).1]
    rcases voted p member with before | ⟨m', delivered, signer⟩
    · obtain ⟨s, known, rfl⟩ := List.mem_map.1 before
      obtain ⟨m', held, signed⟩ := List.mem_flatMap.1 known
      rw [votes_eq] at held
      exact .inl (List.mem_map.2 ⟨s, List.mem_flatMap.2
        ⟨m', Messages.mem_storeAndCount_of_mem held, signed⟩, rfl⟩)
    · rcases List.mem_cons.1 delivered with rfl | later
      · have stored := Messages.signer_of_storeAndCount (·.signs) MsgRDataPara.lt
          (kind.messages h.log) (rd.propv, rd.seqNumber) m'
          MsgRDataPara.signers_of_equivalent signer
        rw [← vote.statement] at stored ⊢
        exact .inl stored
      · exact .inr ⟨m', later, signer⟩

/-- The votes of enough nodes cannot all be held while there is room for more. -/
theorem some_left (only : OnlyVotes cfg kind rd h []) : False := by
  obtain ⟨signers, distinct, length, voted⟩ := only.quorum
  have room := only.room
  have held : signers ⊆ (Messages.allSigns (·.signs)
      (h.log.votes kind.stored rd.propv rd.seqNumber)).getSigners := by
    intro p member
    rcases voted p member with before | ⟨m', impossible, -⟩
    · exact before
    · cases impossible
  have enough := distinct.length_le_of_subset held
  rw [Signs.getSigners, List.length_map, length_singleVotes only.held, length] at enough
  omega

end OnlyVotes

end Counting

section Runs

variable [Hashing] {depth : Nat} {msgs : List MsgRDataPara}

/-- Where there is nothing but votes of enough nodes, one of them completes a certificate. -/
theorem someVote_completes (leads : Leads cfg l.node)
    (only : OnlyVotes cfg kind rd l.node msgs) :
    SomeVote cfg kind depth l msgs fun l' m => Completes cfg kind rd l'.node m := by
  -- Induction on the votes; each completes a certificate, or is just stored.
  induction msgs generalizing l with
  | nil => exact only.some_left.elim
  | cons m msgs ih =>
    by_cases enough : (l.node.log.storeVote kind.stored m).1 = cfg.qsize
    · exact ⟨0, m, l, rfl, ⟨rfl, rfl, leads⟩, only.completes enough⟩
    · have handled : handle cfg depth (kind.message m) l = _ :=
        handle_counted leads only.running only.counted
      rw [if_neg (by simpa using enough)] at handled
      obtain ⟨i, m', l', found, ⟨served, view, leads'⟩, completes⟩ :=
        @ih { l with node := { l.node with log := storing kind l.node m } } leads
          (only.next enough)
      refine ⟨i + 1, m', l', found, ⟨?_, view, leads'⟩, completes⟩
      rw [List.take_succ_cons, List.map_cons]
      change ((protocol cfg depth).answer (.message (kind.message m)) >>= fun _ =>
        (protocol cfg depth).serve ((msgs.take i).map fun m => .message (kind.message m))) l = _
      have answered : (protocol cfg depth).answer (.message (kind.message m)) l
          = .done () { l with node := { l.node with log := storing kind l.node m } } := handled
      rw [bind_of_done answered]
      exact served

/--
Of the votes delivered while a leader stays in its view, one makes it broadcast a certificate for a
statement exactly if one completes such a certificate: with it there are just enough votes for the
slot, the signatures collected are valid ones on the statement, and it is for the statement itself.

Among nothing but valid votes on the statement, of enough nodes, there is such a vote.
-/
theorem votes_certified_iff (cfg : Config) (kind : Collects) (rd : RDataPara) (depth : Nat)
    (l : State) (leads : Leads cfg l.node) (msgs : List MsgRDataPara) :
    (SomeVote cfg kind depth l msgs (Broadcasts cfg kind rd depth)
        ↔ SomeVote cfg kind depth l msgs fun l' m => Completes cfg kind rd l'.node m)
      ∧ (OnlyVotes cfg kind rd l.node msgs →
        SomeVote cfg kind depth l msgs (Broadcasts cfg kind rd depth)) := by
  have same : SomeVote cfg kind depth l msgs (Broadcasts cfg kind rd depth)
      ↔ SomeVote cfg kind depth l msgs fun l' m => Completes cfg kind rd l'.node m := by
    constructor
    · rintro ⟨i, m, l', found, stays, broadcasts⟩
      exact ⟨i, m, l', found, stays, (broadcasts_iff_completes stays.2.2).1 broadcasts⟩
    · rintro ⟨i, m, l', found, stays, completes⟩
      exact ⟨i, m, l', found, stays, (broadcasts_iff_completes stays.2.2).2 completes⟩
  exact ⟨same, fun only => same.2 (someVote_completes leads only)⟩

section Example

/-- The leader of view 0, once it has proposed. -/
def proposing : State :=
  let report (p : PID) : MsgNewViewPara :=
    let rdata : RDataPara := ⟨Hash.ofBool false, 0, Hash.default, 0, PH1_NEWVIEW, 0⟩
    ⟨rdata, [Sign.ofText p p rdata.toString]⟩
  ((protocol Schedule.fourNodes 2).serve [.input (.start 0), .message (.newView (report 1)),
    .message (.newView (report 2))] ⟨init Schedule.fourNodes (fun _ => []) 0, [], []⟩).state

/-- The statement it has voted for itself in a slot. -/
def ownStatement (l : State) (seq : Nat) : RDataPara :=
  ((l.node.log.preparesPara.first (l.node.view, seq)).map (·.rdata)).getD .default

omit [Hashing] in
/-- The valid votes of some nodes on a statement. -/
def votesOf (rd : RDataPara) (nodes : List PID) : List MsgRDataPara :=
  nodes.map fun p => ⟨rd, [Sign.ofText p p rd.toString]⟩

omit [Hashing] in
/-- A vote on it that claims to be of the last node. -/
def forgedVote (rd : RDataPara) : MsgRDataPara := ⟨rd, [⟨true, 3, .other 0⟩]⟩

end Example

omit [Hashing] in
/-- The votes of the other nodes make the leader broadcast a certificate for its own statement. -/
theorem votes_certified_clean :
    let _ := Checksum.hashing
    let rd := ownStatement proposing 1
    SomeVote Schedule.fourNodes .prepare 2 proposing (votesOf rd [1, 2, 3])
      (Broadcasts Schedule.fourNodes .prepare rd 2) := by
  intro hashing rd
  have leads : Leads Schedule.fourNodes proposing.node := by
    unfold Leads
    decide +kernel
  refine (votes_certified_iff Schedule.fourNodes .prepare rd 2 proposing leads
    (votesOf rd [1, 2, 3])).2 ?_
  have single : ∀ m : MsgRDataPara, m.rdata = rd → m.signs.length = 1 →
      m.signs.verify Schedule.fourNodes.nodes rd.toString = true →
      SingleVote Schedule.fourNodes rd m := fun m statement length valid =>
    ⟨statement, length, valid⟩
  exact
    { others := by decide
      running := by decide +kernel
      current := by decide +kernel
      phase := by decide +kernel
      held := fun m held => by
        have votes : ∀ m ∈ proposing.node.log.votes .prepare rd.propv rd.seqNumber,
            m.rdata = rd ∧ m.signs.length = 1
              ∧ m.signs.verify Schedule.fourNodes.nodes rd.toString = true := by decide +kernel
        obtain ⟨statement, length, valid⟩ := votes m held
        exact single m statement length valid
      room := by decide +kernel
      delivered := fun m member => by
        have votes : ∀ m ∈ votesOf rd [1, 2, 3], m.rdata = rd ∧ m.signs.length = 1
            ∧ m.signs.verify Schedule.fourNodes.nodes rd.toString = true := by decide +kernel
        obtain ⟨statement, length, valid⟩ := votes m member
        exact single m statement length valid
      quorum := ⟨[1, 2, 3], by decide, by decide, fun p member => .inr (by
        refine ⟨⟨rd, [Sign.ofText p p rd.toString]⟩, List.mem_map.2 ⟨p, member, rfl⟩, ?_⟩
        exact List.mem_singleton_self p)⟩ }

omit [Hashing] in
/-- With a forged vote among them, and before them, no certificate ever verifies. -/
theorem votes_not_certified :
    let _ := Checksum.hashing
    let rd := ownStatement proposing 1
    Leads Schedule.fourNodes proposing.node
      ∧ (∀ p ∈ [1, 2, 3], ∃ m ∈ votesOf rd [1, 2, 3], m.signs.getSigners = [p]
        ∧ m.rdata = rd ∧ m.signs.verify Schedule.fourNodes.nodes rd.toString = true)
      ∧ ¬ SomeVote Schedule.fourNodes .prepare 2 proposing (forgedVote rd :: votesOf rd [1, 2, 3])
        (Broadcasts Schedule.fourNodes .prepare rd 2) := by
  intro hashing rd
  refine ⟨by unfold Leads; decide +kernel, by decide +kernel, ?_⟩
  rintro ⟨i, m, l', found, stays, broadcasts⟩
  have completes := (broadcasts_iff_completes stays.2.2).1 broadcasts
  -- Just when there are enough votes, the forged one is among them.
  have fails : ∀ i < 4, ∀ m ∈ (forgedVote rd :: votesOf rd [1, 2, 3])[i]?,
      let before := ((forgedVote rd :: votesOf rd [1, 2, 3]).take i).map
        fun m => Stimulus.message (Collects.prepare.message m)
      let h := ((protocol Schedule.fourNodes 2).serve before proposing).state.node
      (h.log.storePrepPara m).1 = Schedule.fourNodes.qsize →
        (collected Schedule.fourNodes .prepare h m).verify Schedule.fourNodes.nodes rd.toString
          = false := by decide +kernel
  have within : i < 4 := (List.getElem?_eq_some_iff.1 found).1
  have state : ((protocol Schedule.fourNodes 2).serve
      (((forgedVote rd :: votesOf rd [1, 2, 3]).take i).map
        fun m => Stimulus.message (Collects.prepare.message m)) proposing).state = l' := by
    rw [stays.1]
    rfl
  have failed := fails i within m found
  simp only [state] at failed
  rw [completes.valid] at failed
  cases failed completes.enough

end Runs

end HandlerPara

end ParaHotstuff
