import ParaHotstuff.Handler.Basic
import ParaHotstuff.Lib.Locking
import ParaHotstuff.Proofs.Votes

/-! What is known of every run of the basic protocol. -/

namespace ParaHotstuff

namespace Handler

variable (cfg : Config)

section History

variable (H : List BasicEvent)

/-- A vote of the history: for a block, on a justified parent, under a lock. -/
def Voted (p : PID) (u : Vote Digest) : Prop :=
  ∃ rdata block lockh lockv, BasicEvent.voted p rdata block lockh lockv ∈ H
    ∧ u = ⟨rdata.propv, rdata.proph.hash, rdata.justh.hash, rdata.justv, lockh.hash, lockv⟩

/-- The component of a node accepted a certificate for a block of a view. -/
def Stored (p : PID) (v : View) (b : Digest) : Prop :=
  ∃ rdata, BasicEvent.stored p rdata ∈ H ∧ rdata.propv = v ∧ rdata.proph.hash = b

/-- A block someone voted for names the other one as its previous block. -/
def Link [Hashing] (a b : Digest) : Prop :=
  ∃ p rdata block lockh lockv, BasicEvent.voted p rdata block lockh lockv ∈ H
    ∧ block.prevHash.hash = a ∧ block.hash.hash = b

/-- The block the leader of a view voted for first. -/
def proposal (v : View) : List BasicEvent → Option Digest
  | [] => none
  | e :: H =>
    match proposal v H, e with
    | some b, _ => some b
    | none, .voted p rdata _ _ _ =>
      if p = cfg.getLeaderOf v ∧ rdata.propv = v then some rdata.proph.hash else none
    | none, _ => none

/-- A signature is a vote of its signer for a block of the view. -/
def VoteSign (v : View) (s : Sign) : Prop :=
  s.signer < cfg.total ∧ ∃ (rdata : RData) (block : Block) (lockh : Hash) (lockv : View),
    s.sign = .made s.signer rdata.toString ∧ rdata.propv = v
      ∧ BasicEvent.voted s.signer rdata block lockh lockv ∈ H

/-- A signature is on a block of the view whose certificate its signer stored. -/
def StoreSign (v : View) (s : Sign) : Prop :=
  s.signer < cfg.total ∧ ∃ rdata : RData, s.sign = .made s.signer rdata.toString
    ∧ Stored H s.signer v rdata.proph.hash

/-- A new-view message carries the statement of its only signer. -/
def NvMsg (m : MsgNewView) : Prop :=
  ∃ p, p < cfg.total ∧ BasicEvent.newview p m.rdata ∈ H
    ∧ m.signs = [Sign.ofText p p m.rdata.toString]

/-- A prepare message carries votes of distinct nodes in a view whose leader has proposed. -/
structure PrepMsg (m : MsgPrepare) : Prop where
  distinct : m.signs.getSigners.Nodup
  votes : ∀ s ∈ m.signs, VoteSign cfg H m.rdata.propv s
  some_vote : m.signs ≠ []
  proposed : (proposal cfg m.rdata.propv H).isSome

/-- A full prepare certificate contains the leader's own first vote. -/
def PrepCert (m : MsgPrepare) : Prop :=
  m.signs.length = cfg.qsize → ∃ s ∈ m.signs, ∃ rdata : RData,
    s.sign = .made s.signer rdata.toString
      ∧ proposal cfg m.rdata.propv H = some rdata.proph.hash

/-- A pre-commit message carries signatures of distinct nodes that stored a certificate. -/
structure PcMsg (m : MsgPreCommit) : Prop where
  distinct : m.signs.getSigners.Nodup
  stores : ∀ s ∈ m.signs, StoreSign cfg H m.rdata.propv s

/-- A commit message is of the same kind, and on the proposed block unless it is the dummy. -/
structure ComMsg (m : MsgCommit) : Prop extends PcMsg cfg H m where
  block : proposal cfg m.rdata.propv H = some m.rdata.proph.hash
    ∨ (m.rdata = RData.default ∧ m.signs = [])

/-- A justification for a proposal is a new-view statement someone sent, for the same view. -/
def NvJust (just : Just) (rdata : RData) : Prop :=
  just.getRData = some rdata ∧ ∃ p, BasicEvent.newview p rdata ∈ H

/-- A proposal rests on a new-view statement, and the leader voted for a block of the view. -/
def PropMsg (m : MsgLdrPrepare) (rdata : RData) : Prop :=
  NvJust H m.prop.just rdata ∧ (proposal cfg rdata.propv H).isSome

/-- What is known of the history of a run. -/
structure Facts [Hashing] : Prop where
  rules : Locking cfg.total cfg.qsize (Link H) (Voted H) (Stored H)
  lockBound : ∀ {p u}, Voted H p u → u.lockView ≤ u.view
  unique : ∀ {p v b}, Stored H p v b → proposal cfg v H = some b
  /-- A new-view statement reports a block stored in an earlier view. -/
  nvStored : ∀ {p r}, BasicEvent.newview p r ∈ H → 0 < r.propv → 0 < r.justv →
    r.justv < r.propv ∧ Stored H p r.justv r.justh.hash
  /-- A new-view statement reports nothing older than what its signer had stored. -/
  nvNewest : ∀ {p r v b}, BasicEvent.newview p r ∈ H → Stored H p v b → v < r.propv →
    v ≤ r.justv
  executed : ∀ {p v r}, BasicEvent.executed p v r ∈ H → r.propv = v ∧
    ∃ Q, IsQuorum cfg.total cfg.qsize Q ∧ ∀ q ∈ Q, Stored H q v r.proph.hash

end History

/-- What is known of the trusted component of a node in some view. -/
structure OwnTrusted (p : PID) (tf : TrustedFun) (view : View) (started : Bool)
    (H : List BasicEvent) : Prop where
  id : tf.id = p
  priv : tf.priv = p
  qsize : tf.qsize = cfg.qsize
  small : view < wordSize
  /-- The component is in the node's view, or has just begun the next one. -/
  step : (tf.view = view ∧ (view = 0 ∨ tf.phase ≠ PH1_NEWVIEW))
    ∨ (tf.view = (view + 1) % wordSize
      ∧ (tf.phase = PH1_NEWVIEW ∨ (started = true ∧ tf.phase = PH1_PREPARE)))
  votes : ∀ {u}, Voted H p u → u.view ≤ view
  stores : ∀ {v b}, Stored H p v b → v ≤ view
  newest : ∀ {v b}, Stored H p v b → v < tf.lockv ∨ (v = tf.lockv ∧ b = tf.lockh.hash)
  lockStored : 0 < tf.lockv → Stored H p tf.lockv tf.lockh.hash
  /-- Prepared and locked blocks never differ. -/
  prepared : tf.preph = tf.lockh ∧ tf.prepv = tf.lockv
  nvBound : ∀ {r}, BasicEvent.newview p r ∈ H → r.propv ≤ view + 1
  nvNow : ∀ {r}, BasicEvent.newview p r ∈ H → tf.view = view → r.propv ≤ view

/-- What is known of the log of a node. -/
structure OwnLog (p : PID) (log : Log) (H : List BasicEvent) : Prop where
  newviews : ∀ {v m}, m ∈ log.newviews.held v → m.rdata.propv = v ∧ NvMsg cfg H m
  prepares : ∀ {v m}, m ∈ log.prepares.held v → m.rdata.propv = v ∧ PrepMsg cfg H m
    ∧ (cfg.getLeaderOf v ≠ p → PrepCert cfg H m)
  precommits : ∀ {v m}, m ∈ log.precommits.held v → m.rdata.propv = v ∧ PcMsg cfg H m
  commits : ∀ {v m}, m ∈ log.commits.held v → m.rdata.propv = v ∧ ComMsg cfg H m
    ∧ (cfg.getLeaderOf v ≠ p → m.signs.length = cfg.qsize ∨ m.rdata = RData.default)
  proposals : ∀ {v m}, m ∈ log.proposals.held v →
    cfg.getLeaderOf v ≠ p ∧ ∃ rdata, rdata.propv = v ∧ PropMsg cfg H m rdata
      ∧ m.prop.block.prevHash.hash = rdata.justh.hash
  /-- The log of a leader holds single votes, its own first one among them. -/
  ownPrepares : ∀ {v}, cfg.getLeaderOf v = p → Messages.Singles (·.signs) (log.prepares.held v)
  ownPrecommits : ∀ {v}, cfg.getLeaderOf v = p → Messages.Singles (·.signs) (log.precommits.held v)
  ownCommits : ∀ {v}, cfg.getLeaderOf v = p → Messages.Singles (·.signs) (log.commits.held v)
  ownVote : ∀ {v b}, cfg.getLeaderOf v = p → proposal cfg v H = some b →
    ∃ m ∈ log.prepares.held v, ∃ rdata : RData, rdata.proph.hash = b
      ∧ m.signs = [Sign.ofText p p rdata.toString]

/-- What is known of a node that runs. -/
structure Own (p : PID) (h : Handler) (H : List BasicEvent) : Prop where
  known : p < cfg.total
  myid : h.myid = p
  trusted : OwnTrusted cfg p h.tf h.view h.started H
  log : OwnLog cfg p h.log H

/-- What is known of a packet; the leader of a view receives single votes and sends certificates. -/
def Good (packet : Packet MsgBasic) (H : List BasicEvent) : Prop :=
  match packet.msg with
  | .newView m => m.rdata.phase = PH1_NEWVIEW → NvMsg cfg H m
  | .ldrPrepare m => ∃ rdata, PropMsg cfg H m rdata ∧ cfg.getLeaderOf rdata.propv ≠ packet.dest
  | .prepare m => PrepMsg cfg H m
    ∧ (cfg.getLeaderOf m.rdata.propv = packet.dest → m.signs.length ≤ 1)
    ∧ (cfg.getLeaderOf m.rdata.propv ≠ packet.dest → PrepCert cfg H m)
  | .preCommit m => PcMsg cfg H m
    ∧ (cfg.getLeaderOf m.rdata.propv = packet.dest → m.signs.length ≤ 1)
  | .commit m => ComMsg cfg H m
    ∧ (cfg.getLeaderOf m.rdata.propv = packet.dest → m.signs.length ≤ 1)
    ∧ (cfg.getLeaderOf m.rdata.propv ≠ packet.dest →
        m.signs.length = cfg.qsize ∨ m.rdata = RData.default)

/-- The knowledge of the basic protocol. -/
def knowledge [Hashing] : Knowledge Handler MsgBasic BasicEvent where
  actor := BasicEvent.actor
  own := Own cfg
  facts := fun H => Facts cfg H
  good := Good cfg

section Mono

variable {cfg} {H : List BasicEvent} {p : PID} {v : View} {b : Digest}

theorem Voted.mono {u : Vote Digest} (voted : Voted H p u) (added : List BasicEvent) :
    Voted (added ++ H) p u := by
  obtain ⟨rdata, block, lockh, lockv, member, rfl⟩ := voted
  exact ⟨rdata, block, lockh, lockv, List.mem_append_right _ member, rfl⟩

theorem Stored.mono (stored : Stored H p v b) (added : List BasicEvent) :
    Stored (added ++ H) p v b := by
  obtain ⟨rdata, member, view, block⟩ := stored
  exact ⟨rdata, List.mem_append_right _ member, view, block⟩

/-- The first vote of a leader stays the first one. -/
theorem proposal_mono (proposed : proposal cfg v H = some b) (added : List BasicEvent) :
    proposal cfg v (added ++ H) = some b := by
  induction added with
  | nil => exact proposed
  | cons e added ih => simp [proposal, ih]

/-- Whether a leader has proposed does not depend on what other nodes do. -/
theorem proposal_of_others {added : List BasicEvent}
    (others : ∀ e ∈ added, e.actor ≠ cfg.getLeaderOf v) :
    proposal cfg v (added ++ H) = proposal cfg v H := by
  induction added with
  | nil => rfl
  | cons e added ih =>
    have same := ih fun e' member => others e' (by simp [member])
    have other := others e (by simp)
    rw [List.cons_append]
    cases proposed : proposal cfg v H with
    | some b => simp [proposal, same, proposed]
    | none =>
      cases e with
      | voted p r block lockh lockv =>
        have foreign : p ≠ cfg.getLeaderOf v := other
        simp [proposal, same, proposed, foreign]
      | newview p r => simp [proposal, same, proposed]
      | stored p r => simp [proposal, same, proposed]
      | executed p w r => simp [proposal, same, proposed]
      | wrong p w r => simp [proposal, same, proposed]

theorem VoteSign.mono {s : Sign} (signed : VoteSign cfg H v s) (added : List BasicEvent) :
    VoteSign cfg (added ++ H) v s := by
  obtain ⟨known, rdata, block, lockh, lockv, made, view, member⟩ := signed
  exact ⟨known, rdata, block, lockh, lockv, made, view, List.mem_append_right _ member⟩

theorem StoreSign.mono {s : Sign} (signed : StoreSign cfg H v s) (added : List BasicEvent) :
    StoreSign cfg (added ++ H) v s := by
  obtain ⟨known, rdata, made, stored⟩ := signed
  exact ⟨known, rdata, made, stored.mono added⟩

theorem NvMsg.mono {m : MsgNewView} (known : NvMsg cfg H m) (added : List BasicEvent) :
    NvMsg cfg (added ++ H) m := by
  obtain ⟨p, within, member, signs⟩ := known
  exact ⟨p, within, List.mem_append_right _ member, signs⟩

theorem PrepMsg.mono {m : MsgPrepare} (known : PrepMsg cfg H m) (added : List BasicEvent) :
    PrepMsg cfg (added ++ H) m where
  distinct := known.distinct
  votes := fun s member => (known.votes s member).mono added
  some_vote := known.some_vote
  proposed := by
    obtain ⟨b, proposed⟩ := Option.isSome_iff_exists.1 known.proposed
    exact Option.isSome_iff_exists.2 ⟨b, proposal_mono proposed added⟩

theorem PrepCert.mono {m : MsgPrepare} (known : PrepCert cfg H m) (added : List BasicEvent) :
    PrepCert cfg (added ++ H) m := by
  intro full
  obtain ⟨s, member, rdata, made, proposed⟩ := known full
  exact ⟨s, member, rdata, made, proposal_mono proposed added⟩

theorem PcMsg.mono {m : MsgPreCommit} (known : PcMsg cfg H m) (added : List BasicEvent) :
    PcMsg cfg (added ++ H) m where
  distinct := known.distinct
  stores := fun s member => (known.stores s member).mono added

theorem ComMsg.mono {m : MsgCommit} (known : ComMsg cfg H m) (added : List BasicEvent) :
    ComMsg cfg (added ++ H) m where
  toPcMsg := known.toPcMsg.mono added
  block := known.block.imp_left fun proposed => proposal_mono proposed added

theorem PropMsg.mono {m : MsgLdrPrepare} {rdata : RData} (known : PropMsg cfg H m rdata)
    (added : List BasicEvent) : PropMsg cfg (added ++ H) m rdata := by
  obtain ⟨⟨tagged, p, member⟩, proposed⟩ := known
  obtain ⟨b, proposed⟩ := Option.isSome_iff_exists.1 proposed
  exact ⟨⟨tagged, p, List.mem_append_right _ member⟩,
    Option.isSome_iff_exists.2 ⟨b, proposal_mono proposed added⟩⟩

/-- What is known of a log stays known, as long as no proposal of its own node is added. -/
theorem OwnLog.mono {log : Log} (own : OwnLog cfg p log H) (added : List BasicEvent)
    (same : ∀ v, cfg.getLeaderOf v = p → proposal cfg v (added ++ H) = proposal cfg v H) :
    OwnLog cfg p log (added ++ H) where
  newviews := fun member => (own.newviews member).imp_right fun known => known.mono added
  prepares := fun member =>
    have ⟨view, known, cert⟩ := own.prepares member
    ⟨view, known.mono added, fun other => (cert other).mono added⟩
  precommits := fun member => (own.precommits member).imp_right fun known => known.mono added
  commits := fun member =>
    have ⟨view, known, cert⟩ := own.commits member
    ⟨view, known.mono added, cert⟩
  proposals := fun member =>
    have ⟨other, rdata, view, known, extended⟩ := own.proposals member
    ⟨other, rdata, view, known.mono added, extended⟩
  ownPrepares := own.ownPrepares
  ownPrecommits := own.ownPrecommits
  ownCommits := own.ownCommits
  ownVote := fun leader proposed => own.ownVote leader (same _ leader ▸ proposed)

/-- What is known of a component stays known while its node adds no vote, store or statement. -/
theorem OwnTrusted.mono {tf : TrustedFun} {view : View} {started : Bool}
    (own : OwnTrusted cfg p tf view started H) (added : List BasicEvent)
    (others : ∀ e ∈ added, e.actor = p → ∃ v r, e = .executed p v r ∨ e = .wrong p v r) :
    OwnTrusted cfg p tf view started (added ++ H) := by
  -- None of the added events is one the component's state depends on.
  have old : ∀ {e}, e.actor = p → (∀ v r, e ≠ .executed p v r ∧ e ≠ .wrong p v r) →
      e ∈ added ++ H → e ∈ H := by
    intro e mine kind member
    rcases List.mem_append.1 member with new | old
    · obtain ⟨v, r, executed | wrong⟩ := others e new mine
      · exact absurd executed (kind v r).1
      · exact absurd wrong (kind v r).2
    · exact old
  have voted : ∀ {u}, Voted (added ++ H) p u → Voted H p u := by
    rintro u ⟨rdata, block, lockh, lockv, member, same⟩
    exact ⟨rdata, block, lockh, lockv, old rfl (by simp) member, same⟩
  have stored : ∀ {v b}, Stored (added ++ H) p v b → Stored H p v b := by
    rintro v b ⟨rdata, member, same⟩
    exact ⟨rdata, old rfl (by simp) member, same⟩
  exact {
    own with
    votes := fun vote => own.votes (voted vote)
    stores := fun store => own.stores (stored store)
    newest := fun store => own.newest (stored store)
    lockStored := fun positive => (own.lockStored positive).mono added
    nvBound := fun member => own.nvBound (old rfl (by simp) member)
    nvNow := fun member => own.nvNow (old rfl (by simp) member) }

/-- Events of one node leave what is known of packets and of the other nodes. -/
theorem knowledge_stable [Hashing] : (knowledge cfg).Stable where
  own := by
    intro p q node history added own other mine
    have foreign : ∀ e ∈ added, e.actor ≠ q := fun e member => by
      rw [show e.actor = p from mine e member]; exact other
    exact {
      known := own.known
      myid := own.myid
      trusted := own.trusted.mono _ fun e member same => absurd same (foreign e member)
      log := own.log.mono _ fun v leader =>
        proposal_of_others fun e member => leader ▸ foreign e member }
  good := by
    intro packet history good added
    obtain ⟨dest, msg⟩ := packet
    cases msg with
    | newView m => exact fun phase => (good phase).mono added
    | ldrPrepare m =>
      obtain ⟨rdata, known, other⟩ := good
      exact ⟨rdata, known.mono added, other⟩
    | prepare m =>
      obtain ⟨known, single, cert⟩ := good
      exact ⟨known.mono added, single, fun other => (cert other).mono added⟩
    | preCommit m =>
      obtain ⟨known, single⟩ := good
      exact ⟨known.mono added, single⟩
    | commit m =>
      obtain ⟨known, rest⟩ := good
      exact ⟨known.mono added, rest⟩

end Mono

end Handler

end ParaHotstuff
