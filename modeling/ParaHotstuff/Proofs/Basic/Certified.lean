import ParaHotstuff.Proofs.Basic.Proposals

/-! What makes certificates valid: all votes for a view are on the statement of its leader. -/

namespace ParaHotstuff

namespace Handler

namespace Certified

variable [Hashing] (cfg : Config)

/-- The statement a component signs on the block of another statement, in a phase. -/
def answer (r : RData) (phase : Phase1) : RData := ⟨r.proph, r.propv, Hash.default, 0, phase⟩

section History

variable (H : List BasicEvent)

/-- A statement the leader of its view voted for. -/
def Proposed (r : RData) : Prop :=
  ∃ block lockh lockv, BasicEvent.voted (cfg.getLeaderOf r.propv) r block lockh lockv ∈ H

/-- The component of the leader of a view accepted a certificate of the view. -/
def Stored (v : View) : Prop :=
  ∃ cert, BasicEvent.stored (cfg.getLeaderOf v) cert ∈ H ∧ cert.propv = v

/-- Leaders vote for one statement in each view, in the prepare phase. -/
structure Facts : Prop where
  unique : ∀ {r r'}, Proposed cfg H r → Proposed cfg H r' → r.propv = r'.propv → r = r'
  phase : ∀ {r}, Proposed cfg H r → r.phase = PH1_PREPARE

end History

/-- Signatures of known nodes, each on the same statement. -/
def SignedOn (r : RData) (signs : Signs) : Prop :=
  ∀ s ∈ signs, ∃ q < cfg.total, s = Sign.ofText q q r.toString

section Kinds

variable (H : List BasicEvent)

/-- A vote, or a certificate, is on the statement of the leader. -/
structure Vote (m : MsgPrepare) : Prop where
  proposed : Proposed cfg H m.rdata
  signed : SignedOn cfg m.rdata m.signs

/-- An answer to a certificate, or a certificate of such, is on the block of the leader. -/
def Answers (phase : Phase1) (m : MsgRData) : Prop :=
  ∃ r, Proposed cfg H r ∧ m.rdata = answer r phase ∧ SignedOn cfg m.rdata m.signs

/-- A proposal is the statement its leader voted for. -/
def Proposal (m : MsgLdrPrepare) (v : View) : Prop :=
  ∃ rd, m.prop.just.getRData = some rd ∧ rd.propv = v
    ∧ ∃ r, Proposed cfg H r
      ∧ r = ⟨m.prop.block.hash, rd.propv, rd.justh, rd.justv, PH1_PREPARE⟩

/-- What a node answers if its component refuses a certificate. -/
def Dummy (m : MsgRData) : Prop := m = ⟨RData.default, []⟩

end Kinds

/-- What is known of the component of a node in some view. -/
structure OwnTrusted (p : PID) (tf : TrustedFun) (view : View) (started : Bool) : Prop where
  id : tf.id = p
  priv : tf.priv = p
  qsize : tf.qsize = cfg.qsize
  small : view < wordSize
  /-- The component is in the node's view, or has just begun the next one. -/
  step : tf.view = view
    ∨ (tf.view = (view + 1) % wordSize
      ∧ (tf.phase = PH1_NEWVIEW ∨ (started = true ∧ tf.phase = PH1_PREPARE)))

/-- What is known of the component of a node in a view that the node leads. -/
structure Leading (p : PID) (tf : TrustedFun) (view : View)
    (precommits : Messages View MsgPreCommit) (H : List BasicEvent) : Prop where
  /-- Between its vote and its certificate the component is in the pre-commit phase. -/
  pending : (∃ r, Proposed cfg H r ∧ r.propv = view) →
    (tf.view = view ∧ tf.phase = PH1_PRECOMMIT) ∨ Stored cfg H view
  stored : Stored cfg H view → tf.view = view → tf.phase = PH1_COMMIT
  /-- After its certificate it holds a pre-commit of its own. -/
  collected : Stored cfg H view →
    p ∈ (Messages.allSigns (·.signs) (precommits.held view)).getSigners

/-- What is known of the log of a node. -/
structure OwnLog (p : PID) (log : Log) (H : List BasicEvent) : Prop where
  newviews : ∀ {v m}, m ∈ log.newviews.held v →
    m.rdata.propv = v ∧ ∃ q text, m.signs = [Sign.ofText q q text]
  prepares : ∀ {v m}, m ∈ log.prepares.held v → m.rdata.propv = v ∧ Vote cfg H m
    ∧ (cfg.getLeaderOf v ≠ p → Stored cfg H v)
  precommits : ∀ {v m}, m ∈ log.precommits.held v → m.rdata.propv = v
    ∧ (Dummy m ∨ (Answers cfg H PH1_PRECOMMIT m ∧ Stored cfg H v))
  commits : ∀ {v m}, m ∈ log.commits.held v → cfg.getLeaderOf v = p → m.rdata.propv = v
    ∧ (Dummy m ∨ Answers cfg H PH1_COMMIT m)
  proposals : ∀ {v m}, m ∈ log.proposals.held v → Proposal cfg H m v

/-- What is known of a node that runs. -/
structure Own (p : PID) (h : Handler) (H : List BasicEvent) : Prop where
  known : p < cfg.total
  myid : h.myid = p
  trusted : OwnTrusted cfg p h.tf h.view h.started
  log : OwnLog cfg p h.log H
  /-- A leader votes and accepts certificates in its view, and in no later one. -/
  votes : ∀ {r}, Proposed cfg H r → cfg.getLeaderOf r.propv = p → r.propv ≤ h.view
  stores : ∀ {v}, Stored cfg H v → cfg.getLeaderOf v = p → v ≤ h.view
  /-- It votes only after it has collected new-view messages. -/
  reports : ∀ {r}, Proposed cfg H r → cfg.getLeaderOf r.propv = p →
    cfg.qsize ≤ (h.log.newviews.held r.propv).length
  leading : cfg.getLeaderOf h.view = p → Leading cfg p h.tf h.view h.log.precommits H

/-- What is known of a packet; only the leader of a view receives answers in other phases. -/
def Good (packet : Packet MsgBasic) (H : List BasicEvent) : Prop :=
  match packet.msg with
  | .newView m => ∃ q text, m.signs = [Sign.ofText q q text]
  | .ldrPrepare m => ∃ v, Proposal cfg H m v
  | .prepare m => Vote cfg H m ∧ (cfg.getLeaderOf m.rdata.propv ≠ packet.dest →
      Stored cfg H m.rdata.propv)
  | .preCommit m => Dummy m ∨ ∃ phase, Answers cfg H phase m ∧ Stored cfg H m.rdata.propv
      ∧ (cfg.getLeaderOf m.rdata.propv ≠ packet.dest → phase = PH1_PRECOMMIT)
  | .commit m => Dummy m ∨ ∃ phase, Answers cfg H phase m

/-- The knowledge that makes certificates valid. -/
def knowledge : Knowledge Handler MsgBasic BasicEvent where
  actor := BasicEvent.actor
  own := Own cfg
  facts := Facts cfg
  good := Good cfg

variable {cfg} {H : List BasicEvent} {p : PID} {r : RData} {v : View}

section Mono

omit [Hashing] in
theorem Proposed.mono (proposed : Proposed cfg H r) (added : List BasicEvent) :
    Proposed cfg (added ++ H) r := by
  obtain ⟨block, lockh, lockv, member⟩ := proposed
  exact ⟨block, lockh, lockv, List.mem_append_right _ member⟩

omit [Hashing] in
theorem Stored.mono (stored : Stored cfg H v) (added : List BasicEvent) :
    Stored cfg (added ++ H) v := by
  obtain ⟨cert, member, view⟩ := stored
  exact ⟨cert, List.mem_append_right _ member, view⟩

omit [Hashing] in
theorem Vote.mono {m : MsgPrepare} (vote : Vote cfg H m) (added : List BasicEvent) :
    Vote cfg (added ++ H) m := ⟨vote.proposed.mono added, vote.signed⟩

omit [Hashing] in
theorem Answers.mono {phase : Phase1} {m : MsgRData} (answers : Answers cfg H phase m)
    (added : List BasicEvent) : Answers cfg (added ++ H) phase m := by
  obtain ⟨r, proposed, same, signed⟩ := answers
  exact ⟨r, proposed.mono added, same, signed⟩

theorem Proposal.mono {m : MsgLdrPrepare} (proposal : Proposal cfg H m v)
    (added : List BasicEvent) : Proposal cfg (added ++ H) m v := by
  obtain ⟨rd, tagged, view, r, proposed, same⟩ := proposal
  exact ⟨rd, tagged, view, r, proposed.mono added, same⟩

/-- What is known of a log stays known. -/
theorem OwnLog.mono {log : Log} (own : OwnLog cfg p log H) (added : List BasicEvent) :
    OwnLog cfg p log (added ++ H) where
  newviews := own.newviews
  prepares := fun member =>
    have ⟨view, vote, stored⟩ := own.prepares member
    ⟨view, vote.mono added, fun other => (stored other).mono added⟩
  precommits := fun member => (own.precommits member).imp_right fun kinds =>
    kinds.imp_right fun ⟨answers, stored⟩ => ⟨answers.mono added, stored.mono added⟩
  commits := fun member leads => (own.commits member leads).imp_right fun kinds =>
    kinds.imp_right fun answers => answers.mono added
  proposals := fun member => (own.proposals member).mono added

omit [Hashing] in
/-- Whether a leader voted for a statement does not depend on other events. -/
theorem proposed_append {added : List BasicEvent}
    (others : ∀ e ∈ added, ∀ block lockh lockv,
      e ≠ .voted (cfg.getLeaderOf r.propv) r block lockh lockv) :
    Proposed cfg (added ++ H) r ↔ Proposed cfg H r := by
  constructor
  · rintro ⟨block, lockh, lockv, member⟩
    rcases List.mem_append.1 member with new | old
    · exact absurd rfl (others _ new block lockh lockv)
    · exact ⟨block, lockh, lockv, old⟩
  · exact fun proposed => proposed.mono added

omit [Hashing] in
/-- Nor does whether a leader accepted a certificate. -/
theorem stored_append {added : List BasicEvent}
    (others : ∀ e ∈ added, ∀ cert, cert.propv = v → e ≠ .stored (cfg.getLeaderOf v) cert) :
    Stored cfg (added ++ H) v ↔ Stored cfg H v := by
  constructor
  · rintro ⟨cert, member, view⟩
    rcases List.mem_append.1 member with new | old
    · exact absurd rfl (others _ new cert view)
    · exact ⟨cert, old, view⟩
  · exact fun stored => stored.mono added

section Cons

variable {q : PID} {cert rdata : RData} {w : View}

omit [Hashing]

@[simp] theorem proposed_newview : Proposed cfg (.newview q rdata :: H) r ↔ Proposed cfg H r := by
  simp [Proposed]

@[simp] theorem proposed_stored : Proposed cfg (.stored q cert :: H) r ↔ Proposed cfg H r := by
  simp [Proposed]

@[simp] theorem proposed_executed :
    Proposed cfg (.executed q w rdata :: H) r ↔ Proposed cfg H r := by
  simp [Proposed]

@[simp] theorem proposed_wrong : Proposed cfg (.wrong q w rdata :: H) r ↔ Proposed cfg H r := by
  simp [Proposed]

@[simp] theorem stored_newview : Stored cfg (.newview q rdata :: H) v ↔ Stored cfg H v := by
  simp [Stored]

@[simp] theorem stored_executed : Stored cfg (.executed q w rdata :: H) v ↔ Stored cfg H v := by
  simp [Stored]

@[simp] theorem stored_wrong : Stored cfg (.wrong q w rdata :: H) v ↔ Stored cfg H v := by
  simp [Stored]

@[simp] theorem stored_voted {block : Block} {lockh : Hash} {lockv : View} :
    Stored cfg (.voted q rdata block lockh lockv :: H) v ↔ Stored cfg H v := by
  simp [Stored]

/-- A certificate on record is the one just accepted, or an earlier one. -/
theorem stored_stored :
    Stored cfg (.stored q cert :: H) v ↔ (q = cfg.getLeaderOf v ∧ cert.propv = v) ∨ Stored cfg H v := by
  constructor
  · rintro ⟨cert', member, view⟩
    rcases List.mem_cons.1 member with new | old
    · cases new
      exact .inl ⟨rfl, view⟩
    · exact .inr ⟨cert', old, view⟩
  · rintro (⟨rfl, view⟩ | stored)
    · exact ⟨cert, by simp, view⟩
    · exact stored.mono [_]

/-- A proposal on record is the one just voted for by a leader, or an earlier one. -/
theorem proposed_voted {block : Block} {lockh : Hash} {lockv : View} :
    Proposed cfg (.voted q rdata block lockh lockv :: H) r ↔
      (q = cfg.getLeaderOf r.propv ∧ r = rdata) ∨ Proposed cfg H r := by
  constructor
  · rintro ⟨block', lockh', lockv', member⟩
    rcases List.mem_cons.1 member with new | old
    · cases new
      exact .inl ⟨rfl, rfl⟩
    · exact .inr ⟨block', lockh', lockv', old⟩
  · rintro (⟨rfl, rfl⟩ | proposed)
    · exact ⟨block, lockh, lockv, by simp⟩
    · exact proposed.mono [_]

/-- Events that are no votes keep the facts. -/
theorem Facts.cons {e : BasicEvent} (facts : Facts cfg H)
    (other : ∀ r, Proposed cfg (e :: H) r ↔ Proposed cfg H r) : Facts cfg (e :: H) where
  unique := fun first second => facts.unique ((other _).1 first) ((other _).1 second)
  phase := fun proposed => facts.phase ((other _).1 proposed)

end Cons

/-- What is known of a node stays known while it does not vote or accept as a leader. -/
theorem Own.mono {h : Handler} (own : Own cfg p h H) (added : List BasicEvent)
    (votes : ∀ r, cfg.getLeaderOf r.propv = p →
      (Proposed cfg (added ++ H) r ↔ Proposed cfg H r))
    (stores : ∀ v, cfg.getLeaderOf v = p → (Stored cfg (added ++ H) v ↔ Stored cfg H v)) :
    Own cfg p h (added ++ H) where
  known := own.known
  myid := own.myid
  trusted := own.trusted
  log := own.log.mono added
  votes := fun proposed leads => own.votes ((votes _ leads).1 proposed) leads
  stores := fun stored leads => own.stores ((stores _ leads).1 stored) leads
  reports := fun proposed leads => own.reports ((votes _ leads).1 proposed) leads
  leading := fun leads =>
    have leading := own.leading leads
    { pending := fun ⟨r, proposed, view⟩ =>
        (leading.pending ⟨r, (votes r (view ▸ leads)).1 proposed, view⟩).imp_right fun stored =>
          stored.mono added
      stored := fun stored => leading.stored ((stores _ leads).1 stored)
      collected := fun stored => leading.collected ((stores _ leads).1 stored) }

/-- Events of one node leave what is known of packets and of the other nodes. -/
theorem knowledge_stable : (knowledge cfg).Stable where
  own := by
    intro p q h H added own other mine
    refine Own.mono own added (fun r leads => ?_) fun v leads => ?_
    · refine proposed_append fun e member block lockh lockv same => other ?_
      rw [← mine e member, same, ← leads]
      rfl
    · refine stored_append fun e member cert _ same => other ?_
      rw [← mine e member, same, ← leads]
      rfl
  good := by
    intro packet H good added
    obtain ⟨dest, msg⟩ := packet
    cases msg with
    | newView m => exact good
    | ldrPrepare m =>
      obtain ⟨v, proposal⟩ := good
      exact ⟨v, proposal.mono added⟩
    | prepare m =>
      obtain ⟨vote, stored⟩ := good
      exact ⟨vote.mono added, fun other => (stored other).mono added⟩
    | preCommit m =>
      refine Or.imp_right ?_ good
      rintro ⟨phase, answers, stored, fits⟩
      exact ⟨phase, answers.mono added, stored.mono added, fits⟩
    | commit m =>
      refine Or.imp_right ?_ good
      rintro ⟨phase, answers⟩
      exact ⟨phase, answers.mono added⟩

end Mono

section Collected

variable {log : Log} {signs : Signs} {n : Nat}

omit [Hashing] in
/-- Signatures on one statement verify on it. -/
theorem SignedOn.verify (signed : SignedOn cfg r signs) :
    signs.verify cfg.nodes r.toString = true := by
  rw [Signs.verify_iff]
  intro s member
  obtain ⟨q, known, rfl⟩ := signed s member
  exact ⟨⟨q, q⟩, Nodes.find_upTo_of_lt known, rfl⟩

omit [Hashing] in
/-- A single signature of a known node is on its statement. -/
theorem signedOn_single (known : p < cfg.total) :
    SignedOn cfg r [Sign.ofText p p r.toString] := by
  intro s member
  rw [List.mem_singleton] at member
  exact ⟨p, known, member⟩

/-- The votes collected for a view are on the statement of its leader. -/
theorem OwnLog.getPrepare (own : OwnLog cfg p log H) (facts : Facts cfg H)
    (proposed : Proposed cfg H r) : SignedOn cfg r (log.getPrepare r.propv n) := by
  intro s member
  obtain ⟨m, held, signed⟩ := Messages.mem_of_collected member
  obtain ⟨view, vote, _⟩ := own.prepares held
  have same : m.rdata = r := facts.unique vote.proposed proposed view
  exact same ▸ vote.signed s signed

/-- The answers collected for a view are on the same statement. -/
theorem OwnLog.getPrecommit (own : OwnLog cfg p log H) (facts : Facts cfg H)
    (proposed : Proposed cfg H r) :
    SignedOn cfg (answer r PH1_PRECOMMIT) (log.getPrecommit r.propv n) := by
  intro s member
  obtain ⟨m, held, signed⟩ := Messages.mem_of_collected member
  obtain ⟨view, dummy | ⟨⟨r', proposed', same, signs⟩, _⟩⟩ := own.precommits held
  · rw [dummy] at signed
    simp at signed
  · have view' : r'.propv = r.propv := by rw [← view, same]; rfl
    obtain rfl := facts.unique proposed' proposed view'
    exact same ▸ signs s signed

/-- So are those collected by a leader for the next phase. -/
theorem OwnLog.getCommit (own : OwnLog cfg p log H) (facts : Facts cfg H)
    (proposed : Proposed cfg H r) (leads : cfg.getLeaderOf r.propv = p) :
    SignedOn cfg (answer r PH1_COMMIT) (log.getCommit r.propv n) := by
  intro s member
  obtain ⟨m, held, signed⟩ := Messages.mem_of_collected member
  obtain ⟨view, dummy | ⟨r', proposed', same, signs⟩⟩ := own.commits held leads
  · rw [dummy] at signed
    simp at signed
  · have view' : r'.propv = r.propv := by rw [← view, same]; rfl
    obtain rfl := facts.unique proposed' proposed view'
    exact same ▸ signs s signed

end Collected

section Stored

variable {log : Log} {m : MsgRData}

theorem OwnLog.storeNv (own : OwnLog cfg p log H)
    (single : ∃ q text, m.signs = [Sign.ofText q q text]) : OwnLog cfg p (log.storeNv m).2 H :=
  { own with
    newviews := fun member => by
      rcases Messages.mem_store member with old | ⟨rfl, rfl⟩
      · exact own.newviews old
      · exact ⟨rfl, single⟩ }

theorem OwnLog.storePrep (own : OwnLog cfg p log H) (vote : Vote cfg H m)
    (stored : cfg.getLeaderOf m.rdata.propv ≠ p → Stored cfg H m.rdata.propv) :
    OwnLog cfg p (log.storePrep m).2 H :=
  { own with
    prepares := fun member => by
      rcases Messages.mem_store member with old | ⟨rfl, rfl⟩
      · exact own.prepares old
      · exact ⟨rfl, vote, stored⟩ }

theorem OwnLog.storePc (own : OwnLog cfg p log H)
    (kinds : Dummy m ∨ (Answers cfg H PH1_PRECOMMIT m ∧ Stored cfg H m.rdata.propv)) :
    OwnLog cfg p (log.storePc m).2 H :=
  { own with
    precommits := fun member => by
      rcases Messages.mem_store member with old | ⟨rfl, rfl⟩
      · exact own.precommits old
      · exact ⟨rfl, kinds⟩ }

theorem OwnLog.storeCom (own : OwnLog cfg p log H)
    (kinds : cfg.getLeaderOf m.rdata.propv = p → Dummy m ∨ Answers cfg H PH1_COMMIT m) :
    OwnLog cfg p (log.storeCom m).2 H :=
  { own with
    commits := fun member leads => by
      rcases Messages.mem_store member with old | ⟨rfl, rfl⟩
      · exact own.commits old leads
      · exact ⟨rfl, kinds leads⟩ }

theorem OwnLog.storeProp {m : MsgLdrPrepare} (own : OwnLog cfg p log H)
    (proposal : Proposal cfg H m v) :
    OwnLog cfg p
      { log with proposals := (log.proposals.store (·.signs) MsgLdrPrepare.lt v m).2 } H :=
  { own with
    proposals := fun member => by
      rcases Messages.mem_store member with old | ⟨rfl, rfl⟩
      · exact own.proposals old
      · exact proposal }

end Stored

section Component

variable {tf tf' : TrustedFun} {view : View} {started : Bool}

omit [Hashing]

/-- The next view is another one. -/
theorem next_ne (small : view < wordSize) : (view + 1) % wordSize ≠ view := by
  rcases Nat.lt_or_eq_of_le (Nat.succ_le_of_lt small) with room | last
  · rw [Nat.mod_eq_of_lt room]
    exact Nat.succ_ne_self view
  · rw [show view + 1 = wordSize from last, Nat.mod_self]
    rintro rfl
    exact absurd last (by decide)

/-- A component in the node's view may move to its next phase. -/
theorem OwnTrusted.increment (own : OwnTrusted cfg p tf view started) (here : tf.view = view) :
    OwnTrusted cfg p tf.increment view started where
  id := by simpa using own.id
  priv := by simpa using own.priv
  qsize := by simpa using own.qsize
  small := own.small
  step := by
    rcases tf.increment_moves with ⟨same, _⟩ | ⟨next, phase⟩
    · exact .inl (same.trans here)
    · exact .inr ⟨by rw [next, here], .inl phase⟩

/-- Storing a certificate does not move the component. -/
theorem OwnTrusted.storeBlock (own : OwnTrusted cfg p tf view started) (h : Hash) (v : View) :
    OwnTrusted cfg p (tf.storeBlock h v) view started := { own with }

/-- The first start moves the component one phase on, wherever earlier messages brought it. -/
theorem OwnTrusted.begin (own : OwnTrusted cfg p tf view false) :
    OwnTrusted cfg p tf.increment view true := by
  rcases own.step with here | ⟨next, phase | ⟨never, _⟩⟩
  · have moved := own.increment here
    exact { moved with
      step := moved.step.imp_right fun ⟨next, phase⟩ => ⟨next, phase.imp_right fun ⟨_, p⟩ => ⟨rfl, p⟩⟩ }
  · have moved : tf.increment = { tf with phase := PH1_PREPARE } := by
      simp only [TrustedFun.increment, phase]
      rfl
    rw [moved]
    exact { own with step := .inr ⟨next, .inr ⟨rfl, rfl⟩⟩ }
  · cases never

/-- Entering the next view with a component that has begun it. -/
theorem OwnTrusted.enter (own : OwnTrusted cfg p tf view started) (begun : Begun tf view tf')
    (room : view + 1 < wordSize) : OwnTrusted cfg p tf'.increment (view + 1) started := by
  obtain ⟨phase, now, rfl⟩ := begun.same
  have entered : OwnTrusted cfg p { tf with phase := phase, view := now } (view + 1) started :=
    { own with
      small := room
      step := .inl begun.here }
  exact entered.increment begun.here

/-- A leader whose component is in the prepare phase has neither voted nor certified. -/
theorem Own.fresh [Hashing] {h : Handler} (own : Own cfg p h H)
    (leads : cfg.getLeaderOf h.view = p) (current : h.tf.view = h.view)
    (phase : h.tf.phase = PH1_PREPARE) :
    (∀ {r}, Proposed cfg H r → r.propv ≠ h.view) ∧ ¬ Stored cfg H h.view := by
  have leading := own.leading leads
  have none_stored : ¬ Stored cfg H h.view := by
    intro stored
    have later := leading.stored stored current
    rw [phase] at later
    exact absurd later (by decide)
  refine ⟨fun proposed here => ?_, none_stored⟩
  rcases leading.pending ⟨_, proposed, here⟩ with ⟨_, later⟩ | stored
  · rw [phase] at later
    exact absurd later (by decide)
  · exact none_stored stored

/-- A leader that votes in its view, in the prepare phase, and counts its own vote. -/
theorem Own.propose [Hashing] {h : Handler} (own : Own cfg p h H) {block : Block} {lockh : Hash}
    {lockv : View} {log : Log} {b : AList fun _ : View => Block} (here : r.propv = h.view)
    (leads : cfg.getLeaderOf h.view = p) (current : h.tf.view = h.view)
    (phase : h.tf.phase = PH1_PREPARE) (full : cfg.qsize ≤ (h.log.newviews.held h.view).length)
    (kept : OwnLog cfg p log (.voted p r block lockh lockv :: H))
    (newviews : log.newviews = h.log.newviews) :
    Own cfg p { h with tf := h.tf.increment, blocks := b, log := log }
      (.voted p r block lockh lockv :: H) where
  known := own.known
  myid := own.myid
  trusted := own.trusted.increment current
  log := kept
  votes := fun proposed leads' => by
    rcases proposed_voted.1 proposed with ⟨_, rfl⟩ | old
    · exact Nat.le_of_eq here
    · exact own.votes old leads'
  stores := fun stored leads' => own.stores (stored_voted.1 stored) leads'
  reports := fun proposed leads' => by
    rw [newviews]
    rcases proposed_voted.1 proposed with ⟨_, rfl⟩ | old
    · rw [here]
      exact full
    · exact own.reports old leads'
  leading := fun _ => by
    have none_stored := (own.fresh leads current phase).2
    have moved : h.tf.increment = { h.tf with phase := PH1_PRECOMMIT } := by
      simp only [TrustedFun.increment, phase]
      rfl
    exact
      { pending := fun _ => .inl ⟨by rw [moved]; exact current, by rw [moved]⟩
        stored := fun stored => absurd (stored_voted.1 stored) none_stored
        collected := fun stored => absurd (stored_voted.1 stored) none_stored }

/-- The first vote of a leader in a view, in the prepare phase, keeps the facts. -/
theorem Facts.propose {block : Block} {lockh : Hash} {lockv : View} (facts : Facts cfg H)
    (first : ∀ {r'}, Proposed cfg H r' → r'.propv ≠ r.propv) (phase : r.phase = PH1_PREPARE) :
    Facts cfg (.voted p r block lockh lockv :: H) where
  unique := fun {a b} proposed proposed' same => by
    rcases proposed_voted.1 proposed with ⟨_, rfl⟩ | old
    · rcases proposed_voted.1 proposed' with ⟨_, rfl⟩ | old'
      · rfl
      · exact absurd same.symm (first old')
    · rcases proposed_voted.1 proposed' with ⟨_, rfl⟩ | old'
      · exact absurd same (first old)
      · exact facts.unique old old' same
  phase := fun proposed => by
    rcases proposed_voted.1 proposed with ⟨_, rfl⟩ | old
    · exact phase
    · exact facts.phase old

/-- A component that answers a certificate in a view the node has entered. -/
theorem Own.store [Hashing] {h : Handler} (own : Own cfg p h H) {cert : RData} {log : Log}
    (here : cert.propv = h.view) (current : h.tf.view = h.view)
    (kept : OwnLog cfg p log (.stored p cert :: H)) (newviews : log.newviews = h.log.newviews)
    (leading : cfg.getLeaderOf h.view = p →
      (h.tf.increment.view = h.view → h.tf.increment.phase = PH1_COMMIT)
        ∧ p ∈ (Messages.allSigns (·.signs) (log.precommits.held h.view)).getSigners) :
    Own cfg p
      { h with tf := (h.tf.storeBlock cert.proph cert.propv).increment, log := log }
      (.stored p cert :: H) where
  known := own.known
  myid := own.myid
  trusted := (own.trusted.storeBlock cert.proph cert.propv).increment current
  log := kept
  votes := fun proposed leads => own.votes (proposed_stored.1 proposed) leads
  stores := fun stored leads => by
    rcases stored_stored.1 stored with ⟨_, rfl⟩ | old
    · exact Nat.le_of_eq here
    · exact own.stores old leads
  reports := fun proposed leads => by
    rw [newviews]
    exact own.reports (proposed_stored.1 proposed) leads
  leading := fun leads =>
    { pending := fun _ => .inr (stored_stored.2 (.inl ⟨leads.symm, here⟩))
      stored := fun _ now => by
        have same : ((h.tf.storeBlock cert.proph cert.propv).increment).phase
            = h.tf.increment.phase := by
          simp only [TrustedFun.increment, TrustedFun.storeBlock_eq, beq_iff_eq]
          split_ifs <;> rfl
        have view : ((h.tf.storeBlock cert.proph cert.propv).increment).view
            = h.tf.increment.view := by
          simp only [TrustedFun.increment, TrustedFun.storeBlock_eq, beq_iff_eq]
          split_ifs <;> rfl
        exact same.trans ((leading leads).1 (view.symm.trans now))
      collected := fun _ => (leading leads).2 }

/-- The component signs in the name of the node. -/
theorem OwnTrusted.signature_eq (own : OwnTrusted cfg p tf view started) (r : RData) :
    tf.signature r = Sign.ofText p p r.toString := by
  simp [TrustedFun.signature, own.id, own.priv]

end Component

end Certified

end Handler

end ParaHotstuff
