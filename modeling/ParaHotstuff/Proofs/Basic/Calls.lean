import ParaHotstuff.Handler.Basic
import ParaHotstuff.Proofs.Votes

/-! What the single operations of a basic node do, whatever is known of the node. -/

namespace ParaHotstuff

namespace Log

variable {log : Log} {q : Nat}

/-- If as many reports are counted as are needed, as many are held. -/
theorem length_storeNv {msg : MsgNewView} (needed : 0 < q) (counted : (log.storeNv msg).1 = q) :
    ((log.storeNv msg).2.newviews.held msg.rdata.propv).length = q := by
  have count : (log.newviews.store (·.signs) MsgRData.lt msg.rdata.propv msg).1 = q := counted
  have stored := Messages.store_count (·.signs) MsgRData.lt log.newviews msg.rdata.propv msg
    (by rw [count]; omega)
  exact stored.trans count

/-- The same for votes. -/
theorem length_storePrep {msg : MsgPrepare} (needed : 0 < q)
    (counted : (log.storePrep msg).1 = q) :
    ((log.storePrep msg).2.prepares.held msg.rdata.propv).length = q := by
  have count : (log.prepares.store (·.signs) MsgRData.lt msg.rdata.propv msg).1 = q := counted
  have stored := Messages.store_count (·.signs) MsgRData.lt log.prepares msg.rdata.propv msg
    (by rw [count]; omega)
  exact stored.trans count

end Log

namespace Handler

open Program Local

variable {cfg : Config} {l : State} {r rd : RData}

/-- A leader handles its own report, and any other node sends it to the leader. -/
def sendNewview [Hashing] (cfg : Config) (next : M Unit) (msg : MsgNewView) (recipients : List PID) :
    M Unit := do
  if ← amCurrentLeader cfg then handleNewview cfg next msg
  else multicast_msg (.newView msg) recipients

/-- A view entered is announced to its leader, and the messages held for it are gone through. -/
def announceNewview [Hashing] (cfg : Config) (next : M Unit) (h : Handler) (msg : MsgNewView) :
    M Unit := do
  note (.newview h.myid msg.rdata)
  if ← amCurrentLeader cfg then
    handleEarlierMessages cfg next
    handleNewview cfg next msg
  else
    multicast_msg (.newView msg) (cfg.keep_from_peers h.myid (cfg.getLeaderOf h.view))
    handleEarlierMessages cfg next

section Operations

@[simp] theorem gives_setTimer {post : Unit → State → Prop} {stop : State → Prop} :
    Gives setTimer post stop l ↔ post () { l with node := { l.node with timer := true } } :=
  Iff.rfl

@[simp] theorem gives_callTEEsign {post : Just → State → Prop} {stop : State → Prop} :
    Gives callTEEsign post stop l ↔
      post l.node.tf.TEEsign.1 { l with node := { l.node with tf := l.node.tf.increment } } :=
  Iff.rfl

@[simp] theorem gives_storePrep {post : Nat → State → Prop} {stop : State → Prop}
    {m : MsgPrepare} : Gives (storePrep m) post stop l ↔
      post (l.node.log.storePrep m).1
        { l with node := { l.node with log := (l.node.log.storePrep m).2 } } := Iff.rfl

@[simp] theorem gives_storePc {post : Nat → State → Prop} {stop : State → Prop}
    {m : MsgPreCommit} : Gives (storePc m) post stop l ↔
      post (l.node.log.storePc m).1
        { l with node := { l.node with log := (l.node.log.storePc m).2 } } := Iff.rfl

@[simp] theorem gives_storeCom {post : Nat → State → Prop} {stop : State → Prop}
    {m : MsgCommit} : Gives (storeCom m) post stop l ↔
      post (l.node.log.storeCom m).1
        { l with node := { l.node with log := (l.node.log.storeCom m).2 } } := Iff.rfl

@[simp] theorem gives_storeNv {post : Nat → State → Prop} {stop : State → Prop}
    {m : MsgNewView} : Gives (storeNv m) post stop l ↔
      post (l.node.log.storeNv m).1
        { l with node := { l.node with log := (l.node.log.storeNv m).2 } } := Iff.rfl

@[simp] theorem gives_amCurrentLeader {post : Bool → State → Prop} {stop : State → Prop} :
    Gives (amCurrentLeader cfg) post stop l ↔
      post (cfg.amLeaderOf l.node.myid l.node.view) l := Iff.rfl

@[simp] theorem gives_keepBlock {post : Unit → State → Prop} {stop : State → Prop}
    {block : Block} : Gives (keepBlock block r) post stop l ↔
      post () { l with
        node := { l.node with blocks := l.node.blocks.insert l.node.view block }
        history := .voted l.node.myid r block l.node.tf.lockh l.node.tf.lockv :: l.history } :=
  Iff.rfl

/-- What a call for a vote gives: nothing at all, or a signed statement. -/
theorem callTEEprepare_answer {hash : Hash} {just : Just} {post : Just → State → Prop}
    {stop : State → Prop} (stopped : stop l) (refused : post Just.default l)
    (accepted : ∀ rd, just.getRData = some rd → l.node.tf.votesOn cfg.nodes just = true →
      post (Just.ofRData (l.node.tf.statement hash rd.justh rd.justv)
          [l.node.tf.signature (l.node.tf.statement hash rd.justh rd.justv)])
        { l with node := { l.node with tf := l.node.tf.increment } }) :
    (callTEEprepare cfg hash just).Gives post stop l := by
  simp only [callTEEprepare, gives_bind, gives_this]
  rcases l.node.tf.TEEprepare_cases cfg.nodes hash just with
    ⟨_, thrown | unset⟩ | ⟨rd, tagged, checks, signed⟩
  · rw [thrown]
    exact stopped
  · rw [unset]
    exact refused
  · rw [signed]
    exact accepted rd tagged checks

/-- What a call with a certificate gives: nothing at all, or a signed statement and an event. -/
theorem callTEEstore_answer {signs : Signs} {post : Just → State → Prop} {stop : State → Prop}
    (stopped : stop l) (refused : post Just.default l)
    (accepted : signs.length = l.node.tf.qsize → signs.verify cfg.nodes rd.toString = true →
      l.node.tf.view = rd.propv → (rd.phase = PH1_PREPARE ∨ rd.phase = PH1_PRECOMMIT) →
      post (Just.ofRData
          ((l.node.tf.storeBlock rd.proph rd.propv).statement rd.proph Hash.default 0)
          [(l.node.tf.storeBlock rd.proph rd.propv).signature
            ((l.node.tf.storeBlock rd.proph rd.propv).statement rd.proph Hash.default 0)])
        { l with
          node := { l.node with tf := (l.node.tf.storeBlock rd.proph rd.propv).increment }
          history := .stored l.node.myid rd :: l.history }) :
    (callTEEstore cfg (Just.ofRData rd signs)).Gives post stop l := by
  simp only [callTEEstore, gives_bind, gives_this]
  refine gives_ofOption (fun result called => ?_) (fun _ => stopped)
  obtain ⟨out, tf'⟩ := result
  cases answer : out.set with
  | false =>
    obtain ⟨rfl, rfl⟩ := TrustedFun.TEEstore_unset called answer
    simpa [answer] using refused
  | true =>
    obtain ⟨rd', tagged, full, verified, current, phase, signed⟩ :=
      TrustedFun.TEEstore_set called answer
    obtain rfl : rd = rd' := by simpa using tagged
    simp only [TrustedFun.sign, Prod.mk.injEq] at signed
    obtain ⟨rfl, rfl⟩ := signed
    exact accepted full verified current phase

/-- A valid certificate of the component's view is accepted. -/
theorem callTEEstore_accepted {signs : Signs} {post : Just → State → Prop} {stop : State → Prop}
    (full : signs.length = l.node.tf.qsize) (verified : signs.verify cfg.nodes rd.toString = true)
    (current : l.node.tf.view = rd.propv)
    (phase : rd.phase = PH1_PREPARE ∨ rd.phase = PH1_PRECOMMIT)
    (accepted : post (Just.ofRData
          ((l.node.tf.storeBlock rd.proph rd.propv).statement rd.proph Hash.default 0)
          [(l.node.tf.storeBlock rd.proph rd.propv).signature
            ((l.node.tf.storeBlock rd.proph rd.propv).statement rd.proph Hash.default 0)])
        { l with
          node := { l.node with tf := (l.node.tf.storeBlock rd.proph rd.propv).increment }
          history := .stored l.node.myid rd :: l.history }) :
    (callTEEstore cfg (Just.ofRData rd signs)).Gives post stop l := by
  have checks : (signs.length == l.node.tf.qsize && TrustedFun.TEEverify cfg.nodes signs rd
      && l.node.tf.view == rd.propv
      && (rd.phase == PH1_PREPARE || rd.phase == PH1_PRECOMMIT)) = true := by
    simpa [TrustedFun.TEEverify, full, verified, current] using phase
  have called : l.node.tf.TEEstore cfg.nodes (Just.ofRData rd signs)
      = some ((l.node.tf.storeBlock rd.proph rd.propv).sign rd.proph Hash.default 0) := by
    simp only [TrustedFun.TEEstore, Just.getRData_ofRData, Just.signs_ofRData]
    exact if_pos checks
  simp only [callTEEstore, gives_bind, gives_this, called, gives_ofOption_some, TrustedFun.sign]
  exact accepted

end Operations

section Signing

variable {view : View} {tf tf' : TrustedFun}

/-- A component that signs beyond a view has just begun the next one. -/
structure Begun (tf : TrustedFun) (view : View) (tf' : TrustedFun) : Prop where
  same : ∃ phase now, tf' = { tf with phase := phase, view := now }
  here : tf'.view = view + 1
  phase : tf'.phase = PH1_NEWVIEW ∨ tf'.phase = PH1_PREPARE

/-- Signing on until a statement is for a later view ends at the beginning of the next view. -/
theorem signUntil_gives {rounds : Nat} {post : Just → State → Prop} {stop : State → Prop}
    (small : view < wordSize) (within : tf'.view < wordSize)
    (same : ∃ phase now, tf' = { tf with phase := phase, view := now })
    (step : view + 1 < wordSize → tf'.view = view ∨
      (tf'.view = view + 1 ∧ (tf'.phase = PH1_NEWVIEW ∨ tf'.phase = PH1_PREPARE)))
    (stopped : ∀ tf', stop { l with node := { l.node with tf := tf' } })
    (signed : ∀ tf', Begun tf view tf' → view + 1 < wordSize →
      post tf'.TEEsign.1 { l with node := { l.node with tf := tf'.increment } }) :
    Gives (signUntil rounds view) post stop { l with node := { l.node with tf := tf' } } := by
  -- Each round moves the component on; from the node's view it reaches the next one.
  induction rounds generalizing tf' with
  | zero => exact stopped tf'
  | succ rounds ih =>
    simp only [signUntil, gives_bind, gives_callTEEsign, TrustedFun.TEEsign, TrustedFun.sign,
      Just.getRData_ofRData, gives_ofOption_some, TrustedFun.statement]
    refine gives_ite (fun early => ?_) (fun late => ?_)
    · refine ih (TrustedFun.view_increment_lt within) ?_ fun room => ?_
      · obtain ⟨phase, now, rfl⟩ := same
        obtain ⟨phase', now', moved, _⟩ :=
          TrustedFun.increment_cases { tf with phase := phase, view := now }
        exact ⟨phase', now', moved⟩
      · rcases step room with here | ⟨next, _⟩
        · rcases tf'.increment_moves with ⟨stays, _⟩ | ⟨moves, phase⟩
          · exact .inl (stays.trans here)
          · refine .inr ⟨?_, .inl phase⟩
            rw [moves, here, Nat.mod_eq_of_lt room]
        · exact absurd early (by lia)
    · have room : view + 1 < wordSize := by lia
      rcases step room with here | ⟨next, phase⟩
      · exact absurd here (by lia)
      · exact signed tf' ⟨same, next, phase⟩ room

end Signing

end Handler

end ParaHotstuff
