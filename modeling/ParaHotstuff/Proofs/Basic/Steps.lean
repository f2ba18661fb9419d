import ParaHotstuff.Proofs.Basic.Calls
import ParaHotstuff.Proofs.Basic.Logs

/-! What the single operations of a basic node give: component calls, sending, storing. -/

namespace ParaHotstuff

namespace Handler

open Program Local

variable {cfg : Config} {p : PID} {view : View} {started : Bool} {H : List BasicEvent}
variable {tf : TrustedFun} {r rd : RData}

section Trusted

/-- The lock is never newer than the view. -/
theorem OwnTrusted.lock_le (own : OwnTrusted cfg p tf view started H) : tf.lockv ≤ view := by
  rcases Nat.eq_zero_or_pos tf.lockv with zero | positive
  · lia
  · exact own.stores (own.lockStored positive)

/-- A component in the node's view may move to its next phase. -/
theorem OwnTrusted.increment (own : OwnTrusted cfg p tf view started H)
    (here : tf.view = view) : OwnTrusted cfg p tf.increment view started H where
  id := by simpa using own.id
  priv := by simpa using own.priv
  qsize := by simpa using own.qsize
  small := own.small
  step := by
    rcases tf.increment_moves with ⟨same, phase⟩ | ⟨next, phase⟩
    · exact .inl ⟨same.trans here, .inr phase⟩
    · exact .inr ⟨by rw [next, here], .inl phase⟩
  votes := own.votes
  stores := own.stores
  newest := fun store => by simpa using own.newest store
  lockStored := by simpa using own.lockStored
  prepared := by simpa using own.prepared
  nvBound := own.nvBound
  nvNow := fun member _ => own.nvNow member here

/-- A vote in the current view is one more vote in no later view. -/
theorem OwnTrusted.vote (own : OwnTrusted cfg p tf view started H) {block : Block} {lockh : Hash}
    {lockv : View} (here : r.propv = view) :
    OwnTrusted cfg p tf view started (.voted p r block lockh lockv :: H) :=
  { own with
    votes := fun vote => by
      rcases voted_voted.1 vote with ⟨_, rfl⟩ | old
      · exact Nat.le_of_eq here
      · exact own.votes old
    stores := fun store => own.stores (stored_voted.1 store)
    newest := fun store => own.newest (stored_voted.1 store)
    lockStored := fun positive => stored_voted.2 (own.lockStored positive)
    nvBound := fun member => own.nvBound (by simpa using member)
    nvNow := fun member => own.nvNow (by simpa using member) }

/-- Storing a certificate of the current view locks its block. -/
theorem OwnTrusted.store [Hashing] (own : OwnTrusted cfg p tf view started H)
    (facts : Facts cfg (.stored p rd :: H)) (here : tf.view = view) (now : rd.propv = view) :
    OwnTrusted cfg p (tf.storeBlock rd.proph rd.propv).increment view started
      (.stored p rd :: H) := by
  have moved := own.increment here
  have locked : OwnTrusted cfg p (tf.storeBlock rd.proph rd.propv) view started
      (.stored p rd :: H) :=
    { id := own.id
      priv := own.priv
      qsize := own.qsize
      small := own.small
      step := own.step
      votes := fun vote => own.votes (voted_stored.1 vote)
      stores := fun store => by
        rcases stored_stored.1 store with ⟨_, rfl, _⟩ | old
        · exact Nat.le_of_eq now
        · exact own.stores old
      newest := fun {v b} store => by
        have new : Stored (.stored p rd :: H) p rd.propv rd.proph.hash :=
          stored_stored.2 (.inl ⟨rfl, rfl, rfl⟩)
        have bound : v ≤ rd.propv := by
          rcases stored_stored.1 store with ⟨_, rfl, _⟩ | old
          · exact Nat.le_refl _
          · exact now ▸ own.stores old
        -- Within one view only one block is stored.
        rcases Nat.lt_or_eq_of_le bound with before | rfl
        · exact .inl before
        · have same := (facts.unique store).symm.trans (facts.unique new)
          exact .inr ⟨rfl, by simpa using same⟩
      lockStored := fun _ => stored_stored.2 (.inl ⟨rfl, rfl, rfl⟩)
      prepared := ⟨rfl, rfl⟩
      nvBound := fun member => own.nvBound (by simpa using member)
      nvNow := fun member => own.nvNow (by simpa using member) }
  exact locked.increment here

end Trusted

section Programs

variable {start : List BasicEvent} {l : State} {h : Handler}

variable [Hashing]

/-- What a call to the component for a certificate gives, accepted or refused. -/
theorem callTEEstore_gives (inside : (knowledge cfg).Inside p start l) {signs : Signs}
    {post : Just → State → Prop} (here : rd.propv = l.node.view)
    (backed : signs.length = cfg.qsize → signs.verify cfg.nodes rd.toString = true →
      Backed cfg l.history rd.propv rd.proph.hash)
    (accepted : ∀ r tf', r.propv = rd.propv → r.proph = rd.proph →
      (knowledge cfg).Inside p start
        { l with node := { l.node with tf := tf' }, history := .stored p rd :: l.history } →
      post (Just.ofRData r [Sign.ofText p p r.toString])
        { l with node := { l.node with tf := tf' }, history := .stored p rd :: l.history })
    (refused : post Just.default l) :
    (callTEEstore cfg (Just.ofRData rd signs)).Gives post ((knowledge cfg).Left p start) l := by
  have own : Own cfg p l.node l.history := inside.own
  have facts : Facts cfg l.history := inside.facts
  refine callTEEstore_answer inside.toLeft refused fun full verified current _ => ?_
  have now : l.node.tf.view = l.node.view := current.trans here
  have certified := backed (by rw [← own.trusted.qsize]; exact full) verified
  have facts' : Facts cfg (.stored p rd :: l.history) :=
    facts.store certified (fun vote => here ▸ own.trusted.votes vote)
      (fun member => here ▸ own.trusted.nvNow member now)
  have trusted := own.trusted.store facts' now here
  have signer : (l.node.tf.storeBlock rd.proph rd.propv).signature = fun r =>
      Sign.ofText p p r.toString := by
    funext r
    simp [TrustedFun.signature, own.trusted.id, own.trusted.priv]
  rw [signer, own.myid]
  refine accepted ((l.node.tf.storeBlock rd.proph rd.propv).statement rd.proph Hash.default 0) _
    current rfl (inside.event knowledge_stable rfl facts' ?_)
  exact {
    known := own.known
    myid := own.myid
    trusted := trusted
    log := own.log.mono [_] fun v _ => proposal_stored }

/-- A node whose own state is known may vote on a new-view statement that passed the lock. -/
theorem vote_facts (inside : (knowledge cfg).Inside p start l) {just : Just} {block : Block}
    (justified : NvJust l.history just rd) (here : rd.propv = l.node.view)
    (safe : rd.justh.hash = l.node.tf.lockh.hash ∨ l.node.tf.lockv < rd.justv)
    (extended : block.prevHash.hash = rd.justh.hash) (hash : r.proph = block.hash)
    (view : r.propv = rd.propv) (justh : r.justh = rd.justh) (justv : r.justv = rd.justv) :
    Facts cfg (.voted p r block l.node.tf.lockh l.node.tf.lockv :: l.history) := by
  have own : Own cfg p l.node l.history := inside.own
  have facts : Facts cfg l.history := inside.facts
  obtain ⟨q, statement⟩ := justified.2
  refine facts.vote (by rw [hash]) (by rw [justh]; exact extended) (by rw [justh, justv]; exact safe)
    ?_ (fun store _ => own.trusted.newest store) (fun positive => ⟨p, own.trusted.lockStored positive⟩)
    (by rw [view, here]; exact own.trusted.lock_le)
  intro positive higher
  rw [view] at positive ⊢
  rw [justv] at higher ⊢
  rw [justh]
  obtain ⟨earlier, store⟩ := facts.nvStored statement positive (by lia)
  exact ⟨earlier, q, store⟩

/-- What a call to the component for a vote gives, accepted or refused. -/
theorem callTEEprepare_gives (inside : (knowledge cfg).Inside p start l) {hash : Hash}
    {just : Just} {post : Just → State → Prop} (tagged : just.getRData = some rd)
    (here : rd.propv = l.node.view)
    (accepted : ∀ r l', r.proph = hash → r.propv = rd.propv → r.justh = rd.justh →
      r.justv = rd.justv →
      (rd.justh.hash = l'.node.tf.lockh.hash ∨ l'.node.tf.lockv < rd.justv) →
      l'.node.view = l.node.view → l'.node.log = l.node.log → l'.history = l.history →
      (knowledge cfg).Inside p start l' →
      post (Just.ofRData r [Sign.ofText p p r.toString]) l')
    (refused : post Just.default l) :
    (callTEEprepare cfg hash just).Gives post ((knowledge cfg).Left p start) l := by
  have own : Own cfg p l.node l.history := inside.own
  refine callTEEprepare_answer inside.toLeft refused fun rd' tagged' checks => ?_
  obtain rfl : rd = rd' := by simpa [tagged] using tagged'
  obtain ⟨-, current, -, safe⟩ := (TrustedFun.votesOn_iff tagged).1 checks
  have now : l.node.tf.view = l.node.view := current.trans here
  have signer : l.node.tf.signature = fun r => Sign.ofText p p r.toString := by
    funext r
    simp [TrustedFun.signature, own.trusted.id, own.trusted.priv]
  rw [signer]
  refine accepted (l.node.tf.statement hash rd.justh rd.justv) _ rfl current rfl rfl
    (by simpa using safe) rfl rfl rfl (inside.node ?_)
  exact { own with trusted := own.trusted.increment now }

/-- Filling a block takes transactions and nothing else. -/
theorem createNewBlock_gives (inside : (knowledge cfg).Inside p start l) {hash : Hash}
    {post : Block → State → Prop} {stop : State → Prop}
    (given : ∀ block l', block.prevHash = hash → l'.node.view = l.node.view →
      l'.node.log = l.node.log → l'.history = l.history → (knowledge cfg).Inside p start l' →
      post block l') :
    (createNewBlock cfg hash).Gives post stop l := by
  have own : Own cfg p l.node l.history := inside.own
  simp only [createNewBlock, gives_bind, gives_this, gives_modify, gives_pure]
  exact given _ _ rfl rfl rfl rfl (inside.node { own with })

/-- The leader's vote enters its log and the history together. -/
theorem inside_propose (inside : (knowledge cfg).Inside p start l) {block : Block}
    (facts : Facts cfg (.voted p r block l.node.tf.lockh l.node.tf.lockv :: l.history))
    (here : r.propv = l.node.view) (leader : cfg.getLeaderOf r.propv = p) :
    (knowledge cfg).Inside p start
      { l with
        node := { l.node with
          blocks := l.node.blocks.insert l.node.view block
          log := (l.node.log.storePrep ⟨r, [Sign.ofText p p r.toString]⟩).2 }
        history := .voted l.node.myid r block l.node.tf.lockh l.node.tf.lockv :: l.history } := by
  have own : Own cfg p l.node l.history := inside.own
  refine inside.event knowledge_stable own.myid (by rw [own.myid]; exact facts) ?_
  exact {
    known := own.known
    myid := own.myid
    trusted := by rw [own.myid]; exact own.trusted.vote here
    log := by rw [own.myid]; exact own.log.propose own.known leader }

/-- The vote of a backup enters the history. -/
theorem inside_vote (inside : (knowledge cfg).Inside p start l) {block : Block}
    (facts : Facts cfg (.voted p r block l.node.tf.lockh l.node.tf.lockv :: l.history))
    (here : r.propv = l.node.view) (other : cfg.getLeaderOf r.propv ≠ p) :
    (knowledge cfg).Inside p start
      { l with
        node := { l.node with blocks := l.node.blocks.insert l.node.view block }
        history := .voted l.node.myid r block l.node.tf.lockh l.node.tf.lockv :: l.history } := by
  have own : Own cfg p l.node l.history := inside.own
  refine inside.event knowledge_stable own.myid (by rw [own.myid]; exact facts) ?_
  exact {
    known := own.known
    myid := own.myid
    trusted := by rw [own.myid]; exact own.trusted.vote here
    log := by
      refine own.log.mono [_] fun v leader => ?_
      -- The vote is for a view this node does not lead.
      have foreign : ¬ (l.node.myid = cfg.getLeaderOf v ∧ r.propv = v) := by
        rintro ⟨-, rfl⟩; exact other leader
      cases before : proposal cfg v l.history <;> simp [proposal, before, foreign] }

end Programs

end Handler

end ParaHotstuff
