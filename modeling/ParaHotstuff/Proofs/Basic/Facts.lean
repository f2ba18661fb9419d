import ParaHotstuff.Proofs.Basic.Knowledge

/-! How the history of a basic run grows: each event with the checks that come before it. -/

namespace ParaHotstuff

namespace Handler

variable {cfg : Config} {H : List BasicEvent} {p q : PID}

section Cons

variable {u : Vote Digest} {v w : View} {b : Digest} {r rdata : RData}

@[simp] theorem voted_newview : Voted (.newview q r :: H) p u ↔ Voted H p u := by simp [Voted]

@[simp] theorem voted_stored : Voted (.stored q r :: H) p u ↔ Voted H p u := by simp [Voted]

@[simp] theorem voted_executed : Voted (.executed q w r :: H) p u ↔ Voted H p u := by
  simp [Voted]

@[simp] theorem voted_wrong : Voted (.wrong q w r :: H) p u ↔ Voted H p u := by simp [Voted]

@[simp] theorem stored_newview : Stored (.newview q r :: H) p v b ↔ Stored H p v b := by
  simp [Stored]

@[simp] theorem stored_executed : Stored (.executed q w r :: H) p v b ↔ Stored H p v b := by
  simp [Stored]

@[simp] theorem stored_wrong : Stored (.wrong q w r :: H) p v b ↔ Stored H p v b := by
  simp [Stored]

@[simp] theorem stored_voted {block : Block} {lockh : Hash} {lockv : View} :
    Stored (.voted q r block lockh lockv :: H) p v b ↔ Stored H p v b := by
  simp [Stored]

/-- A vote of a longer history is the new one or an old one. -/
theorem voted_voted {block : Block} {lockh : Hash} {lockv : View} :
    Voted (.voted q r block lockh lockv :: H) p u ↔
      (p = q ∧ u = ⟨r.propv, r.proph.hash, r.justh.hash, r.justv, lockh.hash, lockv⟩)
        ∨ Voted H p u := by
  constructor
  · rintro ⟨rdata, block', lockh', lockv', member, rfl⟩
    rcases List.mem_cons.1 member with new | old
    · cases new
      exact .inl ⟨rfl, rfl⟩
    · exact .inr ⟨rdata, block', lockh', lockv', old, rfl⟩
  · rintro (⟨rfl, rfl⟩ | old)
    · exact ⟨r, block, lockh, lockv, by simp, rfl⟩
    · exact old.mono [_]

/-- A stored certificate of a longer history is the new one or an old one. -/
theorem stored_stored : Stored (.stored q r :: H) p v b ↔
    (p = q ∧ r.propv = v ∧ r.proph.hash = b) ∨ Stored H p v b := by
  constructor
  · rintro ⟨rdata, member, view, block⟩
    rcases List.mem_cons.1 member with new | old
    · cases new
      exact .inl ⟨rfl, view, block⟩
    · exact .inr ⟨rdata, old, view, block⟩
  · rintro (⟨rfl, view, block⟩ | old)
    · exact ⟨r, by simp, view, block⟩
    · exact old.mono [_]

/-- A proposal stays as it is when an event is added. -/
theorem proposal_cons {e : BasicEvent} (proposed : proposal cfg v H = some b) :
    proposal cfg v (e :: H) = some b :=
  proposal_mono proposed [e]

@[simp] theorem proposal_newview :
    proposal cfg v (.newview q r :: H) = proposal cfg v H := by
  cases proposed : proposal cfg v H <;> simp [proposal, proposed]

@[simp] theorem proposal_stored : proposal cfg v (.stored q r :: H) = proposal cfg v H := by
  cases proposed : proposal cfg v H <;> simp [proposal, proposed]

@[simp] theorem proposal_executed :
    proposal cfg v (.executed q w r :: H) = proposal cfg v H := by
  cases proposed : proposal cfg v H <;> simp [proposal, proposed]

@[simp] theorem proposal_wrong : proposal cfg v (.wrong q w r :: H) = proposal cfg v H := by
  cases proposed : proposal cfg v H <;> simp [proposal, proposed]

end Cons

variable [Hashing]

/-- Links are never lost. -/
theorem Link.cons {a b : Digest} (link : Link H a b) (e : BasicEvent) : Link (e :: H) a b := by
  obtain ⟨p, rdata, block, lockh, lockv, member, ends⟩ := link
  exact ⟨p, rdata, block, lockh, lockv, List.mem_cons_of_mem _ member, ends⟩

/-- A new-view statement may be sent when it reports the newest block its signer stored. -/
theorem Facts.newview (facts : Facts cfg H) {r : RData}
    (reported : 0 < r.propv → 0 < r.justv →
      r.justv < r.propv ∧ Stored H p r.justv r.justh.hash)
    (newest : ∀ {v b}, Stored H p v b → v < r.propv → v ≤ r.justv) :
    Facts cfg (.newview p r :: H) where
  rules := facts.rules.transfer (fun link => link.cons _) voted_newview stored_newview
  lockBound := fun vote => facts.lockBound (voted_newview.1 vote)
  unique := fun store => proposal_cons (facts.unique (stored_newview.1 store))
  nvStored := by
    intro q r' member
    rcases List.mem_cons.1 member with new | old
    · cases new; simpa using reported
    · simpa using facts.nvStored old
  nvNewest := by
    intro q r' v b member store
    rw [stored_newview] at store
    rcases List.mem_cons.1 member with new | old
    · cases new; exact newest store
    · exact facts.nvNewest old store
  executed := by
    intro q v r' member
    simpa using facts.executed (by simpa using member)

/-- A block may be executed when a quorum stored it in that view. -/
theorem Facts.execute (facts : Facts cfg H) {v : View} {r : RData} (view : r.propv = v)
    (quorum : ∃ Q, IsQuorum cfg.total cfg.qsize Q ∧ ∀ q ∈ Q, Stored H q v r.proph.hash) :
    Facts cfg (.executed p v r :: H) where
  rules := facts.rules.transfer (fun link => link.cons _) voted_executed stored_executed
  lockBound := fun vote => facts.lockBound (voted_executed.1 vote)
  unique := fun store => proposal_cons (facts.unique (stored_executed.1 store))
  nvStored := fun member => by simpa using facts.nvStored (by simpa using member)
  nvNewest := by
    intro q r' v' b member store
    exact facts.nvNewest (by simpa using member) (stored_executed.1 store)
  executed := by
    intro q v' r' member
    rcases List.mem_cons.1 member with new | old
    · cases new; simpa using ⟨view, quorum⟩
    · simpa using facts.executed old

/-- A node may enter a view without a new-view statement for it. -/
theorem Facts.wrong (facts : Facts cfg H) {v : View} {r : RData} :
    Facts cfg (.wrong p v r :: H) where
  rules := facts.rules.transfer (fun link => link.cons _) voted_wrong stored_wrong
  lockBound := fun vote => facts.lockBound (voted_wrong.1 vote)
  unique := fun store => proposal_cons (facts.unique (stored_wrong.1 store))
  nvStored := fun member => by simpa using facts.nvStored (by simpa using member)
  nvNewest := by
    intro q r' v' b member store
    exact facts.nvNewest (by simpa using member) (stored_wrong.1 store)
  executed := by
    intro q v' r' member
    simpa using facts.executed (by simpa using member)

/-- A vote may be cast for an extension of its justified parent that respects the lock. -/
theorem Facts.vote (facts : Facts cfg H) {r : RData} {block : Block} {lockh : Hash}
    {lockv : View} (named : block.hash.hash = r.proph.hash)
    (extended : block.prevHash.hash = r.justh.hash)
    (safe : r.justh.hash = lockh.hash ∨ lockv < r.justv)
    (justified : 0 < r.propv → lockv < r.justv →
      r.justv < r.propv ∧ ∃ q, Stored H q r.justv r.justh.hash)
    (newest : ∀ {v b}, Stored H p v b → v < r.propv →
      v < lockv ∨ (v = lockv ∧ b = lockh.hash))
    (lockStored : 0 < lockv → ∃ q, Stored H q lockv lockh.hash)
    (lockBound : lockv ≤ r.propv) :
    Facts cfg (.voted p r block lockh lockv :: H) where
  rules := {
    parent := by
      intro q u vote
      rcases voted_voted.1 vote with ⟨rfl, rfl⟩ | old
      · exact ⟨q, r, block, lockh, lockv, by simp, extended, named⟩
      · exact (facts.rules.parent old).cons _
    safe := by
      intro q u vote
      rcases voted_voted.1 vote with ⟨rfl, rfl⟩ | old
      · exact safe
      · exact facts.rules.safe old
    justified := by
      intro q u vote
      simp only [stored_voted]
      rcases voted_voted.1 vote with ⟨rfl, rfl⟩ | old
      · exact justified
      · exact facts.rules.justified old
    newest := by
      intro q u v b vote
      simp only [stored_voted]
      rcases voted_voted.1 vote with ⟨rfl, rfl⟩ | old
      · exact newest
      · exact facts.rules.newest old
    lockStored := by
      intro q u vote
      simp only [stored_voted]
      rcases voted_voted.1 vote with ⟨rfl, rfl⟩ | old
      · exact lockStored
      · exact facts.rules.lockStored old
    certified := by
      intro q w b store
      rw [stored_voted] at store
      obtain ⟨Q, quorum, votes⟩ := facts.rules.certified store
      refine ⟨Q, quorum, fun s member => ?_⟩
      obtain ⟨u, vote, rest⟩ := votes s member
      exact ⟨u, voted_voted.2 (.inr vote), rest⟩ }
  lockBound := by
    intro q u vote
    rcases voted_voted.1 vote with ⟨rfl, rfl⟩ | old
    · exact lockBound
    · exact facts.lockBound old
  unique := fun store => proposal_cons (facts.unique (stored_voted.1 store))
  nvStored := fun member => by simpa using facts.nvStored (by simpa using member)
  nvNewest := by
    intro q r' v b member store
    exact facts.nvNewest (by simpa using member) (stored_voted.1 store)
  executed := by
    intro q v r' member
    simpa using facts.executed (by simpa using member)

/-- A quorum voted for the proposed block of a view. -/
structure Backed (cfg : Config) (H : List BasicEvent) (v : View) (b : Digest) : Prop where
  proposed : proposal cfg v H = some b
  votes : ∃ Q, IsQuorum cfg.total cfg.qsize Q ∧ ∀ q ∈ Q, ∃ u,
    Voted H q u ∧ u.view = v ∧ u.block = b

/-- A certificate may be stored when a quorum voted for its block and no later vote was cast. -/
theorem Facts.store (facts : Facts cfg H) {r : RData} (backed : Backed cfg H r.propv r.proph.hash)
    (latest : ∀ {u}, Voted H p u → u.view ≤ r.propv)
    (statements : ∀ {r'}, BasicEvent.newview p r' ∈ H → r'.propv ≤ r.propv) :
    Facts cfg (.stored p r :: H) where
  rules := {
    parent := fun vote => (facts.rules.parent (voted_stored.1 vote)).cons _
    safe := fun vote => facts.rules.safe (voted_stored.1 vote)
    justified := by
      intro q u vote positive higher
      obtain ⟨earlier, s, store⟩ := facts.rules.justified (voted_stored.1 vote) positive higher
      exact ⟨earlier, s, store.mono [_]⟩
    newest := by
      intro q u v b vote store before
      rcases stored_stored.1 store with ⟨rfl, rfl, rfl⟩ | old
      -- The node cast no vote in a later view than the one it stores a certificate of.
      · exact absurd (latest (voted_stored.1 vote)) (Nat.not_le.2 before)
      · exact facts.rules.newest (voted_stored.1 vote) old before
    lockStored := by
      intro q u vote positive
      obtain ⟨s, store⟩ := facts.rules.lockStored (voted_stored.1 vote) positive
      exact ⟨s, store.mono [_]⟩
    certified := by
      intro q w b store
      simp only [voted_stored]
      rcases stored_stored.1 store with ⟨rfl, rfl, rfl⟩ | old
      · -- The first certificate of a view precedes every lock of the view.
        by_cases first : ∃ s c, Stored H s r.propv c
        · obtain ⟨s, c, held⟩ := first
          have same : c = r.proph.hash := by
            simpa [backed.proposed] using (facts.unique held).symm
          exact facts.rules.certified (same ▸ held)
        · obtain ⟨Q, quorum, votes⟩ := backed.votes
          refine ⟨Q, quorum, fun s member => ?_⟩
          obtain ⟨u, vote, view, block⟩ := votes s member
          refine ⟨u, vote, view, block, ?_⟩
          by_contra late
          have bound := facts.lockBound vote
          obtain ⟨t, held⟩ := facts.rules.lockStored vote (by omega)
          exact first ⟨t, u.lock, by rwa [show u.lockView = r.propv by omega] at held⟩
      · exact facts.rules.certified old }
  lockBound := fun vote => facts.lockBound (voted_stored.1 vote)
  unique := by
    intro q v b store
    rcases stored_stored.1 store with ⟨rfl, rfl, rfl⟩ | old
    · exact proposal_cons backed.proposed
    · exact proposal_cons (facts.unique old)
  nvStored := by
    intro q r' member positive reports
    obtain ⟨earlier, store⟩ := facts.nvStored (by simpa using member) positive reports
    exact ⟨earlier, store.mono [_]⟩
  nvNewest := by
    intro q r' v b member store before
    have old : BasicEvent.newview q r' ∈ H := by simpa using member
    rcases stored_stored.1 store with ⟨rfl, rfl, rfl⟩ | held
    · exact absurd (statements old) (Nat.not_le.2 before)
    · exact facts.nvNewest old held before
  executed := by
    intro q v r' member
    obtain ⟨view, Q, quorum, stores⟩ := facts.executed (by simpa using member)
    exact ⟨view, Q, quorum, fun s held => (stores s held).mono [_]⟩

/-- The history starts empty. -/
theorem Facts.nil : Facts cfg [] where
  rules := {
    parent := by simp [Voted]
    safe := by simp [Voted]
    justified := by simp [Voted]
    newest := by simp [Voted]
    lockStored := by simp [Voted]
    certified := by simp [Stored] }
  lockBound := by simp [Voted]
  unique := by simp [Stored]
  nvStored := by simp
  nvNewest := by simp
  executed := by simp

end Handler

end ParaHotstuff
