import ParaHotstuff.Proofs.Basic.Facts

/-! Certificates of the basic protocol, and the logs they are collected in. -/

namespace ParaHotstuff

namespace Handler

open Messages (allSigns Singles)

variable {cfg : Config} {H : List BasicEvent} {p : PID} {v : View} {b : Digest}

section Certificates

/-- A full prepare certificate that verifies is backed by a quorum of votes. -/
theorem PrepMsg.backed {m : MsgPrepare} (known : PrepMsg cfg H m) (cert : PrepCert cfg H m)
    (full : m.signs.length = cfg.qsize)
    (verified : m.signs.verify cfg.nodes m.rdata.toString = true) :
    Backed cfg H m.rdata.propv m.rdata.proph.hash where
  proposed := by
    -- The leader's own vote is on the text of the certificate, hence on its block.
    obtain ⟨s, member, r, made, proposed⟩ := cert full
    have text := (made_of_verify verified member).symm.trans made
    simp only [SigVal.made.injEq, true_and] at text
    rw [proposed, RData.proph_of_toString text]
  votes := by
    refine ⟨_, quorum_of_signs known.distinct (fun s member => (known.votes s member).1) full,
      fun q member => ?_⟩
    obtain ⟨s, held, rfl⟩ := mem_signers member
    obtain ⟨_, r, block, lockh, lockv, made, view, vote⟩ := known.votes s held
    have text := (made_of_verify verified held).symm.trans made
    simp only [SigVal.made.injEq, true_and] at text
    exact ⟨_, ⟨r, block, lockh, lockv, vote, rfl⟩, view, (RData.proph_of_toString text).symm⟩

variable [Hashing]

/-- A full list of signatures of nodes that stored certificates shows a quorum of them. -/
theorem PcMsg.quorum {m : MsgPreCommit} (known : PcMsg cfg H m) (facts : Facts cfg H)
    (proposed : proposal cfg m.rdata.propv H = some b) (full : m.signs.length = cfg.qsize) :
    ∃ Q, IsQuorum cfg.total cfg.qsize Q ∧ ∀ q ∈ Q, Stored H q m.rdata.propv b := by
  refine ⟨_, quorum_of_signs known.distinct (fun s member => (known.stores s member).1) full,
    fun q member => ?_⟩
  obtain ⟨s, held, rfl⟩ := mem_signers member
  obtain ⟨_, r, made, store⟩ := known.stores s held
  -- Only one block is stored in a view.
  have same : b = r.proph.hash := by simpa [proposed] using facts.unique store
  exact same ▸ store

/-- Verified signatures of nodes that stored certificates are on the proposed block. -/
theorem PcMsg.proposed {m : MsgPreCommit} (known : PcMsg cfg H m) (facts : Facts cfg H)
    (signed : m.signs ≠ []) (verified : m.signs.verify cfg.nodes m.rdata.toString = true) :
    proposal cfg m.rdata.propv H = some m.rdata.proph.hash := by
  obtain ⟨s, member⟩ := List.exists_mem_of_ne_nil _ signed
  obtain ⟨_, r, made, store⟩ := known.stores s member
  have text := (made_of_verify verified member).symm.trans made
  simp only [SigVal.made.injEq, true_and] at text
  rw [facts.unique store, RData.proph_of_toString text]

/-- A full pre-commit certificate that verifies is backed by a quorum of votes. -/
theorem PcMsg.backed {m : MsgPreCommit} (known : PcMsg cfg H m) (facts : Facts cfg H)
    (positive : 0 < cfg.qsize) (full : m.signs.length = cfg.qsize)
    (verified : m.signs.verify cfg.nodes m.rdata.toString = true) :
    Backed cfg H m.rdata.propv m.rdata.proph.hash where
  proposed := known.proposed facts (by rw [← List.length_pos_iff_ne_nil]; omega) verified
  votes := by
    have proposed := known.proposed facts (by rw [← List.length_pos_iff_ne_nil]; omega) verified
    obtain ⟨Q, quorum, stores⟩ := known.quorum facts proposed full
    obtain ⟨q, member⟩ := quorum.nonempty positive
    obtain ⟨Q', quorum', votes⟩ := facts.rules.certified (stores q member)
    refine ⟨Q', quorum', fun s held => ?_⟩
    obtain ⟨u, vote, view, block, _⟩ := votes s held
    exact ⟨u, vote, view, block⟩

end Certificates

section Logs

variable {m : MsgRData}

/-- Storing a single vote, or nothing of this leader, keeps the signers of its views distinct. -/
theorem singles_store {log : Messages View MsgRData}
    (singles : ∀ {w}, cfg.getLeaderOf w = p → Singles (·.signs) (log.held w))
    (single : cfg.getLeaderOf v = p → m.signs.length ≤ 1) {w : View}
    (leader : cfg.getLeaderOf w = p) :
    Singles (·.signs) ((log.store (·.signs) MsgRData.lt v m).2.held w) := by
  by_cases same : w = v
  · subst same; exact (singles leader).store (single leader)
  · rw [Messages.held_store_ne same]; exact singles leader

variable {log : Log}

theorem OwnLog.storeNv (own : OwnLog cfg p log H) (known : NvMsg cfg H m) :
    OwnLog cfg p (log.storeNv m).2 H :=
  { own with
    newviews := fun member => by
      rcases Messages.mem_store member with old | ⟨rfl, rfl⟩
      · exact own.newviews old
      · exact ⟨rfl, known⟩ }

/-- A prepare message may be stored: a single vote by the leader, a certificate by the others. -/
theorem OwnLog.storePrep (own : OwnLog cfg p log H) (known : PrepMsg cfg H m)
    (single : cfg.getLeaderOf m.rdata.propv = p → m.signs.length ≤ 1)
    (cert : cfg.getLeaderOf m.rdata.propv ≠ p → PrepCert cfg H m) :
    OwnLog cfg p (log.storePrep m).2 H :=
  { own with
    prepares := fun member => by
      rcases Messages.mem_store member with old | ⟨rfl, rfl⟩
      · exact own.prepares old
      · exact ⟨rfl, known, cert⟩
    ownPrepares := fun leader => singles_store own.ownPrepares single leader
    ownVote := fun leader proposed => by
      obtain ⟨m', member, vote⟩ := own.ownVote leader proposed
      exact ⟨m', Messages.mem_store_of_mem member, vote⟩ }

theorem OwnLog.storePc (own : OwnLog cfg p log H) (known : PcMsg cfg H m)
    (single : cfg.getLeaderOf m.rdata.propv = p → m.signs.length ≤ 1) :
    OwnLog cfg p (log.storePc m).2 H :=
  { own with
    precommits := fun member => by
      rcases Messages.mem_store member with old | ⟨rfl, rfl⟩
      · exact own.precommits old
      · exact ⟨rfl, known⟩
    ownPrecommits := fun leader => singles_store own.ownPrecommits single leader }

theorem OwnLog.storeCom (own : OwnLog cfg p log H) (known : ComMsg cfg H m)
    (single : cfg.getLeaderOf m.rdata.propv = p → m.signs.length ≤ 1)
    (cert : cfg.getLeaderOf m.rdata.propv ≠ p →
      m.signs.length = cfg.qsize ∨ m.rdata = RData.default) :
    OwnLog cfg p (log.storeCom m).2 H :=
  { own with
    commits := fun member => by
      rcases Messages.mem_store member with old | ⟨rfl, rfl⟩
      · exact own.commits old
      · exact ⟨rfl, known, cert⟩
    ownCommits := fun leader => singles_store own.ownCommits single leader }

theorem OwnLog.storeProp {m : MsgLdrPrepare} {rdata : RData} {count : Nat} {log' : Log}
    (own : OwnLog cfg p log H) (known : PropMsg cfg H m rdata)
    (extended : m.prop.block.prevHash.hash = rdata.justh.hash)
    (other : cfg.getLeaderOf rdata.propv ≠ p)
    (stored : log.storeProp m = some (count, log')) : OwnLog cfg p log' H := by
  simp only [Log.storeProp, known.1.1, Option.some.injEq, Prod.mk.injEq] at stored
  obtain ⟨-, rfl⟩ := stored
  exact
    { own with
      proposals := fun member => by
        rcases Messages.mem_store member with old | ⟨rfl, rfl⟩
        · exact own.proposals old
        · exact ⟨other, rdata, rfl, known, extended⟩ }

/-- A leader that has not proposed in a view holds no vote of it. -/
theorem OwnLog.no_votes (own : OwnLog cfg p log H) (none_yet : proposal cfg v H = none) :
    log.prepares.held v = [] := by
  rw [List.eq_nil_iff_forall_not_mem]
  intro m member
  obtain ⟨view, known, _⟩ := own.prepares member
  simpa [view, none_yet] using known.proposed

/-- The leader's first vote enters its log together with the history. -/
theorem OwnLog.propose (own : OwnLog cfg p log H) {r : RData} {block : Block} {lockh : Hash}
    {lockv : View} (within : p < cfg.total) (leader : cfg.getLeaderOf r.propv = p) :
    OwnLog cfg p (log.storePrep ⟨r, [Sign.ofText p p r.toString]⟩).2
      (.voted p r block lockh lockv :: H) := by
  -- Only the proposal of this view may be new; whatever was proposed before stays.
  have grown : OwnLog cfg p log (.voted p r block lockh lockv :: H) ∨
      proposal cfg r.propv H = none := by
    cases proposed : proposal cfg r.propv H with
    | none => exact .inr rfl
    | some b =>
      refine .inl (own.mono [_] fun w _ => ?_)
      cases before : proposal cfg w H with
      | some c => exact proposal_cons before
      | none =>
        have other : w ≠ r.propv := by rintro rfl; simp [proposed] at before
        simp [proposal, before, Ne.symm other]
  have here : (proposal cfg r.propv (.voted p r block lockh lockv :: H)).isSome := by
    cases proposed : proposal cfg r.propv H <;> simp [proposal, proposed, leader]
  have known : PrepMsg cfg (.voted p r block lockh lockv :: H)
      ⟨r, [Sign.ofText p p r.toString]⟩ :=
    { distinct := by simp [Signs.getSigners]
      votes := by
        intro s member
        rw [List.mem_singleton] at member
        subst member
        exact ⟨within, r, block, lockh, lockv, rfl, rfl, by simp [Sign.ofText]⟩
      some_vote := by simp
      proposed := here }
  rcases grown with grown | first
  · exact grown.storePrep known (fun _ => by simp) fun other => absurd leader other
  -- Nothing was proposed, so the log holds no vote of the view yet.
  · have empty := own.no_votes first
    have now : proposal cfg r.propv (.voted p r block lockh lockv :: H)
        = some r.proph.hash := by simp [proposal, first, leader]
    have others : ∀ w, w ≠ r.propv →
        proposal cfg w (.voted p r block lockh lockv :: H) = proposal cfg w H := by
      intro w other
      cases before : proposal cfg w H <;> simp [proposal, before, Ne.symm other]
    exact {
      newviews := fun member =>
        (own.newviews member).imp_right fun known => known.mono [_]
      prepares := fun member => by
        rcases Messages.mem_store member with old | ⟨rfl, rfl⟩
        · obtain ⟨view, known, cert⟩ := own.prepares old
          exact ⟨view, known.mono [_], fun other => (cert other).mono [_]⟩
        · exact ⟨rfl, known, fun other => absurd leader other⟩
      precommits := fun member =>
        (own.precommits member).imp_right fun known => known.mono [_]
      commits := fun member => by
        obtain ⟨view, known, cert⟩ := own.commits member
        exact ⟨view, known.mono [_], cert⟩
      proposals := fun member => by
        obtain ⟨other, rdata, view, known, extended⟩ := own.proposals member
        exact ⟨other, rdata, view, known.mono [_], extended⟩
      ownPrepares := fun other => singles_store own.ownPrepares (fun _ => by simp) other
      ownPrecommits := own.ownPrecommits
      ownCommits := own.ownCommits
      ownVote := fun {w b} lead proposed => by
        by_cases same : w = r.propv
        · subst same
          refine ⟨⟨r, [Sign.ofText p p r.toString]⟩, ?_, r, by simpa [now] using proposed, rfl⟩
          rcases log.prepares.store_cases (·.signs) MsgRData.lt r.propv
              ⟨r, [Sign.ofText p p r.toString]⟩ with ⟨_, held, _⟩ | ⟨msgs, stored, moved, some, _⟩
          · simp [empty, Messages.allSigns] at held
          · change _ ∈ Messages.held (log.prepares.store _ _ _ _).2 _
            rw [stored, Messages.held_insert, if_pos rfl]
            rw [empty] at moved
            rcases moved with moved | none_stored
            · exact moved.mem_iff.2 (by simp)
            · exact absurd none_stored some
        · rw [others w same] at proposed
          obtain ⟨m', member, vote⟩ := own.ownVote lead proposed
          exact ⟨m', Messages.mem_store_of_mem member, vote⟩ }

/-- Storing the leader's own vote fills the log only if the vote is the only one. -/
theorem OwnLog.propose_count (own : OwnLog cfg p log H) {r : RData}
    (leader : cfg.getLeaderOf r.propv = p) (positive : 0 < cfg.qsize)
    (full : cfg.qsize ≤ (log.storePrep ⟨r, [Sign.ofText p p r.toString]⟩).1) :
    (allSigns (·.signs) ((log.storePrep ⟨r, [Sign.ofText p p r.toString]⟩).2.prepares.held
      r.propv)).length ≤ cfg.qsize := by
  cases proposed : proposal cfg r.propv H with
  | none =>
    have empty := own.no_votes proposed
    rcases log.prepares.store_cases (·.signs) MsgRData.lt r.propv
        ⟨r, [Sign.ofText p p r.toString]⟩ with ⟨_, held, _⟩ | ⟨msgs, stored, moved, some, _⟩
    · simp [empty, Messages.allSigns] at held
    · change (allSigns (·.signs) (Messages.held (log.prepares.store _ _ _ _).2 _)).length ≤ _
      rw [stored, Messages.held_insert, if_pos rfl]
      rw [empty] at moved
      rcases moved with moved | none_stored
      · rw [(Messages.allSigns_perm _ moved).length_eq]
        simp only [allSigns, List.flatMap_cons, List.flatMap_nil, List.append_nil,
          List.length_singleton]
        exact positive
      · exact absurd none_stored some
  | some b =>
    -- The first vote is held already, so a later one is not stored and not counted.
    obtain ⟨m, member, r', _, signs⟩ := own.ownVote leader proposed
    have signer : p ∈ (allSigns (·.signs) (log.prepares.held r.propv)).getSigners := by
      refine List.mem_map.2 ⟨Sign.ofText p p r'.toString, ?_, rfl⟩
      exact List.mem_flatMap.2 ⟨m, member, by simp [signs]⟩
    rcases log.prepares.store_cases (·.signs) MsgRData.lt r.propv
        ⟨r, [Sign.ofText p p r.toString]⟩ with ⟨kept, _⟩ | ⟨msgs, _, _, _, none_held | fresh⟩
    · change cfg.qsize ≤ (log.prepares.store _ _ _ _).1 at full
      rw [kept] at full
      simp only [Nat.le_zero] at full
      omega
    · simp [none_held, Signs.getSigners] at signer
    · obtain ⟨q, member', absent⟩ := fresh
      simp only [Signs.getSigners, Sign.ofText, List.map_cons, List.map_nil,
        List.mem_singleton] at member'
      exact absurd signer (member' ▸ absent)

end Logs

end Handler

end ParaHotstuff
