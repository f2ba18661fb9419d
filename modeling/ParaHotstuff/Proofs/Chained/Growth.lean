import ParaHotstuff.Proofs.Chained.Committed
import ParaHotstuff.Proofs.Chained.Ancestors
import ParaHotstuff.Proofs.Chained.LeaderQuorum
import ParaHotstuff.Proofs.Chained.ViewEntry

/-! How what a node of the chained protocol knows of itself follows what it does. -/

namespace ParaHotstuff

/-- The statement a justification holds is what its tag says. -/
theorem Just.rdata_of_tagged {just : Just} {r : RData} (tagged : just.getRData = some r) :
    just.rdata = r := by
  cases data : just.data with
  | RData => simpa [Just.getRData, Just.rdata, data] using tagged
  | RDataPara => simp [Just.getRData, data] at tagged

namespace HandlerCh

variable {cfg : Config} {H : List ChEvent} {p q : PID} {u v w c : View} {h : HandlerCh}
variable {tp tp' : TrustedCh} {block block0 block1 : JBlock}

section Component

/-- Each statement takes a component to the next place of its order. -/
theorem slot_increment (phase : tp.phase = PH1_PREPARE ∨ tp.phase = PH1_NEWVIEW)
    (small : tp.view + 1 < wordSize) :
    slot tp.increment.view tp.increment.phase = slot tp.view tp.phase + 1 := by
  -- Within a view the phase moves on, and after its new-view statement the view does.
  rcases phase with prepare | newview
  · simp [TrustedCh.increment, prepare, slot_newview]
  · obtain ⟨view, next⟩ := TrustedCh.increment_newview newview
    rw [view, next, newview, slot_newview, slot_prepare, Nat.mod_eq_of_lt small]
    lia

theorem phase_increment (phase : tp.phase = PH1_PREPARE ∨ tp.phase = PH1_NEWVIEW) :
    tp.increment.phase = PH1_PREPARE ∨ tp.increment.phase = PH1_NEWVIEW := by
  rcases phase with prepare | newview
  · exact .inr (by simp [TrustedCh.increment, prepare])
  · exact .inl (TrustedCh.increment_newview newview).2

/-- A statement takes a component at most into the next view. -/
theorem view_increment_le (small : tp.view + 1 < wordSize) :
    tp.view ≤ tp.increment.view ∧ tp.increment.view ≤ tp.view + 1 := by
  unfold TrustedCh.increment
  split
  · simp
  split
  · simp [Nat.mod_eq_of_lt small]
  · simp

/-- Only a new-view statement takes it there. -/
theorem view_increment_prepare (prepare : tp.phase = PH1_PREPARE) :
    tp.increment.view = tp.view ∧ tp.increment.phase = PH1_NEWVIEW := by
  simp [TrustedCh.increment, prepare]

/-- Two statements take a component exactly one view further, to the phase where it was. -/
theorem slot_increment_increment (phase : tp.phase = PH1_PREPARE ∨ tp.phase = PH1_NEWVIEW)
    (small : tp.view + 1 < wordSize) :
    tp.increment.increment.view = tp.view + 1 ∧ tp.increment.increment.phase = tp.phase := by
  rcases phase with prepare | newview
  · obtain ⟨view, next⟩ := TrustedCh.increment_increment_prepare prepare
    rw [view, next, prepare, Nat.mod_eq_of_lt small]
    exact ⟨rfl, rfl⟩
  · obtain ⟨view, next⟩ := TrustedCh.increment_newview newview
    obtain ⟨same, last⟩ := view_increment_prepare next
    rw [same, last, view, newview, Nat.mod_eq_of_lt small]
    exact ⟨rfl, rfl⟩

theorem priv_increment (tp : TrustedCh) : tp.increment.priv = tp.priv := by
  obtain ⟨_, _, moved⟩ := tp.increment_cases
  simp [moved]

variable [Hashing] [SignatureBytes]

/-- What is known of a component depends on its place and on what it has prepared. -/
theorem OwnTrusted.increment (own : OwnTrusted cfg H p tp) (small : tp.view + 1 < wordSize) :
    OwnTrusted cfg H p tp.increment where
  id := by rw [TrustedCh.id_increment, own.id]
  priv := by rw [priv_increment, own.priv]
  qsize := by rw [TrustedCh.qsize_increment, own.qsize]
  phase := phase_increment own.phase
  reached := fun e member mine => by
    have before := own.reached e member mine
    rw [slot_increment own.phase small]
    lia
  below := by
    rw [TrustedCh.prepv_increment]
    exact Nat.le_trans own.below (view_increment_le small).1
  certified := by
    rw [TrustedCh.prepv_increment, TrustedCh.preph_increment]
    exact own.certified
  reports := by
    rw [TrustedCh.prepv_increment]
    exact own.reports

/-- Signing on comes to a new-view statement, and at most to the view it is meant for. -/
theorem OwnTrusted.signOn {rounds : Nat} (own : OwnTrusted cfg H p tp)
    (small : tp.view + 1 < wordSize) (within : v + 1 < wordSize)
    (signed : TrustedCh.signOn v rounds tp = (true, tp')) :
    OwnTrusted cfg H p tp' ∧ tp'.phase = PH1_NEWVIEW ∧ tp'.view ≤ max tp.view v := by
  -- Induction on the rounds; only below the view that is meant does a round enter a new one.
  induction rounds generalizing tp with
  | zero => cases signed
  | succ rounds ih =>
    unfold TrustedCh.signOn at signed
    split at signed
    · rename_i early
      have next : tp.increment.view ≤ max tp.view v := by
        rcases own.phase with prepare | newview
        · rw [(view_increment_prepare prepare).1]
          exact Nat.le_max_left _ _
        · have before : tp.view < v := by simpa [newview] using early
          have bound := (view_increment_le small).2
          lia
      have bounded : tp.increment.view + 1 < wordSize := by lia
      obtain ⟨own', phase, bound⟩ := ih (own.increment small) bounded signed
      exact ⟨own', phase, by lia⟩
    · rename_i late
      obtain rfl := (Prod.mk.inj signed).2
      simp only [Bool.or_eq_true, bne_iff_ne, ne_eq, not_or, not_not] at late
      exact ⟨own, late.2, Nat.le_max_left _ _⟩

/-- A node reports what it has prepared once its component is past the view of the statement. -/
theorem OwnTrusted.report (own : OwnTrusted cfg H p tp) {m : MsgNewViewCh} (known : p < cfg.total)
    (signer : m.sign.signer = p) (justv : m.data.justv = tp.prepv) (justh : m.data.justh = tp.preph)
    (later : m.data.propv + 1 < wordSize) (below : tp.prepv ≤ m.data.propv) {e : ChEvent}
    (member : e ∈ H) (mine : e.actor = p) (beyond : 2 * m.data.propv < reach e) :
    Report cfg H m where
  known := signer ▸ known
  later := later
  below := justv ▸ below
  certified := by
    rw [justv, justh]
    exact own.certified
  reports := by
    -- Where it has not voted until now, it never will.
    intro v within above
    rw [justv] at above
    rw [signer]
    exact (own.reports v above).imp_left fun silent =>
      ⟨H, List.suffix_refl H, ⟨e, member, mine, by lia⟩, silent⟩

/-- What a component accepts as the justification of a vote may be built on in its view. -/
theorem OwnTrusted.buildable (own : OwnTrusted cfg H p tp) (small : u < wordSize)
    (sound : SoundJust cfg H u block.just) (checks : tp.checks cfg.nodes block block0 = true) :
    tp.view = u ∧ (∀ r, block.just.getRData = some r → r.propv + 1 = u)
      ∧ Buildable cfg H u block.just.getCView block.just.getCHash := by
  unfold TrustedCh.checks at checks
  cases tagged : block.just.getRData with
  | none => simp [tagged] at checks
  | some rd =>
    simp only [tagged, Bool.and_eq_true, beq_iff_eq, own.qsize] at checks
    obtain ⟨⟨⟨verified, view⟩, formed⟩, -⟩ := checks
    obtain ⟨next, buildable⟩ := sound rd tagged verified formed
    rw [next, Nat.mod_eq_of_lt small] at view
    refine ⟨view, fun r same => ?_, buildable⟩
    rw [← Option.some.inj same]
    exact next

/-- What a node votes for in its component's view leaves the later views without a vote of its own. -/
theorem OwnTrusted.silent (own : OwnTrusted cfg H p tp) (later : tp.view ≤ v) {b : JBlock} :
    ¬ PrepVoted H p v b := by
  rintro ⟨r, member, view, phase⟩
  have bound := own.reached _ member rfl
  have top := slot_le tp.view tp.phase
  simp only [reach, view, phase, slot_prepare] at bound
  lia

/-- A component may record what may be built on in its view. -/
theorem OwnTrusted.storeChain (own : OwnTrusted cfg H p tp)
    (buildable : Buildable cfg H tp.view block.just.getCView block.just.getCHash) :
    OwnTrusted cfg H p (tp.storeChain block.just block0.just block0 block1) := by
  -- From now on it reports the certified block; there were no votes after it but in closed views.
  have recorded : OwnTrusted cfg H p
      { tp with preph := block.just.getCHash, prepv := block.just.getCView } :=
    { own with
      below := Nat.le_of_lt buildable.below
      certified := buildable.certified
      reports := fun v above => by
        by_cases before : v < tp.view
        · exact .inr (buildable.sound v above before)
        · exact .inl fun b => own.silent (Nat.le_of_not_lt before) }
  unfold TrustedCh.storeChain
  split
  · split
    · exact { recorded with }
    · exact recorded
  · exact own

/-- After a vote on what is prepared, and one more statement, the same is known of a component. -/
theorem OwnTrusted.vote (own : OwnTrusted cfg H p tp) (small : tp.view + 2 < wordSize)
    (prepared : tp.prepv = block.just.getCView) {r : RData} (view : r.propv = tp.view)
    (phase : r.phase = tp.phase) :
    OwnTrusted cfg (.voted p r block :: H) p tp.increment.increment := by
  have first := own.increment (by lia)
  have second := first.increment (by
    have inner : tp.view + 1 < wordSize := by lia
    have bound := (view_increment_le inner).2
    lia)
  refine {
    id := second.id
    priv := second.priv
    qsize := second.qsize
    phase := second.phase
    reached := fun e member mine => ?_
    below := second.below
    certified := second.certified.mono [_]
    reports := fun v above => ?_ }
  · rcases List.mem_cons.1 member with rfl | old
    · -- The vote and the statement after it are the two that were signed.
      obtain ⟨there, same⟩ := slot_increment_increment own.phase (by lia)
      rw [there, same]
      simp only [reach, view, phase, slot]
      lia
    · exact second.reached e old mine
  · rw [TrustedCh.prepv_increment, TrustedCh.prepv_increment] at above
    rcases own.reports v above with silent | closed
    · by_cases here : ∃ b, PrepVoted (.voted p r block :: H) p v b
      · obtain ⟨b, voted⟩ := here
        rcases prepVoted_cons voted with ⟨r', new, there, prepare⟩ | old
        · cases new
          -- The new vote leaves out a view, so its own view is closed.
          refine .inr (.inr ⟨p, block, voted, ?_⟩)
          change block.just.getCView + 1 ≠ v
          lia
        · exact absurd old (silent b)
      · exact .inl fun b voted => here ⟨b, voted⟩
    · exact .inr (closed.extend (ballots_extends [_]))

end Component

section Blocks

/-- What a node takes up is the proposal of its view, or its own one, and it takes up no other. -/
structure Origin [Hashing] [SignatureBytes] (cfg : Config) (H : List ChEvent) (p : PID)
    (h : HandlerCh) (block : JBlock) : Prop where
  fresh : block.executed = false
  here : block.view = h.view
  later : h.view ≠ 0
  just : SoundJust cfg H h.view block.just
  source : (cfg.getLeaderOf h.view ≠ p ∧ PrepVoted H (cfg.getLeaderOf h.view) h.view block)
    ∨ (cfg.getLeaderOf h.view = p ∧ h.jblocks.lookup h.view = none)

variable [Hashing] [SignatureBytes]

omit [Hashing] [SignatureBytes] in
/-- What is held once a block was taken up. -/
theorem lookup_took (h : HandlerCh) (block : JBlock) (v : View) :
    (h.took block).jblocks.lookup v = if v = h.view then some block else h.jblocks.lookup v := by
  unfold took
  split
  · rename_i same
    rw [same, AList.lookup_insert]
  · rename_i other
    rw [AList.lookup_insert_ne other]

/-- A node may take up a block of such an origin. -/
theorem OwnBlocks.took (own : OwnBlocks cfg H p h) (origin : Origin cfg H p h block) :
    OwnBlocks cfg H p (h.took block) := by
  -- The block replaces what was held for the view, if anything; other views are as before.
  have held : ∀ {v b}, (h.took block).jblocks.lookup v = some b →
      (v = h.view ∧ b = block) ∨ (v ≠ h.view ∧ h.jblocks.lookup v = some b) := by
    intro v b found
    rw [lookup_took] at found
    split at found
    · rename_i same
      exact .inl ⟨same, (Option.some.inj found).symm⟩
    · rename_i other
      exact .inr ⟨other, found⟩
  refine {
    place := fun found => ?_
    early := fun found => ?_
    held := fun {v b} later found => ?_
    genesis := fun found => ?_
    taken := fun {r b} member => ?_
    marks := fun found => ?_
    before := own.before }
  · rcases held found with ⟨rfl, rfl⟩ | ⟨-, old⟩
    · exact origin.here
    · exact own.place old
  · rcases held found with ⟨rfl, rfl⟩ | ⟨-, old⟩
    · exact Nat.le_refl _
    · exact own.early old
  · rcases held found with ⟨rfl, rfl⟩ | ⟨-, old⟩
    · rcases origin.source with ⟨backup, vote⟩ | ⟨leads, none_held⟩
      · exact .inl ⟨backup, b, vote, b.executed, rfl⟩
      · -- A leader that holds nothing has not voted in its view.
        refine .inr ⟨leads, fun r b' member there => ?_⟩
        have some_held := own.taken member
        rw [there, none_held] at some_held
        cases some_held
    · exact own.held later old
  · rcases held found with ⟨first, -⟩ | ⟨-, old⟩
    · exact absurd first.symm origin.later
    · exact own.genesis old
  · rw [lookup_took]
    split
    · rfl
    · exact own.taken member
  · rcases held found with ⟨rfl, rfl⟩ | ⟨-, old⟩
    · -- Executed blocks lie in earlier views, so the new one has no mark.
      simp only [origin.fresh, Bool.false_eq_true, false_iff]
      exact fun executed => absurd (own.before executed) (Nat.lt_irrefl _)
    · exact own.marks old

omit [Hashing] [SignatureBytes] in
/-- A node may vote for the block that it has taken up in its view. -/
theorem OwnBlocks.vote (own : OwnBlocks cfg H p h) {r : RData}
    (found : h.jblocks.lookup block.view = some block) :
    OwnBlocks cfg (.voted p r block :: H) p h where
  place := own.place
  early := own.early
  held := fun {v b} later there => by
    rcases own.held later there with ⟨backup, b', vote, same⟩ | ⟨leads, mine⟩
    · exact .inl ⟨backup, b', vote.mono [_], same⟩
    · refine .inr ⟨leads, fun r' b' member view => ?_⟩
      rcases List.mem_cons.1 member with new | old
      · -- The block just voted for is the one that is held.
        cases new
        rw [view] at found
        obtain rfl := Option.some.inj (there.symm.trans found)
        exact ⟨_, rfl⟩
      · exact mine r' b' old view
  genesis := own.genesis
  taken := fun {r' b} member => by
    rcases List.mem_cons.1 member with new | old
    · cases new
      rw [found]
      rfl
    · exact own.taken old
  marks := own.marks
  before := own.before

omit [Hashing] [SignatureBytes] in
/-- Only the view and the blocks of a node matter. -/
theorem OwnBlocks.node (own : OwnBlocks cfg H p h) {h' : HandlerCh} (view : h.view ≤ h'.view)
    (jblocks : h'.jblocks = h.jblocks) : OwnBlocks cfg H p h' where
  place := fun found => own.place (jblocks ▸ found)
  early := fun found => Nat.le_trans (own.early (jblocks ▸ found)) view
  held := fun later found => own.held later (jblocks ▸ found)
  genesis := fun found => own.genesis (jblocks ▸ found)
  taken := fun member => jblocks ▸ own.taken member
  marks := fun found => own.marks (jblocks ▸ found)
  before := fun executed => Nat.lt_of_lt_of_le (own.before executed) view

omit [Hashing] [SignatureBytes] in
/-- A node that starts holds genesis, and nothing else. -/
theorem OwnBlocks.launched (own : OwnBlocks cfg H p h) (empty : ∀ v, h.jblocks.lookup v = none)
    (first : h.view = 0) {h' : HandlerCh} (jblocks : h'.jblocks = h.jblocks.insert 0 JBlock.default) :
    OwnBlocks cfg H p h' := by
  have held : ∀ {v b}, h'.jblocks.lookup v = some b → v = 0 ∧ b = JBlock.default := by
    intro v b found
    rw [jblocks] at found
    by_cases same : v = 0
    · subst same
      rw [AList.lookup_insert] at found
      exact ⟨rfl, (Option.some.inj found).symm⟩
    · rw [AList.lookup_insert_ne same, empty] at found
      cases found
  have nothing : ∀ {v}, v ∉ (executedBy H p).map (·.view) := fun executed => by
    have before := own.before executed
    rw [first] at before
    exact absurd before (Nat.not_lt_zero _)
  refine {
    place := fun found => ?_
    early := fun found => ?_
    held := fun later found => absurd (held found).1 later
    genesis := fun found => ⟨false, (held found).2⟩
    taken := fun member => ?_
    marks := fun found => ?_
    before := fun executed => absurd executed nothing }
  · rw [(held found).1, (held found).2]
    rfl
  · rw [(held found).1]
    exact Nat.zero_le _
  · have some_held := own.taken member
    rw [empty] at some_held
    cases some_held
  · rw [(held found).2]
    simpa [JBlock.default] using nothing

/-- The block a node holds for a certificate that it may build on is the one that is certified. -/
theorem OwnBlocks.certified (own : OwnBlocks cfg H p h) (facts : Facts cfg H) {hash : Hash}
    (certified : CertifiedHash cfg H c hash) (positive : 0 < cfg.qsize)
    (found : h.jblocks.lookup c = some block) : (hash == block.hash) = true := by
  obtain ⟨b, same, ⟨first, rfl⟩ | ⟨Q, quorum, votes⟩⟩ := certified
  · -- Genesis is the only block held for view 0.
    obtain ⟨done, rfl⟩ := own.genesis (first ▸ found)
    rw [Hash.beq_iff, ← same]
    rfl
  · obtain ⟨r, member⟩ := quorum.nonempty positive
    obtain ⟨done, rfl⟩ := own.eq_of_voted facts (votes r member) found
    rw [Hash.beq_iff, ← same]
    rfl

end Blocks

section Logs

variable [Hashing] [SignatureBytes] {log : LogCh}

theorem OwnLog.storeNvCh (own : OwnLog cfg H log) {m : MsgNewViewCh} (report : Report cfg H m) :
    OwnLog cfg H (log.storeNvCh m).2 where
  newviews := fun member => by
    rcases Messages.mem_store member with old | ⟨rfl, rfl⟩
    · exact own.newviews old
    · exact ⟨rfl, report⟩
  votes := own.votes
  proposals := own.proposals
  singleNewviews := fun v => by
    by_cases here : v = m.data.propv
    · subst here
      exact (own.singleNewviews _).store (Nat.le_refl 1)
    · have same := @Messages.held_store_ne _ _ _ (fun m : MsgNewViewCh => [m.sign]) MsgRDataCh.lt
        log.newviewsCh m.data.propv m v here
      exact same.symm ▸ own.singleNewviews v
  singleVotes := own.singleVotes

theorem OwnLog.storePrepCh (own : OwnLog cfg H log) {m : MsgPrepareCh} (vote : VoteMsg cfg H m) :
    OwnLog cfg H (log.storePrepCh m).2 where
  newviews := own.newviews
  votes := fun member => by
    rcases Messages.mem_store member with old | ⟨rfl, rfl⟩
    · exact own.votes old
    · exact ⟨rfl, vote⟩
  proposals := own.proposals
  singleNewviews := own.singleNewviews
  singleVotes := fun v => by
    by_cases here : v = m.data.propv
    · subst here
      exact (own.singleVotes _).store (Nat.le_refl 1)
    · have same := @Messages.held_store_ne _ _ _ (fun m : MsgPrepareCh => [m.sign]) MsgRDataCh.lt
        log.preparesCh m.data.propv m v here
      exact same.symm ▸ own.singleVotes v

theorem OwnLog.storeLdrPrepCh (own : OwnLog cfg H log) {m : MsgLdrPrepareCh}
    (proposed : PrepVoted H (cfg.getLeaderOf m.block.view) m.block.view m.block) :
    OwnLog cfg H (log.storeLdrPrepCh m).2 where
  newviews := own.newviews
  votes := own.votes
  proposals := fun member => by
    rcases Messages.mem_store member with old | ⟨rfl, rfl⟩
    · exact own.proposals old
    · exact ⟨rfl, proposed⟩
  singleNewviews := own.singleNewviews
  singleVotes := own.singleVotes

end Logs

section Certificates

/-- The search through new-view statements finds one that no other one exceeds. -/
theorem findHighestNvCh_max {log : LogCh} (some_held : log.newviewsCh.held v ≠ []) :
    ∃ m ∈ log.newviewsCh.held v, log.findHighestNvCh v = Just.ofRData m.data [m.sign]
      ∧ ∀ m' ∈ log.newviewsCh.held v, m'.data.justv ≤ m.data.justv := by
  -- Induction on the statements, with the best one so far.
  have general : ∀ (msgs : List MsgNewViewCh) (best : View × Just),
      best.1 ≤ (msgs.foldl LogCh.higherNvCh best).1
        ∧ (∀ m ∈ msgs, m.data.justv ≤ (msgs.foldl LogCh.higherNvCh best).1)
        ∧ (msgs.foldl LogCh.higherNvCh best = best ∨ ∃ m ∈ msgs,
          msgs.foldl LogCh.higherNvCh best = (m.data.justv, Just.ofRData m.data [m.sign])) := by
    intro msgs
    induction msgs with
    | nil =>
      intro best
      exact ⟨Nat.le_refl _, fun m member => absurd member List.not_mem_nil, .inl rfl⟩
    | cons m msgs ih =>
      intro best
      obtain ⟨higher, all, found⟩ := ih (LogCh.higherNvCh best m)
      have first : best.1 ≤ (LogCh.higherNvCh best m).1
          ∧ m.data.justv ≤ (LogCh.higherNvCh best m).1 := by
        unfold LogCh.higherNvCh
        split <;> lia
      refine ⟨first.1.trans higher, fun m' member => ?_, ?_⟩
      · rcases List.mem_cons.1 member with rfl | later
        · exact first.2.trans higher
        · exact all m' later
      · rcases found with kept | ⟨m', member, taken⟩
        · rw [List.foldl_cons, kept]
          unfold LogCh.higherNvCh
          split
          · exact .inr ⟨m, List.mem_cons_self, rfl⟩
          · exact .inl rfl
        · exact .inr ⟨m', List.mem_cons_of_mem _ member, taken⟩
  have result := general (log.newviewsCh.held v) (0, Just.default)
  obtain ⟨-, all, found⟩ := result
  unfold LogCh.findHighestNvCh
  rcases found with kept | ⟨m, member, taken⟩
  · -- Even a statement for view 0 would have been taken.
    exfalso
    obtain ⟨first, rest, split⟩ := List.exists_cons_of_ne_nil some_held
    rw [split] at kept
    have begun := general rest (LogCh.higherNvCh (0, Just.default) first)
    have taken_first : LogCh.higherNvCh (0, Just.default) first
        = (first.data.justv, Just.ofRData first.data [first.sign]) := by
      unfold LogCh.higherNvCh
      exact if_pos (Nat.zero_le _)
    rw [List.foldl_cons, taken_first] at kept
    rw [taken_first] at begun
    rcases begun.2.2 with same | ⟨m, -, same⟩
    · rw [same] at kept
      cases congrArg (fun best => best.2.set) kept
    · rw [same] at kept
      cases congrArg (fun best => best.2.set) kept
  · refine ⟨m, member, by rw [taken], fun m' held => ?_⟩
    have bound := all m' held
    rwa [taken] at bound

variable [Hashing] [SignatureBytes] {log : LogCh}

/-- The highest report of a quorum may be built on in the view after. -/
theorem OwnLog.highest (own : OwnLog cfg H log) (several : 1 < cfg.qsize)
    (enough : cfg.qsize ≤ (log.newviewsCh.held v).length) :
    (log.findHighestNvCh v).set = true ∧ (log.findHighestNvCh v).rdata.propv = v
      ∧ SoundJust cfg H (v + 1) (log.findHighestNvCh v) := by
  have some_held : log.newviewsCh.held v ≠ [] := by
    intro none_held
    rw [none_held, List.length_nil] at enough
    omega
  obtain ⟨m, member, found, highest⟩ := findHighestNvCh_max some_held
  obtain ⟨here, report⟩ := own.newviews member
  rw [found]
  refine ⟨rfl, here, fun r tagged verified formed => ?_⟩
  obtain rfl : m.data = r := Option.some.inj tagged
  refine ⟨by rw [here], ?_⟩
  -- One signature is no quorum certificate, so the statement certifies what it reports.
  have newview : (Just.ofRData m.data [m.sign]).wellFormedInit
      || (Just.ofRData m.data [m.sign]).wellFormedNv := by
    have alone : (1 == cfg.qsize) = false := by simp; omega
    simpa [Just.wellFormed, Just.wellFormedPrep, alone] using formed
  have view : (Just.ofRData m.data [m.sign]).getCView = m.data.justv := by
    unfold Just.getCView
    rw [if_pos newview]
    rfl
  have hash : (Just.ofRData m.data [m.sign]).getCHash = m.data.justh := by
    unfold Just.getCHash
    rw [if_pos newview]
    rfl
  rw [view, hash]
  have below := report.below
  refine ⟨by lia, report.certified, ?_⟩
  -- The reporters are as many nodes as there are statements.
  have signers : ∀ msgs : List MsgNewViewCh,
      Messages.allSigns (fun m : MsgNewViewCh => [m.sign]) msgs = msgs.map (·.sign) := by
    intro msgs
    induction msgs with
    | nil => rfl
    | cons m msgs ih => rw [List.map_cons, ← ih]; rfl
  have distinct := (own.singleNewviews v).distinct
  rw [signers] at distinct
  have quorum : IsQuorum cfg.total cfg.qsize
      (Signs.getSigners ((log.newviewsCh.held v).map (·.sign))).toFinset := by
    refine IsQuorum.of_nodup distinct (fun q signer => ?_) (by simpa [Signs.getSigners] using enough)
    obtain ⟨s, held, rfl⟩ := List.mem_map.1 signer
    obtain ⟨m', member', rfl⟩ := List.mem_map.1 held
    exact (own.newviews member').2.known
  refine Ballots.sound_of_reports quorum fun q signer => ?_
  obtain ⟨s, held, rfl⟩ := mem_signers signer
  obtain ⟨m', member', rfl⟩ := List.mem_map.1 held
  obtain ⟨here', report'⟩ := own.newviews member'
  exact ⟨m'.data.justv, highest m' member', here' ▸ report'.reports⟩

/-- What is known of the statement a vote signs. -/
theorem Facts.statement (facts : Facts cfg H) {r : RData} {b : JBlock}
    (vote : ChEvent.voted p r b ∈ H) :
    r.proph = b.hash ∧ r.propv = b.view ∧ r.justh = Hash.default ∧ r.justv = 0 := by
  rw [(facts.votes vote).statement]
  exact ⟨rfl, rfl, rfl, rfl⟩

omit [Hashing] [SignatureBytes] in
/-- Statements with the same text that name the same views and the same justified block are one. -/
theorem statement_of_text {r r' : RData} (view : r.propv = r'.propv) (justh : r.justh = r'.justh)
    (justv : r.justv = r'.justv) (text : r.toString = r'.toString) : r = r' := by
  -- Texts begin with the hash and end with the phase; between them they say the same anyway.
  simp only [RData.toString, view, justh, justv, List.append_assoc] at text
  obtain ⟨proph, rest⟩ := Hash.of_append text
  have phases := toText_injective (List.append_cancel_left (List.append_cancel_left
    (List.append_cancel_left rest)))
  cases r
  cases r'
  simp only at proph view justh justv phases
  rw [proph, view, justh, justv, UInt8.toNat_inj.1 phases]

/-- Votes of one view with the same text sign the same statement. -/
theorem Facts.same_statement (facts : Facts cfg H) {r r' : RData} {b b' : JBlock}
    (vote : ChEvent.voted p r b ∈ H) (vote' : ChEvent.voted q r' b' ∈ H)
    (view : r.propv = r'.propv) (text : r.toString = r'.toString) : r = r' := by
  obtain ⟨-, -, justh, justv⟩ := facts.statement vote
  obtain ⟨-, -, justh', justv'⟩ := facts.statement vote'
  exact statement_of_text view (justh.trans justh'.symm) (justv.trans justv'.symm) text

/-- As many votes as a quorum has nodes certify their block for the next view. -/
theorem OwnLog.certificate (own : OwnLog cfg H log) (facts : Facts cfg H) (several : 1 < cfg.qsize)
    {data : RData} {b : JBlock} (vote : ChEvent.voted q data b ∈ H)
    (full : (log.getPrepareCh data.propv cfg.qsize).length = cfg.qsize) :
    SoundJust cfg H (data.propv + 1)
      (Just.ofRData data (log.getPrepareCh data.propv cfg.qsize)) := by
  intro r tagged verified formed
  obtain rfl : data = r := Option.some.inj tagged
  refine ⟨rfl, ?_⟩
  simp only [Just.signs_ofRData] at verified
  -- With so many signatures it is a certificate of votes that count.
  have prepare : data.phase = PH1_PREPARE := by
    have long : ((log.getPrepareCh data.propv cfg.qsize).length == 1) = false := by
      rw [full]
      simp
      omega
    have signed : ((log.getPrepareCh data.propv cfg.qsize).length == 0) = false := by
      rw [full]
      simp
      omega
    simp only [Just.wellFormed, Just.wellFormedInit, Just.wellFormedNv, Just.wellFormedPrep,
      Just.ofRData, Just.rdata, long, signed, Bool.and_false, Bool.false_or, Bool.and_eq_true,
      beq_iff_eq] at formed
    exact formed.1.2
  have view : (Just.ofRData data (log.getPrepareCh data.propv cfg.qsize)).getCView = data.propv :=
    Just.getCView_prepare prepare
  have hash : (Just.ofRData data (log.getPrepareCh data.propv cfg.qsize)).getCHash = data.proph := by
    unfold Just.getCHash
    rw [if_neg]
    · rfl
    · simp [Just.wellFormedInit, Just.wellFormedNv, Just.ofRData, Just.rdata, prepare,
        show (PH1_PREPARE == PH1_NEWVIEW) = false from rfl]
  -- All of the signatures are votes for the block of the view.
  have all : ∀ s ∈ log.getPrepareCh data.propv cfg.qsize, PrepVoted H s.signer data.propv b := by
    intro s member
    have made := made_of_verify verified member
    obtain ⟨m, held, signs⟩ := Messages.mem_of_collected member
    obtain rfl := List.mem_singleton.1 signs
    obtain ⟨here, known⟩ := own.votes held
    obtain ⟨b', vote'⟩ := known.voted
    rw [known.made, SigVal.made.injEq] at made
    have same := facts.same_statement vote' vote here made.2
    rw [same] at vote'
    have first : PrepVoted H m.sign.signer data.propv b' := ⟨data, vote', rfl, prepare⟩
    exact facts.single first ⟨data, vote, rfl, prepare⟩ ▸ first
  have quorum := quorum_of_signs (own.singleVotes data.propv).collected
    (fun s member => known_of_verify verified member) full
  rw [view, hash]
  refine ⟨Nat.lt_succ_self _, ⟨b, by rw [(facts.statement vote).1], .inr ⟨_, quorum, ?_⟩⟩,
    Ballots.sound_of_previous⟩
  intro q' signer
  obtain ⟨s, member, rfl⟩ := mem_signers signer
  exact all s member

/-- What a leader selects may be built on in its view, if it has a quorum or a certificate. -/
theorem Own.selecting (own : Own cfg H p h) (several : 1 < cfg.qsize) (later : h.view ≠ 0)
    (small : h.view < wordSize)
    (ready : (h.justNV.set = true ∧ h.justNV.rdata.propv = prevView h.view)
      ∨ cfg.qsize ≤ (h.log.newviewsCh.held (prevView h.view)).length)
    {r : RData} (tagged : h.justNV.getRData = some r) :
    SoundJust cfg H h.view h.selecting.justNV
      ∧ (∀ r, h.selecting.justNV.getRData = some r → r.propv + 1 = h.view) := by
  have next := prevView_succ later small
  have data := Just.rdata_of_tagged tagged
  unfold HandlerCh.selecting
  split
  · rename_i replaced
    -- It keeps no certificate of the view before, so it takes the highest report.
    have enough := ready.resolve_left fun kept => by
      simp [kept.1, kept.2] at replaced
    obtain ⟨-, here, sound⟩ := own.log.highest several enough
    rw [next] at sound
    refine ⟨sound, fun r' tagged' => ?_⟩
    have same := Just.rdata_of_tagged tagged'
    rw [← same, here, next]
  · rename_i kept
    simp only [Bool.or_eq_true, Bool.not_eq_true', bne_iff_ne, ne_eq, not_or, Bool.not_eq_false,
      not_not] at kept
    have sound := own.just kept.1 r tagged
    rw [← data, kept.2, next] at sound
    refine ⟨sound, fun r' tagged' => ?_⟩
    rw [tagged] at tagged'
    rw [← Option.some.inj tagged', ← data, kept.2, next]

end Certificates

end HandlerCh

end ParaHotstuff
