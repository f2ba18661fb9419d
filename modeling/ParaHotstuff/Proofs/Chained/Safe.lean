import ParaHotstuff.Proofs.Chained.Growth

/-! Every handler of the chained protocol keeps what is known of a run. -/

namespace ParaHotstuff

namespace HandlerCh

open Program Local

/-- Neither a node nor its component comes to the last views of the counter in a few more steps. -/
structure Room (n : Nat) (h : HandlerCh) : Prop where
  view : h.view + n + 2 < wordSize
  trusted : h.tp.view + n + 2 < wordSize

variable {cfg : Config} {H : List ChEvent} {p q : PID} {n depth : Nat} {h h' : HandlerCh}
variable {tp : TrustedCh} {block : JBlock}

theorem Room.less (room : Room (n + 1) h) : Room n h :=
  ⟨by have := room.view; lia, by have := room.trusted; lia⟩

/-- Only the two views matter. -/
theorem Room.node (room : Room n h) (view : h'.view = h.view) (trusted : h'.tp.view = h.tp.view) :
    Room n h' :=
  ⟨view ▸ room.view, trusted ▸ room.trusted⟩

theorem Room.nextView (room : Room n h) : nextView h.view = h.view + 1 :=
  nextView_eq (by have := room.view; lia)

section Own

variable [Hashing] [SignatureBytes]

/-- A node that has left view 0 was started. -/
theorem Own.awake (own : Own cfg H p h) (later : h.view ≠ 0) : h.started = true := by
  by_contra asleep
  exact later (own.asleep (by simpa using asleep)).1

/-- A started node goes on with a component and a log of which the same is known. -/
theorem Own.component (own : Own cfg H p h) (awake : h.started = true)
    (trusted : OwnTrusted cfg H p tp) : Own cfg H p { h with tp := tp } :=
  { own with
    blocks := own.blocks.node (Nat.le_refl _) rfl
    trusted := trusted
    asleep := fun asleep => by simp [awake] at asleep }

theorem Own.logged (own : Own cfg H p h) {log : LogCh} (known : OwnLog cfg H log) :
    Own cfg H p { h with log := log } :=
  { own with
    blocks := own.blocks.node (Nat.le_refl _) rfl
    log := known }

/-- Bookkeeping concerns clients, transactions, replies and, once the node is started, its timer. -/
theorem Own.bookkeeping (own : Own cfg H p h) (myid : h'.myid = h.myid) (view : h'.view = h.view)
    (started : h'.started = h.started) (jblocks : h'.jblocks = h.jblocks)
    (justNV : h'.justNV = h.justNV) (log : h'.log = h.log) (tp : h'.tp = h.tp)
    (timer : h'.timer = h.timer ∨ h.started = true) : Own cfg H p h' where
  known := own.known
  myid := myid.trans own.myid
  blocks := own.blocks.node (Nat.le_of_eq view.symm) jblocks
  trusted := tp ▸ own.trusted
  log := log ▸ own.log
  just := justNV ▸ own.just
  asleep := fun asleep => by
    rw [started] at asleep
    obtain ⟨first, trusted, phase, quiet, empty⟩ := own.asleep asleep
    rw [view, tp, jblocks]
    refine ⟨first, trusted, phase, ?_, empty⟩
    exact (timer.resolve_right (by simp [asleep])).trans quiet

/-- A node may take up a block of its view. -/
theorem Own.took (own : Own cfg H p h) (origin : Origin cfg H p h block) :
    Own cfg H p (h.took block) :=
  { own with
    blocks := own.blocks.took origin
    asleep := fun asleep => by
      have awake := own.awake origin.later
      change h.started = false at asleep
      simp [awake] at asleep }

/-- Entering a view is noted with the place that the component has come to. -/
theorem Own.note (own : Own cfg H p h) (started : Bool) (v : View) :
    Own cfg (.entered p started v h.tp.view h.tp.phase :: H) p h := by
  have foreign : Foreign p [ChEvent.entered p started v h.tp.view h.tp.phase] :=
    ⟨fun r b member => by simp at member, fun b member => by simp at member⟩
  refine own.mono foreign fun e member _ => ?_
  rw [List.mem_singleton.1 member]
  exact Nat.le_refl _

/-- A started node may enter the next view, with a justification that may be built on there. -/
theorem Own.enter (own : Own cfg H p h) (awake : h.started = true) (small : h.view + 1 < wordSize)
    {just : Just} (sound : just = h.justNV
      ∨ ∀ r, just.getRData = some r → SoundJust cfg H (r.propv + 1) just) :
    Own cfg ({ h.entered with justNV := just }.entry :: H) p { h.entered with justNV := just } := by
  have noted := own.note h.started h.entered.view
  have view : h.entered.view = h.view + 1 := nextView_eq small
  have entry : { h.entered with justNV := just }.entry
      = .entered p h.started h.entered.view h.tp.view h.tp.phase := by
    rw [← own.myid]
    rfl
  rw [entry]
  refine {
    known := noted.known
    myid := noted.myid
    blocks := noted.blocks.node (by rw [view]; exact Nat.le_succ _) rfl
    trusted := noted.trusted
    log := noted.log
    just := fun set r tagged => ?_
    asleep := fun asleep => ?_ }
  · rcases sound with rfl | sound
    · exact noted.just set r tagged
    · exact (sound r tagged).mono [_]
  · change h.started = false at asleep
    simp [awake] at asleep

end Own

section Steps

variable [Hashing] [SignatureBytes] {start : List ChEvent} {l : State}

/-- What is known is kept by a change of the own state that keeps it. -/
theorem inside_took (inside : (knowledge cfg).Inside p start l)
    (origin : Origin cfg l.history p l.node block) :
    (knowledge cfg).Inside p start { l with node := l.node.took block } :=
  inside.node (inside.own.took origin)

/-- A node enters the next view. -/
theorem inside_enter (inside : (knowledge cfg).Inside p start l) (awake : l.node.started = true)
    (small : l.node.view + 1 < wordSize) (just : Just) (sound : just = l.node.justNV
      ∨ ∀ r, just.getRData = some r → SoundJust cfg l.history (r.propv + 1) just) :
    (knowledge cfg).Inside p start { l with
      node := { l.node.entered with justNV := just }
      history := { l.node.entered with justNV := just }.entry :: l.history } :=
  inside.event knowledge_stable inside.own.myid inside.facts.enter
    (Own.enter inside.own awake small sound)

/-- A node has done nothing but store a message or send it. -/
structure Handed (l l' : State) : Prop where
  node : ∃ log, l'.node = { l.node with log := log }
  history : l'.history = l.history

/-- A report is stored by the next leader, or sent to it. -/
theorem passNvCh_gives {msg : MsgNewViewCh} {post : Unit → State → Prop} {stop : State → Prop}
    (inside : (knowledge cfg).Inside p start l) (report : Report cfg l.history msg)
    (rest : ∀ l', (knowledge cfg).Inside p start l' → Handed l l' → post () l') :
    (passNvCh cfg msg).Gives post stop l := by
  unfold passNvCh
  rw [gives_bind, gives_this]
  refine gives_ite (fun _ => ?_) fun _ => ?_
  · have own : Own cfg l.history p (l.node.storedNv msg) :=
      Own.logged inside.own (OwnLog.storeNvCh (Own.log inside.own) report)
    exact rest _ (inside.node own) ⟨⟨_, rfl⟩, rfl⟩
  · exact rest _ (inside.send _ _ fun _ _ => report) ⟨⟨l.node.log, rfl⟩, rfl⟩

/-- A vote goes out as the leader's proposal, or to the next leader. -/
theorem passPrepCh_gives {block : JBlock} {rdata : RData} {sign : Sign}
    {post : Unit → State → Prop} {stop : State → Prop}
    (inside : (knowledge cfg).Inside p start l) (voted : ChEvent.voted p rdata block ∈ l.history)
    (signed : sign = Sign.ofText p p rdata.toString) (here : block.view = l.node.view)
    (rest : ∀ l', (knowledge cfg).Inside p start l' → Handed l l' → post () l') :
    (passPrepCh cfg block rdata sign).Gives post stop l := by
  have vote : VoteMsg cfg l.history ⟨rdata, sign⟩ := by
    rw [signed]
    exact ⟨Own.known inside.own, rfl, block, voted⟩
  unfold passPrepCh
  rw [gives_bind, gives_this]
  refine gives_ite (fun leads => ?_) fun _ => gives_ite (fun _ => ?_) fun _ => ?_
  · -- The leader sends its vote together with the block.
    have same := (Config.amLeaderOf_iff.1 leads).trans (Own.myid inside.own)
    refine rest _ (inside.send _ _ fun _ _ => ?_) ⟨⟨l.node.log, rfl⟩, rfl⟩
    change PropMsg cfg l.history ⟨block, sign⟩
    exact ⟨rdata, by simpa only [here, same] using voted, by simp only [here, same, signed]⟩
  · have own : Own cfg l.history p (l.node.storedPrep ⟨rdata, sign⟩) :=
      Own.logged inside.own (OwnLog.storePrepCh (Own.log inside.own) vote)
    exact rest _ (inside.node own) ⟨⟨_, rfl⟩, rfl⟩
  · exact rest _ (inside.send _ _ fun _ _ => vote) ⟨⟨l.node.log, rfl⟩, rfl⟩

end Steps

section Executing

variable [Hashing] [SignatureBytes] {start : List ChEvent} {l : State}
variable {r : RData} {block0 block1 : JBlock}

/-- What a node holds for the certificate of a vote is the block of a vote that counts. -/
theorem OwnBlocks.below (own : OwnBlocks cfg H p h) (facts : Facts cfg H) (positive : 0 < cfg.qsize)
    {u c : View} {hash : Hash} (buildable : Buildable cfg H u c hash) (later : c ≠ 0)
    (found : h.jblocks.lookup c = some block) :
    ∃ b, (ballots H).Certified cfg.total cfg.qsize c b ∧ block.just = b.just
      ∧ ∃ q, PrepVoted H q c b := by
  obtain ⟨b, -, ⟨first, -⟩ | certified⟩ := buildable.certified
  · exact absurd first later
  · obtain ⟨Q, quorum, votes⟩ := certified
    obtain ⟨q, member⟩ := quorum.nonempty positive
    obtain ⟨done, rfl⟩ := own.eq_of_voted facts (votes q member) found
    exact ⟨b, ⟨Q, quorum, votes⟩, rfl, q, votes q member⟩

/-- The three blocks below a vote: certificates lead from each to the next one. -/
structure Rests (cfg : Config) (H : List ChEvent) (u c0 c1 c2 : View) : Prop where
  vote : ∃ b0, (ballots H).Certified cfg.total cfg.qsize c0 b0 ∧ b0.just.getCView = c1
    ∧ proposedIn cfg H c0 = some b0
  link : (c1 = 0 ∧ c2 = 0) ∨ (ballots H).Link c1 c2
  first : c0 < u
  second : c1 < c0
  third : c2 ≤ c1
  line : ∃ blocks, (ballots H).Line c2 blocks
  top : c2 = 0 ∨ ∃ b, (ballots H).Certified cfg.total cfg.qsize c2 b

/-- The blocks a node holds below its vote rest on each other so. -/
theorem OwnBlocks.rests (own : OwnBlocks cfg H p h) (facts : Facts cfg H) (positive : 0 < cfg.qsize)
    (voted : ChEvent.voted p r block ∈ H) (later : block.just.getCView ≠ 0)
    (found0 : h.jblocks.lookup block.just.getCView = some block0)
    (found1 : h.jblocks.lookup block0.just.getCView = some block1) :
    Rests cfg H block.view block.just.getCView block0.just.getCView block1.just.getCView := by
  have built := (facts.votes voted).built
  obtain ⟨b0, certified, same0, q, vote0⟩ := own.below facts positive built later found0
  have built0 := facts.buildable vote0
  rw [same0] at found1 ⊢
  -- Below the second block is genesis with itself, or another block that was voted for.
  by_cases bottom : b0.just.getCView = 0
  · rw [bottom] at found1
    obtain ⟨done, rfl⟩ := own.genesis found1
    have zero : (JBlock.mk JBlock.default.set done JBlock.default.view JBlock.default.just
        JBlock.default.size JBlock.default.transactions).just.getCView = 0 := rfl
    exact {
      vote := ⟨b0, certified, rfl, facts.proposedIn vote0⟩
      link := .inl ⟨bottom, zero⟩
      first := built.below
      second := built0.below
      third := by rw [zero]; exact Nat.zero_le _
      line := ⟨_, by rw [zero]; exact .origin⟩
      top := .inl zero }
  · obtain ⟨b1, -, same1, q', vote1⟩ := own.below facts positive built0 bottom found1
    have built1 := facts.buildable vote1
    rw [same1]
    obtain ⟨blocks, line⟩ := facts.fair.line_exists positive vote1
    obtain ⟨p', b', older, -, vote', rest⟩ := Ballots.Fair.line_cases line bottom
    rw [facts.single vote' vote1] at rest
    exact {
      vote := ⟨b0, certified, rfl, facts.proposedIn vote0⟩
      link := .inr ⟨q', b1, vote1, rfl⟩
      first := built.below
      second := built0.below
      third := Nat.le_of_lt built1.below
      line := ⟨older, rest⟩
      top := facts.fair.certified vote1 }

omit [Hashing] [SignatureBytes] in
/-- Where the certificates are of two views in a row, the third block is committed. -/
theorem Rests.commits {u c0 c1 c2 : View} (rests : Rests cfg H u c0 c1 c2)
    (last : lastVote H p = some block) (same : block.just.getCView = c0)
    (next : votedOnNext cfg H p = true) :
    (ballots H).Commits cfg.total cfg.qsize c0 c2 := by
  obtain ⟨b0, certified, parent, proposed⟩ := rests.vote
  simp only [votedOnNext, last, same, proposed, beq_iff_eq] at next
  refine ⟨b0, certified, next.symm, ?_⟩
  change (b0.just.getCView = 0 ∧ c2 = 0) ∨ (ballots H).Link b0.just.getCView c2
  rw [parent]
  exact rests.link

/-- A node executes the blocks of a walk from a view that it has left, the oldest first. -/
theorem OwnBlocks.execute_walk (own : OwnBlocks cfg H p h) (facts : Facts cfg H) {c : View}
    {blocks walk : List JBlock} (line : (ballots H).Line c blocks)
    (walked : Walk h.jblocks c walk) (before : c < h.view) :
    OwnBlocks cfg (walk.map (.executed p) ++ H) p (walk.reverse.foldl executing h) := by
  obtain ⟨rest, split, -⟩ := own.walk_line facts walked line
  have onLine : ∀ b ∈ walk, b ∈ blocks := fun b member => by
    rw [split]
    exact List.mem_append_left _ member
  have distinct := facts.line_nodup line
  rw [split, List.map_append] at distinct
  have executed := own.executeAll walk.reverse
    (fun b member => (own.walk_fresh walked (List.mem_reverse.1 member)).2.1)
    (fun b member => Nat.lt_of_le_of_lt
      (facts.line_le line (onLine b (List.mem_reverse.1 member))) before)
    (by
      rw [List.map_reverse, List.nodup_reverse]
      exact (List.nodup_append.1 distinct).1)
  rwa [List.reverse_reverse] at executed

omit [Hashing] [SignatureBytes] in
/-- Executing blocks one after the other marks them, answers for them and notes them. -/
theorem gives_executeAllCh {post : Unit → State → Prop} {stop : State → Prop}
    (blocks : List JBlock) (l : State) :
    (executeAllCh blocks).Gives post stop l ↔ post () { l with
      node := blocks.foldl executing l.node
      history := blocks.reverse.map (ChEvent.executed l.node.myid) ++ l.history } := by
  -- Induction on the blocks; the first one is executed before the others.
  induction blocks generalizing l with
  | nil => rfl
  | cons block blocks ih =>
    simp only [executeAllCh, executeCh, gives_bind, gives_this, gives_note, gives_modify]
    rw [ih]
    simp [executing]

/-- Executing what three certificates show continues the line of what was executed. -/
theorem tryExecuteCh_gives {post : Unit → State → Prop}
    (inside : (knowledge cfg).Inside p start l) (majority : cfg.total < 2 * cfg.qsize)
    (voted : ChEvent.voted p r block ∈ l.history) (last : lastVote l.history p = some block)
    (here : block.view = l.node.view)
    (found0 : l.node.jblocks.lookup block.just.getCView = some block0)
    (found1 : l.node.jblocks.lookup block0.just.getCView = some block1)
    (rest : ∀ l', (knowledge cfg).Inside p start l' →
      (∃ jblocks queue, l'.node = { l.node with jblocks := jblocks, rep_queue := queue }) →
      (∃ added, l'.history = added ++ l.history) → post () l') :
    (tryExecuteCh block block0 block1).Gives post ((knowledge cfg).Left p start) l := by
  have facts : Facts cfg l.history := inside.facts
  have own : Own cfg l.history p l.node := inside.own
  unfold tryExecuteCh
  rw [gives_bind, gives_this]
  refine gives_ite (fun later => ?_) fun _ =>
    rest l inside ⟨l.node.jblocks, l.node.rep_queue, rfl⟩ ⟨[], rfl⟩
  have place := own.blocks.place found0
  rw [bne_iff_ne, place] at later
  have rests := own.blocks.rests facts (by omega) voted later found0 found1
  rw [gives_bind]
  refine gives_ofOption (fun blocks collected => ?_) fun _ => inside.toLeft
  rw [gives_executeAllCh]
  rcases walk_of_blocksToExec collected with rfl | ⟨walk, walked, rfl⟩
  · -- A block is missing, and nothing is executed.
    exact rest _ inside ⟨l.node.jblocks, l.node.rep_queue, rfl⟩ ⟨[], rfl⟩
  rw [List.append_nil, List.reverse_reverse, own.myid]
  obtain ⟨blocks, line⟩ := rests.line
  have before : block1.just.getCView < l.node.view := by
    have first := rests.first
    have second := rests.second
    have third := rests.third
    lia
  have executed := own.blocks.execute_walk facts line walked before
  obtain ⟨jblocks, queue, same, -⟩ := foldl_executing l.node walk.reverse
  have foreign : ∀ r b, ChEvent.voted p r b ∉ walk.map (ChEvent.executed p) := fun r b member => by
    obtain ⟨_, -, impossible⟩ := List.mem_map.1 member
    cases impossible
  have after : Own cfg (walk.map (.executed p) ++ l.history) p
      (walk.reverse.foldl executing l.node) := by
    rw [same] at executed ⊢
    exact {
      known := own.known
      myid := own.myid
      blocks := executed
      trusted := own.trusted.mono foreign fun e member _ => by
        obtain ⟨_, -, rfl⟩ := List.mem_map.1 member
        exact Nat.zero_le _
      log := own.log.mono _
      just := fun set r tagged => (own.just set r tagged).mono _
      asleep := fun asleep => by
        have awake := own.awake (Nat.ne_of_gt (Nat.zero_lt_of_lt before))
        change l.node.started = false at asleep
        simp [awake] at asleep }
  refine rest _ (inside.events knowledge_stable (fun e member => ?_) ?_ after)
    ⟨jblocks, queue, same⟩ ⟨_, rfl⟩
  · obtain ⟨_, -, rfl⟩ := List.mem_map.1 member
    rfl
  · -- With a direct certificate what is executed is the whole line of a committed block.
    refine Facts.execute facts walk (fun direct next => ?_)
      (own.blocks.executions facts (by omega) walked line rests.top)
    by_cases nothing : walk = []
    · subst nothing
      exact facts.executed direct p
    have commits := rests.commits last rfl (next nothing)
    have whole := own.blocks.executed_line facts majority (facts.executed direct p) commits walked
      nothing
    refine .inr ⟨_, _, commits.extend (ballots_extends _), ?_⟩
    rw [executedBy_executed, if_pos rfl]
    exact whole.extend (ballots_extends _)

end Executing

section Voting

variable [Hashing] [SignatureBytes] {start : List ChEvent} {l : State}
variable (several : 1 < cfg.qsize) (majority : cfg.total < 2 * cfg.qsize)

omit [Hashing] [SignatureBytes] in
/-- A counted vote is for a view after the first one. -/
theorem Facts.later [Hashing] [SignatureBytes] (facts : Facts cfg H) {r : RData}
    (vote : ChEvent.voted p r block ∈ H) : r.propv ≠ 0 ∧ block.view = r.propv := by
  have view := (facts.statement vote).2.1
  have below := (facts.votes vote).built.below
  exact ⟨by lia, view.symm⟩

/-- The proposal of a view may be taken up by a backup that is there. -/
theorem origin_of_proposed (facts : Facts cfg H) {h : HandlerCh} (backup : cfg.getLeaderOf h.view ≠ p)
    (proposed : PrepVoted H (cfg.getLeaderOf h.view) h.view block) : Origin cfg H p h block := by
  have here := facts.view_eq proposed
  obtain ⟨r, member, view, -⟩ := id proposed
  have vote := facts.votes member
  have later := (facts.later member).1
  rw [view] at later
  exact {
    fresh := vote.fresh
    here := here
    later := later
    just := fun r tagged _ _ => by
      rw [← here]
      exact ⟨vote.previous r tagged, vote.built⟩
    source := .inl ⟨backup, proposed⟩ }

section Next

-- What is known of the blocks taken up in views entered later.
variable {voteNext : JBlock → M Unit}
variable (voting : ∀ block l, (knowledge cfg).Inside p start l → Room n l.node →
  Origin cfg l.history p l.node block → (knowledge cfg).Safe p start (voteNext block) l)
include voting

include several in
/-- A leader with a quorum of reports or a certificate proposes on a block that may be built on. -/
theorem prepareCh_safe (inside : (knowledge cfg).Inside p start l) (room : Room n l.node)
    (leads : cfg.getLeaderOf l.node.view = p) (later : l.node.view ≠ 0)
    (empty : l.node.jblocks.lookup l.node.view = none)
    (ready : (l.node.justNV.set = true ∧ l.node.justNV.rdata.propv = prevView l.node.view)
      ∨ cfg.qsize ≤ (l.node.log.newviewsCh.held (prevView l.node.view)).length) :
    (knowledge cfg).Safe p start (prepareCh cfg voteNext) l := by
  have own : Own cfg l.history p l.node := inside.own
  have small : l.node.view < wordSize := by
    have bound := room.view
    lia
  unfold Knowledge.Safe prepareCh selectJustCh
  rw [gives_bind, gives_bind, gives_this, gives_bind]
  refine gives_ofOption (fun rdata tagged => ?_) fun _ => inside.toLeft
  obtain ⟨sound, next⟩ := own.selecting several later small ready tagged
  -- The leader drops the transactions of its proposal and takes the proposal up.
  have selected : Own cfg l.history p (l.node.selecting.drained cfg) := by
    obtain ⟨just, same⟩ := l.node.selecting_eq
    rw [same] at sound next ⊢
    exact {
      known := own.known
      myid := own.myid
      blocks := own.blocks.node (Nat.le_refl _) rfl
      trusted := own.trusted
      log := own.log
      just := fun _ r tagged => by
        rw [next r tagged]
        exact sound
      asleep := own.asleep }
  have view : (l.node.selecting.drained cfg).view = l.node.view := by
    obtain ⟨just, same⟩ := l.node.selecting_eq
    rw [same]
    rfl
  have taken : (knowledge cfg).Safe p start (voteNext (l.node.selecting.proposal cfg))
      { l with node := l.node.selecting.drained cfg } := by
    refine voting _ _ (inside.node selected) ?_ ?_
    · obtain ⟨just, same⟩ := l.node.selecting_eq
      rw [same]
      exact room.node rfl rfl
    · obtain ⟨just, same⟩ := l.node.selecting_eq
      rw [same] at sound ⊢
      exact {
        fresh := rfl
        here := rfl
        later := later
        just := sound
        source := .inr ⟨leads, empty⟩ }
  have data := Just.rdata_of_tagged tagged
  unfold selecting at taken
  rw [data] at taken
  refine gives_ite (fun replaced => ?_) fun kept => ?_
  -- It has no justification of the view before, and takes the highest report it holds.
  · rw [if_pos replaced] at taken
    exact taken
  -- It keeps the certificate that it has just made of votes.
  · rw [if_neg kept] at taken
    exact taken

/-- Earlier messages make a backup take up the proposal of its view. -/
theorem handleEarlierMessagesCh_safe (inside : (knowledge cfg).Inside p start l)
    (room : Room n l.node) :
    (knowledge cfg).Safe p start (handleEarlierMessagesCh cfg voteNext) l := by
  have own : Own cfg l.history p l.node := inside.own
  unfold Knowledge.Safe handleEarlierMessagesCh
  rw [gives_bind, gives_this]
  refine gives_ite (fun _ => inside) fun backup => ?_
  rw [Config.amLeaderOf_iff, own.myid] at backup
  split
  · rename_i m found
    refine gives_ite (fun _ => ?_) fun _ => inside
    obtain ⟨here, proposed⟩ := own.log.proposals (Messages.mem_of_first found)
    exact voting _ _ inside room (origin_of_proposed inside.facts backup proposed)
  · exact inside

include several in
/-- The leader of the next view goes there once it has the votes for a certificate. -/
theorem checkNewJustCh_safe (inside : (knowledge cfg).Inside p start l) (room : Room n l.node)
    (further : l.node.view + n + 3 < wordSize) {data : RData} (vote : ChEvent.voted q data block ∈ l.history) (here : data.propv = l.node.view)
    (leads : cfg.getLeaderOf (nextView l.node.view) = p) :
    (knowledge cfg).Safe p start (checkNewJustCh cfg voteNext data) l := by
  have own : Own cfg l.history p l.node := inside.own
  have facts : Facts cfg l.history := inside.facts
  have later := (facts.later vote).1
  rw [here] at later
  have next := room.nextView
  have small : l.node.view + 1 < wordSize := by lia
  unfold Knowledge.Safe checkNewJustCh
  rw [gives_bind, gives_this]
  refine gives_ite (fun full => ?_) fun _ => inside
  rw [beq_iff_eq] at full
  have sound := own.log.certificate facts several vote full
  rw [gives_bind, gives_modify, gives_bind, gives_noteView, gives_bind]
  have entered := inside_enter inside (own.awake later) small
    (Just.ofRData data (l.node.log.getPrepareCh data.propv cfg.qsize)) (.inr fun r tagged => by
      rw [← show data = r from Option.some.inj tagged]
      exact sound)
  refine prepareCh_safe several (l := { l with node := _, history := _ }) voting entered ?_ leads ?_
    ?_ (.inl ⟨rfl, ?_⟩)
  · exact ⟨by change nextView l.node.view + n + 2 < wordSize; lia, room.trusted⟩
  · change nextView l.node.view ≠ 0
    lia
  · -- Blocks are held for views up to the one that was left.
    change l.node.jblocks.lookup (nextView l.node.view) = none
    rw [Option.eq_none_iff_forall_ne_some]
    intro b found
    have bound := own.blocks.early found
    lia
  · change data.propv = prevView (nextView l.node.view)
    rw [here, prevView_nextView (by lia)]

include several in
/-- A node that has voted leaves its view, unless it waits for votes to lead the next one. -/
theorem leaveViewCh_safe (inside : (knowledge cfg).Inside p start l) (room : Room n l.node)
    (further : l.node.view + n + 3 < wordSize) {r : RData} (vote : ChEvent.voted p r block ∈ l.history) (here : r.propv = l.node.view) :
    (knowledge cfg).Safe p start (leaveViewCh cfg voteNext r) l := by
  have own : Own cfg l.history p l.node := inside.own
  have facts : Facts cfg l.history := inside.facts
  have later := (facts.later vote).1
  rw [here] at later
  have next := room.nextView
  unfold Knowledge.Safe leaveViewCh
  rw [gives_bind, gives_this]
  refine gives_ite (fun leads => ?_) fun _ => ?_
  · rw [Config.amLeaderOf_iff, own.myid] at leads
    exact checkNewJustCh_safe several voting inside room further vote here leads
  · rw [gives_bind, gives_modify, gives_bind, gives_noteView, gives_bind]
    have entered := inside_enter inside (own.awake later) (by lia) _ (.inl rfl)
    refine handleEarlierMessagesCh_safe (l := { l with node := _, history := _ }) voting entered ?_
    exact ⟨by change nextView l.node.view + n + 2 < wordSize; lia, room.trusted⟩

end Next

/-- The component records the certified block if it is the one that it is given. -/
theorem prepv_storeChain_of_same {just just0 : Just} {block0 block1 : JBlock}
    (same : (just.getCHash == block0.hash) = true) :
    (tp.storeChain just just0 block0 block1).prepv = just.getCView := by
  unfold TrustedCh.storeChain
  rw [if_pos same]
  split <;> rfl

include several in
/-- A vote in the view of a node, and the statement after it, leave the node as one knows it. -/
theorem inside_vote {block0 : JBlock} (block1 : JBlock) (inside : (knowledge cfg).Inside p start l)
    (room : Room (n + 1) l.node) (origin : Origin cfg l.history p l.node block)
    (found0 : (l.node.took block).jblocks.lookup block.just.getCView = some block0)
    (checks : l.node.tp.checks cfg.nodes block block0 = true) {tp : TrustedCh}
    (stored : tp = l.node.tp.storeChain block.just block0.just block0 block1) {r : RData}
    (statement : r = ⟨block.hash, tp.view, Hash.default, 0, tp.phase⟩) :
    (knowledge cfg).Inside p start { l with
      node := { l.node.took block with tp := tp.increment.increment }
      history := .voted l.node.myid r block :: l.history }
    ∧ tp.view = l.node.view ∧ tp.increment.increment.view = l.node.view + 1
    ∧ tp.id = p ∧ tp.priv = p
    ∧ Report cfg (.voted l.node.myid r block :: l.history) ⟨⟨Hash.ofBool false, tp.increment.view,
        tp.increment.preph, tp.increment.prepv, tp.increment.phase⟩,
        tp.increment.signature ⟨Hash.ofBool false, tp.increment.view, tp.increment.preph,
          tp.increment.prepv, tp.increment.phase⟩⟩ := by
  have own : Own cfg l.history p (l.node.took block) := (inside_took inside origin).own
  have facts : Facts cfg l.history := inside.facts
  have trusted : OwnTrusted cfg l.history p l.node.tp := own.trusted
  have bound := room.view
  have small : l.node.view + 2 < wordSize := by lia
  obtain ⟨view, previous, built⟩ := trusted.buildable (by lia) origin.just checks
  -- The block that is held for the certificate is the certified one, so it is prepared now.
  have same := own.blocks.certified facts built.certified (by omega) found0
  have recorded : OwnTrusted cfg l.history p tp := by
    rw [stored]
    exact trusted.storeChain (view.symm ▸ built)
  have prepared : tp.prepv = block.just.getCView := by
    rw [stored]
    exact prepv_storeChain_of_same same
  have there : tp.view = l.node.view := by
    rw [stored, (TrustedCh.storeChain_frame _ _ _ _ _).1, view]
  have second := recorded.vote (r := r) (by lia) prepared (by rw [statement])
    (by rw [statement])
  have known : VoteFacts cfg l.history p r block := {
    known := own.known
    statement := by rw [statement, there, origin.here]
    fresh := origin.fresh
    later := by rw [origin.here]; lia
    previous := by rw [origin.here]; exact previous
    built := by rw [origin.here]; exact built }
  have place : r.propv = l.node.view := by rw [statement, there]
  have facts' : Facts cfg (.voted p r block :: l.history) := by
    refine facts.vote known (fun e member mine => ?_) fun _ => ?_
    · rw [statement]
      exact recorded.reached e member mine
    · rw [place]
      exact origin.source.elim (fun backup => .inr backup.2) fun leads => .inl leads.1
  have held : (l.node.took block).jblocks.lookup block.view = some block := by
    rw [lookup_took, if_pos origin.here]
  have own' : Own cfg (.voted p r block :: l.history) p
      { l.node.took block with tp := tp.increment.increment } := {
    known := own.known
    myid := own.myid
    blocks := (own.blocks.vote held).node (Nat.le_refl _) rfl
    trusted := second
    log := own.log.mono [_]
    just := fun set r tagged => (own.just set r tagged).mono [_]
    asleep := fun asleep => by
      have awake := own.awake origin.later
      rw [show ({ l.node.took block with tp := tp.increment.increment } : HandlerCh).started
        = l.node.started from rfl] at asleep
      change l.node.started = true at awake
      simp [awake] at asleep }
  have further := (slot_increment_increment recorded.phase (by lia)).1
  rw [show l.node.myid = p from own.myid]
  refine ⟨inside.event knowledge_stable rfl facts' own', there, by rw [further, there], recorded.id,
    recorded.priv, ?_⟩
  -- The vote is the evidence that the component has gone past the view of its statement.
  have inner : tp.view + 1 < wordSize := by lia
  have step := view_increment_le inner
  have next := slot_increment recorded.phase inner
  have low := le_slot tp.increment.view tp.increment.phase
  refine second.report own.known ?_ ?_ ?_ ?_ ?_ List.mem_cons_self rfl ?_
  · change tp.increment.id = p
    rw [TrustedCh.id_increment, recorded.id]
  · exact (TrustedCh.prepv_increment _).symm
  · exact (TrustedCh.preph_increment _).symm
  · change tp.increment.view + 1 < wordSize
    lia
  · have below := built.below
    change tp.increment.increment.prepv ≤ tp.increment.view
    rw [TrustedCh.prepv_increment, TrustedCh.prepv_increment]
    lia
  · change 2 * tp.increment.view < slot r.propv r.phase + 2
    rw [statement]
    simp only
    lia

include several majority in
/-- Taking up a block of a view keeps what is known, however deep views are entered from there. -/
theorem voteCh_safe (n : Nat) (block : JBlock) (l : State)
    (inside : (knowledge cfg).Inside p start l) (room : Room n l.node)
    (origin : Origin cfg l.history p l.node block) :
    (knowledge cfg).Safe p start (voteCh cfg n block) l := by
  -- Induction on the views that may still be entered.
  induction n generalizing block l with
  | zero => exact inside.toLeft
  | succ n ih =>
    have taken := inside_took inside origin
    have own : Own cfg l.history p (l.node.took block) := taken.own
    have awake := own.awake origin.later
    have trusted : OwnTrusted cfg l.history p l.node.tp := own.trusted
    have roomy := room.trusted
    unfold Knowledge.Safe
    simp only [voteCh, gives_bind, gives_modify, gives_this]
    split
    swap
    · exact taken
    rename_i block0 found0
    split
    swap
    · exact taken
    rename_i block1 found1
    simp only [callTEEprepareCh, gives_bind, gives_this]
    rcases l.node.tp.TEEprepare_cases cfg.nodes block block0 block1 with
      ⟨_, thrown | unset⟩ | ⟨checks, ⟨_, unset⟩ | ⟨safe, signed⟩⟩
    -- A justification of another kind makes the component throw.
    · rw [thrown]
      exact taken.toLeft
    -- A refused vote leaves the component one statement further.
    · rw [unset]
      exact taken.node (own.component awake (trusted.increment (by lia)))
    · rw [unset]
      obtain ⟨view, -, built⟩ := trusted.buildable
        (by have bound := room.view; lia) origin.just checks
      refine taken.node (own.component awake
        ((trusted.storeChain (view.symm ▸ built)).increment ?_))
      rw [(TrustedCh.storeChain_frame _ _ _ _ _).1]
      lia
    · rw [signed]
      simp only [gives_ofOption_some, gives_modify, gives_pure, TrustedCh.sign, Just.signs_ofRData,
        Just.getRData_ofRData, gives_bind, gives_note, callTEEsignCh, gives_this,
        TrustedCh.TEEsign]
      obtain ⟨voted, here, further, id, priv, report⟩ := inside_vote several block1 inside room origin
        found0 checks rfl rfl
      have myid : l.node.myid = p := own.myid
      have noted : ∀ (r : RData) (H : List ChEvent),
          ChEvent.voted p r block ∈ ChEvent.voted l.node.myid r block :: H := fun r H => by
        rw [myid]
        exact List.mem_cons_self
      have view : block.view = l.node.view := origin.here
      refine passPrepCh_gives voted (noted _ _) ?_ view fun l₁ inside₁ handed₁ => ?_
      · rw [TrustedCh.signature, id, priv]
      refine passNvCh_gives inside₁ (by rw [handed₁.history]; exact report)
        fun l₂ inside₂ handed₂ => ?_
      obtain ⟨log₁, node₁⟩ := handed₁.node
      obtain ⟨log₂, node₂⟩ := handed₂.node
      have history := handed₂.history.trans handed₁.history
      refine tryExecuteCh_gives inside₂ majority (by rw [history]; exact noted _ _)
        (by rw [history, myid]; exact lastVote_voted) (by rw [node₂, node₁]; exact view)
        (by rw [node₂, node₁]; exact found0) (by rw [node₂, node₁]; exact found1)
        fun l₃ inside₃ node₃ history₃ => ?_
      obtain ⟨jblocks, queue, node₃⟩ := node₃
      obtain ⟨added, history₃⟩ := history₃
      have same : l₃.node.view = l.node.view := by rw [node₃, node₂, node₁]
      refine leaveViewCh_safe several ih inside₃ ⟨?_, ?_⟩ ?_
        (?_ : ChEvent.voted p ⟨_, _, _, _, _⟩ block ∈ _) ?_
      · have bound := room.view
        rw [same]
        lia
      · -- The two statements of the vote took the component to its next view.
        have bound := room.view
        rw [node₃, node₂, node₁]
        simp only
        rw [further]
        lia
      · have bound := room.view
        rw [same]
        lia
      · rw [history₃, history]
        exact List.mem_append_right _ (noted _ _)
      · rw [same]
        exact here

end Voting

end HandlerCh

end ParaHotstuff
