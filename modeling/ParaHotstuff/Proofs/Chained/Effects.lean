import ParaHotstuff.Proofs.Chained.Execution

/-! What the handlers of the chained protocol do to a node, effect by effect. -/

namespace ParaHotstuff

namespace Messages

variable {K T : Type} [DecidableEq K] {signsOf : T → Signs} {lt : T → T → Bool}

/-- A message with signatures that was just stored is not stored again. -/
theorem store_again (log : Messages K T) (k : K) (msg : T) (signed : signsOf msg ≠ []) :
    ((log.store signsOf lt k msg).2.store signsOf lt k msg).2 = (log.store signsOf lt k msg).2 := by
  -- A held message crosses off its own signers.
  have held : ∀ {msgs : List T}, msg ∈ msgs → msgFrom signsOf msgs (signsOf msg).getSigners = true := by
    intro msgs member
    rw [msgFrom, signersFrom_iff]
    have all : ∀ s ∈ signsOf msg, s ∈ allSigns signsOf msgs := fun s signs =>
      List.mem_flatMap.2 ⟨msg, member, signs⟩
    obtain ⟨s, signs⟩ := List.exists_mem_of_ne_nil _ signed
    refine ⟨List.ne_nil_of_mem (List.mem_map_of_mem (all s signs)), fun p signer => ?_⟩
    obtain ⟨s', signs', rfl⟩ := List.mem_map.1 signer
    exact List.mem_map_of_mem (all s' signs')
  unfold store
  cases known : log.lookup k with
  | none => simp [held (List.mem_singleton_self msg)]
  | some msgs =>
    by_cases covered : msgFrom signsOf msgs (signsOf msg).getSigners = true
    · simp [covered, known]
    · rcases @OrderedSet.insert_perm_or_eq _ lt msg msgs with moved | same
      · have member : msg ∈ OrderedSet.insert lt msg msgs :=
          moved.mem_iff.2 List.mem_cons_self
        simp [covered, held member]
      · simp [covered, same]

end Messages

/-- Storing a new-view statement again changes nothing. -/
theorem LogCh.storeNvCh_again (log : LogCh) (msg : MsgNewViewCh) :
    ((log.storeNvCh msg).2.storeNvCh msg).2 = (log.storeNvCh msg).2 := by
  have kept := @Messages.store_again _ _ _ (fun m : MsgNewViewCh => [m.sign]) MsgRDataCh.lt
    log.newviewsCh msg.data.propv msg (List.cons_ne_nil msg.sign [])
  simp only [storeNvCh, kept]

/--
The component signs on until it is to sign a new-view statement of a view or a later one.

The result says whether it got there in a number of rounds.
-/
def TrustedCh.signOn (view : View) : Nat → TrustedCh → Bool × TrustedCh
  | 0, tp => (false, tp)
  | rounds + 1, tp =>
    if tp.view < view || tp.phase != PH1_NEWVIEW then signOn view rounds tp.increment
    else (true, tp)

/-- What a single signature leaves as it is, signing on leaves as it is. -/
theorem TrustedCh.signOn_keeps {β : Type} {f : TrustedCh → β}
    (kept : ∀ tp : TrustedCh, f tp.increment = f tp) (view : View) (rounds : Nat)
    (tp : TrustedCh) : f (TrustedCh.signOn view rounds tp).2 = f tp := by
  induction rounds generalizing tp with
  | zero => rfl
  | succ rounds ih =>
    unfold signOn
    split
    -- One statement is signed, and signing goes on from there.
    · rw [ih, kept]
    · rfl

namespace HandlerCh

open Program Local

/-- The node leads the view it is in. -/
def Leads (cfg : Config) (h : HandlerCh) : Prop := cfg.getLeaderOf h.view = h.myid

/-- The node leads the view after the one it is in. -/
def LeadsNext (cfg : Config) (h : HandlerCh) : Prop := cfg.getLeaderOf (nextView h.view) = h.myid

/-- A view that is not the first comes right after the one before it. -/
theorem prevView_succ {v : View} (later : v ≠ 0) (small : v < wordSize) :
    prevView v + 1 = v := by
  have below : v - 1 < wordSize := Nat.lt_of_le_of_lt (Nat.sub_le v 1) small
  -- The word size is added so that the subtraction stays among the counters.
  have same : v + wordSize - 1 = v - 1 + wordSize := by lia
  rw [prevView, same, Nat.add_mod_right, Nat.mod_eq_of_lt below]
  exact Nat.sub_add_cancel (Nat.pos_of_ne_zero later)

/-- A view that is not the last is followed by the next number. -/
theorem nextView_eq {v : View} (small : v + 1 < wordSize) : nextView v = v + 1 :=
  Nat.mod_eq_of_lt small

/-- Nothing changed but bookkeeping: clients, transactions, replies, the timer and held votes. -/
structure Still (h h' : HandlerCh) : Prop where
  myid : h'.myid = h.myid
  view : h'.view = h.view
  started : h'.started = h.started
  jblocks : h'.jblocks = h.jblocks
  justNV : h'.justNV = h.justNV
  tp : h'.tp = h.tp
  newviews : h'.log.newviewsCh = h.log.newviewsCh
  proposals : h'.log.ldrpreparesCh = h.log.ldrpreparesCh

/-- A walk passes blocks of the map. -/
theorem Walk.mem {jblocks : AList fun _ : View => JBlock} {v : View} {walk : List JBlock}
    (walked : Walk jblocks v walk) {block : JBlock} (member : block ∈ walk) :
    ∃ w, jblocks.lookup w = some block := by
  induction walked with
  | executed => cases member
  -- The walk ends with genesis, which is held at view 0.
  | genesis found => exact ⟨0, by rw [List.mem_singleton.1 member]; exact found⟩
  | step _ found _ _ ih =>
    rcases List.mem_cons.1 member with rfl | older
    · exact ⟨_, found⟩
    · exact ih older

section Places

variable [Hashing] [SignatureBytes] (cfg : Config) (h : HandlerCh)

omit [Hashing] [SignatureBytes] in
/-- The node once it has taken up a block. -/
def took (block : JBlock) : HandlerCh := { h with jblocks := h.jblocks.insert h.view block }

omit [Hashing] [SignatureBytes] in
/-- The node once it has entered the next view. -/
def entered : HandlerCh := { h with view := nextView h.view, timer := true }

omit [Hashing] [SignatureBytes] in
/-- What a node notes when it has entered its view. -/
def entry : ChEvent := .entered h.myid h.started h.view h.tp.view h.tp.phase

omit [Hashing] [SignatureBytes] in
def storedNv (msg : MsgNewViewCh) : HandlerCh := { h with log := (h.log.storeNvCh msg).2 }

omit [Hashing] [SignatureBytes] in
def storedPrep (msg : MsgPrepareCh) : HandlerCh := { h with log := (h.log.storePrepCh msg).2 }

omit [Hashing] [SignatureBytes] in
def storedLdrPrep (msg : MsgLdrPrepareCh) : HandlerCh :=
  { h with log := (h.log.storeLdrPrepCh msg).2 }

omit [Hashing] [SignatureBytes] in
/-- The node once it has executed a block. -/
def executing (block : JBlock) : HandlerCh :=
  { h with
    jblocks := h.jblocks.insert block.view block.markExecuted
    rep_queue := h.rep_queue ++ replyTransactions h.clients block.transactions }

omit [Hashing] [SignatureBytes] in
/-- The leader with the justification for its proposal. -/
def selecting : HandlerCh :=
  if !h.justNV.set || h.justNV.rdata.propv != prevView h.view then
    { h with justNV := h.log.findHighestNvCh (prevView h.view) }
  else h

omit [Hashing] [SignatureBytes] in
/-- The proposal of a leader that holds its justification. -/
def proposal : JBlock :=
  JBlock.ofTransactions h.view h.justNV (min cfg.maxNumTransactions h.transactions.length)
    (cfg.fillBlock h.transactions)

omit [Hashing] [SignatureBytes] in
/-- The leader once it has made its proposal. -/
def drained : HandlerCh := { h with transactions := h.transactions.drop cfg.maxNumTransactions }

omit [Hashing] [SignatureBytes] in
/-- The node once the first client has started it. -/
def launched : HandlerCh :=
  { h with
    started := true
    tp := h.tp.increment
    view := 1
    jblocks := h.jblocks.insert 0 JBlock.default }

omit [Hashing] [SignatureBytes] in
/-- The new-view statement that the component of a node signs next. -/
def nvStatement : MsgNewViewCh :=
  let r : RData := ⟨Hash.ofBool false, h.tp.view, h.tp.preph, h.tp.prepv, h.tp.phase⟩
  ⟨r, h.tp.signature r⟩

omit [Hashing] [SignatureBytes] in
/-- Whether a new-view statement concerns a view that the node leads and has not left. -/
def heedsNv (msg : MsgNewViewCh) : Bool :=
  !maxViewsReached cfg h.view && (msg.data.proph.isDummy
    && decide (h.view ≤ nextView msg.data.propv) && msg.data.phase == PH1_NEWVIEW
    && cfg.amLeaderOf h.myid (nextView msg.data.propv))

/-- Whether a proposal is signed, for a view that the node has not left, and not its own. -/
def heedsLdrPrepare (msg : MsgLdrPrepareCh) : Bool :=
  !maxViewsReached cfg h.view && (decide (h.view ≤ msg.block.view)
    && !cfg.amLeaderOf h.myid msg.block.view
    && (ldrPrepareCh2just msg).signs.verify cfg.nodes (ldrPrepareCh2just msg).rdata.toString)

omit [Hashing] [SignatureBytes] in
/-- A leader that selects its justification changes nothing else. -/
theorem selecting_eq : ∃ just, h.selecting = { h with justNV := just } := by
  unfold selecting
  split
  · exact ⟨_, rfl⟩
  · exact ⟨h.justNV, rfl⟩

omit [Hashing] [SignatureBytes] in
/-- Executing blocks answers clients, and leaves a block wherever there was one. -/
theorem foldl_executing (blocks : List JBlock) :
    ∃ jblocks queue, blocks.foldl executing h = { h with jblocks := jblocks, rep_queue := queue }
      ∧ ∀ v, (h.jblocks.lookup v).isSome = true → (jblocks.lookup v).isSome = true := by
  induction blocks generalizing h with
  | nil => exact ⟨h.jblocks, h.rep_queue, rfl, fun _ held => held⟩
  | cons block blocks ih =>
    obtain ⟨jblocks, queue, same, kept⟩ := ih (h.executing block)
    refine ⟨jblocks, queue, same, fun v held => kept v ?_⟩
    -- The block executed is stored again under its own view.
    change ((h.jblocks.insert block.view block.markExecuted).lookup v).isSome = true
    by_cases there : v = block.view
    · rw [there, AList.lookup_insert]
      rfl
    · rwa [AList.lookup_insert_ne there]

end Places

/-- A node that may enter some more views, and holds blocks under their views, none of them later. -/
structure Placed (n : Nat) (h : HandlerCh) : Prop where
  room : h.view + n < wordSize
  place : ∀ {v block}, h.jblocks.lookup v = some block → block.view = v
  early : ∀ {v block}, h.jblocks.lookup v = some block → v ≤ h.view

namespace Placed

variable {n : Nat} {h h' : HandlerCh}

theorem small (placed : Placed n h) : h.view < wordSize :=
  Nat.lt_of_le_of_lt (Nat.le_add_right _ n) placed.room

theorem roomy {m : Nat} (placed : Placed m h) (room : h.view + n < wordSize) : Placed n h :=
  { placed with room := room }

theorem less (placed : Placed (n + 1) h) : Placed n h :=
  placed.roomy (Nat.lt_of_le_of_lt (Nat.le_succ _) placed.room)

/-- Only the view and the blocks matter. -/
theorem node (placed : Placed n h) (view : h'.view = h.view) (jblocks : h'.jblocks = h.jblocks) :
    Placed n h' where
  room := view ▸ placed.room
  place := fun found => placed.place (jblocks ▸ found)
  early := fun found => view ▸ placed.early (jblocks ▸ found)

/-- A block of a view that is not later may be stored under its view. -/
theorem insert (placed : Placed n h) {block : JBlock} (early : block.view ≤ h.view) :
    Placed n { h with jblocks := h.jblocks.insert block.view block } where
  room := placed.room
  place := fun {v b} found => by
    by_cases same : v = block.view
    · subst same
      obtain rfl : block = b := by simpa using found
      rfl
    · exact placed.place (by simpa [same] using found)
  early := fun {v b} found => by
    by_cases same : v = block.view
    · exact same ▸ early
    · exact placed.early (by simpa [same] using found)

/-- The next view is the next number. -/
theorem nextView_eq (placed : Placed (n + 1) h) : nextView h.view = h.view + 1 :=
  HandlerCh.nextView_eq (Nat.lt_of_le_of_lt (by lia) placed.room)

/-- A node enters the next view with the blocks it holds. -/
theorem entered (placed : Placed (n + 1) h) : Placed n h.entered where
  room := by
    change nextView h.view + n < wordSize
    rw [placed.nextView_eq]
    have room := placed.room
    lia
  place := placed.place
  early := fun found => by
    change _ ≤ nextView h.view
    rw [placed.nextView_eq]
    exact Nat.le_succ_of_le (placed.early found)

/-- A node that starts in view 0 goes to view 1 with genesis. -/
theorem launched (placed : Placed (n + 1) h) (first : h.view = 0) : Placed n h.launched := by
  -- Genesis is stored first, and then the view is left.
  have stored := @insert (n + 1) h placed JBlock.default (Nat.zero_le _)
  refine ⟨?_, stored.place, fun found => ?_⟩
  · have room := placed.room
    rw [first] at room
    change 1 + n < wordSize
    lia
  · have early := stored.early found
    change _ ≤ h.view at early
    rw [first] at early
    exact Nat.le_trans early (Nat.zero_le _)

end Placed

/-- A node holds no block at its start. -/
theorem placed_init [Hashing] [SignatureBytes] {cfg : Config} (p : PID) :
    Placed 0 (init cfg p) where
  room := by simp [init, wordSize]
  place := by simp [init]
  early := by simp [init]

/-- Where the component of a node gets when the node leaves its view without a vote. -/
def signingOn (h : HandlerCh) : Bool × TrustedCh :=
  TrustedCh.signOn h.view (2 * (h.view - h.tp.view) + 2) h.tp

theorem signingOn_keeps {β : Type} {f : TrustedCh → β}
    (kept : ∀ tp : TrustedCh, f tp.increment = f tp) {h : HandlerCh} {got : Bool} {tp : TrustedCh}
    (signed : h.signingOn = (got, tp)) : f tp = f h.tp := by
  have same := TrustedCh.signOn_keeps kept h.view (2 * (h.view - h.tp.view) + 2) h.tp
  unfold signingOn at signed
  rwa [signed] at same

/--
What is watched of a node and the events it notes, at the points where a handler may go on.

The number bounds the views the node may still enter before its handler returns.
-/
structure Watch where
  settled : Nat → HandlerCh → List ChEvent → Prop
  /-- The node is to take up a block. -/
  takes : Nat → HandlerCh → List ChEvent → JBlock → Prop
  /-- The node is to make a proposal for its view. -/
  proposes : Nat → HandlerCh → List ChEvent → Prop
  /-- The node has voted in its view and is still there. -/
  voted : Nat → HandlerCh → List ChEvent → Prop
  stopped : HandlerCh → List ChEvent → Prop
  /-- What may happen to the node. -/
  fine : HandlerCh → Stimulus MsgCh Input → Prop

namespace Watch

variable [Hashing] [SignatureBytes] (cfg : Config) (W : Watch)

omit [Hashing] [SignatureBytes] in
/-- What a node does with a new-view statement leads where it is to lead. -/
structure Counts (n : Nat) (h : HandlerCh) (H : List ChEvent) (msg : MsgNewViewCh) : Prop where
  ignored : h.heedsNv cfg msg = false → W.settled n h H
  proposes : h.heedsNv cfg msg = true → nextView msg.data.propv = h.view →
    cfg.qsize ≤ (h.log.storeNvCh msg).1 → h.jblocks.lookup h.view = none →
    W.proposes n (h.storedNv msg) H
  stored : h.heedsNv cfg msg = true →
    (nextView msg.data.propv ≠ h.view ∨ (h.log.storeNvCh msg).1 < cfg.qsize
      ∨ (h.jblocks.lookup h.view).isSome = true) →
    W.settled n (h.storedNv msg) H

/-- Every effect of a handler leads from what is watched before it to what is watched after it. -/
structure Closed (depth : Nat) : Prop where
  less : ∀ {n h H}, W.settled (n + 1) h H → W.settled n h H
  stops : ∀ {n h H}, W.settled n h H → W.stopped h H
  stopsTaking : ∀ {n h H block}, W.takes n h H block → W.stopped h H
  stopsProposing : ∀ {n h H}, W.proposes n h H → W.stopped h H
  still : ∀ {n h h' H}, W.settled n h H → Still h h' → W.settled n h' H
  stillTakes : ∀ {n h h' H block}, W.takes n h H block → Still h h' → W.takes n h' H block
  stillVoted : ∀ {n h h' H}, W.voted n h H → Still h h' → W.voted n h' H
  /-- A certified block is missing, or the justification is no statement at all. -/
  unsigned : ∀ {n h H block}, W.takes n h H block → W.settled n (h.took block) H
  refused : ∀ {n h H block}, W.takes n h H block →
    W.settled n { h.took block with tp := h.tp.increment } H
  conflicts : ∀ {n h H block block0 block1}, W.takes n h H block →
    (h.took block).jblocks.lookup block.just.getCView = some block0 →
    W.settled n { h.took block with
      tp := (h.tp.storeChain block.just block0.just block0 block1).increment } H
  votes : ∀ {n h H block block0 block1} (r : RData), W.takes n h H block →
    (h.took block).jblocks.lookup block.just.getCView = some block0 →
    (h.took block).jblocks.lookup block0.just.getCView = some block1 →
    h.tp.checks cfg.nodes block block0 = true →
    (h.tp.storeChain block.just block0.just block0 block1).safeNode block.just = true →
    W.voted n { h.took block with
      tp := (h.tp.storeChain block.just block0.just block0 block1).increment.increment }
      (.voted h.myid r block :: H)
  storesNv : ∀ {n h H msg}, W.voted n h H → msg.data.justv = h.tp.prepv →
    W.voted n (h.storedNv msg) H
  executes : ∀ {n h H v walk}, W.voted n h H → Walk h.jblocks v walk →
    W.voted n (walk.reverse.foldl executing h) (walk.map (.executed h.myid) ++ H)
  stays : ∀ {n h H}, W.voted n h H → W.settled n h H
  moves : ∀ {n h H}, W.voted (n + 1) h H → ¬ LeadsNext cfg h →
    W.settled n h.entered (h.entered.entry :: H)
  finds : ∀ {n h H m}, W.settled n h H → ¬ Leads cfg h →
    m ∈ h.log.ldrpreparesCh.held h.view → h.jblocks.lookup h.view = none → W.takes n h H m.block
  certifies : ∀ {n h H data signs}, W.voted (n + 1) h H → LeadsNext cfg h → data.justv = 0 →
    W.proposes n { h.entered with justNV := Just.ofRData data signs } (h.entered.entry :: H)
  selects : ∀ {n h H}, W.proposes n h H →
    W.takes n (h.selecting.drained cfg) H (h.selecting.proposal cfg)
  room : ∀ {h H stimulus}, W.settled 0 h H → W.fine h stimulus → W.settled (depth + 1) h H
  newView : ∀ {n h H m}, W.settled n h H → W.fine h (.message (.newView m)) → W.Counts cfg n h H m
  arrives : ∀ {n h H m}, W.settled n h H → W.fine h (.message (.ldrPrepare m)) →
    h.heedsLdrPrepare cfg m = true → m.block.view = h.view → W.takes n h H m.block
  puts : ∀ {n h H m}, W.settled n h H → W.fine h (.message (.ldrPrepare m)) →
    h.heedsLdrPrepare cfg m = true → m.block.view ≠ h.view → W.settled n (h.storedLdrPrep m) H
  collects : ∀ {n h H m signs}, W.settled (n + 1) h H → W.fine h (.message (.prepare m)) →
    m.data.propv = h.view → LeadsNext cfg h → cfg.qsize ≤ (h.log.storePrepCh m).1 →
    (h.jblocks.lookup h.view).isSome = true →
    W.proposes n { (h.storedPrep m).entered with justNV := Just.ofRData m.data signs }
      (h.entered.entry :: H)
  timesOut : ∀ {n h H tp}, W.settled (n + 1) h H → W.fine h (.input .timeout) → h.timer = true →
    cfg.timeToStop h.view = false → h.signingOn = (true, tp) →
    (LeadsNext cfg h → W.settled n
      { (h.storedNv { h with tp := tp }.nvStatement).entered with tp := tp.increment }
      ({ h.entered with tp := tp.increment }.entry :: H))
    ∧ (¬ LeadsNext cfg h → W.settled n { h.entered with tp := tp.increment }
      ({ h.entered with tp := tp.increment }.entry :: H))
  signsForever : ∀ {n h H tp}, W.settled (n + 1) h H → W.fine h (.input .timeout) →
    h.timer = true → h.signingOn = (false, tp) → W.stopped { h with tp := tp } H
  starts : ∀ {n h h' H cid}, W.settled (n + 1) h H → W.fine h (.input (.start cid)) →
    h.started = false → Still h.launched h' →
    (cfg.getLeaderOf 1 = h.myid → W.Counts cfg n h' (h.launched.entry :: H) h.nvStatement)
    ∧ (cfg.getLeaderOf 1 ≠ h.myid → W.settled n h' (h.launched.entry :: H))

/-- A program leads from a state to where the node is settled, or stops where it may stop. -/
def Leaves (program : M Unit) (l : State) : Prop :=
  program.Gives (fun _ l' => W.settled 0 l'.node l'.history)
    (fun l' => W.stopped l'.node l'.history) l

variable {cfg W} {depth : Nat}

namespace Closed

variable (closed : W.Closed cfg depth)
include closed

/-- A node that may enter more views is settled. -/
theorem drop {n : Nat} {h : HandlerCh} {H : List ChEvent} (held : W.settled n h H) :
    W.settled 0 h H := by
  induction n with
  | zero => exact held
  | succ n ih => exact ih (closed.less held)

/-- The state a handler returns in. -/
theorem returns {n : Nat} {l : State} (held : W.settled n l.node l.history) :
    W.Leaves (return ()) l := closed.drop held

/-- Executing what a walk passed. -/
theorem tryExecuteCh_voted {n : Nat} {l : State} (block block0 block1 : JBlock)
    {post : Unit → State → Prop} (held : W.voted n l.node l.history)
    (rest : ∀ l', W.voted n l'.node l'.history → post () l') :
    (tryExecuteCh block block0 block1).Gives post
      (fun l' => W.stopped l'.node l'.history) l := by
  -- Executing one block after the other makes of the node what the fold makes of it.
  have all : ∀ (blocks : List JBlock) (l : State), (executeAllCh blocks).Gives
      (fun _ l' => l'.node = blocks.foldl executing l.node
        ∧ l'.history = blocks.reverse.map (.executed l.node.myid) ++ l.history)
      (fun _ => False) l := by
    intro blocks
    induction blocks with
    | nil => exact fun l => ⟨rfl, rfl⟩
    | cons block blocks ih =>
      intro l
      simp only [executeAllCh, executeCh, gives_bind, gives_this, gives_note, gives_modify]
      refine (ih _).mono (fun _ l' after => ⟨after.1, ?_⟩) fun _ never => never
      rw [after.2]
      simp
  unfold tryExecuteCh
  rw [gives_bind, gives_this]
  refine gives_ite (fun _ => ?_) fun _ => rest l held
  rw [gives_bind]
  -- A walk that goes on for ever stops the node where it is; otherwise its blocks are executed.
  refine gives_ofOption (fun blocks collected => ?_) fun _ => closed.stops (closed.stays held)
  refine (all blocks l).mono (fun _ l' after => ?_) fun _ never => never.elim
  rcases walk_of_blocksToExec collected with rfl | ⟨walk, walked, rfl⟩
  -- A block is missing, and nothing is executed.
  · exact rest l' (by rw [after.1, after.2]; exact held)
  · rw [List.append_nil] at after
    -- The walk went from the newest block to the oldest one, and is executed the other way round.
    refine rest l' ?_
    rw [after.1, after.2, List.reverse_reverse]
    exact closed.executes held walked

section Voting

-- What is known of the blocks taken up in views entered later.
variable {n : Nat} {voteNext : JBlock → M Unit}
variable (voting : ∀ block l, W.takes n l.node l.history block → W.Leaves (voteNext block) l)
include voting

/-- A leader makes its proposal and takes it up. -/
theorem prepareCh_leaves {l : State} (held : W.proposes n l.node l.history) :
    W.Leaves (prepareCh cfg voteNext) l := by
  -- What the leader takes up is its own proposal, with the justification it selects.
  have taken := closed.selects held
  unfold Leaves prepareCh selectJustCh
  rw [gives_bind, gives_bind, gives_this, gives_bind]
  refine gives_ofOption (fun rdata tagged => ?_) fun _ => closed.stopsProposing held
  -- The statement the justification holds is what its tag says.
  have same : l.node.justNV.rdata = rdata := by
    unfold Just.getRData at tagged
    unfold Just.rdata
    split at tagged
    · exact Option.some.inj tagged
    · cases tagged
  unfold selecting at taken
  rw [same] at taken
  refine gives_ite (fun replaced => ?_) fun kept => ?_
  -- It has no justification of the view before, and takes the highest report it holds.
  · rw [if_pos replaced] at taken
    exact voting _ _ taken
  -- It keeps the certificate that it has just made of votes.
  · rw [if_neg kept] at taken
    exact voting _ _ taken

/-- Earlier messages make a backup take up a proposal it holds. -/
theorem handleEarlierMessagesCh_leaves {l : State} (held : W.settled n l.node l.history) :
    W.Leaves (handleEarlierMessagesCh cfg voteNext) l := by
  unfold Leaves handleEarlierMessagesCh
  rw [gives_bind, gives_this]
  refine gives_ite (fun _ => closed.returns held) fun backup => ?_
  rw [Config.amLeaderOf_iff] at backup
  split
  · rename_i m found
    refine gives_ite (fun fresh => ?_) fun _ => closed.returns held
    -- A proposal with its signature is held, and no block was taken up in this view.
    simp only [Bool.and_eq_true, Option.isNone_iff_eq_none] at fresh
    exact voting _ _ (closed.finds held backup (Messages.mem_of_first found) fresh.2)
  · exact closed.returns held

/-- The leader of the next view begins it if it has enough votes. -/
theorem checkNewJustCh_leaves {l : State} {data : RData}
    (settled : W.settled n l.node l.history)
    (begins : ∀ signs, W.proposes n { l.node.entered with justNV := Just.ofRData data signs }
      (l.node.entered.entry :: l.history)) :
    W.Leaves (checkNewJustCh cfg voteNext data) l := by
  unfold Leaves checkNewJustCh
  rw [gives_bind, gives_this]
  refine gives_ite (fun _ => ?_) fun _ => closed.returns settled
  rw [gives_bind, gives_modify, gives_bind, gives_noteView, gives_bind]
  -- Certified by the votes collected, the leader goes on to its proposal in the next view.
  exact closed.prepareCh_leaves (l := { l with node := _, history := _ }) voting (begins _)

/-- A node that has voted leaves its view, unless it waits for votes to lead the next one. -/
theorem leaveViewCh_leaves {l : State} {rdata : RData}
    (held : W.voted (n + 1) l.node l.history) (none_certified : rdata.justv = 0) :
    W.Leaves (leaveViewCh cfg voteNext rdata) l := by
  unfold Leaves leaveViewCh
  rw [gives_bind, gives_this]
  refine gives_ite (fun leads => ?_) fun backup => ?_
  · rw [Config.amLeaderOf_iff] at leads
    -- The next leader stays in its view until it has the votes for a certificate.
    exact closed.checkNewJustCh_leaves voting (closed.less (closed.stays held))
      fun signs => closed.certifies held leads none_certified
  · rw [Config.amLeaderOf_iff] at backup
    rw [gives_bind, gives_modify, gives_bind, gives_noteView, gives_bind]
    exact closed.handleEarlierMessagesCh_leaves (l := { l with node := _, history := _ }) voting
      (closed.moves held backup)

end Voting

/-- A vote is sent out or counted. -/
theorem passPrepCh_voted {n : Nat} {l : State} {block : JBlock} {rdata : RData} {sign : Sign}
    {post : Unit → State → Prop} (held : W.voted n l.node l.history)
    (rest : ∀ l', W.voted n l'.node l'.history → Still l.node l'.node → post () l') :
    (passPrepCh cfg block rdata sign).Gives post (fun l' => W.stopped l'.node l'.history) l := by
  unfold passPrepCh
  rw [gives_bind, gives_this]
  refine gives_ite (fun _ => rest _ held ⟨rfl, rfl, rfl, rfl, rfl, rfl, rfl, rfl⟩) fun _ => ?_
  refine gives_ite (fun _ => ?_) fun _ => rest _ held ⟨rfl, rfl, rfl, rfl, rfl, rfl, rfl, rfl⟩
  -- A leader keeps its own vote; held votes are bookkeeping.
  have stored : Still l.node (l.node.storedPrep ⟨rdata, sign⟩) :=
    ⟨rfl, rfl, rfl, rfl, rfl, rfl, rfl, rfl⟩
  exact rest _ (closed.stillVoted held stored) stored

/-- Whatever comes of taking up a block, the node is settled, or stopped where it may stop. -/
theorem voteCh_leaves (n : Nat) (block : JBlock) (l : State)
    (taken : W.takes n l.node l.history block) : W.Leaves (voteCh cfg n block) l := by
  -- Induction on the views that may still be entered.
  induction n generalizing block l with
  | zero => exact closed.stopsTaking taken
  | succ n ih =>
    unfold Leaves
    simp only [voteCh, gives_bind, gives_modify, gives_this]
    split
    swap
    · exact closed.returns (l := { l with node := l.node.took block }) (closed.unsigned taken)
    rename_i block0 found0
    split
    swap
    · exact closed.returns (l := { l with node := l.node.took block }) (closed.unsigned taken)
    rename_i block1 found1
    simp only [callTEEprepareCh, gives_bind, gives_this]
    rcases l.node.tp.TEEprepare_cases cfg.nodes block block0 block1 with
      ⟨_, thrown | unset⟩ | ⟨checks, ⟨_, unset⟩ | ⟨safe, signed⟩⟩
    -- A justification of another kind makes the component throw.
    · rw [thrown]
      exact closed.stops (closed.unsigned taken)
    · rw [unset]
      exact closed.drop (closed.refused taken)
    · rw [unset]
      exact closed.drop (closed.conflicts taken found0)
    · rw [signed]
      simp only [gives_ofOption_some, gives_modify, gives_pure, TrustedCh.sign, Just.signs_ofRData,
        Just.getRData_ofRData, gives_bind, gives_note, callTEEsignCh, gives_this,
        TrustedCh.TEEsign]
      refine closed.passPrepCh_voted (closed.votes _ taken found0 found1 checks safe)
        fun l₁ voted still => ?_
      -- The new-view statement is the one the component signed right after the vote.
      have next : ∀ (r : RData) l', r.justv = 0 → W.voted (n + 1) l'.node l'.history →
          (tryExecuteCh block block0 block1).Gives
            (fun _ => W.Leaves (leaveViewCh cfg (voteCh cfg n) r))
            (fun l' => W.stopped l'.node l'.history) l' := by
        intro r l' none_certified voted'
        refine closed.tryExecuteCh_voted block block0 block1 voted' fun l'' voted'' => ?_
        exact closed.leaveViewCh_leaves ih voted'' none_certified
      -- The next leader stores the statement, any other node sends it there.
      rw [passNvCh, gives_bind, gives_this]
      refine gives_ite (fun _ => ?_) fun _ => ?_
      swap
      · exact next ⟨_, _, _, _, _⟩ _ rfl voted
      refine next ⟨_, _, _, _, _⟩ { l₁ with node := l₁.node.storedNv _ } rfl
        (closed.storesNv voted ?_)
      rw [still.tp]
      simp

/-- A new-view statement is counted, and may make the leader propose. -/
theorem handleNewviewCh_leaves {n : Nat} {l : State} {msg : MsgNewViewCh}
    (counts : W.Counts cfg n l.node l.history msg) : W.Leaves (handleNewviewCh cfg n msg) l := by
  unfold Leaves handleNewviewCh
  rw [gives_bind, gives_this]
  -- A node at its last view ignores the statement, and so does one that it does not concern.
  refine gives_ite (fun last => ?_) fun running => gives_ite (fun checks => ?_) fun failed => ?_
  · exact closed.returns (counts.ignored (by simp [heedsNv, last]))
  · have heeds : l.node.heedsNv cfg msg = true := by
      rw [heedsNv, checks]
      simpa using running
    refine gives_ite (fun here => ?_) fun elsewhere => ?_
    · rw [beq_iff_eq] at here
      rw [gives_bind]
      change Gives (ite _ _ _) _ _ { l with node := l.node.storedNv msg }
      refine gives_ite (fun enough => ?_) fun waits => ?_
      · simp only [Bool.and_eq_true, decide_eq_true_eq, Option.isNone_iff_eq_none] at enough
        refine closed.prepareCh_leaves (closed.voteCh_leaves n) ?_
        exact counts.proposes heeds here enough.1 enough.2
      · have stored := counts.stored heeds (.inr (by
          simp only [Bool.and_eq_true, decide_eq_true_eq, Option.isNone_iff_eq_none, not_and]
            at waits
          by_cases enough : cfg.qsize ≤ (l.node.log.storeNvCh msg).1
          · exact .inr (Option.isSome_iff_ne_none.2 (waits enough))
          · exact .inl (Nat.lt_of_not_le enough)))
        -- The source stores the statement in the test and once more in the other branch.
        have again : (l.node.storedNv msg).storedNv msg = l.node.storedNv msg := by
          simp only [storedNv, LogCh.storeNvCh_again]
        change W.settled 0 ((l.node.storedNv msg).storedNv msg) l.history
        rw [again]
        exact closed.drop stored
    · rw [beq_iff_eq] at elsewhere
      exact closed.drop (counts.stored heeds (.inl elsewhere))
  · refine closed.returns (counts.ignored ?_)
    rw [heedsNv, Bool.and_eq_false_iff]
    exact .inr (by rw [← Bool.not_eq_true]; exact failed)

/-- A proposal is taken up, or put away for a later view. -/
theorem handleLdrPrepareCh_leaves {n : Nat} {l : State} {msg : MsgLdrPrepareCh}
    (held : W.settled n l.node l.history)
    (fine : W.fine l.node (.message (.ldrPrepare msg))) :
    W.Leaves (handleLdrPrepareCh cfg n msg) l := by
  unfold Leaves handleLdrPrepareCh
  rw [gives_bind, gives_this]
  refine gives_ite (fun _ => closed.returns held) fun running =>
    gives_ite (fun checks => ?_) fun _ => closed.returns held
  have heeds : l.node.heedsLdrPrepare cfg msg = true := by
    rw [heedsLdrPrepare, checks]
    simpa using running
  -- Counting the proposal as a vote is bookkeeping.
  have counted : ∀ {post : Unit → State → Prop},
      (∀ l', Still l.node l'.node → l'.history = l.history → post () l') →
      (keepPrepCh cfg msg.block.view ⟨(ldrPrepareCh2just msg).rdata, msg.sign⟩).Gives post
        (fun l' => W.stopped l'.node l'.history) l := by
    intro post rest
    unfold keepPrepCh
    rw [gives_bind, gives_this]
    exact gives_ite (fun _ => rest { l with node := l.node.storedPrep _ }
      ⟨rfl, rfl, rfl, rfl, rfl, rfl, rfl, rfl⟩ rfl)
      fun _ => rest l ⟨rfl, rfl, rfl, rfl, rfl, rfl, rfl, rfl⟩ rfl
  rw [gives_bind]
  refine counted fun l' still same => gives_ite (fun here => ?_) fun later => ?_
  · rw [beq_iff_eq] at here
    -- A proposal for the view the node is in is taken up at once.
    refine closed.voteCh_leaves n msg.block l' ?_
    rw [same]
    exact closed.stillTakes (closed.arrives held fine heeds here) still
  · rw [beq_iff_eq] at later
    rw [gives_bind]
    refine closed.handleEarlierMessagesCh_leaves (l := { l' with node := l'.node.storedLdrPrep msg })
      (n := n) (closed.voteCh_leaves n) ?_
    -- One for a later view waits in the log.
    have put := closed.puts held fine heeds later
    change W.settled n (l'.node.storedLdrPrep msg) l'.history
    rw [same]
    exact closed.still put ⟨still.myid, still.view, still.started, still.jblocks, still.justNV,
      still.tp, still.newviews, by
        simp only [storedLdrPrep, LogCh.storeLdrPrepCh, still.proposals]⟩

/-- A vote is counted, and may let the leader of the next view begin it. -/
theorem handlePrepareCh_leaves {n : Nat} {l : State} {msg : MsgPrepareCh}
    (held : W.settled (n + 1) l.node l.history)
    (fine : W.fine l.node (.message (.prepare msg))) :
    W.Leaves (handlePrepareCh cfg n msg) l := by
  have stored : W.settled (n + 1) (l.node.storedPrep msg) l.history :=
    closed.still held ⟨rfl, rfl, rfl, rfl, rfl, rfl, rfl, rfl⟩
  unfold Leaves handlePrepareCh
  rw [gives_bind, gives_this]
  refine gives_ite (fun _ => closed.returns held) fun _ => gives_ite (fun here => ?_) fun _ => ?_
  · rw [beq_iff_eq] at here
    refine gives_ite (fun leads => ?_) fun _ => closed.returns held
    rw [Config.amLeaderOf_iff, here] at leads
    rw [gives_bind]
    change Gives (ite _ _ _) _ _ { l with node := l.node.storedPrep msg }
    refine gives_ite (fun enough => ?_) fun _ => closed.returns stored
    simp only [Bool.and_eq_true, decide_eq_true_eq] at enough
    -- The vote is the one that the leader of the next view was waiting for.
    exact closed.checkNewJustCh_leaves (closed.voteCh_leaves n) (closed.less stored)
      fun signs => closed.collects held fine here leads enough.1 enough.2
  · refine gives_ite (fun _ => ?_) fun _ => closed.returns held
    exact closed.drop stored

omit [Hashing] [SignatureBytes] closed in
/-- The loop of signatures ends with a statement of the component it arrives at. -/
theorem signUntilCh_gives {post : Just → State → Prop} {stop : State → Prop} (rounds : Nat)
    (view : View) (l : State)
    (found : ∀ tp, TrustedCh.signOn view rounds l.node.tp = (true, tp) →
      post tp.TEEsign.1 { l with node := { l.node with tp := tp.increment } })
    (lost : ∀ tp, TrustedCh.signOn view rounds l.node.tp = (false, tp) →
      stop { l with node := { l.node with tp := tp } }) :
    (signUntilCh rounds view).Gives post stop l := by
  -- Induction on the rounds; each signs one statement.
  induction rounds generalizing l with
  | zero => exact lost l.node.tp rfl
  | succ rounds ih =>
    simp only [signUntilCh, callTEEsignCh, gives_bind, gives_this, gives_modify, gives_pure]
    simp only [TrustedCh.signOn] at found lost
    simp only [TrustedCh.TEEsign, TrustedCh.sign, Just.getRData_ofRData, gives_ofOption_some]
    refine gives_ite (fun early => ?_) fun late => ?_
    · rw [if_pos early] at found lost
      exact ih _ found lost
    · rw [if_neg late] at found
      exact found _ rfl

/-- A node whose timer runs out enters the next view. -/
theorem startNewViewCh_leaves {n : Nat} {l : State} (held : W.settled (n + 1) l.node l.history)
    (fine : W.fine l.node (.input .timeout)) (armed : l.node.timer = true)
    (goes : cfg.timeToStop l.node.view = false) :
    W.Leaves (startNewViewCh cfg n) l := by
  unfold Leaves startNewViewCh
  rw [gives_bind, gives_this, gives_bind]
  refine signUntilCh_gives _ _ l (fun tp signed => ?_)
    fun tp signed => closed.signsForever held fine armed signed
  obtain ⟨leading, backup⟩ := closed.timesOut held fine armed goes signed
  simp only [TrustedCh.TEEsign, TrustedCh.sign, Just.signs_ofRData, Just.getRData_ofRData,
    gives_bind, gives_ofOption_some]
  -- Once it is there, a backup looks for a proposal, and a leader waits.
  have there : ∀ l', W.settled n l'.node l'.history →
      (do
        let h ← this
        if cfg.amLeaderOf h.myid h.view then return ()
        else handleEarlierMessagesCh cfg (voteCh cfg n) : M Unit).Gives
        (fun _ l' => W.settled 0 l'.node l'.history) (fun l' => W.stopped l'.node l'.history)
        l' := by
    intro l' settled
    rw [gives_bind, gives_this]
    exact gives_ite (fun _ => closed.returns settled) fun _ =>
      closed.handleEarlierMessagesCh_leaves (closed.voteCh_leaves n) settled
  rw [passNvCh, gives_bind, gives_this]
  refine gives_ite (fun leads => ?_) fun other => ?_
  · rw [Config.amLeaderOf_iff] at leads
    exact there { l with node := _, history := _ } (leading leads)
  · rw [Config.amLeaderOf_iff] at other
    exact there { l with node := _, sent := _, history := _ } (backup other)

/-- A node that is started for the first time enters view 1. -/
theorem getStarted_leaves {n : Nat} {l : State} {h : HandlerCh} {cid : CID}
    (held : W.settled (n + 1) h l.history) (fine : W.fine h (.input (.start cid)))
    (fresh : h.started = false) (same : { h with started := true, clients := l.node.clients } = l.node) :
    W.Leaves (getStarted cfg n) l := by
  have tp : l.node.tp = h.tp := by rw [← same]
  have myid : l.node.myid = h.myid := by rw [← same]
  -- The client is noted before the node starts, which is bookkeeping.
  have after : Still h.launched { l.node with
      view := 1, jblocks := l.node.jblocks.insert 0 JBlock.default, tp := l.node.tp.increment } := by
    rw [← same]
    exact ⟨rfl, rfl, rfl, rfl, rfl, rfl, rfl, rfl⟩
  obtain ⟨leading, backup⟩ := closed.starts held fine fresh after
  have entry : h.launched.entry = .entered l.node.myid l.node.started 1 l.node.tp.increment.view
      l.node.tp.increment.phase := by
    rw [← same]
    rfl
  rw [entry] at leading backup
  unfold Leaves getStarted
  simp only [callTEEsignCh, gives_bind, gives_this, gives_modify, gives_pure, gives_noteView,
    TrustedCh.TEEsign, TrustedCh.sign, Just.getRData_ofRData, Just.signs_ofRData,
    gives_ofOption_some, List.headD_cons]
  refine gives_ite (fun leads => ?_) fun other => ?_
  · rw [Config.amLeaderOf_iff, myid] at leads
    have counts := leading leads
    unfold nvStatement at counts
    rw [← tp] at counts
    exact closed.handleNewviewCh_leaves (l := { l with node := _, history := _ }) counts
  · rw [Config.amLeaderOf_iff, myid] at other
    rw [gives_bind, gives_multicast]
    exact closed.handleEarlierMessagesCh_leaves
      (l := { l with node := _, sent := _, history := _ }) (closed.voteCh_leaves n) (backup other)

/-- Whatever happens to a node, if it may, leads to where the node is settled. -/
theorem answer_leaves {l : State} {stimulus : Stimulus MsgCh Input}
    (held : W.settled 0 l.node l.history) (fine : W.fine l.node stimulus) :
    W.Leaves ((protocol cfg depth).answer stimulus) l := by
  -- Between stimuli a node has all the views again that it may enter in one go.
  have roomy := closed.room held fine
  have settled := closed.less roomy
  cases stimulus with
  | message msg =>
    cases msg with
    | newView m => exact closed.handleNewviewCh_leaves (closed.newView settled fine)
    | ldrPrepare m => exact closed.handleLdrPrepareCh_leaves settled fine
    | prepare m => exact closed.handlePrepareCh_leaves roomy fine
  | input i =>
    cases i with
    | start cid =>
      change W.Leaves (handle_start cfg depth cid) l
      -- Whether or not the client is new, only the clients change.
      have known : ∀ clients, W.Leaves (do
          let h ← this
          if !h.started then
            modify fun h => { h with started := true }
            getStarted cfg depth) { l with node := { l.node with clients := clients } } := by
        intro clients
        unfold Leaves
        rw [gives_bind, gives_this]
        refine gives_ite (fun fresh => ?_) fun _ => ?_
        · rw [gives_bind, gives_modify]
          exact closed.getStarted_leaves (l := { l with node := { l.node with
            clients := clients, started := true } }) roomy fine (by simpa using fresh) rfl
        · exact closed.still held ⟨rfl, rfl, rfl, rfl, rfl, rfl, rfl, rfl⟩
      unfold Leaves handle_start
      rw [gives_bind, gives_modify]
      split
      · exact known l.node.clients
      · exact known _
    | transaction trans =>
      change W.Leaves (handleTransaction trans) l
      unfold Leaves handleTransaction
      rw [gives_bind, gives_this]
      split
      · exact closed.still held ⟨rfl, rfl, rfl, rfl, rfl, rfl, rfl, rfl⟩
      · exact held
    | timeout =>
      change W.Leaves (handleTimeout cfg depth) l
      unfold Leaves handleTimeout
      rw [gives_bind, gives_this]
      refine gives_ite (fun armed => ?_) fun _ => closed.returns held
      exact gives_ite (fun _ => closed.stops held) fun goes =>
        closed.startNewViewCh_leaves roomy fine armed (by simpa using goes)

/-- So does everything that happens to a node, if each stimulus may happen where it finds the node. -/
theorem serve_leaves {l : State} {stimuli : List (Stimulus MsgCh Input)}
    (held : W.settled 0 l.node l.history)
    (meets : (protocol cfg depth).Meets W.fine l stimuli) :
    W.Leaves ((protocol cfg depth).serve stimuli) l :=
  @Protocol.gives_serve_meeting _ _ _ _ _ W.fine (fun l => W.settled 0 l.node l.history)
    (fun l => W.stopped l.node l.history)
    (fun _ _ held fine => closed.answer_leaves held fine) _ _ held meets

end Closed

end Watch

end HandlerCh

end ParaHotstuff
