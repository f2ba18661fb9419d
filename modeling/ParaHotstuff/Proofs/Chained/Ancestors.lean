import ParaHotstuff.Proofs.Chained.Effects

/-! When following certificates from block to block comes to an end, whoever signed them. -/

namespace ParaHotstuff

/-- A justification that is not out of order certifies no later view than its statement is of. -/
theorem Just.getCView_le {just : Just} (ordered : just.rdata.justv ≤ just.rdata.propv) :
    just.getCView ≤ just.rdata.propv := by
  unfold getCView
  split
  · exact ordered
  · exact Nat.le_refl _

/-- A certificate of the prepare phase is for the view of its statement. -/
theorem Just.getCView_prepare {data : RData} {signs : Signs} (prepare : data.phase = PH1_PREPARE) :
    (Just.ofRData data signs).getCView = data.propv := by
  have init : (Just.ofRData data signs).wellFormedInit = false := by
    simp only [wellFormedInit, ofRData, prepare]
    simp [show (PH1_PREPARE == PH1_NEWVIEW) = false from rfl]
  have nv : (Just.ofRData data signs).wellFormedNv = false := by
    simp only [wellFormedNv, ofRData, rdata, prepare]
    simp [show (PH1_PREPARE == PH1_NEWVIEW) = false from rfl]
  rw [getCView, init, nv]
  rfl

/-- The highest new-view statement of a view is one that is held, unless none is. -/
theorem LogCh.findHighestNvCh_cases (log : LogCh) (view : View) :
    log.findHighestNvCh view = Just.default
      ∨ ∃ m ∈ log.newviewsCh.held view, log.findHighestNvCh view = Just.ofRData m.data [m.sign] := by
  -- Each round of the search keeps what it has or takes the message it looks at.
  have general : ∀ (msgs : List MsgNewViewCh) (best : View × Just),
      (msgs.foldl higherNvCh best).2 = best.2
        ∨ ∃ m ∈ msgs, (msgs.foldl higherNvCh best).2 = Just.ofRData m.data [m.sign] := by
    intro msgs
    induction msgs with
    | nil => exact fun best => .inl rfl
    | cons msg msgs ih =>
      intro best
      rw [List.foldl_cons]
      rcases ih (higherNvCh best msg) with kept | ⟨m, member, taken⟩
      · rw [kept]
        unfold higherNvCh
        split
        · exact .inr ⟨msg, List.mem_cons_self, rfl⟩
        · exact .inl rfl
      · exact .inr ⟨m, List.mem_cons_of_mem _ member, taken⟩
  exact general (log.newviewsCh.held view) (0, Just.default)

/-- Recording a chain prepares what a justification certifies, or nothing new. -/
theorem TrustedCh.prepv_storeChain [Hashing] [SignatureBytes] (tp : TrustedCh) (just just0 : Just)
    (block0 block1 : JBlock) :
    (tp.storeChain just just0 block0 block1).prepv = tp.prepv
      ∨ (tp.storeChain just just0 block0 block1).prepv = just.getCView := by
  unfold storeChain
  split
  · split <;> exact .inr rfl
  · exact .inl rfl

namespace HandlerCh

open Program Local

/-- Signing on changes nothing that is prepared. -/
theorem prepv_signingOn {h : HandlerCh} {got : Bool} {tp : TrustedCh}
    (signed : h.signingOn = (got, tp)) : tp.prepv = h.tp.prepv :=
  signingOn_keeps TrustedCh.prepv_increment signed

/-- Following certificates from a view on comes to an end. -/
def Ends (jblocks : AList fun _ : View => JBlock) (v : View) : Prop :=
  ∃ rounds, (blocksToExec jblocks rounds v []).isSome = true

/-- Where certificates lead to lower views, following them comes to an end. -/
theorem ends_of_below {jblocks : AList fun _ : View => JBlock}
    (below : ∀ v block, jblocks.lookup v = some block → v ≠ 0 → block.just.getCView < v) (v : View) :
    Ends jblocks v := by
  -- The view is the measure: as many rounds as it has views below it, and one more, are enough.
  have general : ∀ rounds v blocks, v < rounds →
      (blocksToExec jblocks rounds v blocks).isSome = true := by
    intro rounds
    induction rounds with
    | zero => exact fun v blocks impossible => absurd impossible (Nat.not_lt_zero v)
    | succ rounds ih =>
      intro v blocks enough
      unfold blocksToExec
      split
      · rename_i block found
        split
        · split
          · rfl
          · rename_i positive
            have lower := below v block found (by simpa using positive)
            exact ih _ _ (Nat.lt_of_lt_of_le lower (Nat.le_of_lt_succ enough))
        · rfl
      · rfl
  exact ⟨v + 1, general (v + 1) v [] (Nat.lt_succ_self v)⟩

/-- A block that is not executed and certifies its own view leads nowhere else. -/
theorem not_ends_of_self {jblocks : AList fun _ : View => JBlock} {v : View} {block : JBlock}
    (found : jblocks.lookup v = some block) (fresh : block.executed = false) (later : v ≠ 0)
    (self : block.just.getCView = v) : ¬ Ends jblocks v := by
  rintro ⟨rounds, ended⟩
  have general : ∀ rounds blocks, blocksToExec jblocks rounds v blocks = none := by
    intro rounds
    induction rounds with
    | zero => exact fun _ => rfl
    | succ rounds ih =>
      intro blocks
      have further : (v == 0) = false := by simpa using later
      simp [blocksToExec, found, fresh, further, self, ih]
  rw [general] at ended
  cases ended

/--
What happens to a node leaves certificates in order, and views that only grow.

A new-view statement that the node heeds as the leader, a proposal that it heeds as a backup, and a
vote that it may build on certify views below those they serve. No view is the last of the 32-bit
counter while views are entered from within each other, and a client starts the node in view 0.
-/
def Descending [Hashing] [SignatureBytes] (cfg : Config) (depth : Nat) (h : HandlerCh)
    (stimulus : Stimulus MsgCh Input) : Prop :=
  h.view + (depth + 1) < wordSize ∧ match stimulus with
    | .message (.newView m) => h.heedsNv cfg m = true → m.data.justv ≤ m.data.propv
    | .message (.ldrPrepare m) => h.heedsLdrPrepare cfg m = true → m.block.view ≠ 0 →
        m.block.just.getCView < m.block.view
    | .message (.prepare m) => m.data.propv = h.view → cfg.getLeaderOf (nextView h.view) = h.myid →
        m.data.phase = PH1_PREPARE ∨ m.data.justv ≤ m.data.propv
    | .input (.start _) => h.started = false → h.view = 0
    | .input _ => True

instance [Hashing] [SignatureBytes] (cfg : Config) (depth : Nat) (h : HandlerCh)
    (stimulus : Stimulus MsgCh Input) : Decidable (Descending cfg depth h stimulus) :=
  match stimulus with
  | .message (.newView _) | .message (.ldrPrepare _) | .message (.prepare _)
  | .input (.start _) | .input (.transaction _) | .input .timeout => by
    dsimp only [Descending]
    infer_instance

/-- A node that may enter some more views, whose blocks and statements certify lower views. -/
structure Grounded (n : Nat) (h : HandlerCh) : Prop extends Placed n h where
  below : ∀ {v block}, h.jblocks.lookup v = some block → v ≠ 0 → block.just.getCView < v
  prepared : h.tp.prepv ≤ h.view - 1
  newviewPlace : ∀ {v m}, m ∈ h.log.newviewsCh.held v → m.data.propv = v
  newviews : ∀ {v m}, m ∈ h.log.newviewsCh.held v → m.data.justv ≤ v ∨ m.data.justv ≤ h.view - 1
  proposals : ∀ {v m}, m ∈ h.log.ldrpreparesCh.held v →
    m.block.view = v ∧ (v ≠ 0 → m.block.just.getCView < v)
  just : h.justNV.getCView ≤ h.justNV.rdata.propv

/-- A block of a node's view that certifies a lower one. -/
structure Fits (h : HandlerCh) (block : JBlock) : Prop where
  place : block.view = h.view
  below : h.view ≠ 0 → block.just.getCView < h.view

variable {n : Nat} {h h' : HandlerCh} {cfg : Config}

theorem Grounded.roomy {m : Nat} (grounded : Grounded m h) (room : h.view + n < wordSize) :
    Grounded n h :=
  { grounded with room := room }

theorem Grounded.less (grounded : Grounded (n + 1) h) : Grounded n h :=
  grounded.roomy grounded.toPlaced.less.room

theorem Grounded.drop (grounded : Grounded n h) : Grounded 0 h :=
  grounded.roomy grounded.small

theorem Grounded.still (grounded : Grounded n h) (still : Still h h') : Grounded n h' where
  toPlaced := grounded.toPlaced.node still.view still.jblocks
  below := fun found => grounded.below (still.jblocks ▸ found)
  prepared := by rw [still.tp, still.view]; exact grounded.prepared
  newviewPlace := fun member => grounded.newviewPlace (still.newviews ▸ member)
  newviews := fun member => still.view ▸ grounded.newviews (still.newviews ▸ member)
  proposals := fun member => grounded.proposals (still.proposals ▸ member)
  just := still.justNV ▸ grounded.just

/-- The component may change, if what it has prepared lies below the node's view. -/
theorem Grounded.component (grounded : Grounded n h) {tp : TrustedCh}
    (prepared : tp.prepv ≤ h.view - 1) : Grounded n { h with tp := tp } :=
  { grounded with prepared := prepared }

/-- A block may be stored under its own view, if it certifies a lower one. -/
theorem Grounded.insert (grounded : Grounded n h) {block : JBlock} (early : block.view ≤ h.view)
    (below : block.view ≠ 0 → block.just.getCView < block.view) :
    Grounded n { h with jblocks := h.jblocks.insert block.view block } :=
  { grounded with
    toPlaced := grounded.toPlaced.insert early
    below := fun {v b} found => by
      by_cases same : v = block.view
      · subst same
        obtain rfl : block = b := by simpa using found
        exact below
      · exact grounded.below (by simpa [same] using found) }

theorem Grounded.took (grounded : Grounded n h) {block : JBlock} (fits : Fits h block) :
    Grounded n (h.took block) := by
  have stored := @Grounded.insert n h grounded block (Nat.le_of_eq fits.place)
    (by rw [fits.place]; exact fits.below)
  rw [fits.place] at stored
  exact stored

/-- What is prepared with a block that is taken up lies below the node's view. -/
theorem Grounded.prepared_storeChain [Hashing] [SignatureBytes] (grounded : Grounded n h)
    {block block0 block1 : JBlock} (fits : Fits h block)
    (found : (h.took block).jblocks.lookup block.just.getCView = some block0) :
    (h.tp.storeChain block.just block0.just block0 block1).prepv ≤ h.view - 1 := by
  -- Either nothing new is prepared, or what the block certifies.
  rcases h.tp.prepv_storeChain block.just block0.just block0 block1 with same | certified
  · rw [same]
    exact grounded.prepared
  · rw [certified]
    by_cases first : h.view = 0
    · -- In view 0 the only certified block that a node can hold is that of view 0.
      have early := (grounded.took fits).early found
      change block.just.getCView ≤ h.view at early
      lia
    · have lower := fits.below first
      lia

/-- A new-view statement may be stored, if it certifies no later view or one the node has left. -/
theorem Grounded.storedNv (grounded : Grounded n h) {msg : MsgNewViewCh}
    (ordered : msg.data.justv ≤ msg.data.propv ∨ msg.data.justv ≤ h.view - 1) :
    Grounded n (h.storedNv msg) :=
  { grounded with
    newviewPlace := fun member => by
      rcases Messages.mem_store member with old | ⟨rfl, rfl⟩
      · exact grounded.newviewPlace old
      · rfl
    newviews := fun member => by
      rcases Messages.mem_store member with old | ⟨rfl, rfl⟩
      · exact grounded.newviews old
      · exact ordered }

/-- So may a proposal that certifies a lower view. -/
theorem Grounded.storedLdrPrep (grounded : Grounded n h) {msg : MsgLdrPrepareCh}
    (below : msg.block.view ≠ 0 → msg.block.just.getCView < msg.block.view) :
    Grounded n (h.storedLdrPrep msg) :=
  { grounded with
    proposals := fun member => by
      rcases Messages.mem_store member with old | ⟨rfl, rfl⟩
      · exact grounded.proposals old
      · exact ⟨rfl, below⟩ }

/-- A node enters the next view with what it holds. -/
theorem Grounded.entered (grounded : Grounded (n + 1) h) : Grounded n h.entered where
  toPlaced := grounded.toPlaced.entered
  below := grounded.below
  prepared := by
    change h.tp.prepv ≤ nextView h.view - 1
    rw [grounded.nextView_eq]
    exact Nat.le_trans grounded.prepared (Nat.sub_le_sub_right (Nat.le_succ _) 1)
  newviewPlace := grounded.newviewPlace
  newviews := fun member => by
    change _ ∨ _ ≤ nextView h.view - 1
    rw [grounded.nextView_eq]
    exact (grounded.newviews member).imp_right fun low =>
      Nat.le_trans low (Nat.sub_le_sub_right (Nat.le_succ _) 1)
  proposals := grounded.proposals
  just := grounded.just

/-- A leader may hold any justification that certifies no later view than that of its statement. -/
theorem Grounded.holding (grounded : Grounded n h) {just : Just}
    (ordered : just.getCView ≤ just.rdata.propv) : Grounded n { h with justNV := just } :=
  { grounded with just := ordered }

/-- The new-view statement that a leader selects certifies no later view than its own. -/
theorem Grounded.highest (grounded : Grounded n h) :
    (h.log.findHighestNvCh (prevView h.view)).getCView
        ≤ (h.log.findHighestNvCh (prevView h.view)).rdata.propv
      ∧ (h.view ≠ 0 → (h.log.findHighestNvCh (prevView h.view)).getCView < h.view) := by
  have before : h.view ≠ 0 → prevView h.view + 1 = h.view := fun later =>
    prevView_succ later grounded.small
  rcases h.log.findHighestNvCh_cases (prevView h.view) with none_held | ⟨m, member, found⟩
  · rw [none_held]
    exact ⟨Nat.le_refl 0, fun later => Nat.pos_of_ne_zero later⟩
  · rw [found]
    have place := grounded.newviewPlace member
    have ordered : m.data.justv ≤ m.data.propv := by
      rw [place]
      rcases grounded.newviews member with low | left
      · exact low
      · by_cases first : h.view = 0
        · exact Nat.le_trans left (by rw [first]; exact Nat.zero_le _)
        · have next := before first
          lia
    have certified := @Just.getCView_le (Just.ofRData m.data [m.sign]) ordered
    refine ⟨certified, fun later => ?_⟩
    have next := before later
    change _ ≤ m.data.propv at certified
    lia

/-- What a leader proposes fits its view. -/
theorem Grounded.selects (grounded : Grounded n h) :
    Grounded n (h.selecting.drained cfg)
      ∧ Fits (h.selecting.drained cfg) (h.selecting.proposal cfg) := by
  unfold selecting
  split
  · obtain ⟨ordered, lower⟩ := grounded.highest
    exact ⟨{ grounded with just := ordered }, rfl, lower⟩
  · rename_i kept
    simp only [Bool.or_eq_true, Bool.not_eq_true', bne_iff_ne, ne_eq, not_or,
      Bool.not_eq_false, not_not] at kept
    refine ⟨{ grounded with }, rfl, fun later => ?_⟩
    change h.justNV.getCView < h.view
    have ordered := grounded.just
    -- The certificate held is of the view before.
    rw [kept.2] at ordered
    exact Nat.lt_of_le_of_lt ordered (Nat.lt_of_succ_le (Nat.le_of_eq
      (prevView_succ later grounded.small)))

/-- Counting a new-view statement that is in order leaves the node grounded. -/
theorem Grounded.counts {W : Watch} (settled : ∀ h H, Grounded n h → W.settled n h H)
    (proposes : ∀ h H, Grounded n h → W.proposes n h H) (grounded : Grounded n h)
    {H : List ChEvent} {msg : MsgNewViewCh}
    (ordered : h.heedsNv cfg msg = true →
      msg.data.justv ≤ msg.data.propv ∨ msg.data.justv ≤ h.view - 1) : W.Counts cfg n h H msg where
  ignored := fun _ => settled _ _ grounded
  proposes := fun heeds _ _ _ => proposes _ _ (grounded.storedNv (ordered heeds))
  stored := fun heeds _ => settled _ _ (grounded.storedNv (ordered heeds))

/-- What is watched: that certificates lead to lower views. -/
def grounding [Hashing] [SignatureBytes] (cfg : Config) (depth : Nat) : Watch where
  settled := fun n h _ => Grounded n h
  takes := fun n h _ block => Grounded n h ∧ Fits h block
  proposes := fun n h _ => Grounded n h
  voted := fun n h _ => Grounded n h
  stopped := fun h _ => Grounded 0 h
  fine := Descending cfg depth

/-- A node that starts in view 0 is grounded in view 1. -/
theorem Grounded.launched (grounded : Grounded (n + 1) h) (first : h.view = 0) :
    Grounded n h.launched where
  toPlaced := grounded.toPlaced.launched first
  below := fun {v block} found later =>
    grounded.below (by simpa [HandlerCh.launched, later] using found) later
  prepared := by
    have none_prepared := grounded.prepared
    rw [first] at none_prepared
    simpa [HandlerCh.launched] using none_prepared
  newviewPlace := grounded.newviewPlace
  newviews := fun member => (grounded.newviews member).imp_right fun low => by
    rw [first] at low
    exact low
  proposals := grounded.proposals
  just := grounded.just

variable [Hashing] [SignatureBytes] (cfg) (depth : Nat)

theorem grounding_closed : (grounding cfg depth).Closed cfg depth where
  less := Grounded.less
  stops := Grounded.drop
  stopsTaking := fun taken => taken.1.drop
  stopsProposing := Grounded.drop
  still := Grounded.still
  stillTakes := fun taken still => ⟨taken.1.still still, by rw [still.view]; exact taken.2.place,
    by rw [still.view]; exact taken.2.below⟩
  stillVoted := Grounded.still
  unsigned := fun taken => taken.1.took taken.2
  refused := fun taken => (taken.1.took taken.2).component (by
    rw [TrustedCh.prepv_increment]
    exact taken.1.prepared)
  conflicts := fun taken found => (taken.1.took taken.2).component (by
    rw [TrustedCh.prepv_increment]
    exact taken.1.prepared_storeChain taken.2 found)
  votes := fun _ taken found _ _ _ => (taken.1.took taken.2).component (by
    rw [TrustedCh.prepv_increment, TrustedCh.prepv_increment]
    exact taken.1.prepared_storeChain taken.2 found)
  storesNv := fun {n h H msg} held same => Grounded.storedNv held (by
    rw [same]
    exact .inr held.prepared)
  executes := fun {n h H v walk} held walked => by
    -- Each block that is executed was stored under its view.
    have fitting : ∀ block ∈ walk.reverse, block.view ≤ h.view
        ∧ (block.view ≠ 0 → block.just.getCView < block.view) := by
      have grounded : Grounded n h := held
      intro block member
      obtain ⟨w, found⟩ := walked.mem (List.mem_reverse.1 member)
      have place := grounded.place found
      subst place
      exact ⟨grounded.early found, grounded.below found⟩
    refine (List.foldlRecOn walk.reverse executing (motive := fun h' =>
      Grounded n h' ∧ h'.view = h.view) ⟨held, rfl⟩ fun h' kept block member => ?_).1
    obtain ⟨grounded, same⟩ := kept
    obtain ⟨early, below⟩ := fitting block member
    refine ⟨?_, same⟩
    have stored := @Grounded.insert n h' grounded block.markExecuted (same ▸ early) below
    exact { stored with }
  stays := fun held => held
  moves := fun held _ => Grounded.entered held
  finds := fun {n h H m} held _ member _ => ⟨held, (Grounded.proposals held member).1,
    (Grounded.proposals held member).2⟩
  certifies := fun {n h H data signs} held _ none_certified =>
    (Grounded.entered held).holding (Just.getCView_le (by
      change data.justv ≤ data.propv
      rw [none_certified]
      exact Nat.zero_le _))
  selects := fun held => Grounded.selects held
  room := fun held fine => Grounded.roomy held fine.1
  newView := fun held fine => Grounded.counts (fun _ _ kept => kept) (fun _ _ kept => kept) held
    fun heeds => .inl (fine.2 heeds)
  arrives := fun {n h H m} held fine heeds here => ⟨held, here, by
    rw [← here]
    exact fine.2 heeds⟩
  puts := fun held fine heeds _ => Grounded.storedLdrPrep held (fine.2 heeds)
  collects := fun {n h H m signs} held fine here leads _ _ => by
    have stored : Grounded (n + 1) (h.storedPrep m) :=
      Grounded.still held ⟨rfl, rfl, rfl, rfl, rfl, rfl, rfl, rfl⟩
    refine stored.entered.holding ?_
    -- The certificate is made of the statement of the vote.
    rcases fine.2 here leads with prepare | ordered
    · rw [Just.getCView_prepare prepare]
      exact Nat.le_refl _
    · exact Just.getCView_le ordered
  timesOut := fun {n h H tp} held _ _ _ signed => by
    have same := prepv_signingOn signed
    have moved : ∀ {h' : HandlerCh}, Grounded (n + 1) h' → h'.view = h.view →
        Grounded n { h'.entered with tp := tp.increment } := by
      intro h' grounded here
      have ready : Grounded (n + 1) { h' with tp := tp.increment } := grounded.component (by
        rw [TrustedCh.prepv_increment, same, here]
        exact Grounded.prepared held)
      exact ready.entered
    refine ⟨fun _ => moved (Grounded.storedNv held (.inr ?_)) rfl, fun _ => moved held rfl⟩
    change tp.prepv ≤ _
    rw [same]
    exact Grounded.prepared held
  signsForever := fun {n h H tp} held _ _ signed => by
    have same := prepv_signingOn signed
    exact (Grounded.drop held).component (by rw [same]; exact Grounded.prepared held)
  starts := fun {n h h' H cid} held fine fresh still => by
    have first : h.view = 0 := fine.2 fresh
    have settled : Grounded n h' := (Grounded.launched held first).still still
    refine ⟨fun _ => ?_, fun _ => settled⟩
    -- The first statement certifies view 0.
    have none_prepared : h.tp.prepv ≤ h.view - 1 := Grounded.prepared held
    rw [first] at none_prepared
    exact settled.counts (fun _ _ kept => kept) (fun _ _ kept => kept) fun _ =>
      .inl (Nat.le_trans none_prepared (Nat.zero_le _))

variable {cfg depth}

omit [Hashing] [SignatureBytes] in
/-- Where certificates lead to lower views, the walks over a node's blocks come to an end. -/
theorem Grounded.ends (grounded : Grounded n h) (v : View) : Ends h.jblocks v :=
  ends_of_below (fun _ _ found later => grounded.below found later) v

/-- A node at its start is grounded. -/
theorem grounded_init (p : PID) : Grounded 0 (init cfg p) where
  toPlaced := placed_init p
  below := by simp [init]
  prepared := by simp [init, TrustedCh.init]
  newviewPlace := by simp [init, LogCh.empty]
  newviews := by simp [init, LogCh.empty]
  proposals := by simp [init, LogCh.empty]
  just := Nat.le_refl 0

/--
Whatever messages a replica receives, every walk over its blocks ends, if certificates are in order.

This holds in every state it reaches, also in one where it stopped.
-/
theorem ends_of_descending (depth : Nat) (p : PID) (stimuli : List (Stimulus MsgCh Input))
    (descending : (protocol cfg depth).Meets (Descending cfg depth) ⟨init cfg p, [], []⟩ stimuli)
    (v : View) :
    Ends ((protocol cfg depth).serve stimuli ⟨init cfg p, [], []⟩).state.node.jblocks v := by
  have served := (grounding_closed cfg depth).serve_leaves (l := ⟨init cfg p, [], []⟩)
    (grounded_init p) descending
  have left : Grounded 0 ((protocol cfg depth).serve stimuli ⟨init cfg p, [], []⟩).state.node :=
    @Gives.state _ _ _ _ (fun l : State => Grounded 0 l.node) served
  exact left.ends v

/-- A new-view statement of view 0, signed by the leader of view 1, that certifies some view. -/
def nvCertificate (certified : View) : Just :=
  let rdata : RData := ⟨Hash.ofBool false, 0, JBlock.default.hash, certified, PH1_NEWVIEW⟩
  Just.ofRData rdata [Sign.ofText 1 1 rdata.toString]

/-- The proposal that the leader of view 1 builds on it. -/
def proposalOn (certified : View) : MsgLdrPrepareCh :=
  let block := JBlock.ofTransactions 1 (nvCertificate certified) 0 []
  let rdata : RData := ⟨block.hash, 1, Hash.default, 0, PH1_PREPARE⟩
  ⟨block, Sign.ofText 1 1 rdata.toString⟩

/-- A replica that has started receives that proposal. -/
def receivesProposal (certified : View) :
    List (Stimulus MsgCh Input) :=
  [.input (.start 0), .message (.ldrPrepare (proposalOn certified))]

omit [Hashing] [SignatureBytes] in
/-- From the block of an honest leader the walk comes to genesis. -/
theorem ends_of_descending_honest :
    let _ := Checksum.hashing
    let _ := Checksum.signatureBytes
    Ends ((protocol Schedule.fourNodes 2).serve (receivesProposal 0)
      ⟨init Schedule.fourNodes 0, [], []⟩).state.node.jblocks 1 := by
  exact @ends_of_descending _ Checksum.hashing Checksum.signatureBytes 2 0
    (@receivesProposal Checksum.hashing Checksum.signatureBytes 0) (by decide +kernel) 1

omit [Hashing] [SignatureBytes] in
/-- A leader that certifies the view it proposes for has the replica go round in that view. -/
theorem ends_ownView :
    let _ := Checksum.hashing
    let _ := Checksum.signatureBytes
    ¬ ∀ stimuli v, Ends ((protocol Schedule.fourNodes 2).serve stimuli
      ⟨init Schedule.fourNodes 0, [], []⟩).state.node.jblocks v := by
  intro _ _ all
  have held : (((protocol Schedule.fourNodes 2).serve (receivesProposal 1)
      ⟨init Schedule.fourNodes 0, [], []⟩).state.node.jblocks.lookup 1).map
        (fun b => (b.executed, b.just.getCView)) = some (false, 1) := by decide +kernel
  obtain ⟨block, found, same⟩ := Option.map_eq_some_iff.1 held
  obtain ⟨fresh, self⟩ := Prod.mk.inj same
  exact not_ends_of_self found fresh (by decide) self (all (receivesProposal 1) 1)

/-- The replica enters view 1, votes for that proposal, and does not come back from executing. -/
example :
    let _ := Checksum.hashing
    let _ := Checksum.signatureBytes
    let outcome := (protocol Schedule.fourNodes 2).serve (receivesProposal 1)
      ⟨init Schedule.fourNodes 0, [], []⟩
    (outcome.stopped, outcome.state.history.length) = (true, 2) := by decide +kernel

end HandlerCh

end ParaHotstuff
