import ParaHotstuff.Proofs.Chained.Effects
import Mathlib.Data.Finset.Card
import Mathlib.Data.Finset.Dedup

/-! When the leader of a view makes its proposal as soon as a quorum has reported to it. -/

namespace ParaHotstuff

namespace TrustedCh

@[simp] theorem id_increment (tp : TrustedCh) : tp.increment.id = tp.id := by
  obtain ⟨_, _, moved⟩ := tp.increment_cases; simp [moved]

theorem id_storeChain [Hashing] [SignatureBytes] (tp : TrustedCh) (just just0 : Just)
    (block0 block1 : JBlock) : (tp.storeChain just just0 block0 block1).id = tp.id := by
  unfold storeChain
  split
  · split <;> rfl
  · rfl

/-- A component that is past a view already signs on in its own view. -/
theorem view_signOn_of_lt {view : View} {rounds : Nat} {tp tp' : TrustedCh} (past : view < tp.view)
    (signed : TrustedCh.signOn view rounds tp = (true, tp')) : tp'.view = tp.view := by
  induction rounds generalizing tp with
  | zero => cases signed
  | succ rounds ih =>
    unfold signOn at signed
    split at signed
    · rename_i early
      have stays : tp.increment.view = tp.view := by
        have phase : tp.phase ≠ PH1_NEWVIEW := by
          simpa [Nat.not_lt.2 (Nat.le_of_lt past)] using early
        unfold increment
        split
        · rfl
        · simp [phase]
      rw [ih (stays ▸ past) signed, stays]
    · rw [(Prod.mk.inj signed).2]

end TrustedCh

namespace HandlerCh

open Program Local

/-- Signing on is done by the node's own component. -/
theorem id_signingOn {h : HandlerCh} {got : Bool} {tp : TrustedCh}
    (signed : h.signingOn = (got, tp)) : tp.id = h.tp.id :=
  signingOn_keeps TrustedCh.id_increment signed

/-- The nodes from which a node holds a new-view statement of a view. -/
def reporters (h : HandlerCh) (v : View) : Finset PID :=
  ((h.log.newviewsCh.held v).map (·.sign.signer)).toFinset

/-- If a leader holds new-view statements from a quorum, it has its block. -/
def Created (cfg : Config) (h : HandlerCh) : Prop :=
  Leads cfg h → cfg.qsize ≤ (h.reporters (prevView h.view)).card →
    (h.jblocks.lookup h.view).isSome = true

/-- A node does not enter a view without its block although a quorum has reported. -/
def FreeToEnter (cfg : Config) (h : HandlerCh) (v : View) (reported : Finset PID) : Prop :=
  (h.jblocks.lookup v).isSome = true ∨ reported.card < cfg.qsize

/--
What happens to a node takes it into a view that it leads only if it makes its proposal there.

When the timer of the next leader runs out, it holds its own report and those of others from fewer
nodes than a quorum has; its own is of its view unless its component has left that. When the leader
of view 1 is started, either the same holds there or its own report is one that it counts.
-/
def Looks (cfg : Config) (h : HandlerCh) : Stimulus MsgCh Input → Prop
  | .input .timeout => h.timer = true → cfg.timeToStop h.view = false →
      cfg.getLeaderOf (nextView h.view) = h.myid →
      FreeToEnter cfg h (nextView h.view)
        (if h.tp.view ≤ h.view then insert h.myid (h.reporters h.view) else h.reporters h.view)
  | .input (.start _) => h.started = false → cfg.getLeaderOf 1 = h.myid →
      FreeToEnter cfg h 1 (insert h.myid (h.reporters 0))
      ∨ (h.tp.view = 0 ∧ h.tp.phase = PH1_NEWVIEW ∧ maxViewsReached cfg 1 = false
        ∧ h.myid ∉ h.reporters 0)
  | _ => True

instance (cfg : Config) (h : HandlerCh) (v : View) (reported : Finset PID) :
    Decidable (FreeToEnter cfg h v reported) :=
  inferInstanceAs (Decidable (_ ∨ _))

instance (cfg : Config) (h : HandlerCh) :
    (stimulus : Stimulus MsgCh Input) → Decidable (Looks cfg h stimulus)
  | .message _ => isTrue trivial
  | .input .timeout => inferInstanceAs (Decidable (_ → _))
  | .input (.start _) => inferInstanceAs (Decidable (_ → _))
  | .input (.transaction _) => isTrue trivial

/-- A node in a view that is a counter, with its own component, that has its block if it leads. -/
structure Prompt (cfg : Config) (h : HandlerCh) : Prop where
  small : h.view < wordSize
  own : h.tp.id = h.myid
  created : Created cfg h

variable {cfg : Config} {h h' : HandlerCh}

/-- A new-view statement is one of those from its signer. -/
theorem mem_reporters {v : View} {p : PID} :
    p ∈ h.reporters v ↔ ∃ m ∈ h.log.newviewsCh.held v, m.sign.signer = p := by
  simp [reporters]

/-- Storing a new-view statement adds at most its signer, for its own view. -/
theorem reporters_storedNv (msg : MsgNewViewCh) (v : View) :
    (h.storedNv msg).reporters v
      ⊆ if msg.data.propv = v then insert msg.sign.signer (h.reporters v) else h.reporters v := by
  intro p member
  obtain ⟨m, held, rfl⟩ := mem_reporters.1 member
  rcases Messages.mem_store held with old | ⟨rfl, rfl⟩
  · have before := mem_reporters.2 ⟨m, old, rfl⟩
    split
    · exact Finset.mem_insert_of_mem before
    · exact before
  · rw [if_pos rfl]
    exact Finset.mem_insert_self _ _

/-- There are no more reporters than statements. -/
theorem card_reporters_le (v : View) : (h.reporters v).card ≤ (h.log.newviewsCh.held v).length := by
  have bound := List.toFinset_card_le ((h.log.newviewsCh.held v).map (·.sign.signer))
  rwa [List.length_map] at bound

/-- A counted statement is not held before, and all for its view are counted. -/
theorem storeNvCh_counts (msg : MsgNewViewCh) :
    (h.storedNv msg = h ∧ msg.sign.signer ∈ h.reporters msg.data.propv)
      ∨ (h.log.storeNvCh msg).1 = ((h.storedNv msg).log.newviewsCh.held msg.data.propv).length := by
  rcases h.log.newviewsCh.store_cases (fun m => [m.sign]) MsgRDataCh.lt msg.data.propv msg with
    ⟨kept, -, covered⟩ | ⟨msgs, stored, -⟩
  · left
    have same : h.log.storeNvCh msg = (0, h.log) := by simp only [LogCh.storeNvCh, kept]
    refine ⟨by rw [storedNv, same], ?_⟩
    obtain ⟨s, held, signer⟩ := List.mem_map.1
      (covered msg.sign.signer (by simp [Signs.getSigners]))
    obtain ⟨m, member, one⟩ := List.mem_flatMap.1 held
    obtain rfl := List.mem_singleton.1 one
    exact mem_reporters.2 ⟨m, member, signer⟩
  · right
    simp [storedNv, LogCh.storeNvCh, stored]

/-- Every reporter has a statement, so where few statements are counted few have reported. -/
theorem reporters_lt {msg : MsgNewViewCh} {quorum : Nat}
    (counted : (h.log.storeNvCh msg).1
      = ((h.storedNv msg).log.newviewsCh.held msg.data.propv).length)
    (few : (h.log.storeNvCh msg).1 < quorum) :
    ((h.storedNv msg).reporters msg.data.propv).card < quorum := by
  have bound := @card_reporters_le (h.storedNv msg) msg.data.propv
  rw [← counted] at bound
  exact Nat.lt_of_le_of_lt bound few

/-- A node that does not lead its view owes no block. -/
theorem created_of_backup (backup : ¬ Leads cfg h) : Created cfg h := fun leads =>
  absurd leads backup

theorem created_of_isSome (held : (h.jblocks.lookup h.view).isSome = true) : Created cfg h :=
  fun _ _ => held

theorem Prompt.still (prompt : Prompt cfg h) (still : Still h h') : Prompt cfg h' where
  small := still.view ▸ prompt.small
  own := by rw [still.tp, still.myid]; exact prompt.own
  created := by
    have created := prompt.created
    unfold Created Leads reporters at created ⊢
    rw [still.view, still.myid, still.newviews, still.jblocks]
    exact created

/-- A statement for another view than the leader's does not matter. -/
theorem Prompt.storedNv_other (prompt : Prompt cfg h) {msg : MsgNewViewCh}
    (other : msg.data.propv ≠ prevView h.view) : Prompt cfg (h.storedNv msg) where
  small := prompt.small
  own := prompt.own
  created := fun leads quorum => by
    have grown := @reporters_storedNv h msg (prevView h.view)
    rw [if_neg other] at grown
    exact prompt.created leads (Nat.le_trans quorum (Finset.card_le_card grown))

/-- The node once it has taken up a block owes none. -/
theorem took_created (small : h.view < wordSize) (own : h.tp.id = h.myid) (block : JBlock)
    {tp : TrustedCh} (id : tp.id = h.tp.id) : Prompt cfg { h.took block with tp := tp } where
  small := small
  own := id.trans own
  created := created_of_isSome (by
    change ((h.jblocks.insert h.view block).lookup h.view).isSome = true
    simp)

theorem nextView_lt (v : View) : nextView v < wordSize := Nat.mod_lt _ (by decide)

/-- The view before the next one. -/
theorem prevView_nextView {v : View} (small : v < wordSize) : prevView (nextView v) = v := by
  by_cases last : v + 1 = wordSize
  · have first : nextView v = 0 := by rw [nextView, last, Nat.mod_self]
    rw [first, prevView, Nat.zero_add, ← last]
    exact Nat.mod_eq_of_lt (Nat.lt_succ_self v)
  · have next := nextView_eq (show v + 1 < wordSize by lia)
    have back := prevView_succ (v := nextView v) (by rw [next]; exact Nat.succ_ne_zero v)
      (nextView_lt v)
    rw [next] at back ⊢
    exact Nat.succ.inj back

/-- The view after the one before. -/
theorem nextView_prevView {v : View} (small : v < wordSize) : nextView (prevView v) = v := by
  by_cases first : v = 0
  · rw [first]
    rfl
  · rw [nextView, prevView_succ first small, Nat.mod_eq_of_lt small]

/-- Counting the statements for its view lets the leader look in time. -/
theorem created_of_counted {msg : MsgNewViewCh} (prompt : Prompt cfg h)
    (here : msg.data.propv = prevView h.view) (few : (h.log.storeNvCh msg).1 < cfg.qsize) :
    Prompt cfg (h.storedNv msg) := by
  rcases @storeNvCh_counts h msg with ⟨same, -⟩ | counted
  · rw [same]
    exact prompt
  · refine ⟨prompt.small, prompt.own, fun _ quorum => ?_⟩
    change cfg.qsize ≤ ((h.storedNv msg).reporters (prevView h.view)).card at quorum
    rw [← here] at quorum
    exact absurd quorum (Nat.not_le.2 (reporters_lt counted few))

/-- What is watched: that a leader to whom a quorum has reported has its block. -/
def prompting (cfg : Config) : Watch where
  settled := fun _ h _ => Prompt cfg h
  takes := fun _ h _ _ => h.view < wordSize ∧ h.tp.id = h.myid
  proposes := fun _ h _ => h.view < wordSize ∧ h.tp.id = h.myid
  voted := fun _ h _ => Prompt cfg h ∧ (h.jblocks.lookup h.view).isSome = true
  stopped := fun _ _ => True
  fine := Looks cfg

theorem Prompt.counts {n : Nat} {H : List ChEvent} (prompt : Prompt cfg h) (msg : MsgNewViewCh) :
    (prompting cfg).Counts cfg n h H msg where
  ignored := fun _ => prompt
  proposes := fun _ _ _ _ => ⟨prompt.small, prompt.own⟩
  stored := fun _ why => by
    by_cases here : msg.data.propv = prevView h.view
    -- The statement is for the view before: it counted too few, or the block is there.
    · rcases why with other | few | held
      · rw [here, nextView_prevView prompt.small] at other
        exact absurd rfl other
      · exact created_of_counted prompt here few
      · exact ⟨prompt.small, prompt.own, created_of_isSome held⟩
    · exact prompt.storedNv_other here

/-- Who has reported depends on the log only. -/
theorem reporters_congr (log : h'.log = h.log) (v : View) : h'.reporters v = h.reporters v := by
  unfold reporters
  rw [log]

/-- A next leader that leaves its view by time counts its own report at most. -/
theorem reporters_timesOut (prompt : Prompt cfg h) {tp : TrustedCh}
    (signed : h.signingOn = (true, tp)) :
    (h.storedNv { h with tp := tp }.nvStatement).reporters h.view
      ⊆ if h.tp.view ≤ h.view then insert h.myid (h.reporters h.view)
        else h.reporters h.view := by
  have grown := @reporters_storedNv h { h with tp := tp }.nvStatement h.view
  have signer : { h with tp := tp }.nvStatement.sign.signer = h.myid :=
    (id_signingOn signed).trans prompt.own
  rw [signer] at grown
  refine grown.trans ?_
  by_cases behind : h.tp.view ≤ h.view
  · rw [if_pos behind]
    split
    · exact Finset.Subset.refl _
    · exact Finset.subset_insert _ _
  · -- A component past the view signs its report for a later one.
    unfold signingOn at signed
    have past := TrustedCh.view_signOn_of_lt (Nat.lt_of_not_le behind) signed
    have other : { h with tp := tp }.nvStatement.data.propv ≠ h.view := by
      change tp.view ≠ h.view
      rw [past]
      exact fun same => behind (Nat.le_of_eq same)
    rw [if_neg behind, if_neg other]

/-- So it does not enter the view it leads without a block although a quorum has reported. -/
theorem Prompt.timesOut (prompt : Prompt cfg h) {tp : TrustedCh}
    (free : FreeToEnter cfg h (nextView h.view)
      (if h.tp.view ≤ h.view then insert h.myid (h.reporters h.view) else h.reporters h.view))
    (signed : h.signingOn = (true, tp)) :
    Prompt cfg { (h.storedNv { h with tp := tp }.nvStatement).entered with tp := tp.increment } where
  small := nextView_lt h.view
  own := by
    change tp.increment.id = h.myid
    rw [TrustedCh.id_increment, id_signingOn signed, prompt.own]
  created := fun _ quorum => by
    rcases free with held | few
    · exact held
    have same := @reporters_congr (h.storedNv { h with tp := tp }.nvStatement)
      { (h.storedNv { h with tp := tp }.nvStatement).entered with tp := tp.increment } rfl
      (prevView (nextView h.view))
    have whole := Nat.le_trans quorum (Nat.le_of_eq (congrArg Finset.card same))
    rw [prevView_nextView prompt.small] at whole
    -- The reports that it counts on entering are those it may have had before and its own.
    have bound := Finset.card_le_card (reporters_timesOut prompt signed)
    exact absurd (Nat.le_trans whole bound) (Nat.not_le.2 few)

/-- A node that has just been launched is in view 1, with its own component and what it held. -/
theorem Prompt.launched (prompt : Prompt cfg h) (still : Still h.launched h') :
    h'.view < wordSize ∧ h'.tp.id = h'.myid ∧ h'.reporters 0 = h.reporters 0 := by
  refine ⟨?_, ?_, ?_⟩
  · rw [still.view]
    exact (by decide : 1 < wordSize)
  · rw [still.tp, still.myid]
    change h.tp.increment.id = h.myid
    rw [TrustedCh.id_increment, prompt.own]
  · unfold reporters
    rw [still.newviews]
    rfl

/-- It owes no block if it has one, or if even with its own report there are too few. -/
theorem Prompt.launched_free (prompt : Prompt cfg h) (still : Still h.launched h')
    (free : FreeToEnter cfg h 1 (insert h.myid (h.reporters 0))) : Prompt cfg h' := by
  obtain ⟨small, own, reported⟩ := prompt.launched still
  have view : h'.view = 1 := still.view
  rcases free with held | few
  · refine ⟨small, own, created_of_isSome ?_⟩
    rw [view, still.jblocks]
    change ((h.jblocks.insert 0 JBlock.default).lookup 1).isSome = true
    rwa [AList.lookup_insert_ne (by decide)]
  · refine ⟨small, own, fun _ quorum => ?_⟩
    rw [view, show prevView 1 = 0 from rfl, reported] at quorum
    have bound := Finset.card_le_card (Finset.subset_insert h.myid (h.reporters 0))
    exact absurd (Nat.le_trans quorum bound) (Nat.not_le.2 few)

/-- The report that the leader of view 1 signs first is one that it heeds itself. -/
theorem heedsNv_launched (still : Still h.launched h') (leads : cfg.getLeaderOf 1 = h.myid)
    (trusted : h.tp.view = 0) (phase : h.tp.phase = PH1_NEWVIEW)
    (running : maxViewsReached cfg 1 = false) : h'.heedsNv cfg h.nvStatement = true := by
  have view : h'.view = 1 := still.view
  have leader : cfg.amLeaderOf h'.myid 1 = true := by
    rw [Config.amLeaderOf_iff, still.myid]
    exact leads
  have statement : h.nvStatement.data = ⟨Hash.ofBool false, 0, h.tp.preph, h.tp.prepv,
      PH1_NEWVIEW⟩ := by
    rw [nvStatement, trusted, phase]
  rw [heedsNv, view, statement]
  simp only [running, show nextView 0 = 1 from rfl, leader, Bool.not_false, Bool.true_and,
    Bool.and_true]
  rfl

/-- It looks at the reports when it counts that one, which it did not hold before. -/
theorem Prompt.launched_counts {n : Nat} {H : List ChEvent} (prompt : Prompt cfg h)
    (still : Still h.launched h') (leads : cfg.getLeaderOf 1 = h.myid) (trusted : h.tp.view = 0)
    (phase : h.tp.phase = PH1_NEWVIEW) (running : maxViewsReached cfg 1 = false)
    (fresh : h.myid ∉ h.reporters 0) : (prompting cfg).Counts cfg n h' H h.nvStatement := by
  obtain ⟨small, own, reported⟩ := prompt.launched still
  have view : h'.view = 1 := still.view
  have place : h.nvStatement.data.propv = 0 := trusted
  have signer : h.nvStatement.sign.signer = h.myid := prompt.own
  refine ⟨fun ignored => ?_, fun _ _ _ _ => ⟨small, own⟩, fun _ why => ?_⟩
  · rw [heedsNv_launched still leads trusted phase running] at ignored
    cases ignored
  · rcases why with other | few | held
    · rw [place, view] at other
      exact absurd rfl other
    · refine ⟨small, own, fun _ quorum => ?_⟩
      rcases @storeNvCh_counts h' h.nvStatement with ⟨-, again⟩ | counted
      · rw [place, reported, signer] at again
        exact absurd again fresh
      · have short := reporters_lt counted few
        rw [place] at short
        change cfg.qsize ≤ ((h'.storedNv h.nvStatement).reporters (prevView h'.view)).card
          at quorum
        rw [view, show prevView 1 = 0 from rfl] at quorum
        exact absurd quorum (Nat.not_le.2 short)
    · exact ⟨small, own, created_of_isSome held⟩

/-- A leader of view 1 that is started looks at the reports, or they are not enough. -/
theorem Prompt.starts {n : Nat} {H : List ChEvent} (prompt : Prompt cfg h)
    (still : Still h.launched h')
    (looks : FreeToEnter cfg h 1 (insert h.myid (h.reporters 0))
      ∨ (h.tp.view = 0 ∧ h.tp.phase = PH1_NEWVIEW ∧ maxViewsReached cfg 1 = false
        ∧ h.myid ∉ h.reporters 0))
    (leads : cfg.getLeaderOf 1 = h.myid) : (prompting cfg).Counts cfg n h' H h.nvStatement := by
  rcases looks with free | ⟨trusted, phase, running, fresh⟩
  · exact (prompt.launched_free still free).counts _
  · exact prompt.launched_counts still leads trusted phase running fresh

variable [Hashing] [SignatureBytes] (cfg) (depth : Nat)

theorem prompting_closed : (prompting cfg).Closed cfg depth where
  less := fun held => held
  stops := fun _ => trivial
  stopsTaking := fun _ => trivial
  stopsProposing := fun _ => trivial
  still := fun held still => Prompt.still held still
  stillTakes := fun held still => by
    refine ⟨still.view ▸ held.1, ?_⟩
    rw [still.tp, still.myid]
    exact held.2
  stillVoted := fun held still => ⟨Prompt.still held.1 still, by
    rw [still.view, still.jblocks]
    exact held.2⟩
  unsigned := fun {n h H block} held => took_created held.1 held.2 block rfl
  refused := fun held => took_created held.1 held.2 _ (by simp)
  conflicts := fun held _ => took_created held.1 held.2 _ (by
    rw [TrustedCh.id_increment, TrustedCh.id_storeChain])
  votes := fun {n h H block block0 block1} _ held _ _ _ _ => ⟨took_created held.1 held.2 block (by
    rw [TrustedCh.id_increment, TrustedCh.id_increment, TrustedCh.id_storeChain]), by
      change ((h.jblocks.insert h.view block).lookup h.view).isSome = true
      simp⟩
  storesNv := fun held _ =>
    ⟨⟨held.1.small, held.1.own, created_of_isSome held.2⟩, held.2⟩
  executes := fun {n h H v walk} held _ => by
    obtain ⟨jblocks, queue, same, kept⟩ := h.foldl_executing walk.reverse
    have still_held := kept h.view held.2
    rw [same]
    exact ⟨⟨held.1.small, held.1.own, created_of_isSome still_held⟩, still_held⟩
  stays := fun held => held.1
  moves := fun {n h H} held backup => ⟨nextView_lt h.view, held.1.own, created_of_backup backup⟩
  finds := fun held _ _ _ => ⟨Prompt.small held, Prompt.own held⟩
  certifies := fun {n h H data signs} held _ _ => ⟨nextView_lt h.view, held.1.own⟩
  selects := fun {n h H} held => by
    obtain ⟨just, same⟩ := h.selecting_eq
    rw [same]
    exact held
  room := fun held _ => held
  newView := fun held _ => Prompt.counts held _
  arrives := fun held _ _ _ => ⟨Prompt.small held, Prompt.own held⟩
  puts := fun {n h H m} held _ _ _ => by
    obtain ⟨small, own, created⟩ : Prompt cfg h := held
    exact ⟨small, own, created⟩
  collects := fun {n h H m signs} held _ _ _ _ _ => by
    have own : h.tp.id = h.myid := Prompt.own held
    exact ⟨nextView_lt h.view, own⟩
  timesOut := fun {n h H tp} held looks armed goes signed => by
    refine ⟨fun leads => Prompt.timesOut held (looks armed goes leads) signed,
      fun backup => ⟨nextView_lt h.view, ?_, created_of_backup backup⟩⟩
    change tp.increment.id = h.myid
    rw [TrustedCh.id_increment, id_signingOn signed, Prompt.own held]
  signsForever := fun _ _ _ _ => trivial
  starts := fun {n h h' H cid} held looks fresh still =>
    ⟨fun leads => Prompt.starts held still (looks fresh leads) leads, fun other =>
      { small := by rw [still.view]; exact (by decide : 1 < wordSize)
        own := by
          rw [still.tp, still.myid]
          change h.tp.increment.id = h.myid
          rw [TrustedCh.id_increment, Prompt.own held]
        created := created_of_backup (by
          rw [Leads, still.view, still.myid]
          exact other) }⟩

variable {cfg depth}

theorem prompt_init (positive : 0 < cfg.qsize) (p : PID) : Prompt cfg (init cfg p) where
  small := by simp [init, wordSize]
  own := rfl
  created := fun _ quorum => by
    have none_held : (init cfg p).reporters (prevView (init cfg p).view) = ∅ := by
      simp [reporters, init, LogCh.empty]
    rw [none_held, Finset.card_empty] at quorum
    exact absurd positive (Nat.not_lt.2 quorum)

/--
In every run whose timeouts and starts let the leaders look, each leader that holds new-view
statements from a quorum has its block.
-/
theorem created_of_looks (positive : 0 < cfg.qsize) {actions : List (Action Input)}
    (looks : Net.Meets (protocol cfg depth) (Net.Finds (Looks cfg)) (initial cfg) actions) (p : PID)
    (running : ((initial cfg).run (protocol cfg depth) actions).stopped p = false) :
    Created cfg (((initial cfg).run (protocol cfg depth) actions).nodes p) := by
  have reached : ((initial cfg).run (protocol cfg depth) actions).Known (fun _ => Prompt cfg)
      (fun _ _ => True) (fun _ => True) := Net.known_run
    (fun _ l stimulus held _ fine =>
      ((prompting_closed cfg depth).answer_leaves (l := l) held fine).mono
        (fun _ _ prompt => ⟨prompt, trivial⟩) fun _ _ => ⟨trivial, trivial⟩)
    ⟨fun p _ => prompt_init positive p, fun _ _ => trivial, trivial⟩ looks
  exact (reached.running p running).created

section Runs

/-- The leader of view 1 has its proposal reach two of the others. -/
def firstView : List (Action Input) :=
  Schedule.startAll 4 ++ Schedule.deliver [0, 1, 2, 3, 5]

/-- In view 2 the timers of nodes 0 and 1 run out, node 3 hears of it, and then its own runs out. -/
def leaderTimesOut : List (Action Input) :=
  firstView ++ Schedule.timeouts [0, 1] ++ Schedule.deliverFrom 11 2 ++ Schedule.timeouts [3]

omit [Hashing] [SignatureBytes] in
/-- The leader of view 1, which nodes 0 to 3 have reported to, has its block. -/
theorem created_of_looks_started :
    let _ := Checksum.hashing
    let _ := Checksum.signatureBytes
    Created Schedule.fourNodes (((initial Schedule.fourNodes).run (protocol Schedule.fourNodes 2)
      (Schedule.startAll 4 ++ Schedule.deliver [0, 1, 2])).nodes (1 : PID)) :=
  @created_of_looks Schedule.fourNodes Checksum.hashing Checksum.signatureBytes 2 (by decide)
    (Schedule.startAll 4 ++ Schedule.deliver [0, 1, 2]) (by decide +kernel) 1 (by decide +kernel)

omit [Hashing] [SignatureBytes] in
/-- Node 3 leads view 3 with the reports of nodes 0, 1 and its own, and makes no proposal. -/
theorem created_leaderTimesOut :
    let _ := Checksum.hashing
    let _ := Checksum.signatureBytes
    ¬ ∀ actions p, ((initial Schedule.fourNodes).run (protocol Schedule.fourNodes 2)
        actions).stopped p = false →
      Created Schedule.fourNodes (((initial Schedule.fourNodes).run
        (protocol Schedule.fourNodes 2) actions).nodes p) := by
  intro _ _ all
  have created := all leaderTimesOut 3 (by decide +kernel)
  have leads : Leads Schedule.fourNodes (((initial Schedule.fourNodes).run
      (protocol Schedule.fourNodes 2) leaderTimesOut).nodes 3) := by
    unfold Leads
    decide +kernel
  have block := created leads (by decide +kernel)
  exact absurd block (by decide +kernel)

end Runs

end HandlerCh

end ParaHotstuff
