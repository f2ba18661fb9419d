import ParaHotstuff.Proofs.Chained.Ancestors

/-! When the mark of execution on a replica's blocks is the replica's own. -/

namespace ParaHotstuff

namespace HandlerCh

open Program Local

/-- The blocks that were executed, the last first, with the mark they are stored with after that. -/
def executedBlocks (H : List ChEvent) : List JBlock :=
  H.filterMap fun
    | .executed _ block => some block.markExecuted
    | .voted _ _ _ | .entered _ _ _ _ _ => none

/-- The marks on the blocks of a node tell which of them it has executed, and none was twice. -/
structure OwnMarks (h : HandlerCh) (H : List ChEvent) : Prop where
  marked : ∀ v block, h.jblocks.lookup v = some block →
    (block.executed = true ↔ block.markExecuted ∈ executedBlocks H)
  /-- What a walk does not pass because it is marked was executed by the node. -/
  skipped : ∀ v, Walk h.jblocks v [] →
    ∃ block ∈ executedBlocks H, h.jblocks.lookup v = some block
  once : (executedBlocks H).Nodup

/-- No block of a node is marked in a view. -/
def NoMark (h : HandlerCh) (v : View) : Prop :=
  ∀ block ∈ h.jblocks.lookup v, block.executed = false

instance (h : HandlerCh) (v : View) : Decidable (NoMark h v) :=
  inferInstanceAs (Decidable (∀ block ∈ h.jblocks.lookup v, block.executed = false))

/--
What happens to a node brings no marks along and takes none away.

Proposals that the node heeds arrive unmarked, and none arrives for its view once the block there is
marked. No view is the last of the 32-bit counter while views are entered from within each other,
and a client starts the node in view 0, with no mark there.
-/
def Unmarked [Hashing] [SignatureBytes] (cfg : Config) (depth : Nat) (h : HandlerCh)
    (stimulus : Stimulus MsgCh Input) : Prop :=
  h.view + (depth + 1) < wordSize ∧ match stimulus with
    | .message (.ldrPrepare m) => h.heedsLdrPrepare cfg m = true →
        m.block.executed = false ∧ (m.block.view = h.view → NoMark h h.view)
    | .input (.start _) => h.started = false → h.view = 0 ∧ NoMark h 0
    | _ => True

instance [Hashing] [SignatureBytes] (cfg : Config) (depth : Nat) (h : HandlerCh)
    (stimulus : Stimulus MsgCh Input) : Decidable (Unmarked cfg depth h stimulus) :=
  match stimulus with
  | .message (.newView _) | .message (.ldrPrepare _) | .message (.prepare _)
  | .input (.start _) | .input (.transaction _) | .input .timeout => by
    dsimp only [Unmarked]
    infer_instance

/-- A node that may enter some more views, whose marked blocks are those it executed. -/
structure Marked (n : Nat) (h : HandlerCh) (H : List ChEvent) : Prop extends Placed n h where
  own : ∀ {v block}, h.jblocks.lookup v = some block → block.executed = true →
    block ∈ executedBlocks H
  kept : ∀ {block}, block ∈ executedBlocks H → h.jblocks.lookup block.view = some block
  marks : ∀ {block}, block ∈ executedBlocks H → block.executed = true
  once : (executedBlocks H).Nodup
  proposals : ∀ {v m}, m ∈ h.log.ldrpreparesCh.held v →
    m.block.view = v ∧ m.block.executed = false

variable {n : Nat} {h h' : HandlerCh} {H : List ChEvent} {cfg : Config}

/-- Then the marks are the node's own. -/
theorem Marked.ownMarks (marked : Marked n h H) : OwnMarks h H where
  marked := fun v block found => by
    constructor
    · intro done
      have same : block.markExecuted = block := by
        unfold JBlock.markExecuted
        rw [← done]
      rw [same]
      exact marked.own found done
    · intro member
      -- What was executed is stored under its view, with the mark.
      have held := marked.kept member
      change h.jblocks.lookup block.view = some block.markExecuted at held
      rw [marked.place found, found] at held
      rw [Option.some.inj held]
      rfl
  skipped := fun v stopped => by
    generalize none_passed : ([] : List JBlock) = walk at stopped
    cases stopped with
    | executed found done => exact ⟨_, marked.own found done, found⟩
    | genesis => cases none_passed
    | step => cases none_passed
  once := marked.once

theorem Marked.roomy {m : Nat} (marked : Marked m h H) (room : h.view + n < wordSize) :
    Marked n h H :=
  { marked with room := room }

theorem Marked.less (marked : Marked (n + 1) h H) : Marked n h H :=
  marked.roomy marked.toPlaced.less.room

theorem Marked.drop (marked : Marked n h H) : Marked 0 h H :=
  marked.roomy marked.small

/-- Only the view, the blocks and the proposals in the log matter. -/
theorem Marked.node (marked : Marked n h H) (view : h'.view = h.view)
    (jblocks : h'.jblocks = h.jblocks) (proposals : h'.log.ldrpreparesCh = h.log.ldrpreparesCh) :
    Marked n h' H where
  toPlaced := marked.toPlaced.node view jblocks
  own := fun found => marked.own (jblocks ▸ found)
  kept := fun member => jblocks ▸ marked.kept member
  marks := marked.marks
  once := marked.once
  proposals := fun member => marked.proposals (proposals ▸ member)

/-- A vote marks nothing. -/
theorem Marked.vote (marked : Marked n h H) {q : PID} {r : RData} {block : JBlock} :
    Marked n h (.voted q r block :: H) :=
  { marked with }

/-- Nor does entering a view. -/
theorem Marked.enter (marked : Marked n h H) (h' : HandlerCh) : Marked n h (h'.entry :: H) :=
  { marked with }

/-- An unmarked block may be stored where there is no mark. -/
theorem Marked.insert (marked : Marked n h H) {block : JBlock} (early : block.view ≤ h.view)
    (fresh : block.executed = false) (free : NoMark h block.view) :
    Marked n { h with jblocks := h.jblocks.insert block.view block } H :=
  { marked with
    toPlaced := marked.toPlaced.insert early
    own := fun {v b} found done => by
      by_cases same : v = block.view
      · subst same
        obtain rfl : block = b := by simpa using found
        rw [fresh] at done
        cases done
      · exact marked.own (by simpa [same] using found) done
    kept := fun {b} member => by
      have held := marked.kept member
      by_cases same : b.view = block.view
      · -- A block that was executed is marked where it is stored.
        have done := marked.marks member
        rw [free b (same ▸ held)] at done
        cases done
      · simpa [same] using held }

/-- A block that is not executed may be executed where it is stored. -/
theorem Marked.execute (marked : Marked n h H) {block : JBlock}
    (found : h.jblocks.lookup block.view = some block) (fresh : block.executed = false) :
    Marked n (h.executing block) (.executed h.myid block :: H) where
  toPlaced := (@Placed.insert n h marked.toPlaced block.markExecuted (marked.early found)).node
    rfl rfl
  own := fun {v b} held done => by
    change b ∈ block.markExecuted :: executedBlocks H
    by_cases same : v = block.view
    · subst same
      obtain rfl : block.markExecuted = b := by simpa [executing] using held
      exact List.mem_cons_self
    · exact List.mem_cons_of_mem _ (marked.own (by simpa [executing, same] using held) done)
  kept := fun {b} member => by
    rcases List.mem_cons.1 (show b ∈ block.markExecuted :: executedBlocks H from member) with
      rfl | old
    · exact AList.lookup_insert _
    · have held := marked.kept old
      by_cases same : b.view = block.view
      · -- It would have been marked already.
        rw [same, found] at held
        obtain rfl := Option.some.inj held
        rw [marked.marks old] at fresh
        cases fresh
      · simpa [executing, same] using held
  marks := fun {b} member => by
    rcases List.mem_cons.1 (show b ∈ block.markExecuted :: executedBlocks H from member) with
      rfl | old
    · rfl
    · exact marked.marks old
  once := by
    refine List.nodup_cons.2 ⟨fun again => ?_, marked.once⟩
    have held := marked.kept again
    change h.jblocks.lookup block.view = some block.markExecuted at held
    rw [found] at held
    rw [Option.some.inj held] at fresh
    cases fresh
  proposals := marked.proposals

/-- Blocks of different views may be executed one after the other. -/
theorem Marked.executeAll (blocks : List JBlock) (marked : Marked n h H)
    (found : ∀ block ∈ blocks, h.jblocks.lookup block.view = some block)
    (fresh : ∀ block ∈ blocks, block.executed = false) (distinct : (blocks.map (·.view)).Nodup) :
    Marked n (blocks.foldl executing h) (blocks.reverse.map (.executed h.myid) ++ H) := by
  induction blocks generalizing h H with
  | nil => exact marked
  | cons block blocks ih =>
    obtain ⟨new, distinct⟩ := List.nodup_cons.1 distinct
    have first := marked.execute (found block List.mem_cons_self) (fresh block List.mem_cons_self)
    -- The other blocks are still where they were.
    have rest := ih first (fun b member => by
      have other : b.view ≠ block.view := fun same =>
        new (List.mem_map.2 ⟨b, member, same⟩)
      simpa [executing, other] using found b (List.mem_cons_of_mem _ member))
      (fun b member => fresh b (List.mem_cons_of_mem _ member)) distinct
    simpa [executing] using rest

/-- From each block of a walk a walk of no greater length starts. -/
theorem Walk.restart {jblocks : AList fun _ : View => JBlock} {v : View} {walk : List JBlock}
    (walked : Walk jblocks v walk) {block : JBlock} (member : block ∈ walk) :
    block.executed = false ∧ ∃ w rest, jblocks.lookup w = some block
      ∧ Walk jblocks w (block :: rest) ∧ rest.length < walk.length := by
  induction walked with
  | executed => cases member
  | genesis found fresh =>
    obtain rfl := List.mem_singleton.1 member
    exact ⟨fresh, 0, [], found, .genesis found fresh, Nat.lt_succ_self 0⟩
  | step later found fresh below ih =>
    rcases List.mem_cons.1 member with rfl | older
    · exact ⟨fresh, _, _, found, .step later found fresh below, Nat.lt_succ_self _⟩
    · obtain ⟨fresh', w, rest, held, walked, short⟩ := ih older
      exact ⟨fresh', w, rest, held, walked, Nat.lt_succ_of_lt short⟩

/-- A walk passes blocks of different views, if each block is stored under its view. -/
theorem Walk.nodup_views {jblocks : AList fun _ : View => JBlock} {v : View} {walk : List JBlock}
    (place : ∀ {v block}, jblocks.lookup v = some block → block.view = v)
    (walked : Walk jblocks v walk) : (walk.map (·.view)).Nodup := by
  induction walked with
  | executed => exact List.nodup_nil
  | genesis => exact List.nodup_singleton _
  | @step v block older later found fresh below ih =>
    refine List.nodup_cons.2 ⟨fun again => ?_, ih⟩
    -- A block of the same view would start the same walk again, which is longer.
    obtain ⟨other, member, same⟩ := List.mem_map.1 again
    obtain ⟨-, w, rest, held, restarted, short⟩ := below.restart member
    have here : w = v := (place held).symm.trans (same.trans (place found))
    subst here
    have equal := restarted.unique (.step later found fresh below)
    have sizes := congrArg List.length equal
    simp only [List.length_cons] at sizes
    lia

theorem Marked.entered (marked : Marked (n + 1) h H) : Marked n h.entered H where
  toPlaced := marked.toPlaced.entered
  own := marked.own
  kept := marked.kept
  marks := marked.marks
  once := marked.once
  proposals := marked.proposals

/-- Nothing is stored for a view that is entered. -/
theorem Marked.entered_free (marked : Marked (n + 1) h H) : NoMark h.entered h.entered.view := by
  intro block found
  have early := marked.early (show h.jblocks.lookup (nextView h.view) = some block from found)
  rw [marked.nextView_eq] at early
  exact absurd early (Nat.not_succ_le_self _)

/-- A node that starts in view 0 holds no mark there. -/
theorem Marked.launched (marked : Marked (n + 1) h H) (first : h.view = 0) (free : NoMark h 0) :
    Marked n h.launched H := by
  have stored := @Marked.insert _ _ _ marked JBlock.default (Nat.zero_le _) rfl free
  exact { stored with toPlaced := marked.toPlaced.launched first }

/-- What is watched: that marks are the node's own. -/
def marking [Hashing] [SignatureBytes] (cfg : Config) (depth : Nat) : Watch where
  settled := Marked
  takes := fun n h H block => Marked n h H ∧ block.view = h.view ∧ block.executed = false
    ∧ NoMark h h.view
  proposes := fun n h H => Marked n h H ∧ NoMark h h.view
  voted := Marked
  stopped := Marked 0
  fine := Unmarked cfg depth

/-- Taking up an unmarked block where there is no mark brings none. -/
theorem Marked.took (marked : Marked n h H) {block : JBlock} (here : block.view = h.view)
    (fresh : block.executed = false) (free : NoMark h h.view) : Marked n (h.took block) H := by
  have stored := @Marked.insert _ _ _ marked block (Nat.le_of_eq here) fresh (here ▸ free)
  rw [here] at stored
  exact stored

theorem Marked.counts [Hashing] [SignatureBytes] {depth : Nat} (marked : Marked n h H)
    (msg : MsgNewViewCh) : (marking cfg depth).Counts cfg n h H msg where
  ignored := fun _ => marked
  proposes := fun _ _ _ none_held => ⟨marked.node rfl rfl rfl, by
    intro block found
    change h.jblocks.lookup h.view = some block at found
    rw [none_held] at found
    cases found⟩
  stored := fun _ _ => marked.node rfl rfl rfl

variable [Hashing] [SignatureBytes] (cfg) (depth : Nat)

theorem marking_closed : (marking cfg depth).Closed cfg depth where
  less := Marked.less
  stops := Marked.drop
  stopsTaking := fun taken => taken.1.drop
  stopsProposing := fun held => held.1.drop
  still := fun held still => Marked.node held still.view still.jblocks still.proposals
  stillTakes := fun taken still => ⟨taken.1.node still.view still.jblocks still.proposals,
    by rw [still.view]; exact taken.2.1, taken.2.2.1,
    by rw [NoMark, still.view, still.jblocks]; exact taken.2.2.2⟩
  stillVoted := fun held still => Marked.node held still.view still.jblocks still.proposals
  unsigned := fun ⟨marked, here, fresh, free⟩ => marked.took here fresh free
  refused := fun ⟨marked, here, fresh, free⟩ => (marked.took here fresh free).node rfl rfl rfl
  conflicts := fun ⟨marked, here, fresh, free⟩ _ =>
    (marked.took here fresh free).node rfl rfl rfl
  votes := fun _ ⟨marked, here, fresh, free⟩ _ _ _ _ =>
    (marked.took here fresh free).vote.node rfl rfl rfl
  storesNv := fun held _ => Marked.node held rfl rfl rfl
  executes := fun {n h H v walk} held walked => by
    have placed : Placed n h := Marked.toPlaced held
    -- The blocks of the walk are unmarked and of different views, so each is executed once.
    have all := Marked.executeAll walk.reverse held
      (fun block member => by
        obtain ⟨-, w, -, found, -, -⟩ := walked.restart (List.mem_reverse.1 member)
        rw [placed.place found]
        exact found)
      (fun block member => (walked.restart (List.mem_reverse.1 member)).1)
      (by
        rw [List.map_reverse, List.nodup_reverse]
        exact walked.nodup_views placed.place)
    rw [List.reverse_reverse] at all
    exact all
  stays := fun held => held
  moves := fun held _ => (Marked.entered held).enter _
  finds := fun held _ member none_held => ⟨held, (Marked.proposals held member).1,
    (Marked.proposals held member).2, fun block found => by
      rw [none_held] at found
      cases found⟩
  certifies := fun held _ _ =>
    ⟨((Marked.entered held).enter _).node rfl rfl rfl, Marked.entered_free held⟩
  selects := fun {n h H} held => by
    obtain ⟨just, same⟩ := h.selecting_eq
    rw [same]
    -- A proposal is built without a mark, in a view that has none.
    exact ⟨held.1.node rfl rfl rfl, rfl, rfl, held.2⟩
  room := fun held fine => Marked.roomy held fine.1
  newView := fun held _ => Marked.counts held _
  arrives := fun held fine heeds here =>
    ⟨held, here, (fine.2 heeds).1, (fine.2 heeds).2 here⟩
  puts := fun {n h H m} held fine heeds _ => by
    have old : Marked n h H := held
    exact
      { old with
        proposals := fun member => by
          rcases Messages.mem_store member with before | ⟨rfl, rfl⟩
          · exact old.proposals before
          · exact ⟨rfl, (fine.2 heeds).1⟩ }
  collects := fun {n h H m signs} held _ _ _ _ _ => by
    have stored : Marked (n + 1) (h.storedPrep m) H := Marked.node held rfl rfl rfl
    exact ⟨(stored.entered.enter _).node rfl rfl rfl, stored.entered_free⟩
  timesOut := fun held _ _ _ _ =>
    ⟨fun _ => ((Marked.entered held).enter _).node rfl rfl rfl,
      fun _ => ((Marked.entered held).enter _).node rfl rfl rfl⟩
  signsForever := fun held _ _ _ => Marked.node (Marked.drop held) rfl rfl rfl
  starts := fun {n h h' H cid} held fine fresh still => by
    obtain ⟨first, free⟩ := fine.2 fresh
    have begun := ((Marked.launched held first free).enter h.launched).node still.view still.jblocks
      still.proposals
    exact ⟨fun _ => begun.counts _, fun _ => begun⟩

theorem marked_init (p : PID) : Marked 0 (init cfg p) [] where
  toPlaced := placed_init p
  own := by simp [init]
  kept := by simp [executedBlocks]
  marks := by simp [executedBlocks]
  once := List.nodup_nil
  proposals := by simp [init, LogCh.empty]

/--
Whatever messages a replica receives, the marks on its blocks are its own, if none is brought along.

This holds in every state it reaches, also in one where it stopped.
-/
theorem ownMarks_of_unmarked (p : PID) (stimuli : List (Stimulus MsgCh Input))
    (unmarked : (protocol cfg depth).Meets (Unmarked cfg depth) ⟨init cfg p, [], []⟩ stimuli) :
    OwnMarks ((protocol cfg depth).serve stimuli ⟨init cfg p, [], []⟩).state.node
      ((protocol cfg depth).serve stimuli ⟨init cfg p, [], []⟩).state.history := by
  have served := (marking_closed cfg depth).serve_leaves (l := ⟨init cfg p, [], []⟩)
    (marked_init cfg p) unmarked
  have left : Marked 0 ((protocol cfg depth).serve stimuli ⟨init cfg p, [], []⟩).state.node
      ((protocol cfg depth).serve stimuli ⟨init cfg p, [], []⟩).state.history :=
    @Gives.state _ _ _ _ (fun l : State => Marked 0 l.node l.history) served
  exact left.ownMarks

/-- The proposal of an honest leader, with a mark that it should not carry. -/
def markedProposal : MsgLdrPrepareCh :=
  { proposalOn 0 with block := (proposalOn 0).block.markExecuted }

omit [Hashing] [SignatureBytes] in
/-- An honest leader's proposal brings no mark. -/
theorem ownMarks_of_unmarked_honest :
    let _ := Checksum.hashing
    let _ := Checksum.signatureBytes
    let l := ((protocol Schedule.fourNodes 2).serve (receivesProposal 0)
      ⟨init Schedule.fourNodes 0, [], []⟩).state
    OwnMarks l.node l.history := by
  exact @ownMarks_of_unmarked Schedule.fourNodes Checksum.hashing Checksum.signatureBytes 2 0
    (@receivesProposal Checksum.hashing Checksum.signatureBytes 0) (by decide +kernel)

omit [Hashing] [SignatureBytes] in
/-- A leader can have a replica hold a block as executed that it never executed. -/
theorem ownMarks_markedProposal :
    let _ := Checksum.hashing
    let _ := Checksum.signatureBytes
    ¬ ∀ stimuli, let l := ((protocol Schedule.fourNodes 2).serve stimuli
        ⟨init Schedule.fourNodes 0, [], []⟩).state
      OwnMarks l.node l.history := by
  intro _ _ all
  have own := all [.input (.start 0), .message (.ldrPrepare markedProposal)]
  have held : ((protocol Schedule.fourNodes 2).serve
      [.input (.start 0), .message (.ldrPrepare markedProposal)]
      ⟨init Schedule.fourNodes 0, [], []⟩).state.node.jblocks.lookup 1
        = some markedProposal.block := by decide +kernel
  have none_executed : executedBlocks ((protocol Schedule.fourNodes 2).serve
      [.input (.start 0), .message (.ldrPrepare markedProposal)]
      ⟨init Schedule.fourNodes 0, [], []⟩).state.history = [] := by decide +kernel
  have executed := (own.marked 1 _ held).1 rfl
  rw [none_executed] at executed
  cases executed

end HandlerCh

end ParaHotstuff
