import ParaHotstuff.Proofs.Chained.Effects
import ParaHotstuff.Proofs.Chained.Proposals

/-! When a replica's component is ready to vote in each view that the replica enters. -/

namespace ParaHotstuff

namespace TrustedCh

/-- A component that is ready to vote is in its next view after a vote and a new-view statement. -/
theorem increment_increment_prepare {tp : TrustedCh} (phase : tp.phase = PH1_PREPARE) :
    tp.increment.increment.view = (tp.view + 1) % wordSize
      ∧ tp.increment.increment.phase = PH1_PREPARE := by
  have other : PH1_NEWVIEW ≠ PH1_PREPARE := by decide
  simp [increment, phase, other]

/-- So is one that has only its new-view statement to sign. -/
theorem increment_newview {tp : TrustedCh} (phase : tp.phase = PH1_NEWVIEW) :
    tp.increment.view = (tp.view + 1) % wordSize ∧ tp.increment.phase = PH1_PREPARE := by
  have other : PH1_NEWVIEW ≠ PH1_PREPARE := by decide
  simp [increment, phase, other]

end TrustedCh

namespace HandlerCh

open Program Local

/-- The component is to vote next, in some view. -/
def Ready (h : HandlerCh) (v : View) : Prop := h.tp.view = v ∧ h.tp.phase = PH1_PREPARE

instance (h : HandlerCh) (v : View) : Decidable (Ready h v) :=
  inferInstanceAs (Decidable (_ ∧ _))

/-- Each time a started node entered a view, its component was to vote there next. -/
def EntersReady (H : List ChEvent) : Prop :=
  ∀ p v trusted phase, ChEvent.entered p true v trusted phase ∈ H →
    trusted = v ∧ phase = PH1_PREPARE

/--
What happens to a node leaves its component where the node needs it.

The timer of a started node runs out only while its component has not left the node's view, so not
while it waits as the next leader for votes. A vote lets it lead the next view only if its component
is ready there, which it is after its own vote. A proposal of its view finds its component ready, or
is not voted for. A node that is started has signed nothing yet.
-/
def Undisturbed [Hashing] [SignatureBytes] (cfg : Config) (h : HandlerCh) :
    Stimulus MsgCh Input → Prop
  | .message (.newView _) => True
  | .message (.ldrPrepare m) => h.started = true → h.heedsLdrPrepare cfg m = true →
      m.block.view = h.view → Ready h h.view ∨ votesFor cfg h m.block = false
  | .message (.prepare m) => h.started = true → m.data.propv = h.view →
      cfg.getLeaderOf (nextView h.view) = h.myid → cfg.qsize ≤ (h.log.storePrepCh m).1 →
      (h.jblocks.lookup h.view).isSome = true → Ready h (nextView h.view)
  | .input .timeout => h.started = true → h.timer = true → cfg.timeToStop h.view = false →
      h.tp.view ≤ h.view
  | .input (.start _) => h.started = false → h.tp.view = 0 ∧ h.tp.phase = PH1_NEWVIEW
  | .input (.transaction _) => True

instance [Hashing] [SignatureBytes] (cfg : Config) (h : HandlerCh) :
    (stimulus : Stimulus MsgCh Input) → Decidable (Undisturbed cfg h stimulus)
  | .message (.newView _) => isTrue trivial
  | .message (.ldrPrepare _) => inferInstanceAs (Decidable (_ → _))
  | .message (.prepare _) => inferInstanceAs (Decidable (_ → _))
  | .input .timeout => inferInstanceAs (Decidable (_ → _))
  | .input (.start _) => inferInstanceAs (Decidable (_ → _))
  | .input (.transaction _) => isTrue trivial

/-- A node that can vote in its view as long as it has taken up no block there. -/
structure Unspent (h : HandlerCh) : Prop where
  small : h.view < wordSize
  ready : h.started = true → h.jblocks.lookup h.view = none → Ready h h.view

/-- A node that has voted in its view, so that its component is ready for the next one. -/
structure Spent (h : HandlerCh) : Prop where
  small : h.view < wordSize
  taken : (h.jblocks.lookup h.view).isSome = true
  ready : h.started = true → Ready h (nextView h.view)

/-- A node that is to take up a block in its view votes for it only if it can. -/
structure Taking [Hashing] [SignatureBytes] (cfg : Config) (h : HandlerCh) (block : JBlock) :
    Prop where
  small : h.view < wordSize
  ready : h.started = true → Ready h h.view ∨ votesFor cfg h block = false

/-- A leader that is to make its proposal can vote for it. -/
structure Leading (h : HandlerCh) : Prop where
  small : h.view < wordSize
  ready : h.started = true → Ready h h.view

variable {h h' : HandlerCh} {H : List ChEvent} {cfg : Config}

/-- An entry of a node that is ready may be noted. -/
theorem EntersReady.enter (enters : EntersReady H) (ready : h.started = true → Ready h h.view) :
    EntersReady (h.entry :: H) := by
  intro p v trusted phase member
  rcases List.mem_cons.1 member with new | old
  · unfold entry at new
    injection new with same started view trusted' phase'
    subst view trusted' phase'
    exact ready started.symm
  · exact enters p v trusted phase old

theorem EntersReady.vote (enters : EntersReady H) {q : PID} {r : RData} {block : JBlock} :
    EntersReady (.voted q r block :: H) := fun p v trusted phase member =>
  enters p v trusted phase (by simpa using member)

theorem EntersReady.execute (enters : EntersReady H) (p : PID) (blocks : List JBlock) :
    EntersReady (blocks.map (.executed p) ++ H) := by
  intro q v trusted phase member
  rcases List.mem_append.1 member with executed | old
  · obtain ⟨block, -, same⟩ := List.mem_map.1 executed
    cases same
  · exact enters q v trusted phase old

/-- Bookkeeping does not touch the component. -/
theorem ready_still (still : Still h h') (v : View) : Ready h' v ↔ Ready h v := by
  unfold Ready
  rw [still.tp]

theorem Unspent.still (unspent : Unspent h) (still : Still h h') : Unspent h' where
  small := still.view ▸ unspent.small
  ready := fun started none_taken => by
    rw [still.view, still.jblocks] at none_taken
    rw [ready_still still, still.view]
    exact unspent.ready (still.started ▸ started) none_taken

theorem Spent.still (spent : Spent h) (still : Still h h') : Spent h' where
  small := still.view ▸ spent.small
  taken := by rw [still.view, still.jblocks]; exact spent.taken
  ready := fun started => by
    rw [ready_still still, still.view]
    exact spent.ready (still.started ▸ started)

theorem Spent.unspent (spent : Spent h) : Unspent h where
  small := spent.small
  ready := fun _ none_taken => by
    have taken := spent.taken
    rw [none_taken] at taken
    cases taken

/-- What is watched: that nodes enter views with their component ready there. -/
def entering [Hashing] [SignatureBytes] (cfg : Config) : Watch where
  settled := fun _ h H => Unspent h ∧ EntersReady H
  takes := fun _ h H block => Taking cfg h block ∧ EntersReady H
  proposes := fun _ h H => Leading h ∧ EntersReady H
  voted := fun _ h H => Spent h ∧ EntersReady H
  stopped := fun _ H => EntersReady H
  fine := Undisturbed cfg

theorem Unspent.counts [Hashing] [SignatureBytes] {n : Nat} (unspent : Unspent h)
    (enters : EntersReady H) (msg : MsgNewViewCh) : (entering cfg).Counts cfg n h H msg where
  ignored := fun _ => ⟨unspent, enters⟩
  proposes := fun _ _ _ none_taken =>
    ⟨⟨unspent.small, fun started => unspent.ready started none_taken⟩, enters⟩
  stored := fun _ _ => ⟨⟨unspent.small, unspent.ready⟩, enters⟩

variable [Hashing] [SignatureBytes] (cfg) (depth : Nat)

variable {cfg depth}

end HandlerCh

end ParaHotstuff
