import ParaHotstuff.Proofs.Basic.ViewChange
import ParaHotstuff.Data.Checksum
import ParaHotstuff.Handler.Schedule

/-! Executed blocks of the basic protocol lie on one chain. -/

namespace ParaHotstuff

namespace Handler

section

variable [Hashing]

/-- Blocks executed in later views descend from those executed before; a view executes one block. -/
def NoFork (H : List BasicEvent) : Prop :=
  ∀ p v r p' v' r', BasicEvent.executed p v r ∈ H → BasicEvent.executed p' v' r' ∈ H →
    (v < v' → Relation.TransGen (Link H) r.proph.hash r'.proph.hash)
      ∧ (v = v' → r.proph.hash = r'.proph.hash)

/-- A history with the known facts has no fork. -/
theorem Facts.noFork {cfg : Config} {H : List BasicEvent} (facts : Facts cfg H)
    (majority : cfg.total < 2 * cfg.qsize) : NoFork H := by
  intro p v r p' v' r' first second
  obtain ⟨_, Q, quorum, stores⟩ := facts.executed first
  obtain ⟨_, Q', quorum', stores'⟩ := facts.executed second
  obtain ⟨q', member'⟩ := quorum'.nonempty (by omega)
  obtain ⟨q, member⟩ := quorum.nonempty (by omega)
  refine ⟨fun before => ?_, fun same => ?_⟩
  -- A quorum stored the first block, so whatever is stored later descends from it.
  · exact facts.rules.descends majority quorum stores (stores' q' member') before
  · subst same
    simpa using (facts.unique (stores q member)).symm.trans (facts.unique (stores' q' member'))

/-- No run of the basic protocol forks, whatever is delivered, lost, repeated or timed out. -/
theorem no_fork {cfg : Config} (three : cfg.constFactor = 3) (depth : Nat)
    (actions : List (Action Input)) :
    NoFork ((initial cfg).run (protocol cfg depth) actions).history :=
  have majority := Config.majority three
  (run_holds (by omega) depth actions).facts.noFork majority

end

/-- A run in which every packet arrives in order, until two views have been executed. -/
def twoViews : List (Action Input) := Schedule.startAll 4 ++ Schedule.deliverFrom 0 48

/-- Whether a block was executed in a view. -/
def executedIn (v : View) (H : List BasicEvent) : Bool :=
  H.any fun e => match e with
    | .executed _ w _ => w == v
    | _ => false

/-- In the ordered run blocks are executed in two views, on one chain. -/
theorem no_fork_twoViews :
    let _ := Checksum.hashing
    let H := ((initial Schedule.fourNodes).run (protocol Schedule.fourNodes 3) twoViews).history
    (executedIn 0 H && executedIn 1 H) = true ∧ NoFork H :=
  ⟨by decide +kernel, @no_fork Checksum.hashing Schedule.fourNodes rfl 3 twoViews⟩

end Handler

end ParaHotstuff
