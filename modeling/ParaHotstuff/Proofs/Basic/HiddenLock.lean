import ParaHotstuff.Proofs.Basic.ViewChange
import ParaHotstuff.Data.Checksum
import ParaHotstuff.Handler.Schedule

/-! Whether a leader of the basic protocol can find a justification that every lock lets pass. -/

namespace ParaHotstuff

namespace Handler

section

variable (cfg : Config) (net : Net Handler MsgBasic BasicEvent) (v : View) (q : PID)

/-- The new-view messages for a view that its leader holds. -/
def heldNewviews : List MsgNewView := (net.nodes (cfg.getLeaderOf v)).log.newviews.held v

/-- The nodes whose new-view messages the leader of a view holds. -/
def newviewSigners : List PID :=
  (Messages.allSigns (·.signs) (heldNewviews cfg net v)).getSigners.dedup

/-- The leader of a view runs and holds new-view messages of a quorum of distinct nodes. -/
def LeaderReady : Prop :=
  net.stopped (cfg.getLeaderOf v) = false ∧ cfg.qsize ≤ (newviewSigners cfg net v).length

end

variable {cfg : Config} {net : Net Handler MsgBasic BasicEvent} {v : View} {q : PID}

/-- The senders of the new-view messages a ready leader holds form a quorum. -/
theorem reporters [Hashing] (known : (knowledge cfg).Holds net) (ready : LeaderReady cfg net v) :
    ∃ Q, IsQuorum cfg.total cfg.qsize Q ∧ ∀ p ∈ Q, ∃ m ∈ heldNewviews cfg net v,
      m.rdata.propv = v ∧ BasicEvent.newview p m.rdata ∈ net.history := by
  have own : Own cfg _ _ net.history := known.own _ ready.1
  -- Each held message carries the statement of its only signer.
  have sender : ∀ p ∈ newviewSigners cfg net v, p < cfg.total ∧ ∃ m ∈ heldNewviews cfg net v,
      m.rdata.propv = v ∧ BasicEvent.newview p m.rdata ∈ net.history := by
    intro p member
    obtain ⟨s, signed, rfl⟩ := List.mem_map.1 (List.mem_dedup.1 member)
    obtain ⟨m, held, carried⟩ := List.mem_flatMap.1 signed
    obtain ⟨view, p, within, statement, signs⟩ := own.log.newviews held
    rw [signs] at carried
    obtain rfl := List.mem_singleton.1 carried
    exact ⟨within, m, held, view, statement⟩
  refine ⟨_, IsQuorum.of_nodup (List.nodup_dedup _) (fun p member => (sender p member).1) ready.2,
    fun p member => (sender p (List.mem_toFinset.1 member)).2⟩

section Hidden

open Schedule

/-- All nodes store the prepare certificate of view 0. -/
def prepared : List (Action Input) := startAll 4 ++ deliverFrom 0 12

/-- What the checks of a concrete run have to show for a lock to be open. -/
def opens (cfg : Config) (net : Net Handler MsgBasic BasicEvent) (v : View) (q : PID) : Bool :=
  let tf := (net.nodes q).tf
  -- The first nodes, as many as a quorum needs, stored the locked block.
  (net.history.all fun
    | .stored p rdata => p != q || rdata.propv != v
    | _ => true)
  && ((List.range cfg.qsize).all fun p => net.history.any fun
    | .stored p' rdata => p' == p && rdata.propv == tf.lockv && rdata.proph == tf.lockh
    | _ => false)
  && (heldNewviews cfg net v).any fun m => 0 < m.rdata.justv

end Hidden

end Handler

end ParaHotstuff
