import ParaHotstuff.Proofs.Basic.Batches
import ParaHotstuff.Proofs.Deployment

/-! What a client of the basic protocol may conclude from the replies it counts. -/

namespace ParaHotstuff

namespace Handler

section Runs

variable [Hashing] {cfg : Config} {depth : Nat}

/--
In every run of a client with the nodes of the basic protocol in which nothing is executed in the
last view, whatever transaction the client has recorded as executed, each node of a quorum has
executed it, exactly once.

No other client uses its id, and its counter of transactions does not wrap around.
-/
theorem recorded_by_executors (positive : 0 < cfg.qsize) {cid : CID} {numInstances : Nat}
    (small : numInstances + 1 < wordSize) {happenings : List Happening}
    (genuine : ∀ h ∈ happenings, h.genuine cid = true)
    (early : ∀ {q v r}, .executed q v r
      ∈ ((Deployment.init cfg (initial cfg) cid numInstances false).run (replica cfg depth) cfg
        happenings).net.history → cfg.timeToStop v = false) :
    let d := (Deployment.init cfg (initial cfg) cid numInstances false).run (replica cfg depth) cfg
      happenings
    ∀ tid ∈ d.client.execTrans, ∃ Q, IsQuorum cfg.total cfg.qsize Q ∧ ∀ p ∈ Q,
      (executedTransactions d.net.history p).count (Client.transaction cfg cid tid) = 1 := by
  intro d tid recorded
  -- Nodes that answer what they execute make every counted reply a new one.
  have traced : Deployment.Traced (books cfg depth).replica cfg (initial cfg) cid numInstances _ _ d :=
    Deployment.traced_run small genuine
  have ran : d.net = _ := traced.ran
  rw [ran]
  refine traced.recorded (accounts_of_early positive ?_) recorded
  intro q v r executed
  exact early (ran ▸ executed)

end Runs

section Examples

/--
A client sends its only transaction to the leader of view 0 before the others start, that view goes
by, and all nodes and then the client handle what is waiting for them.
-/
def servedOnce : List Happening :=
  [.among (.input 0 (.input (.start 0))), .send, .send, .arrive 0]
    ++ [1, 2, 3].map (fun p => .among (.input p (.input (.start 0))))
    ++ (List.range 24).map (fun i => .among (.deliver i))
    ++ (List.range 4).map (fun p => .among (.input p (.dequeue true))) ++ List.replicate 3 (.answer 0)

/-- The client has recorded its transaction at the end of that run. -/
theorem recorded_by_executors_servedOnce :
    let _ := Checksum.hashing
    let d := (Deployment.init Schedule.fourNodes (initial Schedule.fourNodes) 0 1 false).run
      (replica Schedule.fourNodes 3) Schedule.fourNodes servedOnce
    ∃ Q, IsQuorum Schedule.fourNodes.total Schedule.fourNodes.qsize Q ∧ ∀ p ∈ Q,
      (executedTransactions d.net.history p).count (Client.transaction Schedule.fourNodes 0 1) = 1 :=
  @recorded_by_executors Checksum.hashing Schedule.fourNodes 3 (by decide) 0 1 (by decide) servedOnce
    (by decide) (fun _ => rfl) 1 (by decide +kernel)

end Examples

end Handler

end ParaHotstuff
