import ParaHotstuff.Proofs.Chained.Batches

/-! What a client of the chained protocol may conclude from the replies it counts. -/

namespace ParaHotstuff

namespace HandlerCh

section Runs

variable [Hashing] [SignatureBytes] {cfg : Config} {depth : Nat}

/--
In every run of a client with the nodes of the chained protocol that keeps away from the last views,
whatever transaction the client has recorded as executed, each node of a quorum has executed it,
exactly once.

No other client uses its id, and its counter of transactions does not wrap around.
-/
theorem recorded_by_quorum (three : cfg.constFactor = 3) (faults : 0 < cfg.numFaults)
    {cid : CID} {numInstances : Nat} (small : numInstances + 1 < wordSize)
    {happenings : List Happening} (genuine : ∀ h ∈ happenings, h.genuine cid = true)
    (early : Net.Meets (replica cfg depth).served (Net.Finds (Early depth)) (initial cfg)
      ((Deployment.init cfg (initial cfg) cid numInstances true).actions (replica cfg depth) cfg
        happenings)) :
    let d := (Deployment.init cfg (initial cfg) cid numInstances true).run (replica cfg depth) cfg
      happenings
    ∀ tid ∈ d.client.execTrans, ∃ Q, IsQuorum cfg.total cfg.qsize Q ∧ ∀ p ∈ Q,
      (executedTransactions d.net.history p).count (Client.transaction cfg cid tid) = 1 := by
  intro d tid recorded
  -- Nodes that answer what they execute make every counted reply a new one.
  have traced : Deployment.Traced (replica cfg depth) cfg (initial cfg) cid numInstances _ _ d :=
    Deployment.traced_run small genuine
  rw [traced.ran]
  exact traced.recorded (accounts_of_early three faults early) recorded

end Runs

section Examples

/--
A client sends its only transaction to the leader of view 1, three views go by, and all nodes and
then the client handle what is waiting for them.
-/
def servedOnce : List Happening :=
  (List.range 4).map (fun p => .among (.input p (.input (.start 0)))) ++ [.send, .send, .send, .arrive 0]
    ++ (List.range 30).map (fun i => .among (.deliver i))
    ++ (List.range 4).map (fun p => .among (.input p (.dequeue true))) ++ List.replicate 3 (.answer 0)

/-- The client has recorded its transaction at the end of that run. -/
theorem recorded_by_quorum_servedOnce :
    let _ := Checksum.hashing
    let _ := Checksum.signatureBytes
    let d := (Deployment.init Schedule.fourNodes (initial Schedule.fourNodes) 0 1 true).run
      (replica Schedule.fourNodes 3) Schedule.fourNodes servedOnce
    ∃ Q, IsQuorum Schedule.fourNodes.total Schedule.fourNodes.qsize Q ∧ ∀ p ∈ Q,
      (executedTransactions d.net.history p).count (Client.transaction Schedule.fourNodes 0 1) = 1 :=
  @recorded_by_quorum Checksum.hashing Checksum.signatureBytes Schedule.fourNodes 3 rfl (by decide)
    0 1 (by decide) servedOnce (by decide) (by decide +kernel) 1 (by decide +kernel)

end Examples

end HandlerCh

end ParaHotstuff
