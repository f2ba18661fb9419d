import ParaHotstuff.Handler.Deployment
import ParaHotstuff.Lib.Quorum
import ParaHotstuff.Proofs.Accounts
import ParaHotstuff.Proofs.Client

/-! What a client may conclude from the replies of nodes that answer what they execute. -/

namespace ParaHotstuff

namespace Client

variable {cfg : Config}

/-- The transaction that a client sends under an id. -/
def transaction (cfg : Config) (cid : CID) (transid : TID) : Transaction :=
  ⟨cid, transid, List.replicate cfg.payloadSize 17⟩

/-- A client keeps its id, and how many transactions it is to send. -/
theorem next_fixed (c : Client) (event : ClientEvent) :
    ((component cfg).next c event).cid = c.cid
      ∧ ((component cfg).next c event).numInstances = c.numInstances := by
  cases stopped : c.stopped with
  | true =>
    rw [Component.next_of_throw (answer_stopped stopped event)]
    exact ⟨rfl, rfl⟩
  | false =>
    cases event with
    | send transid =>
      rw [Component.next_of_answer (answer_send stopped transid)]
      exact ⟨rfl, rfl⟩
    | reply conn tid =>
      rw [next_reply stopped]
      -- Whether a reply is counted or not, only the counts and the records change.
      rcases c.handle_reply_cases conn tid with
        ⟨-, result⟩ | ⟨-, -, stopped', result⟩ | ⟨tup, -, -, ⟨-, result⟩ | ⟨-, stopped', result⟩⟩
      all_goals
        rw [result]
        exact ⟨rfl, rfl⟩

end Client

/-- No other client uses the id of this one. -/
def Happening.genuine (cid : CID) : Happening → Bool
  | .among (.input _ (.input (.transaction t))) => t.clientid != cid
  | _ => true

namespace Deployment

variable {Node Msg Event : Type} {R : Replica Node Msg Event} {cfg : Config}
variable {start d : Deployment Node Msg Event} {net : Net Node Msg Event} {cid : CID}
variable {numInstances : Nat} {acts : List (Action ServedInput)} {events : List ClientEvent}

theorem run_concat (happenings : List Happening) (happening : Happening) :
    start.run R cfg (happenings ++ [happening])
      = (start.run R cfg happenings).step R cfg happening := by
  simp [run]

/-- One more step is one more action of the nodes, or none. -/
theorem actions_concat (happenings : List Happening) (happening : Happening) :
    start.actions R cfg (happenings ++ [happening])
      = start.actions R cfg happenings
        ++ ((start.run R cfg happenings).action? happening).toList := by
  induction happenings generalizing start with
  | nil => simp [actions, run]
  | cons first happenings ih =>
    rw [List.cons_append, actions, ih, actions, List.append_assoc]
    rfl

/-- One more step is one more event of the client, or none. -/
theorem clientEvents_concat (happenings : List Happening) (happening : Happening) :
    start.clientEvents R cfg (happenings ++ [happening])
      = start.clientEvents R cfg happenings
        ++ ((start.run R cfg happenings).clientEvent? cfg happening).toList := by
  induction happenings generalizing start with
  | nil => simp [clientEvents, run]
  | cons first happenings ih =>
    rw [List.cons_append, clientEvents, ih, clientEvents, List.append_assoc]
    rfl

/-- How often a transaction may have been sent before the sending thread came to an id. -/
def sentBefore (cfg : Config) (cid : CID) (next : TID) (t : Transaction) : Nat :=
  if t.transid < next ∧ t = Client.transaction cfg cid t.transid then 1 else 0

/--
How the parts of a deployment hang together.

Each transaction of the client was sent once at most and is still under way or was handed in, and
no reply reaches the client that was not sent.
-/
structure Traced (R : Replica Node Msg Event) (cfg : Config) (net : Net Node Msg Event) (cid : CID)
    (numInstances : Nat) (acts : List (Action ServedInput)) (events : List ClientEvent)
    (d : Deployment Node Msg Event) : Prop where
  ran : d.net = net.run R.served acts
  client : d.client = (Client.component cfg).after (Client.init cfg cid numInstances) events
  id : d.client.cid = cid
  last : d.client.numInstances = numInstances
  sender : d.sender.transid ≤ numInstances + 1
  transfers : ∀ t : Transaction, t.clientid = cid →
    d.transfers.countP (·.2 == t) + acts.countP (handsIn t) ≤ sentBefore cfg cid d.sender.transid t
  replies : ∀ p tid, d.replies.count (p, tid) + events.count (.reply p tid)
    ≤ (R.replies net acts).count (p, tid, cid)

/-- An action of the nodes takes place in the net, and its reply is under way. -/
theorem Traced.act (traced : Traced R cfg net cid numInstances acts events d)
    (action : Action ServedInput) :
    (d.act R action).net = net.run R.served (acts ++ [action])
      ∧ ∀ p tid, (d.act R action).replies.count (p, tid) + events.count (.reply p tid)
        ≤ (R.replies net (acts ++ [action])).count (p, tid, cid) := by
  refine ⟨by simp [Deployment.act, Net.run, traced.ran], fun p tid => ?_⟩
  have replies := traced.replies p tid
  simp only [Deployment.act, traced.ran, traced.id, Replica.replies_concat, List.count_append]
  -- A reply to this client is under way exactly if it is one of those sent.
  have new : ((R.reply? (net.run R.served acts) action).toList.filterMap fun reply =>
        if reply.2.2 = cid then some (reply.1, reply.2.1) else none).count (p, tid)
      ≤ (R.reply? (net.run R.served acts) action).toList.count (p, tid, cid) := by
    cases R.reply? (net.run R.served acts) action with
    | none => exact Nat.le_refl _
    | some reply =>
      obtain ⟨q, tid', cid'⟩ := reply
      by_cases mine : cid' = cid
      · simp [mine, List.count_singleton]
      · simp [mine]
  omega

/-- What is handed in by others is no transaction of this client. -/
theorem Traced.among (traced : Traced R cfg net cid numInstances acts events d)
    {action : Action ServedInput} (genuine : (Happening.among action).genuine cid = true) :
    Traced R cfg net cid numInstances (acts ++ [action]) events (d.act R action) where
  ran := (traced.act action).1
  client := traced.client
  id := traced.id
  last := traced.last
  sender := traced.sender
  transfers := fun t mine => by
    have foreign : handsIn t action = false := by
      cases action with
      | deliver index => rfl
      | input p i =>
        cases i with
        | dequeue reachable => rfl
        | input i =>
          rw [handsIn, beq_eq_false_iff_ne]
          rintro rfl
          simp [Happening.genuine, mine] at genuine
    rw [List.countP_append, List.countP_singleton, foreign]
    exact traced.transfers t mine
  replies := (traced.act action).2

/-- A transaction that arrives is handed in, and no longer under way. -/
theorem Traced.arrive (traced : Traced R cfg net cid numInstances acts events d) {index : Nat}
    {p : PID} {transaction : Transaction} (found : d.transfers[index]? = some (p, transaction)) :
    Traced R cfg net cid numInstances (acts ++ [.input p (.input (.transaction transaction))]) events
      { d.act R (.input p (.input (.transaction transaction))) with
        transfers := d.transfers.eraseIdx index } where
  ran := by exact (traced.act (.input p (.input (.transaction transaction)))).1
  client := traced.client
  id := traced.id
  last := traced.last
  sender := traced.sender
  transfers := fun t mine => by
    obtain ⟨inside, here⟩ := List.getElem?_eq_some_iff.1 found
    have moved := (List.getElem_cons_eraseIdx_perm inside).countP_eq (·.2 == t)
    have before := traced.transfers t mine
    rw [here, List.countP_cons] at moved
    rw [List.countP_append, List.countP_singleton]
    -- It counts as handed in now, and not among those under way.
    simp only [Deployment.act, handsIn, beq_iff_eq, Input.transaction.injEq] at moved ⊢
    omega
  replies := by exact (traced.act (.input p (.input (.transaction transaction)))).2

/-- A turn that sends something sends the next transaction, and the following id is free then. -/
theorem turn_sends {s sender : Sender} {all : List PID} {p : PID} {transid : TID}
    (small : numInstances + 1 < wordSize)
    (sends : s.turn numInstances all = some (some (p, transid), sender)) :
    transid = s.transid ∧ sender.transid = s.transid + 1 ∧ s.transid ≤ numInstances := by
  unfold Sender.turn at sends
  split at sends
  · rename_i more
    split at sends
    · cases sends
    · split at sends
      · cases sends
      · simp only [Option.some.injEq, Prod.mk.injEq] at sends
        obtain ⟨⟨rfl, rfl⟩, rfl⟩ := sends
        exact ⟨rfl, Nat.mod_eq_of_lt (by lia), more⟩
  · cases sends

/-- A turn that sends nothing stays at its transaction. -/
theorem turn_waits {s sender : Sender} {all : List PID}
    (waits : s.turn numInstances all = some (none, sender)) : sender.transid = s.transid := by
  unfold Sender.turn at waits
  split at waits
  · split at waits
    · simp only [Option.some.injEq, Prod.mk.injEq, true_and] at waits
      rw [← waits]
    · split at waits
      · simp only [Option.some.injEq, Prod.mk.injEq, true_and] at waits
        rw [← waits]
      · cases waits
  · cases waits

/-- A transaction is sent under an id that was not used before. -/
theorem Traced.send (traced : Traced R cfg net cid numInstances acts events d)
    (small : numInstances + 1 < wordSize) (running : d.client.stopped = false) {p : PID}
    {transid : TID} {sender : Sender}
    (sends : d.sender.turn numInstances (List.range cfg.total) = some (some (p, transid), sender)) :
    Traced R cfg net cid numInstances acts (events ++ [.send transid])
      { d with
        client := (d.client.mkTransaction cfg transid).2
        sender := sender
        transfers := d.transfers ++ [(p, (d.client.mkTransaction cfg transid).1)] } := by
  obtain ⟨rfl, following, more⟩ := turn_sends small sends
  refine {
    ran := traced.ran
    client := ?_
    id := traced.id
    last := traced.last
    sender := by rw [following]; exact Nat.succ_le_succ more
    transfers := fun t mine => ?_
    replies := fun p tid => ?_ }
  · rw [Component.after_concat, ← traced.client]
    exact (Component.next_of_answer (Client.answer_send running _)).symm
  · have before := traced.transfers t mine
    have sent : (d.client.mkTransaction cfg d.sender.transid).1
        = Client.transaction cfg cid d.sender.transid := by
      rw [← traced.id]
      rfl
    rw [sent, List.countP_append, List.countP_singleton, following]
    unfold sentBefore at before ⊢
    -- The transaction itself was not sent before, because its id was not used yet.
    by_cases new : Client.transaction cfg cid d.sender.transid = t
    · have unused : ¬ (t.transid < d.sender.transid ∧ t = Client.transaction cfg cid t.transid) := by
        rw [← new]
        exact fun old => Nat.lt_irrefl _ old.1
      have used : t.transid < d.sender.transid + 1 ∧ t = Client.transaction cfg cid t.transid := by
        rw [← new]
        exact ⟨Nat.lt_succ_self _, rfl⟩
      rw [if_neg unused] at before
      rw [if_pos used]
      simp only [new, beq_self_eq_true, if_true]
      omega
    · simp only [beq_iff_eq, new, if_false]
      split at before
      · rename_i old
        rw [if_pos ⟨Nat.lt_succ_of_lt old.1, old.2⟩]
        omega
      · omega
  · have before := traced.replies p tid
    rw [List.count_append]
    simpa using before

/-- A reply that arrives is counted where it arrives, and no longer under way. -/
theorem Traced.answer (traced : Traced R cfg net cid numInstances acts events d) {index : Nat}
    {p : PID} {tid : TID} (found : d.replies[index]? = some (p, tid)) :
    Traced R cfg net cid numInstances acts (events ++ [.reply p tid])
      { d with
        client := (Client.component cfg).next d.client (.reply p tid)
        replies := d.replies.eraseIdx index } where
  ran := traced.ran
  client := by rw [Component.after_concat, ← traced.client]
  id := (Client.next_fixed _ _).1.trans traced.id
  last := (Client.next_fixed _ _).2.trans traced.last
  sender := traced.sender
  transfers := traced.transfers
  replies := fun q tid' => by
    obtain ⟨inside, here⟩ := List.getElem?_eq_some_iff.1 found
    have moved := (List.getElem_cons_eraseIdx_perm inside).count_eq (q, tid')
    have before := traced.replies q tid'
    rw [here, List.count_cons] at moved
    rw [List.count_append, List.count_singleton]
    simp only [beq_iff_eq, Prod.mk.injEq, ClientEvent.reply.injEq] at moved ⊢
    omega

/-- Every step keeps track of the actions of the nodes and the events of the client. -/
theorem Traced.step (traced : Traced R cfg net cid numInstances acts events d)
    (small : numInstances + 1 < wordSize) {happening : Happening}
    (genuine : happening.genuine cid = true) :
    Traced R cfg net cid numInstances (acts ++ (d.action? happening).toList)
      (events ++ (d.clientEvent? cfg happening).toList) (d.step R cfg happening) := by
  cases happening with
  | among action =>
    simp only [clientEvent?, Option.toList_none, List.append_nil]
    exact traced.among genuine
  | arrive index =>
    simp only [clientEvent?, action?, Deployment.step, Option.toList_none, List.append_nil]
    cases found : d.transfers[index]? with
    | none => simpa using traced
    | some transfer => exact traced.arrive found
  | answer index =>
    simp only [clientEvent?, action?, Deployment.step, Option.toList_none, List.append_nil]
    cases found : d.replies[index]? with
    | none => simpa using traced
    | some reply => exact traced.answer found
  | send =>
    simp only [clientEvent?, action?, Deployment.step, Option.toList_none, List.append_nil]
    -- The thread has ended, or it takes a turn, in which it sends something or nothing.
    cases running : d.client.stopped with
    | true => simpa using traced
    | false =>
      have last := traced.last
      cases turned : d.sender.turn d.client.numInstances (List.range cfg.total) with
      | none => simpa [turned] using traced
      | some turn =>
        obtain ⟨sent, sender⟩ := turn
        rw [last] at turned
        cases sent with
        | none =>
          have same := turn_waits turned
          simpa [turned, last] using { traced with
            sender := same ▸ traced.sender
            transfers := same ▸ traced.transfers }
        | some sent => simpa [turned, last] using traced.send small running turned

/-- So does every run. -/
theorem traced_run (small : numInstances + 1 < wordSize) {skipFirst : Bool}
    {happenings : List Happening} (genuine : ∀ h ∈ happenings, h.genuine cid = true) :
    Traced R cfg net cid numInstances
      ((init cfg net cid numInstances skipFirst).actions R cfg happenings)
      ((init cfg net cid numInstances skipFirst).clientEvents R cfg happenings)
      ((init cfg net cid numInstances skipFirst).run R cfg happenings) := by
  -- Induction on the steps, the last one first.
  induction happenings using List.reverseRecOn with
  | nil =>
    exact {
      ran := rfl
      client := rfl
      id := rfl
      last := rfl
      sender := Nat.le_add_left 1 numInstances
      transfers := fun t mine => Nat.zero_le _
      replies := fun p tid => Nat.zero_le _ }
  | append_singleton happenings happening ih =>
    rw [actions_concat, clientEvents_concat, run_concat]
    refine (ih fun h member => genuine h (List.mem_append_left _ member)).step small ?_
    exact genuine happening (List.mem_append_right _ List.mem_cons_self)

variable {B : Books Node Msg Event}

/-- A node whose reply has arrived has executed the transaction, once, and replied once. -/
theorem Traced.reply_once (traced : Traced B.replica cfg net cid numInstances acts events d)
    (accounts : B.Accounts cfg.total net acts) {p : PID} {tid : TID}
    (replied : ClientEvent.reply p tid ∈ events) :
    events.count (.reply p tid) = 1 ∧ (B.executed p (net.run B.replica.served acts).history).count (Client.transaction cfg cid tid) = 1 := by
  have some_reply := List.one_le_count_iff.2 replied
  have counted : events.count (.reply p tid)
      ≤ (B.executed p (net.run B.replica.served acts).history).countP (Transaction.answeredAs (tid, cid)) :=
    ((Nat.le_add_left _ _).trans (traced.replies p tid)).trans (accounts.answered p (tid, cid))
  -- What is answered under the id was handed in, so it is the transaction that was sent.
  have handed : ∀ t ∈ B.executed p (net.run B.replica.served acts).history, t.answeredAs (tid, cid) = true →
      t = Client.transaction cfg cid tid ∧ (B.executed p (net.run B.replica.served acts).history).count t ≤ 1 := by
    intro t member answered
    simp only [Transaction.answeredAs, Bool.and_eq_true, bne_iff_ne, ne_eq, beq_iff_eq,
      Prod.mk.injEq] at answered
    obtain ⟨real, rfl, mine⟩ := answered
    have executed_once := List.one_le_count_iff.2 member
    have handed := accounts.handed p t (by simpa [Transaction.isReal] using real)
    have sent := (Nat.le_add_left _ _).trans (traced.transfers t mine)
    unfold sentBefore at sent
    split at sent
    · rename_i same
      exact ⟨same.2, handed.trans sent⟩
    · omega
  have same : (B.executed p (net.run B.replica.served acts).history).countP (Transaction.answeredAs (tid, cid))
      ≤ (B.executed p (net.run B.replica.served acts).history).count (Client.transaction cfg cid tid) :=
    List.countP_mono_left fun t member answered => beq_iff_eq.2 (handed t member answered).1
  obtain ⟨t, member, answered⟩ := List.countP_pos_iff.1 (some_reply.trans counted)
  obtain ⟨rfl, once⟩ := handed t member answered
  omega

/-- So every reply that the client counts is a new one. -/
theorem Traced.allNew (traced : Traced B.replica cfg net cid numInstances acts events d)
    (accounts : B.Accounts cfg.total net acts) (c : Client) : Client.AllNew cfg c events := by
  intro before event rest split
  cases event with
  | send transid => trivial
  | reply p tid =>
    intro counted old
    -- A second reply of the same node would have come before.
    have first := List.one_le_count_iff.2 (Client.mem_repliersSince old)
    have here : ClientEvent.reply p tid ∈ events := by simp [split]
    have once := (traced.reply_once accounts here).1
    rw [split, List.count_append, List.count_cons_self] at once
    omega

/-- What the client has recorded, each node of a quorum has executed, exactly once. -/
theorem Traced.recorded (traced : Traced B.replica cfg net cid numInstances acts events d)
    (accounts : B.Accounts cfg.total net acts) {tid : TID}
    (recorded : tid ∈ d.client.execTrans) :
    ∃ Q, IsQuorum cfg.total cfg.qsize Q
      ∧ ∀ p ∈ Q, (B.executed p (net.run B.replica.served acts).history).count (Client.transaction cfg cid tid) = 1 := by
  rw [traced.client] at recorded
  have begin : Client.Tally (Client.init cfg cid numInstances).qsize []
      (Client.init cfg cid numInstances) :=
    ⟨rfl, fun _ tid _ tup found => by simp [Client.init] at found,
      fun tid recorded => by cases recorded⟩
  -- All replies are new ones, so as many nodes have replied as are needed.
  obtain ⟨Q, large, all⟩ := (begin.after (traced.allNew accounts _)).quorum tid recorded
  have once := fun p member => (traced.reply_once accounts (all p member)).2
  refine ⟨Q, ⟨fun p member => Finset.mem_range.2 ?_, large⟩, once⟩
  exact accounts.known (List.one_le_count_iff.1 (Nat.le_of_eq (once p member).symm))

end Deployment

end ParaHotstuff
