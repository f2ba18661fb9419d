import ParaHotstuff.Handler.Replies
import ParaHotstuff.Lib.Tally
import ParaHotstuff.Proofs.Transactions

/-! Accounts of what clients hand in, and of what nodes propose, execute and answer. -/

namespace ParaHotstuff

open Program Local

/-- A transaction is answered under its id and its client, unless it is a dummy. -/
def Transaction.answeredAs (key : TID × CID) (t : Transaction) : Bool :=
  t.transid != 0 && (t.transid, t.clientid) == key

/-- No transaction of a block is answered more than once. -/
theorem count_replyTransactions (clients : Clients) (transactions : List Transaction)
    (key : TID × CID) :
    (replyTransactions clients transactions).count key
      ≤ transactions.countP (Transaction.answeredAs key) := by
  induction transactions with
  | nil => exact Nat.le_refl _
  | cons t transactions ih =>
    simp only [replyTransactions, List.filterMap_cons, List.countP_cons] at ih ⊢
    -- A dummy and the transaction of an unknown client are not answered.
    split
    · omega
    · rename_i reply answered
      split at answered
      · rename_i known
        obtain rfl := Option.some.inj answered
        simp only [Bool.and_eq_true] at known
        simp only [List.count_cons, Transaction.answeredAs, known.1, Bool.true_and]
        omega
      · cases answered

/-- The handler of the reply queue takes the first reply, if there is one, and answers nothing else. -/
theorem count_try_dequeue (clients : Clients) (reachable : Bool) (queue : List (TID × CID))
    (key : TID × CID) :
    (try_dequeue clients reachable queue).rest.count key
      + (if (try_dequeue clients reachable queue).reply = some key then 1 else 0)
      ≤ queue.count key := by
  cases queue with
  | nil => exact Nat.le_refl _
  | cons first rest =>
    obtain ⟨tid, cid⟩ := first
    rw [try_dequeue, List.count_cons]
    -- A reply to an unknown client or over a lost connection is gone.
    split
    · split
      · simp only [Option.some.injEq, beq_iff_eq]
        omega
      · simp
    · simp

/-- A dummy is no transaction of a client, so a block takes no more of it than the queue loses. -/
theorem Config.count_fillBlock (cfg : Config) {t : Transaction} (real : t.isReal = true)
    (queue : List Transaction) :
    (queue.drop cfg.maxNumTransactions).count t + (cfg.fillBlock queue).count t = queue.count t := by
  have dummies : ∀ m, (List.replicate m (Transaction.default cfg.payloadSize)).count t = 0 := by
    intro m
    rw [List.count_replicate, if_neg]
    intro same
    rw [← beq_iff_eq.1 same] at real
    cases real
  have split := congrArg (List.count t) (List.take_append_drop cfg.maxNumTransactions queue)
  rw [List.count_append] at split
  simp only [Config.fillBlock, List.count_append, dummies]
  omega

/-- What clients have handed in of a transaction and what was answered, node by node. -/
structure Ledger where
  handed : PID → Nat
  answered : PID → Nat

/-- What the accounts of a protocol are kept of. -/
structure Books (Node Msg Event : Type) where
  replica : Replica Node Msg Event
  actor : Event → PID
  /-- The transactions that wait at a node to be proposed. -/
  pending : Node → List Transaction
  /-- The transactions that a node has proposed, and those that it has executed. -/
  proposed : PID → List Event → List Transaction
  executed : PID → List Event → List Transaction
  /-- What else is known of a node, of the history and of packets. -/
  own : PID → Node → List Event → Prop
  facts : List Event → Prop
  good : Packet Msg → List Event → Prop

namespace Books

variable {Node Msg Event : Type} (B : Books Node Msg Event) (t : Transaction) (key : TID × CID)

/--
A node has of a transaction no more than it was handed, and answers no more than it executes.

What it has waits to be proposed, or is on its way into a block, or was proposed.
-/
structure Kept (ledger : Ledger) (moving : Nat) (p : PID) (h : Node) (H : List Event) : Prop where
  own : B.own p h H
  taken : (B.pending h).count t + moving + (B.proposed p H).count t ≤ ledger.handed p
  replied : (B.replica.rep_queue h).count key + ledger.answered p
    ≤ (B.executed p H).countP (Transaction.answeredAs key)

/-- What all nodes together have of it, those that have stopped as well. -/
structure Balanced (ledger : Ledger) (H : List Event) : Prop where
  facts : B.facts H
  proposed : ∀ p, (B.proposed p H).count t ≤ ledger.handed p
  answered : ∀ p, ledger.answered p ≤ (B.executed p H).countP (Transaction.answeredAs key)

/-- What is known of transactions while a number of them is on its way into a block. -/
def knowledge (ledger : Ledger) (moving : Nat) : Knowledge Node Msg Event where
  actor := B.actor
  own := B.Kept t key ledger moving
  facts := B.Balanced t key ledger
  good := B.good

/-- What a node does is on no account of another one. -/
structure Steady : Prop where
  own : ∀ {p q h H added}, B.own q h H → p ≠ q → (∀ e ∈ added, B.actor e = p) →
    B.own q h (added ++ H)
  good : ∀ {packet H}, B.good packet H → ∀ added, B.good packet (added ++ H)
  others : ∀ {p H added}, (∀ e ∈ added, B.actor e ≠ p) →
    B.proposed p (added ++ H) = B.proposed p H ∧ B.executed p (added ++ H) = B.executed p H

/-- What a protocol has to do for its accounts to be kept. -/
structure Keeping : Prop extends B.Steady where
  /-- The handler of the reply queue shortens the queue, and does nothing else that matters. -/
  answering : ∀ {p h H}, B.own p h H → ∀ clients queue,
    B.own p (B.replica.answering h clients queue) H
      ∧ B.pending (B.replica.answering h clients queue) = B.pending h
      ∧ B.replica.rep_queue (B.replica.answering h clients queue) = queue
  receive : ∀ {t key ledger p start msg l}, t.isReal = true → B.good ⟨p, msg⟩ l.history →
    (B.knowledge t key ledger 0).Inside p start l →
      (B.knowledge t key ledger 0).Safe p start (B.replica.protocol.receive msg) l
  input : ∀ {t key ledger p start l i}, t.isReal = true → (∀ trans, i ≠ .transaction trans) →
    (B.knowledge t key ledger 0).Inside p start l →
      (B.knowledge t key ledger 0).Safe p start (B.replica.protocol.input i) l
  /-- A transaction that is handed in waits at the end of the queue, or is refused. -/
  transaction : ∀ {p start t key ledger l}, ∀ trans, (B.knowledge t key ledger 0).Inside p start l →
    ∃ h queue, B.replica.protocol.input (.transaction trans) l = .done () { l with node := h }
      ∧ B.own p h l.history ∧ B.replica.rep_queue h = B.replica.rep_queue l.node
      ∧ B.pending h = B.pending l.node ++ queue ∧ queue.Sublist [trans]

variable {B t key} {ledger ledger' : Ledger} {moving : Nat} {p q : PID} {h h' : Node}
variable {H : List Event} {start : List Event} {l : Local Node Msg Event}

/-- Apart from what else is known, only the queues of a node matter. -/
theorem Kept.node (kept : B.Kept t key ledger moving p h H) (own : B.own p h' H)
    (pending : B.pending h' = B.pending h) (replies : B.replica.rep_queue h' = B.replica.rep_queue h) :
    B.Kept t key ledger moving p h' H where
  own := own
  taken := by
    rw [pending]
    exact kept.taken
  replied := by
    rw [replies]
    exact kept.replied

/-- What is on its way may be lost. -/
theorem Kept.drop (kept : B.Kept t key ledger moving p h H) : B.Kept t key ledger 0 p h H :=
  { kept with taken := by have taken := kept.taken; omega }

/-- A node that is handed more may have more. -/
theorem Kept.more (kept : B.Kept t key ledger moving p h H)
    (more : ledger.handed p ≤ ledger'.handed p) (same : ledger'.answered p = ledger.answered p) :
    B.Kept t key ledger' moving p h H where
  own := kept.own
  taken := kept.taken.trans more
  replied := same ▸ kept.replied

theorem Balanced.more (balanced : B.Balanced t key ledger H)
    (more : ∀ p, ledger.handed p ≤ ledger'.handed p)
    (same : ∀ p, ledger'.answered p = ledger.answered p) : B.Balanced t key ledger' H where
  facts := balanced.facts
  proposed := fun p => (balanced.proposed p).trans (more p)
  answered := fun p => (same p).symm ▸ balanced.answered p

/-- The accounts of a node stay as they are while others are active. -/
theorem Steady.stable (steady : B.Steady) : (B.knowledge t key ledger moving).Stable where
  own := by
    intro p q node history added kept other mine
    have others : ∀ e ∈ added, B.actor e ≠ q := fun e member => by
      rw [show B.actor e = p from mine e member]
      exact other
    have same := steady.others (H := history) others
    exact {
      own := steady.own kept.own other mine
      taken := by
        rw [same.1]
        exact kept.taken
      replied := by
        rw [same.2]
        exact kept.replied }
  good := fun good added => steady.good good added

/-- What is on its way into a block may be lost in a handler. -/
theorem dropped (inside : (B.knowledge t key ledger moving).Inside p start l) :
    (B.knowledge t key ledger 0).Inside p start l where
  grown := inside.grown
  facts := inside.facts
  good := inside.good
  own := Kept.drop inside.own

/-- A change of the node leaves the accounts as they are if its queues stay as they are. -/
theorem changed (inside : (B.knowledge t key ledger moving).Inside p start l)
    (own : B.own p h l.history) (pending : B.pending h = B.pending l.node)
    (replies : B.replica.rep_queue h = B.replica.rep_queue l.node) :
    (B.knowledge t key ledger moving).Inside p start { l with node := h } :=
  inside.node (Kept.node inside.own own pending replies)

/-- An event after which its node has its accounts in order leaves all of them in order. -/
theorem Steady.event (steady : B.Steady)
    (inside : (B.knowledge t key ledger moving).Inside p start l) {e : Event} (mine : B.actor e = p)
    (facts : B.facts (e :: l.history)) (kept : B.Kept t key ledger 0 p h (e :: l.history)) :
    (B.knowledge t key ledger 0).Inside p start { l with node := h, history := e :: l.history } := by
  have balanced : B.Balanced t key ledger l.history := inside.facts
  -- The accounts of the others do not change.
  have others : ∀ q, q ≠ p → B.proposed q (e :: l.history) = B.proposed q l.history
      ∧ B.executed q (e :: l.history) = B.executed q l.history := by
    intro q other
    have foreign : ∀ e' ∈ [e], B.actor e' ≠ q := by simpa [mine] using Ne.symm other
    have same := steady.others (H := l.history) foreign
    exact same
  refine (dropped inside).event steady.stable mine ⟨facts, fun q => ?_, fun q => ?_⟩ kept
  · by_cases here : q = p
    · have taken := kept.taken
      subst here
      omega
    · rw [(others q here).1]
      exact balanced.proposed q
  · by_cases here : q = p
    · have replied := kept.replied
      subst here
      omega
    · rw [(others q here).2]
      exact balanced.answered q

/-- A node whose reply queue is handled answers what it had queued. -/
theorem Keeping.dequeued (keeping : B.Keeping) {reachable : Bool}
    (kept : B.Kept t key ledger 0 p h H) (handed : ledger'.handed p = ledger.handed p)
    (answered : ledger'.answered p = ledger.answered p
      + if (B.replica.dequeue reachable h).reply = some key then 1 else 0) :
    B.Kept t key ledger' 0 p (B.replica.dequeued reachable h) H := by
  obtain ⟨own, pending, queue⟩ := keeping.answering kept.own
    (B.replica.dequeue reachable h).clients (B.replica.dequeue reachable h).rest
  refine ⟨own, ?_, ?_⟩
  · rw [handed, Replica.dequeued, pending]
    exact kept.taken
  · have shorter : (B.replica.dequeue reachable h).rest.count key
        + (if (B.replica.dequeue reachable h).reply = some key then 1 else 0)
        ≤ (B.replica.rep_queue h).count key := count_try_dequeue _ reachable _ key
    have replied := kept.replied
    rw [answered, Replica.dequeued, queue]
    omega

/-- What a client hands in is counted where it is handed in. -/
theorem Keeping.handed (keeping : B.Keeping) (kept : (B.knowledge t key ledger 0).Inside p start l)
    {trans : Transaction}
    (more : ∀ q, ledger'.handed q = ledger.handed q + if q = p ∧ trans = t then 1 else 0)
    (same : ∀ q, ledger'.answered q = ledger.answered q) :
    (B.knowledge t key ledger' 0).Safe p start (B.replica.protocol.input (.transaction trans)) l := by
  obtain ⟨h, queue, result, own, replies, pending, within⟩ := keeping.transaction trans kept
  have before : B.Kept t key ledger 0 p l.node l.history := kept.own
  have balanced : B.Balanced t key ledger l.history := kept.facts
  unfold Knowledge.Safe Program.Gives
  rw [result]
  refine {
    grown := kept.grown
    facts := balanced.more (fun q => by rw [more]; omega) same
    good := kept.good
    own := ⟨own, ?_, ?_⟩ }
  · -- The queue gets longer by one transaction at most.
    have added := within.count_le t
    have taken := before.taken
    simp only [pending, List.count_append, more, List.count_singleton, true_and, beq_iff_eq] at added ⊢
    omega
  · simp only [replies, same]
    exact before.replied

/-- One action changes the ledger by what is handed in and answered, and keeps the accounts. -/
theorem Keeping.step (keeping : B.Keeping) (real : t.isReal = true) {net : Net Node Msg Event}
    (known : (B.knowledge t key ledger 0).Holds net) {action : Action ServedInput}
    (handed : ∀ q, ledger'.handed q = ledger.handed q
      + if action = .input q (.input (.transaction t)) then 1 else 0)
    (answered : ∀ q, ledger'.answered q = ledger.answered q
      + if B.replica.reply? net action = some (q, key) then 1 else 0) :
    (B.knowledge t key ledger' 0).Holds (net.step B.replica.served action) := by
  have more : ∀ q, ledger.handed q ≤ ledger'.handed q := fun q => by
    rw [handed]
    omega
  -- Where nothing is answered, what was known is known of the new ledger.
  have within : (∀ q, ledger'.answered q = ledger.answered q) →
      (B.knowledge t key ledger' 0).Holds net := fun same => {
    own := fun q running => Kept.more (known.own q running) (more q) (same q)
    facts := Balanced.more known.facts more same
    good := known.good }
  cases action with
  | deliver index =>
    have known' := within fun q => by simpa [Replica.reply?] using answered q
    simp only [Net.step]
    cases sent : net.sent[index]? with
    | none => exact known'
    | some packet =>
      have good := known.good packet (List.mem_of_getElem? sent)
      exact known'.act keeping.stable fun _ inside => keeping.receive real good inside
  | input p i =>
    cases i with
    | input i =>
      have same : ∀ q, ledger'.answered q = ledger.answered q :=
        fun q => by simpa [Replica.reply?] using answered q
      refine (within same).act keeping.stable fun running inside => ?_
      cases i with
      | transaction trans =>
        refine Keeping.handed keeping ?_ (fun q => ?_) same
        · exact { grown := ⟨[], rfl, by simp⟩, facts := known.facts, good := known.good
                  own := known.own p running }
        · simp [handed, eq_comm]
      | start cid => exact keeping.input real (by simp) inside
      | timeout => exact keeping.input real (by simp) inside
    | dequeue reachable =>
      have same : ∀ q, ledger'.handed q = ledger.handed q := fun q => by simpa using handed q
      cases running : net.stopped p with
      | true =>
        have known' := within fun q => by simpa [Replica.reply?, running] using answered q
        simpa [Net.step, Net.act, running] using known'
      | false =>
        -- Only the queue of this node gets shorter, by the reply that is sent.
        have others : ∀ q, q ≠ p → ledger'.answered q = ledger.answered q := by
          intro q other
          simpa [Replica.reply?, running, Ne.symm other] using answered q
        have mine : B.Kept t key ledger' 0 p (B.replica.dequeued reachable (net.nodes p)) net.history :=
          keeping.dequeued (known.own p running) (same p)
            (by simpa [Replica.reply?, running] using answered p)
        have balanced : B.Balanced t key ledger net.history := known.facts
        change (B.knowledge t key ledger' 0).Holds
          (net.act p (Local.modify (B.replica.dequeued reachable)))
        rw [Net.act_modify running]
        refine ⟨fun q active => ?_, ⟨balanced.facts, fun q => ?_, fun q => ?_⟩, known.good⟩
        · by_cases here : q = p
          · subst here
            simp only [Function.update_self]
            exact mine
          · have before : B.Kept t key ledger 0 q (net.nodes q) net.history := known.own q active
            simp only [Function.update_of_ne here]
            exact before.more (more q) (others q here)
        · rw [same]
          exact balanced.proposed q
        · by_cases here : q = p
          · subst here
            exact (Nat.le_add_left _ _).trans mine.replied
          · rw [others q here]
            exact balanced.answered q

variable (B t key) in
/-- What a run has handed in of a transaction, and answered. -/
def ledgerOf (net : Net Node Msg Event) (actions : List (Action ServedInput)) : Ledger where
  handed := fun p => actions.countP (· == .input p (.input (.transaction t)))
  answered := fun p => (B.replica.replies net actions).count (p, key)

/-- In every run the accounts are kept. -/
theorem Keeping.run (keeping : B.Keeping) (real : t.isReal = true) (key : TID × CID)
    {net : Net Node Msg Event} (begin : (B.knowledge t key ⟨fun _ => 0, fun _ => 0⟩ 0).Holds net)
    (actions : List (Action ServedInput)) :
    (B.knowledge t key (B.ledgerOf t key net actions) 0).Holds (net.run B.replica.served actions) := by
  -- Induction on the actions, the last one first.
  induction actions using List.reverseRecOn with
  | nil => exact begin
  | append_singleton actions action ih =>
    have last : net.run B.replica.served (actions ++ [action])
        = (net.run B.replica.served actions).step B.replica.served action := by
      simp [Net.run]
    rw [last]
    refine keeping.step real ih (fun q => ?_) fun q => ?_
    · simp [ledgerOf, List.countP_append, List.countP_singleton]
    · simp only [ledgerOf, Replica.replies_concat, List.count_append]
      cases B.replica.reply? (net.run B.replica.served actions) action <;> simp [List.count_singleton]

/-- What is handed to the nodes one by one is handed in. -/
theorem sum_handed_le (net : Net Node Msg Event) (actions : List (Action ServedInput)) (n : Nat) :
    ∑ q ∈ Finset.range n, (B.ledgerOf t key net actions).handed q ≤ actions.countP (handsIn t) := by
  refine Tally.sum_countP_le ?_ ?_ _ _
  · intro q q' action here there
    rw [beq_iff_eq] at here there
    simpa using here.symm.trans there
  · intro q action here
    rw [beq_iff_eq] at here
    simp [here, handsIn]

/--
What a run of the nodes guarantees of the transactions they have executed.

Nodes answer only what they execute, and execute a transaction only as often as it is handed in.
-/
structure Accounts (B : Books Node Msg Event) (n : Nat) (net : Net Node Msg Event)
    (actions : List (Action ServedInput)) : Prop where
  known : ∀ {p t}, t ∈ B.executed p (net.run B.replica.served actions).history → p < n
  answered : ∀ p key, (B.replica.replies net actions).count (p, key)
    ≤ (B.executed p (net.run B.replica.served actions).history).countP (Transaction.answeredAs key)
  handed : ∀ p t, t.isReal = true → (B.executed p (net.run B.replica.served actions).history).count t
    ≤ actions.countP (handsIn t)

/-- Where nodes execute no more than is proposed by all of them, the accounts add up. -/
theorem Keeping.accounts (keeping : B.Keeping) {n : Nat} {net : Net Node Msg Event}
    (begin : ∀ t key, (B.knowledge t key ⟨fun _ => 0, fun _ => 0⟩ 0).Holds net)
    {actions : List (Action ServedInput)}
    (known : ∀ {p t}, t ∈ B.executed p (net.run B.replica.served actions).history → p < n)
    (proposed : ∀ p t, t.isReal = true →
      (B.executed p (net.run B.replica.served actions).history).count t ≤
        ∑ q ∈ Finset.range n, (B.proposed q (net.run B.replica.served actions).history).count t) :
    B.Accounts n net actions where
  known := known
  answered := fun p key => (keeping.run rfl key (begin ⟨0, 1, []⟩ key) actions).facts.answered p
  handed := fun p t real => by
    have balanced : B.Balanced t (0, 0) (B.ledgerOf t (0, 0) net actions) _ :=
      (keeping.run real (0, 0) (begin t (0, 0)) actions).facts
    exact (proposed p t real).trans ((Finset.sum_le_sum fun q _ => balanced.proposed q).trans
      (sum_handed_le net actions n))

end Books

end ParaHotstuff
