import ParaHotstuff.Handler.Schedule
import ParaHotstuff.Lib.Batches
import ParaHotstuff.Proofs.Basic.Calls
import ParaHotstuff.Proofs.Para.Announcements

/-! When a leader neither drops nor repeats the transactions that it accepted. -/

namespace ParaHotstuff

open Local

/-- Transactions of clients; the id 0 marks a dummy. -/
def Transaction.isReal (trans : Transaction) : Bool := trans.transid != 0

/-- Dummies are not real, so the real transactions of a block are those taken from the queue. -/
theorem filter_fillBlock (cfg : Config) (pending : List Transaction) :
    (cfg.fillBlock pending).filter Transaction.isReal
      = (pending.take cfg.maxNumTransactions).filter Transaction.isReal := by
  simp [Config.fillBlock, Transaction.isReal, Transaction.default]

/-- What is done to the queue of a node: it grows, or blocks are proposed, or something else happens. -/
inductive QueueOp (Node Call : Type) where
  | transaction (t : Transaction)
  | propose (call : Call)
  /-- Everything of the node may change except its id and its queue. -/
  | other (node : Node)

/-- How a protocol accepts transactions and proposes blocks. -/
structure Proposer (Node Msg Event Call Block : Type) where
  myid : Node → PID
  clients : Node → Clients
  transactions : Node → List Transaction
  /-- Give a node the id and the queue of another one. -/
  resume : Node → Node → Node
  handleTransaction : Transaction → Program (Local Node Msg Event) Unit
  propose : Call → Program (Local Node Msg Event) Unit
  contents : Block → List Transaction
  /-- The block that a proposal carries. -/
  proposal : Msg → Option Block
  /-- The block that an event notes as stored and proposed. -/
  noted : Event → Option Block
  /-- What a call is to take from the queue, and whether the component will sign it. -/
  batches : Call → Node → List (Batch Transaction)

/-- A node on its way through an interleaving, with the transactions accepted and taken so far. -/
structure QueueRun (Node Msg Event : Type) where
  state : Local Node Msg Event
  stopped : Bool
  accepted : List Transaction
  batches : List (Batch Transaction)

namespace Proposer

variable {Node Msg Event Call Block : Type} (P : Proposer Node Msg Event Call Block)

/-- One operation; a node that stopped does nothing more. -/
def step (run : QueueRun Node Msg Event) (op : QueueOp Node Call) : QueueRun Node Msg Event :=
  if run.stopped then run
  else match op with
    | .transaction t =>
      let accepted := (acceptTransaction (P.clients run.state.node) t).isSome
      let outcome := P.handleTransaction t run.state
      { run with
        state := outcome.state
        stopped := outcome.stopped
        accepted := run.accepted ++ if accepted then [t] else [] }
    | .propose call =>
      let outcome := P.propose call run.state
      { run with
        state := outcome.state
        stopped := outcome.stopped
        batches := run.batches ++ P.batches call run.state.node }
    | .other node =>
      { run with state := { run.state with node := P.resume run.state.node node } }

/-- An interleaving of operations, from a node at its start that has sent nothing yet. -/
def run (start : Node) (ops : List (QueueOp Node Call)) : QueueRun Node Msg Event :=
  ops.foldl P.step ⟨⟨start, [], []⟩, false, [], []⟩

/-- The blocks noted as stored and proposed, in order. -/
def proposed (history : List Event) : List Block := history.reverse.filterMap P.noted

/-- The blocks of the proposals sent to a node, in order. -/
def sentTo (q : PID) (sent : List (Packet Msg)) : List Block :=
  sent.filterMap fun packet => if packet.dest = q then P.proposal packet.msg else none

/--
No transaction is dropped or repeated.

The accepted transactions are those of the blocks that were stored and proposed, and then the
pending ones; and these blocks were sent to every other node.
-/
structure Conserved (cfg : Config) (run : QueueRun Node Msg Event) : Prop where
  conserved : run.accepted
    = (P.proposed run.state.history).flatMap (fun b => (P.contents b).filter Transaction.isReal)
      ++ P.transactions run.state.node
  sent : ∀ q ∈ cfg.peers (P.myid run.state.node),
    P.sentTo q run.state.sent = P.proposed run.state.history

/-- What one operation does: it takes some batches, and proposes the blocks that deliver them. -/
structure Does (cfg : Config) (batches : List (Batch Transaction))
    (l l' : Local Node Msg Event) : Prop where
  myid : P.myid l'.node = P.myid l.node
  queue : P.transactions l.node = batches.flatMap Batch.taken ++ P.transactions l'.node
  blocks : ∃ blocks, P.proposed l'.history = P.proposed l.history ++ blocks
    ∧ blocks.flatMap (fun b => (P.contents b).filter Transaction.isReal)
      = batches.flatMap (Batch.kept Transaction.isReal)
    ∧ ∀ q ∈ cfg.peers (P.myid l.node), P.sentTo q l'.sent = P.sentTo q l.sent ++ blocks

/-- What the operations of a protocol have to do for its queue to be accounted for. -/
structure Accountable (cfg : Config) : Prop where
  transaction : ∀ t l, ∃ node, (P.handleTransaction t l).state = { l with node := node }
    ∧ P.myid node = P.myid l.node
    ∧ P.transactions node = P.transactions l.node
      ++ if (acceptTransaction (P.clients l.node) t).isSome then [t] else []
  propose : ∀ call l, P.Does cfg (P.batches call l.node) l (P.propose call l).state
  resume : ∀ node node', P.myid (P.resume node node') = P.myid node
    ∧ P.transactions (P.resume node node') = P.transactions node

/-- What is known of a run: where the transactions went, and which blocks were proposed. -/
structure Accounted (cfg : Config) (run : QueueRun Node Msg Event) : Prop where
  queue : run.accepted = run.batches.flatMap Batch.taken ++ P.transactions run.state.node
  blocks : (P.proposed run.state.history).flatMap (fun b => (P.contents b).filter Transaction.isReal)
    = run.batches.flatMap (Batch.kept Transaction.isReal)
  sent : ∀ q ∈ cfg.peers (P.myid run.state.node),
    P.sentTo q run.state.sent = P.proposed run.state.history

variable {P} {cfg : Config}

/-- Every operation keeps the accounts. -/
theorem Accounted.step (accountable : P.Accountable cfg) {run : QueueRun Node Msg Event}
    (accounted : P.Accounted cfg run) (op : QueueOp Node Call) :
    P.Accounted cfg (P.step run op) := by
  unfold Proposer.step
  split
  · exact accounted
  cases op with
  | transaction t =>
    -- An accepted transaction joins the end of the queue, and no block is proposed.
    obtain ⟨node, left, myid, queue⟩ := accountable.transaction t run.state
    refine ⟨?_, ?_, ?_⟩
    · simp only [left, queue, accounted.queue, List.append_assoc]
    · simp only [left, accounted.blocks]
    · simp only [left, myid]
      exact accounted.sent
  | propose call =>
    -- The batches leave the front of the queue, and the new blocks deliver what they do of them.
    obtain ⟨myid, queue, blocks, noted, delivered, sent⟩ := accountable.propose call run.state
    refine ⟨?_, ?_, ?_⟩
    · simp only [List.flatMap_append, List.append_assoc, ← queue]
      exact accounted.queue
    · simp only [noted, List.flatMap_append, accounted.blocks, delivered]
    · simp only [myid, noted]
      intro q peer
      rw [sent q peer, accounted.sent q peer]
  | other node =>
    -- Whatever else happens to the node, its queue is as it was.
    obtain ⟨myid, queue⟩ := accountable.resume run.state.node node
    refine ⟨?_, accounted.blocks, ?_⟩
    · simp only [queue]
      exact accounted.queue
    · simp only [myid]
      exact accounted.sent

/-- So does every interleaving of operations. -/
theorem Accountable.run (accountable : P.Accountable cfg) {start : Node}
    (empty : P.transactions start = []) (ops : List (QueueOp Node Call)) :
    P.Accounted cfg (P.run start ops) := by
  induction ops using List.reverseRecOn with
  | nil => exact ⟨by simp [Proposer.run, empty], rfl, fun _ _ => rfl⟩
  | append_singleton ops op ih =>
    rw [Proposer.run, List.foldl_append]
    exact ih.step accountable op

/-- Over an interleaving nothing is dropped or repeated exactly when no batch loses anything. -/
theorem Accountable.conserved_iff (accountable : P.Accountable cfg) {start : Node}
    (empty : P.transactions start = []) (ops : List (QueueOp Node Call)) :
    P.Conserved cfg (P.run start ops)
      ↔ ∀ b ∈ (P.run start ops).batches, b.Lossless Transaction.isReal := by
  have accounted := accountable.run empty ops
  -- The accounts say what was taken and what was delivered, so the batches are left to look at.
  rw [← Batch.conserved_iff accounted.queue, ← accounted.blocks]
  exact ⟨fun conserved => conserved.conserved, fun conserved => ⟨conserved, accounted.sent⟩⟩

section Frames

variable {batches : List (Batch Transaction)} {l l' : Local Node Msg Event}

/-- Where nothing is done, nothing is taken. -/
theorem Does.refl (l : Local Node Msg Event) : P.Does cfg [] l l :=
  ⟨rfl, rfl, [], by simp, rfl, fun _ _ => by simp⟩

/-- What was done stands when the node changes in other ways. -/
theorem Does.node (does : P.Does cfg batches l l') {node : Node}
    (myid : P.myid node = P.myid l'.node) (queue : P.transactions node = P.transactions l'.node) :
    P.Does cfg batches l { l' with node := node } :=
  ⟨myid.trans does.myid, by rw [does.queue, queue], does.blocks⟩

/-- It stands when an event is noted that is no proposal. -/
theorem Does.note (does : P.Does cfg batches l l') {event : Event} (other : P.noted event = none) :
    P.Does cfg batches l { l' with history := event :: l'.history } := by
  refine ⟨does.myid, does.queue, ?_⟩
  -- An event that is no proposal is passed over when the proposed blocks are collected.
  have same : P.proposed (event :: l'.history) = P.proposed l'.history := by
    simp [proposed, other]
  rw [same]
  exact does.blocks

/-- It stands when a message is sent that is no proposal. -/
theorem Does.send (does : P.Does cfg batches l l') {msg : Msg} (other : P.proposal msg = none)
    (recipients : List PID) :
    P.Does cfg batches l { l' with sent := l'.sent ++ recipients.map (⟨·, msg⟩) } := by
  obtain ⟨blocks, noted, delivered, sent⟩ := does.blocks
  refine ⟨does.myid, does.queue, blocks, noted, delivered, fun q peer => ?_⟩
  rw [← sent q peer]
  simp [sentTo, List.filterMap_append, List.filterMap_map, other]

/-- A proposal sent to all other nodes reaches each of them once. -/
theorem sentTo_proposal {msg : Msg} {block : Block} (carries : P.proposal msg = some block)
    {q myid : PID} (peer : q ∈ cfg.peers myid) :
    P.sentTo q ((cfg.remove_from_peers myid myid).map (⟨·, msg⟩)) = [block] := by
  have others : (cfg.remove_from_peers myid myid).Nodup :=
    (List.nodup_range.filter _).filter _
  have member : q ∈ cfg.remove_from_peers myid myid := by
    have known : q < cfg.total ∧ q ≠ myid := by simpa [Config.peers] using peer
    exact Config.mem_remove_from_peers.2 known
  -- Among the recipients, which are distinct, there is one packet to this node.
  have one : (cfg.remove_from_peers myid myid).filter (· = q) = [q] := by
    rw [List.filter_eq, List.count_eq_one_of_mem others member]
    rfl
  have packets : P.sentTo q ((cfg.remove_from_peers myid myid).map (⟨·, msg⟩))
      = ((cfg.remove_from_peers myid myid).filter (· = q)).map fun _ => block := by
    rw [sentTo, List.filterMap_map, ← List.filterMap_eq_map, List.filterMap_filter]
    refine List.filterMap_congr fun d _ => ?_
    -- A packet counts for its recipient only.
    by_cases same : d = q <;> simp [same, carries]
  rw [packets, one]
  rfl

/-- Taking a batch without proposing anything delivers nothing of it. -/
theorem Does.refused {taken : List Transaction} (myid : P.myid l'.node = P.myid l.node)
    (queue : P.transactions l.node = taken ++ P.transactions l'.node)
    (history : l'.history = l.history) (sent : l'.sent = l.sent) :
    P.Does cfg [⟨taken, false⟩] l l' :=
  ⟨myid, by simpa using queue, [], by simp [history], rfl, fun q _ => by simp [sent]⟩

/-- Taking a batch into a proposal delivers what the block has of it. -/
theorem Does.proposed {taken : List Transaction} (myid : P.myid l'.node = P.myid l.node)
    (queue : P.transactions l.node = taken ++ P.transactions l'.node) {event : Event}
    {block : Block} (noted : P.noted event = some block)
    (history : l'.history = event :: l.history) {msg : Msg} (carries : P.proposal msg = some block)
    (sent : l'.sent = l.sent
      ++ (cfg.remove_from_peers (P.myid l.node) (P.myid l.node)).map (⟨·, msg⟩))
    (contents : (P.contents block).filter Transaction.isReal = taken.filter Transaction.isReal) :
    P.Does cfg [⟨taken, true⟩] l l' := by
  refine ⟨myid, by simpa using queue, [block], ?_, ?_, fun q peer => ?_⟩
  · simp [history, Proposer.proposed, noted]
  · simp [Batch.kept, contents]
  · rw [sent, ← sentTo_proposal carries peer]
    simp [sentTo]

/-- Two steps one after the other take the batches of both. -/
theorem Does.trans {more : List (Batch Transaction)} {l'' : Local Node Msg Event}
    (first : P.Does cfg batches l l') (second : P.Does cfg more l' l'') :
    P.Does cfg (batches ++ more) l l'' := by
  obtain ⟨blocks, noted, delivered, sent⟩ := first.blocks
  -- The blocks of the second step come after those of the first one, here and at every recipient.
  obtain ⟨blocks', noted', delivered', sent'⟩ := second.blocks
  refine ⟨second.myid.trans first.myid, ?_, blocks ++ blocks', ?_, ?_, fun q peer => ?_⟩
  · rw [first.queue, second.queue, List.flatMap_append, List.append_assoc]
  · rw [noted', noted, List.append_assoc]
  · rw [List.flatMap_append, List.flatMap_append, delivered, delivered']
  · rw [sent' q (by rwa [first.myid]), sent q peer, List.append_assoc]

end Frames

end Proposer

/-- How a leader of the basic protocol proposes; the next view is entered as a separate matter. -/
def Handler.proposer [Hashing] (cfg : Config) :
    Proposer Handler MsgBasic BasicEvent Unit Block where
  myid := (·.myid)
  clients := (·.clients)
  transactions := (·.transactions)
  resume h h' := { h' with myid := h.myid, transactions := h.transactions }
  handleTransaction := Handler.handleTransaction
  propose _ := Handler.prepare cfg (return ())
  contents := (·.transactions)
  proposal
    | .ldrPrepare msg => some msg.prop.block
    | _ => none
  noted
    | .voted _ _ block _ _ => some block
    | _ => none
  batches _ h :=
    let justNV := h.log.findHighestNv h.view
    Batch.cut cfg.maxNumTransactions (h.tf.votesOn cfg.nodes justNV) 1 h.transactions

/-- How a leader of the parallel protocol proposes, for one slot after the other. -/
def HandlerPara.proposer [Hashing] (cfg : Config) :
    Proposer HandlerPara MsgPara ParaEvent Just PBlock where
  myid := (·.myid)
  clients := (·.clients)
  transactions := (·.transactions)
  resume h h' := { h' with myid := h.myid, transactions := h.transactions }
  handleTransaction := HandlerPara.handleTransaction
  propose := HandlerPara.preparePara cfg
  contents := (·.transactions)
  proposal
    | .ldrPrepare msg => some msg.prop.block
    | _ => none
  noted
    | .voted _ _ block => some block
    | _ => none
  batches just h :=
    match just.getRDataPara with
    | none => []
    | some _ => Batch.cut cfg.maxNumTransactions (h.tpara.votesOn cfg.nodes just)
        (HandlerPara.slotsToPropose cfg h.myid) h.transactions

namespace Proposer

open Program

section Basic

open Handler

variable [Hashing] {cfg : Config} {batches : List (Batch Transaction)} {l l' : Handler.State}

theorem keeps_callTEEstore {just : Just} :
    Keeps ((Handler.proposer cfg).Does cfg batches l) (callTEEstore cfg just) := by
  apply keeps_this.bind
  intro h
  apply (keeps_ofOption _).bind
  rintro ⟨out, tf⟩
  apply Keeps.bind (keeps_modify fun _ does => does.node rfl rfl)
  intro _
  have noted : Keeps ((Handler.proposer cfg).Does cfg batches l)
      (note (.stored h.myid just.rdata) : Handler.M Unit) :=
    keeps_note fun _ does => does.note rfl
  exact keeps_ite (fun _ => noted.bind fun _ => keeps_pure out) fun _ => keeps_pure out

theorem keeps_executeRData {rdata : RData} :
    Keeps ((Handler.proposer cfg).Does cfg batches l) (executeRData cfg (return ()) rdata) := by
  apply keeps_this.bind
  intro h
  apply Keeps.bind (keeps_note fun _ does => does.note rfl)
  intro _
  have replied : Keeps ((Handler.proposer cfg).Does cfg batches l) (replyHash rdata.proph) := by
    apply keeps_this.bind
    intro h
    split
    · refine keeps_ite (fun _ => ?_) fun _ => keeps_pure ()
      exact keeps_modify fun _ does => does.node rfl rfl
    · exact keeps_pure ()
  apply replied.bind
  intro _
  exact keeps_ite (fun _ => keeps_pure ()) fun _ => keeps_pure ()

theorem keeps_initiateCommit {rdata : RData} :
    Keeps ((Handler.proposer cfg).Does cfg batches l) (initiateCommit cfg (return ()) rdata) := by
  apply keeps_this.bind
  intro h
  refine keeps_ite (fun _ => ?_) fun _ => keeps_pure ()
  exact Keeps.bind (fun _ does => does.send rfl _) fun _ => keeps_executeRData

theorem keeps_initiatePrecommit {rdata : RData} :
    Keeps ((Handler.proposer cfg).Does cfg batches l)
      (initiatePrecommit cfg (return ()) rdata) := by
  apply keeps_this.bind
  intro h
  refine keeps_ite (fun _ => ?_) fun _ => keeps_pure ()
  apply Keeps.bind fun _ does => does.send rfl _
  intro _
  apply keeps_callTEEstore.bind
  intro just
  apply (keeps_ofOption _).bind
  intro rdataCom
  refine Keeps.bind (fun _ does => does.node rfl rfl) fun count => ?_
  exact keeps_ite (fun _ => keeps_initiateCommit) fun _ => keeps_pure ()

theorem keeps_initiatePrepare {rdata : RData} :
    Keeps ((Handler.proposer cfg).Does cfg batches l) (initiatePrepare cfg (return ()) rdata) := by
  apply keeps_this.bind
  intro h
  refine keeps_ite (fun _ => ?_) fun _ => keeps_pure ()
  apply Keeps.bind fun _ does => does.send rfl _
  intro _
  apply keeps_callTEEstore.bind
  intro just
  apply (keeps_ofOption _).bind
  intro rdataPc
  refine Keeps.bind (fun _ does => does.node rfl rfl) fun count => ?_
  exact keeps_ite (fun _ => keeps_initiatePrecommit) fun _ => keeps_pure ()

/-- A leader takes one batch, and delivers it exactly if its component votes. -/
theorem prepare_does (call : Unit) (l : Handler.State) :
    (Handler.proposer cfg).Does cfg ((Handler.proposer cfg).batches call l.node) l
      ((Handler.proposer cfg).propose call l).state := by
  refine @Gives.state _ _ _ _
    ((Handler.proposer cfg).Does cfg ((Handler.proposer cfg).batches call l.node) l) ?_
  change (prepare cfg (return ())).Gives _ _ l
  simp only [prepare, createNewBlock, callTEEprepare, gives_bind, gives_this, gives_modify,
    gives_pure]
  -- A stored report or the dummy: either has the tag of the basic protocol, so nothing is thrown.
  obtain ⟨rd, tagged⟩ : ∃ rd, (l.node.log.findHighestNv l.node.view).getRData = some rd := by
    rcases l.node.log.findHighestNv_mem l.node.view with ⟨-, highest⟩ | ⟨msg, -, highest, -⟩
    · exact ⟨_, by rw [highest]; rfl⟩
    · exact ⟨_, by rw [highest]; rfl⟩
  rw [tagged, gives_ofOption_some]
  -- Of the new block only its real transactions matter, which are those taken.
  generalize created : Block.ofTransactions rd.justh
    (min cfg.maxNumTransactions l.node.transactions.length)
    (cfg.fillBlock l.node.transactions) = block
  have contents : block.transactions.filter Transaction.isReal
      = (l.node.transactions.take cfg.maxNumTransactions).filter Transaction.isReal := by
    rw [← created]
    exact filter_fillBlock cfg l.node.transactions
  have queue : l.node.transactions = l.node.transactions.take cfg.maxNumTransactions
      ++ l.node.transactions.drop cfg.maxNumTransactions :=
    (List.take_append_drop _ _).symm
  have taken : (Handler.proposer cfg).batches call l.node
      = [⟨l.node.transactions.take cfg.maxNumTransactions,
        l.node.tf.votesOn cfg.nodes (l.node.log.findHighestNv l.node.view)⟩] := rfl
  rcases l.node.tf.TEEprepare_cases cfg.nodes block.hash (l.node.log.findHighestNv l.node.view) with
    ⟨refuses, thrown | called⟩ | ⟨rd', -, votes, called⟩
  · rw [TrustedFun.TEEprepare, tagged] at thrown
    dsimp only at thrown
    split at thrown <;> cases thrown
  · -- Nothing is proposed, but the block was filled already.
    rw [called, taken, refuses]
    exact Does.refused rfl queue rfl rfl
  · rw [called, taken, votes]
    simp only [TrustedFun.sign, gives_ofOption_some, gives_bind, Just.set_ofRData, if_true,
      Just.getRData_ofRData, gives_keepBlock, gives_multicast, gives_storePrep]
    -- The vote is noted and the proposal sent; what follows touches neither queue nor proposals.
    refine gives_ite (fun _ => keeps_initiatePrepare _ ?_) fun _ => ?_
    · exact Does.proposed rfl queue rfl rfl rfl rfl contents
    · exact Does.proposed rfl queue rfl rfl rfl rfl contents

/-- A handler that enters the next view last, if it enters it at all. -/
def EntersLast (handler : Handler.M Unit → Handler.M Unit) : Prop :=
  ∀ next l, handler next l = handler (return ()) l
    ∨ handler next l = (handler (return ()) >>= fun _ => next) l

omit [Hashing] in
theorem entersLast_const (p : Handler.M Unit) : EntersLast fun _ => p := fun _ _ => .inl rfl

omit [Hashing] in
theorem entersLast_bind {α : Type} {p : Handler.M α} {f : α → Handler.M Unit → Handler.M Unit}
    (last : ∀ a, EntersLast (f a)) : EntersLast fun next => p >>= fun a => f a next := by
  intro next l
  -- What comes before does not depend on how the next view is entered.
  cases ended : p l with
  | done a l' =>
    have goes : ∀ next, andThen p (fun a => f a next) l = f a next l' := fun next => by
      simp only [andThen, ended]
    -- The rest goes on with the same result from the same state, whatever the next view is.
    rcases last a next l' with same | entered
    · exact .inl ((goes next).trans (same.trans (goes (return ())).symm))
    · right
      refine (goes next).trans (entered.trans ?_)
      change andThen (f a (return ())) (fun _ => next) l'
        = andThen (andThen p fun a => f a (return ())) (fun _ => next) l
      unfold andThen
      simp only [ended]
  | halted l' =>
    have stops : ∀ next, andThen p (fun a => f a next) l = .halted l' := fun next => by
      simp only [andThen, ended]
    exact .inl ((stops next).trans (stops (return ())).symm)

omit [Hashing] in
theorem entersLast_ite {c : Prop} [Decidable c] {f g : Handler.M Unit → Handler.M Unit}
    (yes : EntersLast f) (no : EntersLast g) :
    EntersLast fun next => if c then f next else g next := by
  by_cases chosen : c
  · simpa only [if_pos chosen] using yes
  · simpa only [if_neg chosen] using no

/-- Proposing enters the next view last, so whatever is done there is done afterwards. -/
theorem prepare_entersLast : EntersLast (prepare cfg) := by
  -- From the last function called up to `prepare`: each calls the next one at its very end.
  have executes : ∀ rdata, EntersLast fun next => executeRData cfg next rdata := fun rdata =>
    entersLast_bind fun h => entersLast_bind fun _ => entersLast_bind fun _ =>
      entersLast_ite (entersLast_const _) fun _ _ => .inr rfl
  have commits : ∀ rdata, EntersLast fun next => initiateCommit cfg next rdata := fun rdata =>
    entersLast_bind fun h => entersLast_ite (entersLast_bind fun _ => executes rdata)
      (entersLast_const _)
  have precommits : ∀ rdata, EntersLast fun next => initiatePrecommit cfg next rdata := fun rdata =>
    entersLast_bind fun h => entersLast_ite
      (entersLast_bind fun _ => entersLast_bind fun _ => entersLast_bind fun rdataCom =>
        entersLast_bind fun _ => entersLast_ite (commits rdataCom) (entersLast_const _))
      (entersLast_const _)
  have prepares : ∀ rdata, EntersLast fun next => initiatePrepare cfg next rdata := fun rdata =>
    entersLast_bind fun h => entersLast_ite
      (entersLast_bind fun _ => entersLast_bind fun _ => entersLast_bind fun rdataPc =>
        entersLast_bind fun _ => entersLast_ite (precommits rdataPc) (entersLast_const _))
      (entersLast_const _)
  exact entersLast_bind fun h => entersLast_bind fun rdataNV => entersLast_bind fun block =>
    entersLast_bind fun justPrep => entersLast_ite
      (entersLast_bind fun rdata => entersLast_bind fun _ => entersLast_bind fun _ =>
        entersLast_bind fun _ => entersLast_ite (prepares rdata) (entersLast_const _))
      (entersLast_const _)

/-- Accepting transactions and proposing account for the queue of a basic node. -/
theorem accountable_basic (cfg : Config) : (Handler.proposer cfg).Accountable cfg where
  transaction t l := by
    refine @Gives.state _ _ _ _ (fun l' => ∃ node : Handler, l' = { l with node := node }
      ∧ node.myid = l.node.myid ∧ node.transactions = l.node.transactions
        ++ if (acceptTransaction l.node.clients t).isSome then [t] else []) ?_
    change (Handler.handleTransaction t).Gives _ _ l
    simp only [Handler.handleTransaction, gives_bind, gives_this]
    cases accepted : acceptTransaction l.node.clients t with
    | none => exact ⟨l.node, rfl, rfl, by simp⟩
    | some clients => exact ⟨_, rfl, rfl, by simp⟩
  propose := prepare_does
  resume _ _ := ⟨rfl, rfl⟩

end Basic

section Para

open HandlerPara

variable [Hashing] {cfg : Config} {l : HandlerPara.State} {just : Just} {rdata : RDataPara}

/-- For each slot a leader takes one batch, and delivers it exactly if its component votes. -/
theorem proposeBlock_does (tagged : just.getRDataPara = some rdata) (prevHash : Hash) :
    (proposeBlock cfg just prevHash).Gives
      (fun _ l' => (HandlerPara.proposer cfg).Does cfg
          [⟨l.node.transactions.take cfg.maxNumTransactions, l.node.tpara.votesOn cfg.nodes just⟩]
          l l'
        ∧ l'.node.tpara.view = l.node.tpara.view) (fun _ => False) l := by
  simp only [proposeBlock, createNewBlockPara, callTEEpreparePara, gives_bind, gives_this,
    gives_modify, gives_pure]
  -- Of the new block only its real transactions matter, which are those taken.
  generalize created : PBlock.ofTransactions prevHash
    (min cfg.maxNumTransactions l.node.transactions.length) l.node.localSeq
    (cfg.fillBlock l.node.transactions) = block
  have contents : block.transactions.filter Transaction.isReal
      = (l.node.transactions.take cfg.maxNumTransactions).filter Transaction.isReal := by
    rw [← created]
    exact filter_fillBlock cfg l.node.transactions
  have queue : l.node.transactions = l.node.transactions.take cfg.maxNumTransactions
      ++ l.node.transactions.drop cfg.maxNumTransactions :=
    (List.take_append_drop _ _).symm
  rcases l.node.tpara.TEEprepare_cases cfg.nodes block just with
    ⟨refuses, thrown | called⟩ | ⟨rd, -, votes, called⟩
  · rw [TrustedPara.TEEprepare, tagged] at thrown
    dsimp only at thrown
    split at thrown <;> cases thrown
  · rw [called, refuses]
    simp only [gives_ofOption_some, gives_noteIf, gives_pure, Just.defaultPara,
      Bool.false_eq_true, if_false]
    -- The block is dropped with the transactions in it; the leader goes on with the next slot.
    exact ⟨Does.refused rfl queue rfl rfl, trivial⟩
  · rw [called, votes]
    simp only [TrustedPara.signBlock, gives_ofOption_some, gives_bind, gives_modify, gives_noteIf,
      gives_pure, Just.set_ofRDataPara, if_true, Just.getRDataPara_ofRDataPara, gives_this,
      gives_multicast, gives_storePrepPara]
    exact ⟨Does.proposed rfl queue rfl rfl rfl rfl contents, rfl⟩

/-- Over the slots the queue is cut into batches, all of which are delivered or none. -/
theorem proposeBlocks_does (tagged : just.getRDataPara = some rdata) (slots : Nat)
    (prevHash : Hash) :
    (proposeBlocks cfg just slots prevHash).Gives
      (fun _ l' => (HandlerPara.proposer cfg).Does cfg
        (Batch.cut cfg.maxNumTransactions (l.node.tpara.votesOn cfg.nodes just) slots
          l.node.transactions) l l') (fun _ => False) l := by
  induction slots generalizing l prevHash with
  | zero => exact Does.refl l
  | succ slots ih =>
    unfold proposeBlocks
    rw [gives_bind]
    refine (proposeBlock_does tagged prevHash).mono (fun next l₁ proposed => ?_)
      fun _ stopped => stopped
    obtain ⟨does, view⟩ := proposed
    -- Induction on the slots; the vote for the first one decides as the others do.
    refine (ih next).mono (fun _ l₂ more => ?_) fun _ stopped => stopped
    -- What the next slots take comes after what the first one took.
    have left : l₁.node.transactions = l.node.transactions.drop cfg.maxNumTransactions := by
      have queue := does.queue
      rw [List.flatMap_singleton] at queue
      exact (List.append_cancel_left ((List.take_append_drop _ _).trans queue)).symm
    rw [votesOn_of_view view, left] at more
    exact does.trans more

/-- A leader takes one batch for each slot that it proposes for. -/
theorem preparePara_does (just : Just) (l : HandlerPara.State) :
    (HandlerPara.proposer cfg).Does cfg ((HandlerPara.proposer cfg).batches just l.node) l
      ((HandlerPara.proposer cfg).propose just l).state := by
  refine @Gives.state _ _ _ _
    ((HandlerPara.proposer cfg).Does cfg ((HandlerPara.proposer cfg).batches just l.node) l) ?_
  change (preparePara cfg just).Gives _ _ l
  unfold preparePara
  cases tagged : just.getRDataPara with
  | none =>
    have nothing : (HandlerPara.proposer cfg).batches just l.node = [] := by
      simp only [HandlerPara.proposer, tagged]
    rw [nothing]
    exact Does.refl l
  | some rdata =>
    have taken : (HandlerPara.proposer cfg).batches just l.node
        = Batch.cut cfg.maxNumTransactions (l.node.tpara.votesOn cfg.nodes just)
          (slotsToPropose cfg l.node.myid) l.node.transactions := by
      simp only [HandlerPara.proposer, tagged]
    rw [gives_bind, gives_ofOption_some, gives_bind, gives_this, gives_bind, gives_note, gives_bind,
      gives_modify, taken]
    -- The slots are numbered from the first one that the leader does not leave out.
    have begun : (HandlerPara.proposer cfg).Does cfg [] l { l with
        node := { l.node with
          localSeq := if ((l.node.myid % 4 : Nat) : Int) = cfg.byzantine then 2 else 1 }
        history := .prepared l.node.myid l.node.view rdata :: l.history } :=
      ((Does.refl l).note rfl).node rfl rfl
    exact (proposeBlocks_does tagged _ _).mono (fun _ _ does => begun.trans does)
      fun _ stopped => stopped.elim

/-- Accepting transactions and proposing account for the queue of a node of the parallel protocol. -/
theorem accountable_para (cfg : Config) : (HandlerPara.proposer cfg).Accountable cfg where
  transaction t l := by
    refine @Gives.state _ _ _ _ (fun l' => ∃ node : HandlerPara, l' = { l with node := node }
      ∧ node.myid = l.node.myid ∧ node.transactions = l.node.transactions
        ++ if (acceptTransaction l.node.clients t).isSome then [t] else []) ?_
    change (HandlerPara.handleTransaction t).Gives _ _ l
    simp only [HandlerPara.handleTransaction, gives_bind, gives_this]
    cases accepted : acceptTransaction l.node.clients t with
    | none => exact ⟨l.node, rfl, rfl, by simp⟩
    | some clients => exact ⟨_, rfl, rfl, by simp⟩
  propose := preparePara_does
  resume _ _ := ⟨rfl, rfl⟩

end Para

/--
Nothing is dropped or repeated over an interleaving exactly when each call that takes transactions
from the queue finds a component that will sign, and takes no transaction with the id of a dummy.
-/
theorem conserved_iff_lossless [Hashing] (cfg : Config) (choices : PID → List Nat) (myid : PID)
    (ops : List (QueueOp Handler Unit)) (opsPara : List (QueueOp HandlerPara Just)) :
    ((Handler.proposer cfg).Conserved cfg
        ((Handler.proposer cfg).run (Handler.init cfg myid) ops)
      ↔ ∀ b ∈ ((Handler.proposer cfg).run (Handler.init cfg myid) ops).batches,
        b.Lossless Transaction.isReal)
    ∧ ((HandlerPara.proposer cfg).Conserved cfg
        ((HandlerPara.proposer cfg).run (HandlerPara.init cfg choices myid) opsPara)
      ↔ ∀ b ∈ ((HandlerPara.proposer cfg).run (HandlerPara.init cfg choices myid) opsPara).batches,
        b.Lossless Transaction.isReal) :=
  ⟨(accountable_basic cfg).conserved_iff rfl ops, (accountable_para cfg).conserved_iff rfl opsPara⟩

/-- A node knows client 0, which runs and sends a transaction. -/
def oneClient : Clients := (∅ : Clients).insert 0 ⟨true, 0, 0⟩

def oneTransaction : Transaction := ⟨0, 7, []⟩

/-- A report of the highest view there is, with a signature of node 3 that does not verify. -/
def forgedReport : MsgNewView :=
  ⟨⟨Hash.ofBool false, 0, Hash.default, 1, PH1_NEWVIEW⟩, [⟨true, 3, .other 0⟩]⟩

/-- The same report in the parallel protocol. -/
def forgedReportPara : Just :=
  Just.ofRDataPara ⟨Hash.ofBool false, 0, Hash.default, 1, PH1_NEWVIEW, 1⟩ [⟨true, 3, .other 0⟩]

/--
A leader accepts a transaction, and its component refuses to sign a block on a forged report: the
transaction is in no block, and no longer pending.
-/
theorem conserved_refused :
    let _ := Checksum.hashing
    let cfg := Schedule.fourNodes
    let basic := Handler.init cfg 0
    let para := HandlerPara.init cfg (fun _ => []) 0
    ¬ (Handler.proposer cfg).Conserved cfg ((Handler.proposer cfg).run basic
        [.other { basic with clients := oneClient, log := (basic.log.storeNv forgedReport).2 },
          .transaction oneTransaction, .propose ()])
      ∧ ¬ (HandlerPara.proposer cfg).Conserved cfg ((HandlerPara.proposer cfg).run para
        [.other { para with clients := oneClient }, .transaction oneTransaction,
          .propose forgedReportPara]) := by
  intro _ cfg basic para
  constructor
  · intro conserved
    exact absurd conserved.conserved (by decide +kernel)
  · intro conserved
    exact absurd conserved.conserved (by decide +kernel)

end Proposer

end ParaHotstuff
