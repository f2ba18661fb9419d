import ParaHotstuff.Lib.Tally
import ParaHotstuff.Proofs.Chained.Agreement
import ParaHotstuff.Proofs.Deployment
import ParaHotstuff.Proofs.Transactions

/-! How often a node of the chained protocol executes what clients hand in. -/

namespace ParaHotstuff

namespace HandlerCh

open Program Local

section Counting

/-- The blocks that a node voted for in views of its own. -/
def ownProposals (cfg : Config) (p : PID) (H : List ChEvent) : List JBlock :=
  H.filterMap fun
    | .voted q _ b => if q = p ∧ cfg.getLeaderOf b.view = p then some b else none
    | _ => none

/-- The transactions of the blocks that a node has executed. -/
def executedTransactions (H : List ChEvent) (p : PID) : List Transaction :=
  (executedBy H p).flatMap (·.transactions)

/-- What is known of a node apart from its accounts: it stores only proposals of other leaders. -/
structure Serving (cfg : Config) (p : PID) (h : HandlerCh) : Prop where
  known : p < cfg.total
  myid : h.myid = p
  foreign : ∀ {v m}, m ∈ h.log.ldrpreparesCh.held v → cfg.getLeaderOf m.block.view ≠ p

variable [Hashing] [SignatureBytes]

/-- A node proposes what it votes for in views of its own. -/
def books (cfg : Config) (depth : Nat) : Books HandlerCh MsgCh ChEvent where
  replica := replica cfg depth
  actor := ChEvent.actor
  pending := HandlerCh.transactions
  proposed p H := (ownProposals cfg p H).flatMap (·.transactions)
  executed p H := executedTransactions H p
  own p h _ := Serving cfg p h
  facts H := ∀ e ∈ H, e.actor < cfg.total
  good _ _ := True

variable {cfg : Config} {depth : Nat} {t : Transaction} {p q : PID} {h h' : HandlerCh}
variable {H : List ChEvent} {block : JBlock}

omit [Hashing] [SignatureBytes] in
/-- What other nodes do adds nothing to the proposals of a node. -/
theorem ownProposals_append {added : List ChEvent} (others : ∀ e ∈ added, e.actor ≠ p) :
    ownProposals cfg p (added ++ H) = ownProposals cfg p H := by
  have nothing : ownProposals cfg p added = [] := by
    rw [ownProposals, List.filterMap_eq_nil_iff]
    intro e member
    cases e with
    | voted q r b => exact if_neg fun same => others _ member same.1
    | executed | entered => rfl
  rw [ownProposals, List.filterMap_append]
  exact congrArg (· ++ _) nothing

omit [Hashing] [SignatureBytes] in
/-- A node that executes a block has executed the transactions in it as well. -/
theorem executedTransactions_executed : executedTransactions (.executed p block :: H) q
    = (if p = q then block.transactions else []) ++ executedTransactions H q := by
  by_cases same : p = q <;> simp [executedTransactions, executedBy, same]

theorem books_steady : (books cfg depth).Steady where
  own := fun own _ _ => own
  good := fun _ _ => trivial
  others := by
    intro p H added others
    refine ⟨?_, ?_⟩
    · simp only [books, ownProposals_append others]
    · simp only [books, executedTransactions, (Foreign.of_others others).executedBy]

omit [Hashing] [SignatureBytes] in
/-- Only the stored proposals matter. -/
theorem Serving.node (serving : Serving cfg p h) (myid : h'.myid = h.myid)
    (proposals : h'.log.ldrpreparesCh = h.log.ldrpreparesCh) : Serving cfg p h' where
  known := serving.known
  myid := myid.trans serving.myid
  foreign := fun member => serving.foreign (proposals ▸ member)

end Counting

section Handlers

/-- The knowledge inside a handler of node p, as a property that programs keep. -/
abbrev Tallied [Hashing] [SignatureBytes] (cfg : Config) (depth : Nat) (t : Transaction)
    (key : TID × CID) (ledger : Ledger) (p : PID) (start : List ChEvent) : State → Prop :=
  ((books cfg depth).knowledge t key ledger 0).Inside p start

namespace Tallied

variable [Hashing] [SignatureBytes]
variable {cfg : Config} {t : Transaction} {key : TID × CID} {ledger : Ledger}
variable {moving n depth : Nat} {p : PID}
variable {start : List ChEvent} {l : State} {h : HandlerCh} {block : JBlock}

/-- The accounts of the node that is active. -/
theorem kept (inside : ((books cfg depth).knowledge t key ledger moving).Inside p start l) :
    Serving cfg p l.node
      ∧ l.node.transactions.count t + moving
        + ((ownProposals cfg p l.history).flatMap (·.transactions)).count t ≤ ledger.handed p
      ∧ l.node.rep_queue.count key + ledger.answered p
        ≤ (executedTransactions l.history p).countP (Transaction.answeredAs key) :=
  have own : (books cfg depth).Kept t key ledger moving p l.node l.history := inside.own
  ⟨own.own, own.taken, own.replied⟩

theorem change (tallied : Tallied cfg depth t key ledger p start l) (myid : h.myid = l.node.myid)
    (queue : h.transactions = l.node.transactions) (replies : h.rep_queue = l.node.rep_queue)
    (proposals : h.log.ldrpreparesCh = l.node.log.ldrpreparesCh) :
    Tallied cfg depth t key ledger p start { l with node := h } :=
  Books.changed tallied ((kept tallied).1.node myid proposals) queue replies

/-- An event of the active node after which its accounts are in order. -/
theorem event (inside : ((books cfg depth).knowledge t key ledger moving).Inside p start l)
    {e : ChEvent} (mine : e.actor = p) (serving : Serving cfg p h)
    (taken : h.transactions.count t
      + ((ownProposals cfg p (e :: l.history)).flatMap (·.transactions)).count t ≤ ledger.handed p)
    (replied : h.rep_queue.count key + ledger.answered p
      ≤ (executedTransactions (e :: l.history) p).countP (Transaction.answeredAs key)) :
    Tallied cfg depth t key ledger p start { l with node := h, history := e :: l.history } := by
  refine books_steady.event inside mine (fun e' member => ?_) ⟨serving, taken, replied⟩
  rcases List.mem_cons.1 member with rfl | old
  · rw [mine]
    exact serving.known
  · have balanced : (books cfg depth).Balanced t key ledger l.history := inside.facts
    exact balanced.facts e' old

theorem keeps_send (msg : MsgCh) (recipients : List PID) :
    Keeps (Tallied cfg depth t key ledger p start) (multicast_msg msg recipients : M Unit) :=
  fun _ tallied => tallied.send msg recipients fun _ _ => trivial

/-- Entering a view and executing a block propose nothing. -/
theorem keeps_noteView : Keeps (Tallied cfg depth t key ledger p start) noteView := by
  intro l tallied
  obtain ⟨serving, taken, replied⟩ := kept tallied
  exact event tallied serving.myid serving taken replied

theorem keeps_callTEEsignCh : Keeps (Tallied cfg depth t key ledger p start) callTEEsignCh := by
  apply keeps_this.bind
  intro h
  exact Keeps.bind (fun _ tallied => tallied.change rfl rfl rfl rfl) fun _ => keeps_pure _

theorem keeps_storeNvCh (msg : MsgNewViewCh) :
    Keeps (Tallied cfg depth t key ledger p start) (storeNvCh msg) :=
  fun _ tallied => tallied.change rfl rfl rfl rfl

theorem keeps_storePrepCh (msg : MsgPrepareCh) :
    Keeps (Tallied cfg depth t key ledger p start) (storePrepCh msg) :=
  fun _ tallied => tallied.change rfl rfl rfl rfl

theorem keeps_executeAllCh (blocks : List JBlock) :
    Keeps (Tallied cfg depth t key ledger p start) (executeAllCh blocks) := by
  induction blocks with
  | nil => exact keeps_pure ()
  | cons block blocks ih =>
    refine Keeps.bind ?_ fun _ => ih
    intro l tallied
    obtain ⟨serving, taken, replied⟩ := kept tallied
    -- The block is noted and marked, and the replies join their queue.
    refine event tallied serving.myid { serving with } taken ?_
    have replies := count_replyTransactions l.node.clients block.transactions key
    dsimp only
    rw [executedTransactions_executed, if_pos serving.myid, List.countP_append, List.count_append]
    omega

theorem keeps_tryExecuteCh (block block0 block1 : JBlock) :
    Keeps (Tallied cfg depth t key ledger p start) (tryExecuteCh block block0 block1) := by
  apply keeps_this.bind
  intro h
  refine keeps_ite (fun _ => ?_) fun _ => keeps_pure ()
  exact (keeps_ofOption _).bind fun blocks => keeps_executeAllCh blocks

theorem keeps_passNvCh (msg : MsgNewViewCh) :
    Keeps (Tallied cfg depth t key ledger p start) (passNvCh cfg msg) := by
  apply keeps_this.bind
  intro h
  exact keeps_ite (fun _ => (keeps_storeNvCh msg).bind fun _ => keeps_pure ())
    fun _ => keeps_send _ _

theorem keeps_passPrepCh (block : JBlock) (rdata : RData) (sign : Sign) :
    Keeps (Tallied cfg depth t key ledger p start) (passPrepCh cfg block rdata sign) := by
  apply keeps_this.bind
  intro h
  refine keeps_ite (fun _ => keeps_send _ _) fun _ => ?_
  exact keeps_ite (fun _ => (keeps_storePrepCh _).bind fun _ => keeps_pure ())
    fun _ => keeps_send _ _

/-- A block to take up: of another leader, or with transactions that have left the queue. -/
def Pending (cfg : Config) (depth : Nat) (t : Transaction) (key : TID × CID) (ledger : Ledger)
    (p : PID) (start : List ChEvent) (block : JBlock) (l : State) : Prop :=
  (cfg.getLeaderOf block.view ≠ p ∧ Tallied cfg depth t key ledger p start l)
    ∨ ((books cfg depth).knowledge t key ledger (block.transactions.count t)).Inside p start l

theorem Pending.tallied (pending : Pending cfg depth t key ledger p start block l) :
    Tallied cfg depth t key ledger p start l := by
  rcases pending with ⟨-, tallied⟩ | moving
  · exact tallied
  · exact Books.dropped moving

theorem Pending.change (pending : Pending cfg depth t key ledger p start block l)
    (myid : h.myid = l.node.myid) (queue : h.transactions = l.node.transactions)
    (replies : h.rep_queue = l.node.rep_queue)
    (proposals : h.log.ldrpreparesCh = l.node.log.ldrpreparesCh) :
    Pending cfg depth t key ledger p start block { l with node := h } := by
  rcases pending with ⟨other, tallied⟩ | moving
  · exact .inl ⟨other, tallied.change myid queue replies proposals⟩
  · exact .inr (Books.changed moving ((kept moving).1.node myid proposals) queue replies)

/-- A vote for it makes its transactions those of a proposal. -/
theorem Pending.vote (pending : Pending cfg depth t key ledger p start block l) (r : RData) :
    Tallied cfg depth t key ledger p start
      { l with history := .voted l.node.myid r block :: l.history } := by
  obtain ⟨serving, taken, replied⟩ := kept pending.tallied
  refine event pending.tallied serving.myid serving ?_ replied
  by_cases leads : cfg.getLeaderOf block.view = p
  · -- The block is one of its own proposals now.
    rcases pending with ⟨other, -⟩ | moving
    · exact absurd leads other
    have all := (kept moving).2.1
    have grown : ownProposals cfg p (.voted l.node.myid r block :: l.history)
        = block :: ownProposals cfg p l.history := by
      simp [ownProposals, serving.myid, leads]
    rw [grown, List.flatMap_cons, List.count_append]
    omega
  · have same : ownProposals cfg p (.voted l.node.myid r block :: l.history)
        = ownProposals cfg p l.history := by
      simp [ownProposals, leads]
    rw [same]
    omega

section Voting

variable {voteNext : JBlock → M Unit} (real : t.isReal = true)
variable (voting : ∀ block l, Pending cfg depth t key ledger p start block l →
  (voteNext block).Gives (fun _ => Tallied cfg depth t key ledger p start) (Tallied cfg depth t key ledger p start) l)
include voting

include real in
/-- The transactions of a proposal leave the queue before anyone votes. -/
theorem keeps_prepareCh : Keeps (Tallied cfg depth t key ledger p start) (prepareCh cfg voteNext) := by
  refine Keeps.bind ?_ fun _ => ?_
  · apply keeps_this.bind
    intro h
    refine (keeps_ofOption _).bind fun rdata => keeps_ite (fun _ => ?_) fun _ => keeps_pure ()
    exact fun _ tallied => tallied.change rfl rfl rfl rfl
  · intro l tallied
    obtain ⟨serving, taken, replied⟩ := kept tallied
    simp only [createNewBlockCh, gives_bind, gives_this, gives_modify, gives_pure]
    refine voting _ _ (.inr { tallied with own := ⟨{ serving with }, ?_, replied⟩ })
    have split := cfg.count_fillBlock real l.node.transactions
    simp only [books, JBlock.ofTransactions]
    omega

include real in
theorem keeps_checkNewJustCh (data : RData) :
    Keeps (Tallied cfg depth t key ledger p start) (checkNewJustCh cfg voteNext data) := by
  apply keeps_this.bind
  intro h
  refine keeps_ite (fun _ => ?_) fun _ => keeps_pure ()
  refine Keeps.bind (fun _ tallied => tallied.change rfl rfl rfl rfl) fun _ => ?_
  refine keeps_noteView.bind fun _ => ?_
  refine Keeps.bind (fun _ tallied => tallied.change rfl rfl rfl rfl) fun _ => ?_
  exact keeps_prepareCh real voting

/-- Stored proposals are those of other leaders. -/
theorem keeps_handleEarlierMessagesCh :
    Keeps (Tallied cfg depth t key ledger p start) (handleEarlierMessagesCh cfg voteNext) := by
  intro l tallied
  have serving := (kept tallied).1
  unfold handleEarlierMessagesCh
  rw [gives_bind, gives_this]
  refine gives_ite (fun _ => tallied) fun _ => ?_
  split
  · rename_i msg held
    refine gives_ite (fun _ => ?_) fun _ => tallied
    exact voting _ _ (.inl ⟨serving.foreign (Messages.mem_of_first held), tallied⟩)
  · exact tallied

include real in
theorem keeps_leaveViewCh (rdata : RData) :
    Keeps (Tallied cfg depth t key ledger p start) (leaveViewCh cfg voteNext rdata) := by
  apply keeps_this.bind
  intro h
  refine keeps_ite (fun _ => keeps_checkNewJustCh real voting rdata) fun _ => ?_
  refine Keeps.bind (fun _ tallied => tallied.change rfl rfl rfl rfl) fun _ => ?_
  refine keeps_noteView.bind fun _ => ?_
  refine Keeps.bind (fun _ tallied => tallied.change rfl rfl rfl rfl) fun _ => ?_
  exact keeps_handleEarlierMessagesCh voting

end Voting

variable (real : t.isReal = true)
include real

/-- Whatever comes of taking up a block, its transactions are counted once. -/
theorem voteCh_gives (n : Nat) (block : JBlock) (l : State)
    (pending : Pending cfg depth t key ledger p start block l) :
    (voteCh cfg n block).Gives (fun _ => Tallied cfg depth t key ledger p start)
      (Tallied cfg depth t key ledger p start) l := by
  -- Induction on the views that may still be entered.
  induction n generalizing block l with
  | zero => exact pending.tallied
  | succ n ih =>
    simp only [voteCh, gives_bind, gives_modify, gives_this]
    have taken : Pending cfg depth t key ledger p start block { l with node := l.node.took block } :=
      pending.change rfl rfl rfl rfl
    split
    swap
    · exact taken.tallied
    split
    swap
    · exact taken.tallied
    simp only [callTEEprepareCh, gives_bind, gives_this]
    refine gives_ofOption (fun answer _ => ?_) fun _ => taken.tallied
    have asked : Pending cfg depth t key ledger p start block
        { l with node := { l.node.took block with tp := answer.2 } } := taken.change rfl rfl rfl rfl
    simp only [gives_modify, gives_pure, callTEEsignCh, gives_bind, gives_this]
    have signed : Pending cfg depth t key ledger p start block
        { l with node := { l.node.took block with tp := answer.2.TEEsign.2 } } :=
      asked.change rfl rfl rfl rfl
    split
    swap
    · exact signed.tallied
    rw [gives_bind]
    refine gives_ofOption (fun rdata _ => ?_) fun _ => signed.tallied
    rw [gives_bind, gives_note]
    -- From here on the block is one of those voted for.
    have voted := signed.vote rdata
    refine (keeps_passPrepCh _ _ _).gives_bind voted fun _ l₁ tallied₁ => ?_
    split
    swap
    · exact tallied₁
    rw [gives_bind]
    refine gives_ofOption (fun rdataNv _ => ?_) fun _ => tallied₁
    refine (keeps_passNvCh _).gives_bind tallied₁ fun _ l₂ tallied₂ => ?_
    refine (keeps_tryExecuteCh _ _ _).gives_bind tallied₂ fun _ l₃ tallied₃ => ?_
    exact keeps_leaveViewCh real ih _ _ tallied₃

theorem keeps_handleNewviewCh (msg : MsgNewViewCh) :
    Keeps (Tallied cfg depth t key ledger p start) (handleNewviewCh cfg n msg) := by
  apply keeps_this.bind
  intro h
  refine keeps_ite (fun _ => keeps_pure ()) fun _ => keeps_ite (fun _ => ?_) fun _ => keeps_pure ()
  refine keeps_ite (fun _ => ?_) fun _ => (keeps_storeNvCh msg).bind fun _ => keeps_pure ()
  refine (keeps_storeNvCh msg).bind fun count => keeps_ite (fun _ => ?_) fun _ => ?_
  · exact keeps_prepareCh real (voteCh_gives real n)
  · exact (keeps_storeNvCh msg).bind fun _ => keeps_pure ()

/-- A proposal that is heeded is one of another leader. -/
theorem keeps_handleLdrPrepareCh (msg : MsgLdrPrepareCh) :
    Keeps (Tallied cfg depth t key ledger p start) (handleLdrPrepareCh cfg n msg) := by
  intro l tallied
  have serving := (kept tallied).1
  unfold handleLdrPrepareCh
  rw [gives_bind, gives_this]
  refine gives_ite (fun _ => tallied) fun _ => gives_ite (fun checks => ?_) fun _ => tallied
  have other : cfg.getLeaderOf msg.block.view ≠ p := by
    simp only [Bool.and_eq_true, Bool.not_eq_true'] at checks
    rw [← serving.myid]
    exact fun leads => by simp [Config.amLeaderOf_iff.2 leads] at checks
  have counted : Keeps (Tallied cfg depth t key ledger p start)
      (keepPrepCh cfg msg.block.view ⟨(ldrPrepareCh2just msg).rdata, msg.sign⟩) := by
    apply keeps_this.bind
    intro h
    exact keeps_ite (fun _ => (keeps_storePrepCh _).bind fun _ => keeps_pure ()) fun _ => keeps_pure ()
  refine counted.gives_bind tallied fun _ l' tallied' => gives_ite (fun _ => ?_) fun _ => ?_
  · exact voteCh_gives real n msg.block l' (.inl ⟨other, tallied'⟩)
  · have stored : Tallied cfg depth t key ledger p start { l' with node := l'.node.storedLdrPrep msg } := by
      refine Books.changed tallied' { (kept tallied').1 with foreign := fun member => ?_ } rfl rfl
      rcases Messages.mem_store member with old | ⟨rfl, rfl⟩
      · exact (kept tallied').1.foreign old
      · exact other
    rw [gives_bind]
    exact keeps_handleEarlierMessagesCh (voteCh_gives real n) _ stored

theorem keeps_handlePrepareCh (msg : MsgPrepareCh) :
    Keeps (Tallied cfg depth t key ledger p start) (handlePrepareCh cfg n msg) := by
  apply keeps_this.bind
  intro h
  refine keeps_ite (fun _ => keeps_pure ()) fun _ => keeps_ite (fun _ => ?_) fun _ => ?_
  · refine keeps_ite (fun _ => ?_) fun _ => keeps_pure ()
    refine (keeps_storePrepCh msg).bind fun count => keeps_ite (fun _ => ?_) fun _ => keeps_pure ()
    exact keeps_checkNewJustCh real (voteCh_gives real n) msg.data
  · exact keeps_ite (fun _ => (keeps_storePrepCh msg).bind fun _ => keeps_pure ()) fun _ => keeps_pure ()

omit real in
theorem keeps_signUntilCh (rounds : Nat) (view : View) :
    Keeps (Tallied cfg depth t key ledger p start) (signUntilCh rounds view) := by
  induction rounds with
  | zero => exact keeps_halt
  | succ rounds ih =>
    refine keeps_callTEEsignCh.bind fun just => (keeps_ofOption _).bind fun rdata => ?_
    exact keeps_ite (fun _ => ih) fun _ => keeps_pure _

theorem keeps_startNewViewCh : Keeps (Tallied cfg depth t key ledger p start) (startNewViewCh cfg n) := by
  apply keeps_this.bind
  intro h
  refine (keeps_signUntilCh _ _).bind fun justNv => ?_
  split
  · refine (keeps_ofOption _).bind fun rdata => (keeps_passNvCh _).bind fun _ => ?_
    refine Keeps.bind (fun _ tallied => tallied.change rfl rfl rfl rfl) fun _ => ?_
    refine keeps_noteView.bind fun _ => ?_
    refine Keeps.bind (fun _ tallied => tallied.change rfl rfl rfl rfl) fun _ => keeps_this.bind fun h => ?_
    exact keeps_ite (fun _ => keeps_pure ()) fun _ =>
      keeps_handleEarlierMessagesCh (voteCh_gives real n)
  · exact keeps_pure ()

theorem keeps_getStarted : Keeps (Tallied cfg depth t key ledger p start) (getStarted cfg n) := by
  refine keeps_callTEEsignCh.bind fun just => (keeps_ofOption _).bind fun rdata => ?_
  refine keeps_this.bind fun h => ?_
  refine Keeps.bind (fun _ tallied => tallied.change rfl rfl rfl rfl) fun _ => ?_
  refine keeps_noteView.bind fun _ => keeps_ite (fun _ => keeps_handleNewviewCh real _) fun _ => ?_
  exact (keeps_send _ _).bind fun _ => keeps_handleEarlierMessagesCh (voteCh_gives real n)

theorem keeps_receive (msg : MsgCh) :
    Keeps (Tallied cfg depth t key ledger p start) ((protocol cfg n).receive msg) := by
  cases msg with
  | newView m => exact keeps_handleNewviewCh real m
  | ldrPrepare m => exact keeps_handleLdrPrepareCh real m
  | prepare m => exact keeps_handlePrepareCh real m

omit real in
/-- An accepted transaction joins the end of the queue. -/
theorem handleTransaction_joins (trans : Transaction)
    (tallied : Tallied cfg depth t key ledger p start l) :
    ∃ h queue, handleTransaction trans l = .done () { l with node := h }
      ∧ Serving cfg p h ∧ h.rep_queue = l.node.rep_queue
      ∧ h.transactions = l.node.transactions ++ queue ∧ queue.Sublist [trans] := by
  have serving := (kept tallied).1
  unfold handleTransaction
  rw [bind_of_done (rfl : (this : M HandlerCh) l = .done l.node l)]
  cases acceptTransaction l.node.clients trans with
  | some clients =>
    let joined := { l.node with clients := clients, transactions := l.node.transactions ++ [trans] }
    exact ⟨joined, [trans], rfl, { serving with }, rfl, rfl, List.Sublist.refl _⟩
  | none => exact ⟨l.node, [], rfl, serving, rfl, (List.append_nil _).symm, List.nil_sublist _⟩

theorem keeps_input (i : Input) (other : ∀ trans, i ≠ .transaction trans) :
    Keeps (Tallied cfg depth t key ledger p start) ((protocol cfg n).input i) := by
  cases i with
  | start cid =>
    refine Keeps.bind (fun l tallied => ?_) fun _ => keeps_this.bind fun h => ?_
    · refine tallied.change ?_ ?_ ?_ ?_ <;> dsimp only <;> split <;> rfl
    · refine keeps_ite (fun _ => ?_) fun _ => keeps_pure ()
      refine Keeps.bind (fun _ tallied => tallied.change rfl rfl rfl rfl) fun _ => ?_
      exact keeps_getStarted real
  | transaction trans => exact absurd rfl (other trans)
  | timeout =>
    refine keeps_this.bind fun h => keeps_ite (fun _ => ?_) fun _ => keeps_pure ()
    exact keeps_ite (fun _ => keeps_pure ()) fun _ => keeps_startNewViewCh real

end Tallied

end Handlers

section Runs

variable [Hashing] [SignatureBytes] {cfg : Config} {depth : Nat} {t : Transaction} {p : PID}
variable {H : List ChEvent} {actions : List (Action ServedInput)}

theorem books_keeping : (books cfg depth).Keeping where
  toSteady := books_steady
  answering := fun own _ _ => ⟨{ own with }, rfl, rfl⟩
  receive := fun real _ inside =>
    (Tallied.keeps_receive real _ _ inside).mono (fun _ _ tallied => tallied) fun _ tallied =>
      tallied.toLeft
  input := fun real other inside =>
    (Tallied.keeps_input real _ other _ inside).mono (fun _ _ tallied => tallied) fun _ tallied =>
      tallied.toLeft
  transaction := fun trans inside => Tallied.handleTransaction_joins trans inside

/-- Nothing has been handed in at the start. -/
theorem books_initial (t : Transaction) (key : TID × CID) :
    ((books cfg depth).knowledge t key ⟨fun _ => 0, fun _ => 0⟩ 0).Holds (initial cfg) where
  own := fun p running => {
    own := {
      known := by simpa [initial] using running
      myid := rfl
      foreign := fun member => by simp [initial, init, LogCh.empty] at member }
    taken := Nat.le_refl _
    replied := Nat.le_refl _ }
  facts := ⟨fun e member => by simp [initial] at member, fun _ => Nat.le_refl _, fun _ => Nat.le_refl _⟩
  good := fun _ _ => trivial

/-- A block that was executed is genesis, or one of the proposals of the leader of its view. -/
theorem Facts.executed_proposed (facts : Facts cfg H) (positive : 0 < cfg.qsize) {b : JBlock}
    (executed : b ∈ executedBy H p) :
    b = JBlock.default ∨ b ∈ ownProposals cfg (cfg.getLeaderOf b.view) H := by
  refine ((facts.executions p).certified b executed).imp_right fun certified => ?_
  obtain ⟨Q, quorum, votes⟩ := certified
  obtain ⟨r, member⟩ := quorum.nonempty positive
  -- One vote that counts is enough for the leader's own.
  obtain ⟨rdata, vote, -⟩ := facts.leader (votes r member)
  exact List.mem_filterMap.2 ⟨_, vote, by simp⟩

/-- What a node executes of a client's transaction, the leaders of its views have proposed. -/
theorem Facts.count_executed_le (facts : Facts cfg H) (positive : 0 < cfg.qsize) (p : PID) :
    (executedTransactions H p).count t ≤ ∑ q ∈ Finset.range cfg.total,
      ((ownProposals cfg q H).flatMap (·.transactions)).count t := by
  simp only [executedTransactions, List.count_flatMap]
  -- The blocks are different ones, and genesis, which is no proposal, contains nothing.
  refine Tally.sum_le_groups ((facts.executions p).once.of_map _) (g := fun b => cfg.getLeaderOf b.view)
    (fun b _ => Nat.mod_lt _ (Nat.succ_pos _)) fun b executed something => ?_
  refine (facts.executed_proposed positive executed).resolve_left fun genesis => something ?_
  simp [genesis, JBlock.default]

/-- All that is known of a run holds as well if the nodes answer their clients in between. -/
theorem knowledge_served (three : cfg.constFactor = 3) (faults : 0 < cfg.numFaults)
    (early : Net.Meets (replica cfg depth).served (Net.Finds (Early depth)) (initial cfg) actions) :
    (knowledge cfg).Holds ((initial cfg).run (replica cfg depth).served actions) := by
  refine knowledge_of_inputs three faults rfl (fun i p start l inside room => ?_) early
  cases i with
  | input i => exact input_safe (Config.several three faults) (Config.majority three) i inside room
  | dequeue reachable =>
    -- The reply queue and the clients are bookkeeping.
    have own : Own cfg l.history p l.node := inside.own
    exact inside.node (own.bookkeeping rfl rfl rfl rfl rfl rfl rfl (.inl rfl))

/-- So what the nodes execute and answer is accounted for. -/
theorem accounts_of_early (three : cfg.constFactor = 3) (faults : 0 < cfg.numFaults)
    (early : Net.Meets (replica cfg depth).served (Net.Finds (Early depth)) (initial cfg) actions) :
    (books cfg depth).Accounts cfg.total (initial cfg) actions := by
  have facts : Facts cfg _ := (knowledge_served three faults early).facts
  have several := Config.several three faults
  refine books_keeping.accounts books_initial (fun {p t} member => ?_) fun p t _ =>
    facts.count_executed_le (by omega) p
  -- A node that executes something is active.
  have balanced : (books cfg depth).Balanced ⟨0, 1, []⟩ (0, 0) _ _ :=
    (books_keeping.run rfl (0, 0) (books_initial _ _) actions).facts
  obtain ⟨b, executed, -⟩ := List.mem_flatMap.1 member
  obtain ⟨e, event, same⟩ := List.mem_filterMap.1 executed
  have known := balanced.facts e event
  cases e with
  | executed q b' =>
    by_cases here : q = p
    · exact here ▸ known
    · simp [here] at same
  | voted | entered => cases same

/--
In every run that keeps away from the last views, no node executes a transaction of a client more
often than it was handed to the nodes, nor answers more often than it executed something to answer.
-/
theorem executed_at_most_handed (three : cfg.constFactor = 3) (faults : 0 < cfg.numFaults)
    (early : Net.Meets (replica cfg depth).served (Net.Finds (Early depth)) (initial cfg) actions)
    (real : t.isReal = true) (key : TID × CID) (p : PID) :
    let H := ((initial cfg).run (replica cfg depth).served actions).history
    (executedTransactions H p).count t ≤ actions.countP (handsIn t)
      ∧ ((replica cfg depth).replies (initial cfg) actions).count (p, key)
        ≤ (executedTransactions H p).countP (Transaction.answeredAs key) := by
  have accounts := accounts_of_early three faults early
  exact ⟨accounts.handed p t real, accounts.answered p key⟩

end Runs

section Examples

/--
A client hands its first transaction to the leader of view 1, three views go by, and node 0
handles its queue of replies.
-/
def handedOnce : List (Action ServedInput) :=
  (List.range 4).map (fun p => .input p (.input (.start 0)))
    ++ [.input 1 (.input (.transaction ⟨0, 1, []⟩))]
    ++ Schedule.deliverFrom 0 28 ++ [.input 0 (.dequeue true)]

/-- What happened in that run. -/
def handedOnceHistory : List ChEvent :=
  let _ := Checksum.hashing
  let _ := Checksum.signatureBytes
  ((initial Schedule.fourNodes).run (replica Schedule.fourNodes 3).served handedOnce).history

/-- The replies sent in it. -/
def handedOnceReplies : List (PID × TID × CID) :=
  let _ := Checksum.hashing
  let _ := Checksum.signatureBytes
  (replica Schedule.fourNodes 3).replies (initial Schedule.fourNodes) handedOnce

/-- Node 0 has executed the transaction and answered it, once each. -/
theorem executed_at_most_handed_handedOnce :
    ((executedTransactions handedOnceHistory 0).count ⟨0, 1, []⟩ = 1
        ∧ handedOnceReplies = [(0, 1, 0)])
      ∧ (executedTransactions handedOnceHistory 0).count ⟨0, 1, []⟩
        ≤ handedOnce.countP (handsIn ⟨0, 1, []⟩)
      ∧ handedOnceReplies.count (0, 1, 0)
        ≤ (executedTransactions handedOnceHistory 0).countP (Transaction.answeredAs (1, 0)) :=
  ⟨by decide +kernel, @executed_at_most_handed Checksum.hashing Checksum.signatureBytes
    Schedule.fourNodes 3 ⟨0, 1, []⟩ handedOnce rfl (by decide) (by decide +kernel) rfl (1, 0) 0⟩

end Examples

end HandlerCh

end ParaHotstuff
