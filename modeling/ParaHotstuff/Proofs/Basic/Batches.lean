import ParaHotstuff.Data.Checksum
import ParaHotstuff.Handler.Schedule
import ParaHotstuff.Proofs.Accounts
import ParaHotstuff.Proofs.Basic.Calls

/-! How often a node of the basic protocol executes what clients hand in. -/

namespace ParaHotstuff

/-- An event that is neither a vote nor an execution. -/
def BasicEvent.quiet : BasicEvent → Bool
  | .newview _ _ | .stored _ _ | .wrong _ _ _ => true
  | .voted _ _ _ _ _ | .executed _ _ _ => false

namespace Handler

open Program Local

section Counting

/-- The block that a node voted for last in a view. -/
def ownBlock (p : PID) (v : View) : List BasicEvent → Option Block
  | [] => none
  | e :: H =>
    match e with
    | .voted q r b _ _ => if q = p ∧ r.propv = v then some b else ownBlock p v H
    | _ => ownBlock p v H

/-- The views and blocks that a node voted for in views of its own. -/
def ownProposals (cfg : Config) (p : PID) (H : List BasicEvent) : List (View × Block) :=
  H.filterMap fun
    | .voted q r b _ _ => if q = p ∧ cfg.getLeaderOf r.propv = p then some (r.propv, b) else none
    | _ => none

/-- The leader of a view voted for a block in it. -/
def Proposed (cfg : Config) (v : View) (b : Block) (H : List BasicEvent) : Prop :=
  ∃ r lockh lockv, r.propv = v ∧ .voted (cfg.getLeaderOf v) r b lockh lockv ∈ H

/-- A proposal for a backup of a block that the leader of its view voted for. -/
def Offered (cfg : Config) (p : PID) (m : MsgLdrPrepare) (rd : RData) (H : List BasicEvent) :
    Prop :=
  m.prop.just.getRData = some rd ∧ cfg.getLeaderOf rd.propv ≠ p
    ∧ Proposed cfg rd.propv m.prop.block H

/--
What is known of a node apart from its accounts.

It keeps the blocks it voted for by their views, and executes nothing in a view that it has left;
in the last view, which is never left, it may execute again.
-/
structure Serving (cfg : Config) (p : PID) (h : Handler) (H : List BasicEvent) : Prop where
  known : p < cfg.total
  myid : h.myid = p
  trusted : h.tf.view < wordSize
  blocks : ∀ v, h.blocks.lookup v = ownBlock p v H
  newviews : ∀ {v m}, m ∈ h.log.newviews.held v → m.rdata.propv = v
  proposals : ∀ {v m}, m ∈ h.log.proposals.held v → ∃ rd, rd.propv = v ∧ Offered cfg p m rd H
  later : ∀ {v r}, .executed p v r ∈ H → cfg.timeToStop v = true ∨ v < h.view

variable [Hashing]

/-- What a node executes in a view: the block it voted for there, if that one was decided on. -/
def executedNow (p : PID) (v : View) (decided : Hash) (H : List BasicEvent) : List (View × Block) :=
  match ownBlock p v H with
  | some b => if b.hash == decided then [(v, b)] else []
  | none => []

/-- It is nothing, or one block of that view. -/
theorem executedNow_views (p : PID) (v : View) (decided : Hash) (H : List BasicEvent) :
    (executedNow p v decided H).map (·.1) = [] ∨ (executedNow p v decided H).map (·.1) = [v] := by
  unfold executedNow
  split
  · split
    · exact .inr rfl
    · exact .inl rfl
  · exact .inl rfl

/-- The blocks that a node has executed, with their views. -/
def executedBlocks (p : PID) : List BasicEvent → List (View × Block)
  | [] => []
  | e :: H =>
    match e with
    | .executed q v r =>
      if q = p then executedNow p v r.proph H ++ executedBlocks p H else executedBlocks p H
    | _ => executedBlocks p H

/-- The transactions of the blocks that a node has executed. -/
def executedTransactions (H : List BasicEvent) (p : PID) : List Transaction :=
  (executedBlocks p H).flatMap (·.2.transactions)

/-- What is known of all executions. -/
structure Executions (cfg : Config) (H : List BasicEvent) : Prop where
  known : ∀ e ∈ H, e.actor < cfg.total
  voted : ∀ {q r b lockh lockv}, .voted q r b lockh lockv ∈ H → Proposed cfg r.propv b H
  once : ∀ p, (((executedBlocks p H).map (·.1)).filter fun v => !cfg.timeToStop v).Nodup

/-- A node proposes what it votes for in views of its own. -/
def books (cfg : Config) (depth : Nat) : Books Handler MsgBasic BasicEvent where
  replica := replica cfg depth
  actor := BasicEvent.actor
  pending := Handler.transactions
  proposed p H := (ownProposals cfg p H).flatMap (·.2.transactions)
  executed p H := executedTransactions H p
  own := Serving cfg
  facts := Executions cfg
  good packet H :=
    match packet.msg with
    | .ldrPrepare m => ∃ rd, Offered cfg packet.dest m rd H
    | _ => True

variable {cfg : Config} {depth : Nat} {t : Transaction} {p q : PID} {v : View} {h h' : Handler}
variable {H added : List BasicEvent} {b block : Block} {e : BasicEvent}

section Histories

omit [Hashing]

theorem Proposed.mono (proposed : Proposed cfg v b H) (added : List BasicEvent) :
    Proposed cfg v b (added ++ H) := by
  obtain ⟨r, lockh, lockv, view, member⟩ := proposed
  exact ⟨r, lockh, lockv, view, List.mem_append_right _ member⟩

theorem Offered.mono {m : MsgLdrPrepare} {rd : RData} (sent : Offered cfg p m rd H)
    (added : List BasicEvent) : Offered cfg p m rd (added ++ H) :=
  ⟨sent.1, sent.2.1, sent.2.2.mono added⟩

/-- What other nodes do leaves the blocks as they are that a node voted for. -/
theorem ownBlock_append (others : ∀ e ∈ added, e.actor ≠ p) :
    ownBlock p v (added ++ H) = ownBlock p v H := by
  induction added with
  | nil => rfl
  | cons e added ih =>
    have rest := ih fun e' member => others e' (List.mem_cons_of_mem _ member)
    have other := others e List.mem_cons_self
    cases e with
    | voted q r b lockh lockv =>
      have foreign : ¬ (q = p ∧ r.propv = v) := fun same => other same.1
      simp only [List.cons_append, ownBlock, if_neg foreign, rest]
    | newview | stored | executed | wrong => exact rest

/-- It adds nothing to the proposals of a node either. -/
theorem ownProposals_append (others : ∀ e ∈ added, e.actor ≠ p) :
    ownProposals cfg p (added ++ H) = ownProposals cfg p H := by
  have nothing : ownProposals cfg p added = [] := by
    rw [ownProposals, List.filterMap_eq_nil_iff]
    intro e member
    cases e with
    | voted q r b lockh lockv => exact if_neg fun same => others _ member same.1
    | newview | stored | executed | wrong => rfl
  rw [ownProposals, List.filterMap_append]
  exact congrArg (· ++ _) nothing

/-- A node that voted for a block in a view has it among its votes. -/
theorem voted_of_ownBlock (own : ownBlock p v H = some b) :
    ∃ r lockh lockv, r.propv = v ∧ .voted p r b lockh lockv ∈ H := by
  induction H with
  | nil => cases own
  | cons e H ih =>
    have before : ownBlock p v H = some b →
        ∃ r lockh lockv, r.propv = v ∧ .voted p r b lockh lockv ∈ e :: H := fun own => by
      obtain ⟨r, lockh, lockv, view, member⟩ := ih own
      exact ⟨r, lockh, lockv, view, List.mem_cons_of_mem _ member⟩
    cases e with
    | voted q r c lockh lockv =>
      simp only [ownBlock] at own
      split at own
      · rename_i here
        obtain ⟨rfl, view⟩ := here
        obtain rfl := Option.some.inj own
        exact ⟨r, lockh, lockv, view, List.mem_cons_self⟩
      · exact before own
    | newview | stored | executed | wrong => exact before own

end Histories

/-- What other nodes do adds nothing to the executions of a node. -/
theorem executedBlocks_append (others : ∀ e ∈ added, e.actor ≠ p) :
    executedBlocks p (added ++ H) = executedBlocks p H := by
  induction added with
  | nil => rfl
  | cons e added ih =>
    have rest := ih fun e' member => others e' (List.mem_cons_of_mem _ member)
    have other := others e List.mem_cons_self
    cases e with
    | executed q v r =>
      simp only [List.cons_append, executedBlocks, if_neg (show q ≠ p from other), rest]
    | newview | stored | voted | wrong => exact rest

/-- What a node executes it has voted for, in a view in which it noted an execution. -/
theorem of_mem_executedBlocks (executed : (v, b) ∈ executedBlocks p H) :
    (∃ r, .executed p v r ∈ H) ∧ ∃ r lockh lockv, r.propv = v ∧ .voted p r b lockh lockv ∈ H := by
  induction H with
  | nil => cases executed
  | cons e H ih =>
    have before : (v, b) ∈ executedBlocks p H → (∃ r, .executed p v r ∈ e :: H)
        ∧ ∃ r lockh lockv, r.propv = v ∧ .voted p r b lockh lockv ∈ e :: H := fun old => by
      obtain ⟨⟨r, noted⟩, r', lockh, lockv, view, voted⟩ := ih old
      exact ⟨⟨r, List.mem_cons_of_mem _ noted⟩, r', lockh, lockv, view, List.mem_cons_of_mem _ voted⟩
    cases e with
    | executed q w r =>
      simp only [executedBlocks] at executed
      split at executed
      · rename_i mine
        subst mine
        rcases List.mem_append.1 executed with now | old
        · -- It is the block of the execution that was noted last.
          unfold executedNow at now
          split at now
          · rename_i c own
            split at now
            · obtain ⟨rfl, rfl⟩ := Prod.mk.inj (List.mem_singleton.1 now)
              obtain ⟨r', lockh, lockv, view, voted⟩ := voted_of_ownBlock own
              exact ⟨⟨r, List.mem_cons_self⟩, r', lockh, lockv, view, List.mem_cons_of_mem _ voted⟩
            · cases now
          · cases now
        · exact before old
      · exact before executed
    | newview | stored | voted | wrong => exact before executed

theorem books_steady : (books cfg depth).Steady where
  own := by
    intro p q h H added serving other mine
    have others : ∀ e ∈ added, e.actor ≠ q := fun e member => by
      rw [show e.actor = p from mine e member]
      exact other
    exact {
      serving with
      blocks := fun v => (serving.blocks v).trans (ownBlock_append others).symm
      proposals := fun member => by
        obtain ⟨rd, view, sent⟩ := serving.proposals member
        exact ⟨rd, view, sent.mono added⟩
      later := fun member => by
        rcases List.mem_append.1 member with new | old
        · exact absurd rfl (others _ new)
        · exact serving.later old }
  good := by
    intro packet H good added
    obtain ⟨dest, msg⟩ := packet
    cases msg with
    | ldrPrepare m =>
      obtain ⟨rd, sent⟩ := good
      exact ⟨rd, sent.mono added⟩
    | newView | prepare | preCommit | commit => trivial
  others := by
    intro p H added others
    refine ⟨?_, ?_⟩
    · simp only [books, ownProposals_append others]
    · simp only [books, executedTransactions, executedBlocks_append others]

/-- A quiet event says nothing of blocks. -/
theorem Executions.quiet (facts : Executions cfg H) (quiet : e.quiet = true)
    (known : e.actor < cfg.total) : Executions cfg (e :: H) where
  known := fun e' member => by
    rcases List.mem_cons.1 member with rfl | old
    · exact known
    · exact facts.known e' old
  voted := fun member => by
    rcases List.mem_cons.1 member with rfl | old
    · cases quiet
    · exact (facts.voted old).mono [e]
  once := fun p => by
    cases e with
    | voted | executed => cases quiet
    | newview | stored | wrong => exact facts.once p

omit [Hashing] in
theorem Serving.quiet (serving : Serving cfg p h H) (quiet : e.quiet = true) :
    Serving cfg p h (e :: H) where
  known := serving.known
  myid := serving.myid
  trusted := serving.trusted
  blocks := fun v => by
    cases e with
    | voted | executed => cases quiet
    | newview | stored | wrong => exact serving.blocks v
  newviews := serving.newviews
  proposals := fun member => by
    obtain ⟨rd, view, sent⟩ := serving.proposals member
    exact ⟨rd, view, sent.mono [e]⟩
  later := fun member => by
    rcases List.mem_cons.1 member with rfl | old
    · cases quiet
    · exact serving.later old

omit [Hashing] in
/-- A block that is voted for in the view of the node is the one kept for it. -/
theorem Serving.vote (serving : Serving cfg p h H) {r : RData} {lockh : Hash} {lockv : View}
    (here : r.propv = h.view) :
    Serving cfg p { h with blocks := h.blocks.insert h.view block }
      (.voted p r block lockh lockv :: H) where
  known := serving.known
  myid := serving.myid
  trusted := serving.trusted
  blocks := fun v => by
    by_cases same : v = h.view
    · subst same
      simp [ownBlock, here]
    · have other : r.propv ≠ v := fun now => same (now.symm.trans here)
      simp only [ownBlock, true_and, if_neg other, AList.lookup_insert_ne same]
      exact serving.blocks v
  newviews := serving.newviews
  proposals := fun member => by
    obtain ⟨rd, view, sent⟩ := serving.proposals member
    exact ⟨rd, view, sent.mono [_]⟩
  later := fun member => by
    rcases List.mem_cons.1 member with same | old
    · cases same
    · exact serving.later old

end Counting

section Handlers

variable [Hashing]

/-- The knowledge inside a handler of node p. -/
abbrev Tallied (cfg : Config) (depth : Nat) (t : Transaction) (key : TID × CID) (ledger : Ledger)
    (p : PID) (start : List BasicEvent) : State → Prop :=
  ((books cfg depth).knowledge t key ledger 0).Inside p start

/-- A node that is about to leave its view: in the next view its accounts are in order. -/
def Leaving (cfg : Config) (depth : Nat) (t : Transaction) (key : TID × CID) (ledger : Ledger)
    (p : PID) (start : List BasicEvent) (l : State) : Prop :=
  Tallied cfg depth t key ledger p start { l with node := { l.node with view := l.node.view + 1 } }

namespace Tallied

variable {cfg : Config} {depth n moving : Nat} {t : Transaction} {key : TID × CID} {ledger : Ledger}
variable {p : PID} {start : List BasicEvent} {l : State} {h : Handler} {block : Block}
variable {r rd : RData}

/-- A handler of node p goes on in a way that keeps the accounts. -/
abbrev Proceeds (cfg : Config) (depth : Nat) (t : Transaction) (key : TID × CID) (ledger : Ledger)
    (p : PID) (start : List BasicEvent) (program : M Unit) : State → Prop :=
  ((books cfg depth).knowledge t key ledger 0).Safe p start program

/-- The accounts of the node that is active. -/
theorem kept (inside : ((books cfg depth).knowledge t key ledger moving).Inside p start l) :
    Serving cfg p l.node l.history
      ∧ l.node.transactions.count t + moving
        + ((ownProposals cfg p l.history).flatMap (·.2.transactions)).count t ≤ ledger.handed p
      ∧ l.node.rep_queue.count key + ledger.answered p
        ≤ (executedTransactions l.history p).countP (Transaction.answeredAs key) :=
  have own : (books cfg depth).Kept t key ledger moving p l.node l.history := inside.own
  ⟨own.own, own.taken, own.replied⟩

theorem executions (inside : ((books cfg depth).knowledge t key ledger moving).Inside p start l) :
    Executions cfg l.history :=
  have balanced : (books cfg depth).Balanced t key ledger l.history := inside.facts
  balanced.facts

/-- What the component does matters only as long as its view is a 32-bit number. -/
theorem component (inside : ((books cfg depth).knowledge t key ledger moving).Inside p start l)
    {tf : TrustedFun} (small : tf.view < wordSize) :
    ((books cfg depth).knowledge t key ledger moving).Inside p start
      { l with node := { l.node with tf := tf } } :=
  Books.changed inside { (kept inside).1 with trusted := small } rfl rfl

/-- Of the log only the reports and the proposals matter. -/
theorem log (tallied : Tallied cfg depth t key ledger p start l) (log : Log)
    (newviews : log.newviews = l.node.log.newviews)
    (proposals : log.proposals = l.node.log.proposals) :
    Tallied cfg depth t key ledger p start { l with node := { l.node with log := log } } := by
  refine Books.changed tallied { (kept tallied).1 with
    newviews := fun member => ?_, proposals := fun member => ?_ } rfl rfl
  · exact (kept tallied).1.newviews (newviews ▸ member)
  · exact (kept tallied).1.proposals (proposals ▸ member)

/-- A message that is no proposal may be sent to anyone. -/
theorem send (tallied : Tallied cfg depth t key ledger p start l) {msg : MsgBasic}
    (other : ∀ m, msg ≠ .ldrPrepare m) (recipients : List PID) :
    Tallied cfg depth t key ledger p start
      { l with sent := l.sent ++ recipients.map (⟨·, msg⟩) } := by
  refine Knowledge.Inside.send tallied msg recipients fun d _ => ?_
  cases msg with
  | ldrPrepare m => exact absurd rfl (other m)
  | newView | prepare | preCommit | commit => trivial

/-- An event that is neither a vote nor an execution changes no account. -/
theorem quiet (tallied : Tallied cfg depth t key ledger p start l) {e : BasicEvent}
    (mine : e.actor = p) (quiet : e.quiet = true) :
    Tallied cfg depth t key ledger p start { l with history := e :: l.history } := by
  obtain ⟨serving, taken, replied⟩ := kept tallied
  refine books_steady.event tallied mine
    ((executions tallied).quiet quiet (mine.symm ▸ serving.known)) ⟨serving.quiet quiet, ?_, ?_⟩
  all_goals
    cases e with
    | voted | executed => cases quiet
    | newview | stored | wrong => assumption

variable (block) in
/-- A vote for a block that the leader voted for, or whose transactions have left the own queue. -/
theorem vote (inside : ((books cfg depth).knowledge t key ledger moving).Inside p start l)
    (here : r.propv = l.node.view)
    (proposed : cfg.getLeaderOf r.propv = p ∨ Proposed cfg r.propv block l.history)
    (counted : cfg.getLeaderOf r.propv = p → block.transactions.count t ≤ moving) :
    Tallied cfg depth t key ledger p start { l with
      node := { l.node with blocks := l.node.blocks.insert l.node.view block }
      history := .voted l.node.myid r block l.node.tf.lockh l.node.tf.lockv :: l.history } := by
  obtain ⟨serving, taken, replied⟩ := kept inside
  rw [serving.myid]
  refine books_steady.event inside (e := .voted p r block l.node.tf.lockh l.node.tf.lockv) rfl
    ⟨fun e member => ?_, fun {q r' b lockh lockv} member => ?_, (executions inside).once⟩
    ⟨serving.vote here, ?_, replied⟩
  · rcases List.mem_cons.1 member with rfl | old
    · exact serving.known
    · exact (executions inside).known e old
  · rcases List.mem_cons.1 member with same | old
    · cases same
      -- The vote itself is the one of the leader, or the leader has voted before.
      rcases proposed with leads | proposed
      · exact ⟨r, _, _, rfl, by rw [leads]; exact List.mem_cons_self⟩
      · exact proposed.mono [_]
    · exact ((executions inside).voted old).mono [_]
  · change l.node.transactions.count t + 0 + ((ownProposals cfg p (.voted p r block l.node.tf.lockh
      l.node.tf.lockv :: l.history)).flatMap (·.2.transactions)).count t ≤ ledger.handed p
    by_cases leads : cfg.getLeaderOf r.propv = p
    · have grown : ownProposals cfg p (.voted p r block l.node.tf.lockh l.node.tf.lockv :: l.history)
          = (r.propv, block) :: ownProposals cfg p l.history := by
        simp [ownProposals, leads]
      have moved : (r.propv, block).2.transactions.count t ≤ moving := counted leads
      rw [grown, List.flatMap_cons, List.count_append]
      omega
    · have same : ownProposals cfg p (.voted p r block l.node.tf.lockh l.node.tf.lockv :: l.history)
          = ownProposals cfg p l.history := by
        simp [ownProposals, leads]
      rw [same]
      omega

/-- Executing in a view that is left afterwards, unless it is the last one. -/
theorem execute (tallied : Tallied cfg depth t key ledger p start l) {queue : List (TID × CID)}
    {view : View}
    (moves : cfg.timeToStop l.node.view = true ∧ view = l.node.view ∨ view = l.node.view + 1)
    (replied : queue.count key + ledger.answered p ≤ (executedTransactions
      (.executed p l.node.view rd :: l.history) p).countP (Transaction.answeredAs key)) :
    Tallied cfg depth t key ledger p start { l with
      node := { l.node with view := view, rep_queue := queue }
      history := .executed p l.node.view rd :: l.history } := by
  obtain ⟨serving, taken, -⟩ := kept tallied
  have facts := executions tallied
  refine books_steady.event tallied (e := .executed p l.node.view rd) rfl
    ⟨fun e member => ?_, fun member => ?_, fun q => ?_⟩ ⟨{ serving with
      proposals := fun member => ?_, later := fun {v r} member => ?_ }, taken, replied⟩
  · rcases List.mem_cons.1 member with rfl | old
    · exact serving.known
    · exact facts.known e old
  · rcases List.mem_cons.1 member with same | old
    · cases same
    · exact (facts.voted old).mono [_]
  · by_cases mine : p = q
    · subst mine
      simp only [executedBlocks, if_true, List.map_append, List.filter_append]
      rcases executedNow_views p l.node.view rd.proph l.history with nothing | here
      · rw [nothing]
        exact facts.once p
      rw [here]
      cases last : cfg.timeToStop l.node.view with
      | true => simpa [last] using facts.once p
      | false =>
        -- What was executed before was executed in views that have been left, or in the last one.
        refine List.nodup_append.2 ⟨(List.nodup_singleton _).filter _, facts.once p, ?_⟩
        rintro v now w before rfl
        obtain rfl := List.mem_singleton.1 (List.mem_filter.1 now).1
        obtain ⟨⟨w, b⟩, executed, same⟩ := List.mem_map.1 (List.mem_filter.1 before).1
        obtain ⟨⟨r, noted⟩, -⟩ := of_mem_executedBlocks executed
        obtain rfl : w = l.node.view := same
        rcases serving.later noted with stop | earlier
        · simp [last] at stop
        · exact Nat.lt_irrefl _ earlier
    · simp only [executedBlocks, if_neg mine]
      exact facts.once q
  · obtain ⟨rd', view', sent⟩ := serving.proposals member
    exact ⟨rd', view', sent.mono [_]⟩
  · rcases List.mem_cons.1 member with same | old
    · cases same
      rcases moves with ⟨stop, -⟩ | next
      · exact .inl stop
      · exact .inr (by lia)
    · refine (serving.later old).imp_right fun earlier => ?_
      rcases moves with ⟨-, same⟩ | next <;> lia

/-- A node may leave its view at any time. -/
theorem leaving (tallied : Tallied cfg depth t key ledger p start l) :
    Leaving cfg depth t key ledger p start l :=
  Books.changed tallied { (kept tallied).1 with
    later := fun member => ((kept tallied).1.later member).imp_right fun earlier => by
      simp only
      lia } rfl rfl

section Calls

variable {hash : Hash} {just : Just}

/-- Signing moves the component on. -/
theorem small_increment (inside : ((books cfg depth).knowledge t key ledger moving).Inside p start l) :
    l.node.tf.increment.view < wordSize :=
  TrustedFun.view_increment_lt (kept inside).1.trusted

/-- Whatever the component does with a certificate, it changes no account. -/
theorem callTEEstore_gives (tallied : Tallied cfg depth t key ledger p start l) :
    (callTEEstore cfg just).Gives (fun _ => Tallied cfg depth t key ledger p start)
      (((books cfg depth).knowledge t key ledger 0).Left p start) l := by
  simp only [callTEEstore, gives_bind, gives_this]
  refine gives_ofOption (fun result called => ?_) fun _ => tallied.toLeft
  obtain ⟨out, tf⟩ := result
  cases answer : out.set with
  | false =>
    obtain ⟨rfl, rfl⟩ := TrustedFun.TEEstore_unset called answer
    simpa [answer] using tallied
  | true =>
    obtain ⟨rd, -, -, -, -, -, signed⟩ := TrustedFun.TEEstore_set called answer
    have small : tf.view < wordSize := by
      rw [← (Prod.mk.inj signed).2]
      exact TrustedFun.view_increment_lt (kept tallied).1.trusted
    have accepted := quiet (component tallied small) (e := .stored l.node.myid just.rdata) ?_ rfl
    · exact accepted
    · exact (kept tallied).1.myid

/-- A vote on a report is one in the view of the report. -/
theorem callTEEprepare_gives
    (inside : ((books cfg depth).knowledge t key ledger moving).Inside p start l)
    {post : Just → State → Prop} (tagged : just.getRData = some rd) (refused : post Just.default l)
    (accepted : ∀ r signs tf, r.propv = rd.propv →
      ((books cfg depth).knowledge t key ledger moving).Inside p start
        { l with node := { l.node with tf := tf } } →
      post (Just.ofRData r signs) { l with node := { l.node with tf := tf } }) :
    (callTEEprepare cfg hash just).Gives post
      (((books cfg depth).knowledge t key ledger 0).Left p start) l := by
  refine callTEEprepare_answer (Books.dropped inside).toLeft refused fun rd' tagged' checks => ?_
  obtain rfl : rd = rd' := by simpa [tagged] using tagged'
  obtain ⟨-, current, -⟩ := (TrustedFun.votesOn_iff tagged).1 checks
  exact accepted _ _ _ current (component inside (small_increment inside))

variable (block) in
/-- A leader that votes for a block of its own may send it to the other nodes. -/
theorem propose (inside : ((books cfg depth).knowledge t key ledger moving).Inside p start l)
    (here : r.propv = l.node.view) (mine : cfg.getLeaderOf r.propv = p)
    (tagged : just.getRData = some rd) (view : r.propv = rd.propv)
    (counted : block.transactions.count t ≤ moving) (signs : Signs) :
    Tallied cfg depth t key ledger p start
      { node := { l.node with blocks := l.node.blocks.insert l.node.view block }
        sent := l.sent ++ (cfg.remove_from_peers l.node.myid l.node.myid).map
          (⟨·, .ldrPrepare ⟨⟨just, block⟩, signs⟩⟩)
        history := .voted l.node.myid r block l.node.tf.lockh l.node.tf.lockv :: l.history } := by
  have serving := (kept inside).1
  refine Knowledge.Inside.send (vote block inside here (.inl mine) fun _ => counted) _ _ fun d member => ?_
  have other := (Config.mem_remove_from_peers.1 member).2
  rw [serving.myid] at other
  refine ⟨rd, tagged, fun same => other (same.symm.trans (view ▸ mine)), r, l.node.tf.lockh,
    l.node.tf.lockv, view, ?_⟩
  rw [← view, mine, ← serving.myid]
  exact List.mem_cons_self

end Calls

section Views

variable {next : M Unit}

/-- Executing what was decided, and going on to the next view unless this was the last. -/
theorem executeRData_proceeds
    (leave : ∀ l, Leaving cfg depth t key ledger p start l → Proceeds cfg depth t key ledger p start next l)
    (tallied : Tallied cfg depth t key ledger p start l) :
    Proceeds cfg depth t key ledger p start (executeRData cfg next rd) l := by
  obtain ⟨serving, -, replied⟩ := kept tallied
  unfold Proceeds Knowledge.Safe executeRData
  simp only [gives_bind, gives_this, gives_note, serving.myid, replyHash]
  have rest : ∀ queue : List (TID × CID), queue.count key + ledger.answered p
        ≤ (executedTransactions (.executed p l.node.view rd :: l.history) p).countP
          (Transaction.answeredAs key) →
      Gives (if cfg.timeToStop l.node.view = true then pure () else next)
        (fun _ => Tallied cfg depth t key ledger p start)
        (((books cfg depth).knowledge t key ledger 0).Left p start)
        { l with
          node := { l.node with rep_queue := queue }
          history := .executed p l.node.view rd :: l.history } := fun queue replied =>
    gives_ite (fun stop => tallied.execute (.inl ⟨stop, rfl⟩) replied)
      fun _ => leave _ (tallied.execute (.inr rfl) replied)
  -- The block that was voted for in this view is the one that is answered.
  have now := serving.blocks l.node.view
  simp only [executedTransactions, executedBlocks, if_true, executedNow, ← now] at rest
  cases held : l.node.blocks.lookup l.node.view with
  | none =>
    simp only [held, List.nil_append] at rest ⊢
    exact rest l.node.rep_queue replied
  | some block =>
    simp only [held] at rest ⊢
    refine gives_ite (fun decided => ?_) (fun other => ?_)
    · have replies := count_replyTransactions l.node.clients block.transactions key
      simp only [decided, if_true, List.flatMap_append, List.flatMap_singleton,
        List.countP_append] at rest
      refine rest _ ?_
      simp only [executedTransactions] at replied
      simp only [List.count_append]
      omega
    · simp only [other, Bool.false_eq_true, if_false, List.nil_append] at rest
      exact rest l.node.rep_queue replied

variable (leave : ∀ l, Leaving cfg depth t key ledger p start l →
  Proceeds cfg depth t key ledger p start next l)
include leave

theorem initiateCommit_proceeds (tallied : Tallied cfg depth t key ledger p start l) :
    Proceeds cfg depth t key ledger p start (initiateCommit cfg next rd) l := by
  unfold Proceeds Knowledge.Safe initiateCommit
  simp only [gives_bind, gives_this]
  refine gives_ite (fun _ => ?_) fun _ => tallied
  exact executeRData_proceeds leave (tallied.send (by simp) _)

theorem initiatePrecommit_proceeds (tallied : Tallied cfg depth t key ledger p start l) :
    Proceeds cfg depth t key ledger p start (initiatePrecommit cfg next rd) l := by
  unfold Proceeds Knowledge.Safe initiatePrecommit
  simp only [gives_bind, gives_this]
  refine gives_ite (fun _ => ?_) fun _ => tallied
  simp only [gives_bind, gives_multicast]
  refine (callTEEstore_gives (tallied.send (by simp) _)).mono (fun just l₁ after => ?_) fun _ left => left
  refine gives_ofOption (fun rdataCom _ => ?_) fun _ => after.toLeft
  simp only [gives_storeCom]
  have stored := after.log (l₁.node.log.storeCom ⟨rdataCom, just.signs⟩).2 rfl rfl
  exact gives_ite (fun _ => initiateCommit_proceeds leave stored) fun _ => stored

theorem initiatePrepare_proceeds (tallied : Tallied cfg depth t key ledger p start l) :
    Proceeds cfg depth t key ledger p start (initiatePrepare cfg next rd) l := by
  unfold Proceeds Knowledge.Safe initiatePrepare
  simp only [gives_bind, gives_this]
  refine gives_ite (fun _ => ?_) fun _ => tallied
  simp only [gives_bind, gives_multicast]
  refine (callTEEstore_gives (tallied.send (by simp) _)).mono (fun just l₁ after => ?_) fun _ left => left
  refine gives_ofOption (fun rdataPc _ => ?_) fun _ => after.toLeft
  simp only [gives_storePc]
  have stored := after.log (l₁.node.log.storePc ⟨rdataPc, just.signs⟩).2 rfl rfl
  exact gives_ite (fun _ => initiatePrecommit_proceeds leave stored) fun _ => stored

/-- The transactions of a proposal leave the queue before the component is asked for a vote. -/
theorem prepare_proceeds (real : t.isReal = true)
    (tallied : Tallied cfg depth t key ledger p start l) (leader : cfg.getLeaderOf l.node.view = p)
    (some_held : l.node.log.newviews.held l.node.view ≠ []) :
    Proceeds cfg depth t key ledger p start (prepare cfg next) l := by
  obtain ⟨serving, taken, replied⟩ := kept tallied
  rcases l.node.log.findHighestNv_mem l.node.view with ⟨none_held, _⟩ | ⟨msg, held, found, _⟩
  · exact absurd none_held some_held
  have here := serving.newviews held
  unfold Proceeds Knowledge.Safe prepare
  simp only [gives_bind, gives_this, found, Just.getRData_ofRData, gives_ofOption_some,
    createNewBlock, gives_modify, gives_pure]
  have drained : ((books cfg depth).knowledge t key ledger
      ((cfg.fillBlock l.node.transactions).count t)).Inside p start { l with node :=
        { l.node with transactions := l.node.transactions.drop cfg.maxNumTransactions } } := by
    refine { tallied with own := ⟨{ serving with }, ?_, replied⟩ }
    have split := cfg.count_fillBlock real l.node.transactions
    simp only [books]
    omega
  refine callTEEprepare_gives drained (Just.getRData_ofRData _ _) (Books.dropped drained) ?_
  intro r signs tf view signed
  simp only [Just.set_ofRData, if_true, gives_bind, Just.getRData_ofRData, gives_ofOption_some,
    gives_keepBlock, gives_multicast, gives_storePrep, Just.signs_ofRData]
  have mine : cfg.getLeaderOf r.propv = p := by rw [view, here]; exact leader
  have sent := propose (Block.ofTransactions msg.rdata.justh
      (min cfg.maxNumTransactions l.node.transactions.length) (cfg.fillBlock l.node.transactions))
    signed (view.trans here) mine (Just.getRData_ofRData msg.rdata msg.signs) view
    (Nat.le_refl _) signs
  have stored := Tallied.log sent (l.node.log.storePrep ⟨r, signs⟩).2 rfl rfl
  exact gives_ite (fun _ => initiatePrepare_proceeds leave stored) fun _ => stored

end Views

section Messages

variable {just : Just} {next : M Unit}

/-- A backup votes for what the leader voted for. -/
theorem respondToProposal_proceeds (tallied : Tallied cfg depth t key ledger p start l)
    (tagged : just.getRData = some rd) (here : rd.propv = l.node.view)
    (other : cfg.getLeaderOf rd.propv ≠ p) (proposed : Proposed cfg rd.propv block l.history) :
    Proceeds cfg depth t key ledger p start (respondToProposal cfg just block) l := by
  unfold Proceeds Knowledge.Safe respondToProposal
  simp only [gives_bind]
  refine callTEEprepare_gives tallied tagged (by simpa [Just.default] using tallied) ?_
  intro r signs tf view signed
  simp only [Just.set_ofRData, if_true, gives_bind, Just.getRData_ofRData, gives_ofOption_some,
    gives_keepBlock, gives_this, gives_multicast, Just.signs_ofRData]
  have voted := vote block signed (view.trans here) (.inr (view ▸ proposed))
    fun leads => absurd (view ▸ leads) other
  exact send voted (by simp) _

theorem respondToPrepareJust_proceeds (tallied : Tallied cfg depth t key ledger p start l) :
    Proceeds cfg depth t key ledger p start (respondToPrepareJust cfg just) l := by
  unfold Proceeds Knowledge.Safe respondToPrepareJust
  simp only [gives_bind]
  refine (callTEEstore_gives tallied).mono (fun justPc l₁ after => ?_) fun _ left => left
  refine gives_ofOption (fun rdata _ => ?_) fun _ => after.toLeft
  exact send after (by simp) _

theorem respondToPreCommitJust_proceeds (tallied : Tallied cfg depth t key ledger p start l) :
    Proceeds cfg depth t key ledger p start (respondToPreCommitJust cfg just) l := by
  unfold Proceeds Knowledge.Safe respondToPreCommitJust
  simp only [gives_bind]
  refine (callTEEstore_gives tallied).mono (fun justCom l₁ after => ?_) fun _ left => left
  refine gives_ofOption (fun rdata _ => ?_) fun _ => after.toLeft
  exact send after (by simp) _

theorem handleLdrPrepare_proceeds (tallied : Tallied cfg depth t key ledger p start l)
    {msg : MsgLdrPrepare} (sent : Offered cfg p msg rd l.history) :
    Proceeds cfg depth t key ledger p start (handleLdrPrepare cfg msg) l := by
  obtain ⟨tagged, other, proposed⟩ := sent
  unfold Proceeds Knowledge.Safe handleLdrPrepare
  simp only [gives_bind, gives_this, tagged, gives_ofOption_some]
  refine gives_ite (fun _ => ?_) fun _ => tallied
  refine gives_ite (fun here => ?_) fun _ => ?_
  · exact respondToProposal_proceeds tallied tagged (beq_iff_eq.1 here) other proposed
  · -- A proposal of a later view waits under that view.
    simp only [storeProp, Log.storeProp, tagged, gives_bind, gives_this, gives_ofOption_some,
      gives_modify]
    refine Books.changed tallied { (kept tallied).1 with proposals := fun member => ?_ } rfl rfl
    rcases Messages.mem_store member with old | ⟨rfl, rfl⟩
    · exact (kept tallied).1.proposals old
    · exact ⟨rd, rfl, tagged, other, proposed⟩

variable (real : t.isReal = true) (positive : 0 < cfg.qsize)
variable (leave : ∀ l, Leaving cfg depth t key ledger p start l →
  Proceeds cfg depth t key ledger p start next l)

section Late

include real positive leave

/-- Late nodes go through what they hold for their view. -/
theorem handleEarlierMessages_proceeds (tallied : Tallied cfg depth t key ledger p start l) :
    Proceeds cfg depth t key ledger p start (handleEarlierMessages cfg next) l := by
  obtain ⟨serving, -, -⟩ := kept tallied
  unfold Proceeds Knowledge.Safe handleEarlierMessages
  simp only [gives_bind, gives_this, gives_amCurrentLeader, beq_iff_eq, serving.myid]
  refine gives_ite (fun leads => ?_) fun _ => ?_
  · refine gives_ite (fun full => ?_) fun _ => tallied
    obtain ⟨m, -, held⟩ := Messages.first_of_collected positive full
    exact prepare_proceeds leave real tallied (Config.amLeaderOf_iff.1 leads)
      (List.ne_nil_of_mem held)
  -- A pre-commit certificate stands for two phases that are skipped.
  refine gives_ite (fun _ => ?_) fun _ => gives_ite (fun _ => ?_) fun _ => ?_
  · simp only [gives_bind, gives_callTEEsign]
    have once := component tallied (small_increment tallied)
    have twice := component once (small_increment once)
    refine (respondToPreCommitJust_proceeds twice).mono (fun _ l₁ after => ?_) fun _ left => left
    refine gives_ite (fun _ => ?_) fun _ => after
    simp only [gives_bind]
    exact gives_ofOption (fun rdata _ => executeRData_proceeds leave after) fun _ => after.toLeft
  · simp only [gives_bind, gives_callTEEsign]
    exact respondToPrepareJust_proceeds (component tallied (small_increment tallied))
  · split
    · rename_i msgProp found
      refine gives_ite (fun _ => ?_) fun _ => tallied
      obtain ⟨rd, here, tagged, other, proposed⟩ := serving.proposals (Messages.mem_of_first found)
      exact respondToProposal_proceeds tallied tagged here other proposed
    · exact tallied

theorem handleNewview_proceeds (tallied : Tallied cfg depth t key ledger p start l)
    (msg : MsgNewView) : Proceeds cfg depth t key ledger p start (handleNewview cfg next msg) l := by
  obtain ⟨serving, -, -⟩ := kept tallied
  unfold Proceeds Knowledge.Safe handleNewview
  simp only [gives_bind, gives_this, Bool.and_eq_true, beq_iff_eq, decide_eq_true_eq,
    Config.amLeaderOf_iff, serving.myid]
  refine gives_ite (fun heeded => ?_) fun _ => tallied
  have stored : Tallied cfg depth t key ledger p start
      { l with node := { l.node with log := (l.node.log.storeNv msg).2 } } := by
    refine Books.changed tallied { serving with newviews := fun member => ?_ } rfl rfl
    rcases Messages.mem_store member with old | ⟨rfl, rfl⟩
    · exact serving.newviews old
    · rfl
  simp only [gives_bind, gives_storeNv]
  refine gives_ite (fun quorum => ?_) fun _ => stored
  obtain ⟨counted, here⟩ := quorum
  refine prepare_proceeds leave real stored (here ▸ heeded.2) ?_
  -- The count shows that the report is held now.
  rw [← here, ← List.length_pos_iff_ne_nil, Log.length_storeNv positive counted]
  exact positive

end Late

include leave

theorem handlePrepare_proceeds (tallied : Tallied cfg depth t key ledger p start l)
    (msg : MsgPrepare) : Proceeds cfg depth t key ledger p start (handlePrepare cfg next msg) l := by
  have stored := Tallied.log tallied (l.node.log.storePrep msg).2 rfl rfl
  unfold Proceeds Knowledge.Safe handlePrepare
  simp only [gives_bind, gives_this]
  refine gives_ite (fun _ => ?_) fun _ => ?_
  · rw [gives_bind, gives_amCurrentLeader]
    refine gives_ite (fun _ => ?_) fun _ => ?_
    · simp only [gives_bind, gives_storePrep]
      exact gives_ite (fun _ => initiatePrepare_proceeds leave stored) fun _ => stored
    · exact gives_ite (fun _ => respondToPrepareJust_proceeds tallied) fun _ => tallied
  · refine gives_ite (fun _ => ?_) fun _ => tallied
    simpa only [gives_bind, gives_storePrep, gives_pure] using stored

theorem handlePrecommit_proceeds (tallied : Tallied cfg depth t key ledger p start l)
    (msg : MsgPreCommit) :
    Proceeds cfg depth t key ledger p start (handlePrecommit cfg next msg) l := by
  have stored := Tallied.log tallied (l.node.log.storePc msg).2 rfl rfl
  unfold Proceeds Knowledge.Safe handlePrecommit
  simp only [gives_bind, gives_this]
  refine gives_ite (fun _ => ?_) fun _ => ?_
  · rw [gives_bind, gives_amCurrentLeader]
    refine gives_ite (fun _ => ?_) fun _ => ?_
    · simp only [gives_bind, gives_storePc]
      exact gives_ite (fun _ => initiatePrecommit_proceeds leave stored) fun _ => stored
    · exact gives_ite (fun _ => respondToPreCommitJust_proceeds tallied) fun _ => tallied
  · refine gives_ite (fun _ => ?_) fun _ => tallied
    simpa only [gives_bind, gives_storePc, gives_pure] using stored

theorem handleCommit_proceeds (tallied : Tallied cfg depth t key ledger p start l)
    (msg : MsgCommit) : Proceeds cfg depth t key ledger p start (handleCommit cfg next msg) l := by
  have stored := Tallied.log tallied (l.node.log.storeCom msg).2 rfl rfl
  have later : Gives (do let _ ← storeCom msg) (fun _ => Tallied cfg depth t key ledger p start)
      (((books cfg depth).knowledge t key ledger 0).Left p start) l := by
    simpa only [gives_bind, gives_storeCom, gives_pure] using stored
  unfold Proceeds Knowledge.Safe handleCommit
  simp only [gives_bind, gives_this]
  refine gives_ite (fun _ => ?_) fun _ => ?_
  · rw [gives_bind, gives_amCurrentLeader]
    refine gives_ite (fun _ => ?_) fun _ => ?_
    · simp only [gives_bind, gives_storeCom]
      exact gives_ite (fun _ => initiateCommit_proceeds leave stored) fun _ => stored
    · exact gives_ite (fun _ => executeRData_proceeds leave tallied) fun _ => tallied
  · refine gives_ite (fun _ => ?_) fun _ => tallied
    exact gives_ite (fun _ => later) fun _ => gives_ite (fun _ => later) fun _ => tallied

end Messages

section ViewChange

variable {view : View}

/-- A node that leaves its view signs statements until one is for a later view. -/
theorem signUntil_gives (rounds : Nat) (leaving : Leaving cfg depth t key ledger p start l) :
    (signUntil rounds view).Gives
      (fun just l' => Leaving cfg depth t key ledger p start l' ∧ l'.node.view = l.node.view
        ∧ ∃ r, just.getRData = some r ∧ view < r.propv ∧ r.propv < wordSize)
      (((books cfg depth).knowledge t key ledger 0).Left p start) l := by
  induction rounds generalizing l with
  | zero => exact ⟨leaving.grown, leaving.facts, leaving.good⟩
  | succ rounds ih =>
    simp only [signUntil, gives_bind, gives_callTEEsign, TrustedFun.TEEsign, TrustedFun.sign,
      Just.getRData_ofRData, gives_ofOption_some, TrustedFun.statement]
    have small : l.node.tf.view < wordSize := (kept leaving).1.trusted
    have signed : Leaving cfg depth t key ledger p start
        { l with node := { l.node with tf := l.node.tf.increment } } :=
      component leaving (TrustedFun.view_increment_lt small)
    refine gives_ite (fun _ => ih signed) fun late => ⟨signed, rfl, _, rfl, ?_, small⟩
    simp only
    lia

variable (real : t.isReal = true) (positive : 0 < cfg.qsize)
include real positive

/-- Entering the next view keeps the accounts of a node that leaves its view. -/
theorem startNewView_proceeds (n : Nat) (l : State) (leaving : Leaving cfg depth t key ledger p start l) :
    Proceeds cfg depth t key ledger p start (startNewView cfg n) l := by
  -- Induction on how often a view may be entered from within another one.
  induction n generalizing l with
  | zero => exact ⟨leaving.grown, leaving.facts, leaving.good⟩
  | succ n ih =>
    unfold Proceeds Knowledge.Safe
    simp only [startNewView, gives_bind, gives_this]
    refine (signUntil_gives (n + 1) leaving).mono (fun just l₁ after => ?_) fun _ left => left
    obtain ⟨leaving₁, same, r, tagged, late, small⟩ := after
    have next : (l₁.node.view + 1) % wordSize = l₁.node.view + 1 := by
      rw [same]
      exact Nat.mod_eq_of_lt (by lia)
    have entered : Tallied cfg depth t key ledger p start
        { l₁ with node := { l₁.node with view := l₁.node.view + 1, timer := true } } := by
      have moved : Tallied cfg depth t key ledger p start
        { l₁ with node := { l₁.node with view := l₁.node.view + 1 } } := leaving₁
      exact Knowledge.Inside.node moved (Books.Kept.node moved.own { (kept moved).1 with } rfl rfl)
    simp only [gives_modify, gives_setTimer, tagged, gives_ofOption_some, next]
    refine gives_ite (fun _ => ?_) fun _ => entered.quiet (kept entered).1.myid rfl
    have noted := quiet entered (e := .newview l₁.node.myid r) (kept entered).1.myid rfl
    simp only [gives_bind, gives_note, gives_amCurrentLeader]
    refine gives_ite (fun _ => ?_) fun _ => ?_
    · rw [gives_bind]
      refine (handleEarlierMessages_proceeds real positive ih noted).mono (fun _ l₂ after => ?_)
        fun _ left => left
      exact handleNewview_proceeds real positive ih after _
    · exact handleEarlierMessages_proceeds real positive ih (noted.send (by simp) _)

theorem getStarted_proceeds (tallied : Tallied cfg depth t key ledger p start l) :
    Proceeds cfg depth t key ledger p start (getStarted cfg n) l := by
  -- Whether the first statement is a report or not, it goes to the leader.
  have sending : ∀ l msg recipients, Tallied cfg depth t key ledger p start l →
      Proceeds cfg depth t key ledger p start
        (sendNewview cfg (startNewView cfg n) msg recipients) l := by
    intro l msg recipients tallied
    unfold Proceeds Knowledge.Safe sendNewview
    simp only [gives_bind, gives_amCurrentLeader]
    refine gives_ite (fun _ => ?_) fun _ => tallied.send (by simp) _
    exact handleNewview_proceeds real positive (startNewView_proceeds real positive n) tallied _
  unfold Proceeds Knowledge.Safe getStarted
  simp only [gives_bind, gives_callTEEsign]
  have signed := component tallied (small_increment tallied)
  refine gives_ofOption (fun rdata _ => ?_) fun _ => signed.toLeft
  rw [gives_this]
  refine gives_ite (fun _ => ?_) fun _ => sending _ _ _ signed
  exact sending _ _ _ (quiet signed (kept signed).1.myid rfl)

theorem receive_proceeds (msg : MsgBasic) (good : (books cfg depth).good ⟨p, msg⟩ l.history)
    (tallied : Tallied cfg depth t key ledger p start l) :
    Proceeds cfg depth t key ledger p start ((protocol cfg n).receive msg) l := by
  have leave : ∀ l, Leaving cfg depth t key ledger p start l →
      Proceeds cfg depth t key ledger p start (startNewView cfg n) l :=
    startNewView_proceeds real positive n
  cases msg with
  | newView m => exact handleNewview_proceeds real positive leave tallied m
  | ldrPrepare m =>
    obtain ⟨rd, sent⟩ := good
    exact handleLdrPrepare_proceeds tallied sent
  | prepare m => exact handlePrepare_proceeds leave tallied m
  | preCommit m => exact handlePrecommit_proceeds leave tallied m
  | commit m => exact handleCommit_proceeds leave tallied m

theorem input_proceeds (i : Input) (other : ∀ trans, i ≠ .transaction trans)
    (tallied : Tallied cfg depth t key ledger p start l) :
    Proceeds cfg depth t key ledger p start ((protocol cfg n).input i) l := by
  have serving := (kept tallied).1
  cases i with
  | start cid =>
    -- The client is entered if it is new, and the first one starts the node.
    have begun : ∀ clients, Gives (if (!l.node.started) = true then do
          modify fun h => { h with started := true }
          getStarted cfg n
        else pure ()) (fun _ => Tallied cfg depth t key ledger p start)
        (((books cfg depth).knowledge t key ledger 0).Left p start)
        { l with node := { l.node with clients := clients } } := by
      intro clients
      refine gives_ite (fun _ => ?_) fun _ => Books.changed tallied { serving with } rfl rfl
      rw [gives_bind, gives_modify]
      refine getStarted_proceeds real positive ?_
      exact Books.changed (l := l) tallied { serving with } rfl rfl
    change Gives (handle_start cfg n cid) _ _ l
    simp only [handle_start, gives_bind, gives_this]
    refine gives_ite (fun _ => ?_) fun _ => begun l.node.clients
    rw [gives_bind, gives_modify]
    exact begun _
  | transaction trans => exact absurd rfl (other trans)
  | timeout =>
    change Gives (handleTimeout cfg n) _ _ l
    simp only [handleTimeout, gives_bind, gives_this]
    refine gives_ite (fun _ => ?_) fun _ => tallied
    refine gives_ite (fun _ => tallied.toLeft) fun _ => ?_
    exact startNewView_proceeds real positive n l tallied.leaving

omit real positive in
/-- An accepted transaction joins the end of the queue. -/
theorem handleTransaction_joins (trans : Transaction)
    (tallied : Tallied cfg depth t key ledger p start l) :
    ∃ h queue, handleTransaction trans l = .done () { l with node := h }
      ∧ Serving cfg p h l.history ∧ h.rep_queue = l.node.rep_queue
      ∧ h.transactions = l.node.transactions ++ queue ∧ queue.Sublist [trans] := by
  have serving := (kept tallied).1
  unfold handleTransaction
  rw [bind_of_done (rfl : (this : M Handler) l = .done l.node l)]
  cases acceptTransaction l.node.clients trans with
  | some clients =>
    let joined := { l.node with clients := clients, transactions := l.node.transactions ++ [trans] }
    exact ⟨joined, [trans], rfl, { serving with }, rfl, rfl, List.Sublist.refl _⟩
  | none => exact ⟨l.node, [], rfl, serving, rfl, (List.append_nil _).symm, List.nil_sublist _⟩

end ViewChange

end Tallied

end Handlers

section Runs

variable [Hashing] {cfg : Config} {depth : Nat} {t : Transaction} {p : PID}
variable {H : List BasicEvent} {actions : List (Action ServedInput)}

theorem books_keeping (positive : 0 < cfg.qsize) : (books cfg depth).Keeping where
  toSteady := books_steady
  answering := fun own _ _ => ⟨{ own with }, rfl, rfl⟩
  receive := fun real good inside => Tallied.receive_proceeds real positive _ good inside
  input := fun real other inside => Tallied.input_proceeds real positive _ other inside
  transaction := fun trans inside => Tallied.handleTransaction_joins trans inside

/-- Nothing has been handed in at the start. -/
theorem books_initial (t : Transaction) (key : TID × CID) :
    ((books cfg depth).knowledge t key ⟨fun _ => 0, fun _ => 0⟩ 0).Holds (initial cfg) where
  own := fun p running => {
    own := {
      known := by simpa [initial] using running
      myid := rfl
      trusted := by simp [initial, init, TrustedFun.init, wordSize]
      blocks := fun v => rfl
      newviews := fun member => by simp [initial, init, Log.empty] at member
      proposals := fun member => by simp [initial, init, Log.empty] at member
      later := fun member => by cases member }
    taken := Nat.le_refl _
    replied := Nat.le_refl _ }
  facts := {
    facts := {
      known := fun e member => by cases member
      voted := fun member => by cases member
      once := fun _ => List.nodup_nil }
    proposed := fun _ => Nat.le_refl _
    answered := fun _ => Nat.le_refl _ }
  good := fun packet member => by cases member

/-- What a node executes of a client's transaction, the leaders of its views have proposed. -/
theorem Executions.count_executed_le (facts : Executions cfg H)
    (early : ∀ {q v r}, .executed q v r ∈ H → cfg.timeToStop v = false) (p : PID) :
    (executedTransactions H p).count t ≤ ∑ q ∈ Finset.range cfg.total,
      ((ownProposals cfg q H).flatMap (·.2.transactions)).count t := by
  simp only [executedTransactions, List.count_flatMap]
  -- No view is one in which a node may execute again.
  have once := facts.once p
  rw [List.filter_eq_self.2 fun v member => ?_] at once
  · refine Tally.sum_le_groups (once.of_map _) (g := fun vb => cfg.getLeaderOf vb.1)
      (fun vb _ => Nat.mod_lt _ (Nat.succ_pos _)) fun vb executed _ => ?_
    obtain ⟨v, b⟩ := vb
    obtain ⟨-, r, lockh, lockv, rfl, voted⟩ := of_mem_executedBlocks executed
    obtain ⟨r', lockh', lockv', view, proposed⟩ := facts.voted voted
    refine List.mem_filterMap.2 ⟨_, proposed, ?_⟩
    simp [view]
  · obtain ⟨⟨w, b⟩, executed, rfl⟩ := List.mem_map.1 member
    obtain ⟨⟨r, noted⟩, -⟩ := of_mem_executedBlocks executed
    simp [early noted]

/-- What the nodes execute before the last view, and what they answer, is accounted for. -/
theorem accounts_of_early (positive : 0 < cfg.qsize)
    (early : ∀ {q v r}, .executed q v r
      ∈ ((initial cfg).run (replica cfg depth).served actions).history → cfg.timeToStop v = false) :
    (books cfg depth).Accounts cfg.total (initial cfg) actions := by
  have balanced : ∀ t key, t.isReal = true → (books cfg depth).Balanced t key _ _ := fun t key real =>
    ((books_keeping positive).run real key (books_initial t key) actions).facts
  refine (books_keeping positive).accounts books_initial (fun {p t} member => ?_) fun p t _ =>
    (balanced ⟨0, 1, []⟩ (0, 0) rfl).facts.count_executed_le early p
  obtain ⟨⟨v, b⟩, executed, -⟩ := List.mem_flatMap.1 member
  obtain ⟨⟨r, noted⟩, -⟩ := of_mem_executedBlocks executed
  exact (balanced ⟨0, 1, []⟩ (0, 0) rfl).facts.known _ noted

/--
In every run of the basic protocol in which nothing is executed in the last view, no node executes
a transaction of a client more often than it was handed to the nodes, nor answers more often than it
executed something to answer.
-/
theorem executes_no_more_than_handed (positive : 0 < cfg.qsize)
    (early : ∀ {q v r}, .executed q v r
      ∈ ((initial cfg).run (replica cfg depth).served actions).history → cfg.timeToStop v = false)
    (real : t.isReal = true) (key : TID × CID) (p : PID) :
    let H := ((initial cfg).run (replica cfg depth).served actions).history
    (executedTransactions H p).count t ≤ actions.countP (handsIn t)
      ∧ ((replica cfg depth).replies (initial cfg) actions).count (p, key)
        ≤ (executedTransactions H p).countP (Transaction.answeredAs key) := by
  have accounts := accounts_of_early positive early
  exact ⟨accounts.handed p t real, accounts.answered p key⟩

end Runs

section Examples

/--
A client hands its first transaction to the leader of view 0 before the others start, that view goes
by, and node 1 handles its queue of replies.
-/
def handedOnce : List (Action ServedInput) :=
  [.input 0 (.input (.start 0)), .input 0 (.input (.transaction ⟨0, 1, []⟩))]
    ++ [1, 2, 3].map (fun p => .input p (.input (.start 0)))
    ++ Schedule.deliverFrom 0 24 ++ [.input 1 (.dequeue true)]

/-- What happened in that run. -/
def handedOnceHistory : List BasicEvent :=
  let _ := Checksum.hashing
  ((initial Schedule.fourNodes).run (replica Schedule.fourNodes 3).served handedOnce).history

/-- The replies sent in it. -/
def handedOnceReplies : List (PID × TID × CID) :=
  let _ := Checksum.hashing
  (replica Schedule.fourNodes 3).replies (initial Schedule.fourNodes) handedOnce

/-- The transactions that a node executed in it. -/
def handedOnceExecuted (p : PID) : List Transaction :=
  let _ := Checksum.hashing
  executedTransactions handedOnceHistory p

/-- Node 1 has executed the transaction and answered it, once each. -/
theorem executes_no_more_than_handed_handedOnce :
    ((handedOnceExecuted 1).count ⟨0, 1, []⟩ = 1 ∧ handedOnceReplies = [(1, 1, 0)])
      ∧ (handedOnceExecuted 1).count ⟨0, 1, []⟩ ≤ handedOnce.countP (handsIn ⟨0, 1, []⟩)
      ∧ handedOnceReplies.count (1, 1, 0)
        ≤ (handedOnceExecuted 1).countP (Transaction.answeredAs (1, 0)) :=
  ⟨by decide +kernel, @executes_no_more_than_handed Checksum.hashing Schedule.fourNodes 3 ⟨0, 1, []⟩
    handedOnce (by decide) (fun _ => rfl) rfl (1, 0) 1⟩

end Examples

end Handler

end ParaHotstuff
