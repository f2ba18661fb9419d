import ParaHotstuff.Handler.Client
import ParaHotstuff.Handler.Schedule
import Mathlib.Data.Finset.Card
import Mathlib.Data.Finset.Dedup

/-! When a client records a transaction as executed only after a quorum of replicas replied. -/

namespace ParaHotstuff

namespace Client

variable {cfg : Config}

/-- The transaction that an event makes a client record. -/
def records (cfg : Config) (c : Client) (event : ClientEvent) : Option TID :=
  ((component cfg).answer c event).bind (·.1)

/-- The replicas whose replies for a transaction came since it was last made, in order. -/
def repliersSince (tid : TID) (events : List ClientEvent) : List PID :=
  events.foldl (fun repliers event =>
    match event with
    | .send transid => if transid = tid then [] else repliers
    | .reply conn reply => if reply = tid then repliers ++ [conn] else repliers) []

/-- The client counts a reply for a transaction that it made and has not recorded. -/
def Counted (c : Client) (tid : TID) : Prop :=
  c.stopped = false ∧ (c.transactions.lookup tid).isSome = true ∧ tid ∉ c.execTrans

/-- A reply that is counted comes from a replica that did not reply since the transaction was made. -/
def NewReply (before : List ClientEvent) (c : Client) : ClientEvent → Prop
  | .send _ => True
  | .reply conn reply => c.Counted reply → conn ∉ repliersSince reply before

/-- Every event of a sequence is a new reply, or none. -/
def AllNew (cfg : Config) (c : Client) (events : List ClientEvent) : Prop :=
  ∀ before event rest, events = before ++ event :: rest →
    NewReply before ((component cfg).after c before) event

/-- A quorum of distinct replicas has replied for a transaction. -/
def Replied (q : Nat) (events : List ClientEvent) (tid : TID) : Prop :=
  ∃ Q : Finset PID, q ≤ Q.card ∧ ∀ p ∈ Q, ClientEvent.reply p tid ∈ events

/-- Transactions are recorded once each, and not before a quorum has replied for them. -/
structure OnQuorum (cfg : Config) (c : Client) (events : List ClientEvent) : Prop where
  quorum : ∀ before, before <+: events → ∀ tid ∈ ((component cfg).after c before).execTrans,
    Replied c.qsize before tid
  once : ((component cfg).observed (records cfg) c events).Nodup

/-- A client that has stopped answers nothing. -/
theorem answer_stopped {c : Client} (stopped : c.stopped = true) (event : ClientEvent) :
    (component cfg).answer c event = none := if_pos stopped

theorem answer_send {c : Client} (running : c.stopped = false) (transid : TID) :
    (component cfg).answer c (.send transid) = some (none, (c.mkTransaction cfg transid).2) :=
  if_neg (by simp [running])

theorem answer_reply {c : Client} (running : c.stopped = false) (conn : PID) (tid : TID) :
    (component cfg).answer c (.reply conn tid) = some (c.handle_reply conn tid) :=
  if_neg (by simp [running])

/-- The state after a reply. -/
theorem next_reply {c : Client} (running : c.stopped = false) (conn : PID) (tid : TID) :
    (component cfg).next c (.reply conn tid) = (c.handle_reply conn tid).2 := by
  rw [Component.next, answer_reply running]

/-- What a reply does: nothing for a recorded or unknown transaction, else it is counted. -/
theorem handle_reply_cases (c : Client) (conn : PID) (tid : TID) :
    (tid ∈ c.execTrans ∧ c.handle_reply conn tid = (none, c))
      ∨ (tid ∉ c.execTrans ∧ c.transactions.lookup tid = none
        ∧ ∃ stopped, c.handle_reply conn tid = (none, { c with stopped }))
      ∨ ∃ tup, tid ∉ c.execTrans ∧ c.transactions.lookup tid = some tup
        ∧ ((((tup.replies + 1) % wordSize ≠ c.qsize) ∧ c.handle_reply conn tid
            = (none, { c with
                transactions := c.transactions.insert tid ⟨(tup.replies + 1) % wordSize, tup.trans⟩ }))
          ∨ ((tup.replies + 1) % wordSize = c.qsize
            ∧ ∃ stopped, c.handle_reply conn tid
              = (some tid, { c with
                  transactions :=
                    c.transactions.insert tid ⟨(tup.replies + 1) % wordSize, tup.trans⟩
                  execTrans := tid :: c.execTrans
                  stopped }))) := by
  -- The source looks first whether the transaction is recorded, then whether it is known.
  by_cases recorded : tid ∈ c.execTrans
  · exact .inl ⟨recorded, by simp [handle_reply, recorded]⟩
  right
  cases known : c.transactions.lookup tid with
  | none =>
    refine .inl ⟨recorded, rfl, ?_⟩
    -- An unknown transaction counts 0, which is a quorum only if nothing is needed for one.
    by_cases reached : 0 = c.qsize
    · exact ⟨_, by simp [handle_reply, recorded, updTransaction, executed, known, ← reached]; rfl⟩
    · exact ⟨c.stopped, by simp [handle_reply, recorded, updTransaction, known, reached]⟩
  | some tup =>
    refine .inr ⟨tup, recorded, rfl, ?_⟩
    -- The counter wraps around, so the comparison is made after that.
    by_cases reached : (tup.replies + 1) % wordSize = c.qsize
    · refine .inr ⟨reached, ?_⟩
      exact ⟨_, by
        simp [handle_reply, recorded, updTransaction, executed, known, reached]
        rfl⟩
    · exact .inl ⟨reached, by simp [handle_reply, recorded, updTransaction, known, reached]⟩

/-- Only those who replied are among the repliers. -/
theorem mem_repliersSince {tid : TID} {events : List ClientEvent} {p : PID}
    (member : p ∈ repliersSince tid events) : ClientEvent.reply p tid ∈ events := by
  induction events using List.reverseRecOn with
  | nil => cases member
  | append_singleton events event ih =>
    rw [repliersSince, List.foldl_append] at member
    cases event with
    | send transid =>
      simp only [List.foldl_cons, List.foldl_nil] at member
      split at member
      · cases member
      · exact List.mem_append_left _ (ih member)
    | reply conn reply =>
      simp only [List.foldl_cons, List.foldl_nil] at member
      split at member
      · rename_i same
        rcases List.mem_append.1 member with old | new
        · exact List.mem_append_left _ (ih old)
        · rw [List.mem_singleton.1 new, same]
          exact List.mem_append_right _ List.mem_cons_self
      · exact List.mem_append_left _ (ih member)

/-- A transaction that is made anew has no repliers yet, and the others keep theirs. -/
theorem repliersSince_send (tid transid : TID) (events : List ClientEvent) :
    repliersSince tid (events ++ [.send transid])
      = if transid = tid then [] else repliersSince tid events := by
  simp [repliersSince, List.foldl_append]

/-- A reply adds to the repliers of its transaction. -/
theorem repliersSince_reply (tid : TID) (conn : PID) (reply : TID) (events : List ClientEvent) :
    repliersSince tid (events ++ [.reply conn reply])
      = if reply = tid then repliersSince tid events ++ [conn] else repliersSince tid events := by
  simp [repliersSince, List.foldl_append]

/-- More replies do not take a quorum away. -/
theorem Replied.append {q : Nat} {events : List ClientEvent} {tid : TID}
    (replied : Replied q events tid) (event : ClientEvent) :
    Replied q (events ++ [event]) tid := by
  obtain ⟨Q, large, all⟩ := replied
  exact ⟨Q, large, fun p member => List.mem_append_left _ (all p member)⟩

/--
What holds after a sequence of new replies.

The count of a transaction that is not yet recorded is the number of its repliers, and they are
distinct; and a recorded one has its quorum.
-/
structure Tally (q : Nat) (events : List ClientEvent) (c : Client) : Prop where
  qsize : c.qsize = q
  counts : c.stopped = false → ∀ tid ∉ c.execTrans, ∀ tup, c.transactions.lookup tid = some tup →
    tup.replies = (repliersSince tid events).length % wordSize
      ∧ (repliersSince tid events).Nodup
  quorum : ∀ tid ∈ c.execTrans, Replied q events tid

/-- A new transaction has no replies, so its count starts from 0. -/
theorem Tally.send {q : Nat} {events : List ClientEvent} {c : Client} (tally : Tally q events c)
    (transid : TID) :
    Tally q (events ++ [.send transid]) (c.mkTransaction cfg transid).2 := by
  refine ⟨tally.qsize, fun running tid fresh tup found => ?_,
    fun tid recorded => (tally.quorum tid recorded).append _⟩
  rw [repliersSince_send]
  by_cases same : transid = tid
  · subst same
    simp only [mkTransaction, addNewTransaction, AList.lookup_insert, Option.some.injEq] at found
    simp [← found]
  · have other : c.transactions.lookup tid = some tup := by
      simpa [mkTransaction, addNewTransaction, AList.lookup_insert_ne (Ne.symm same)] using found
    rw [if_neg same]
    exact tally.counts running tid fresh tup other

/-- A new reply to a transaction that is not recorded adds one to its count and one replier. -/
theorem Tally.counted {q : Nat} {events : List ClientEvent} {c : Client} (tally : Tally q events c)
    (running : c.stopped = false) {conn : PID} {tid : TID} {tup : TransInfo}
    (new : NewReply events c (.reply conn tid)) (fresh : tid ∉ c.execTrans)
    (known : c.transactions.lookup tid = some tup) :
    (tup.replies + 1) % wordSize = (repliersSince tid events ++ [conn]).length % wordSize
      ∧ (repliersSince tid events ++ [conn]).Nodup := by
  obtain ⟨count, distinct⟩ := tally.counts running tid fresh tup known
  -- The condition applies: the client runs, and the transaction is known and not recorded.
  have absent : conn ∉ repliersSince tid events := new ⟨running, by simp [known], fresh⟩
  constructor
  · rw [count, List.length_append, List.length_singleton, Nat.mod_add_mod]
  · exact List.Nodup.append distinct (List.nodup_singleton conn) fun p old same =>
      absent (List.mem_singleton.1 same ▸ old)

/-- A new reply keeps the tally, until the quorum is complete and after it. -/
theorem Tally.reply {q : Nat} {events : List ClientEvent} {c : Client} (tally : Tally q events c)
    (running : c.stopped = false) {conn : PID} {tid : TID}
    (new : NewReply events c (.reply conn tid)) :
    Tally q (events ++ [.reply conn tid]) (c.handle_reply conn tid).2 := by
  -- A reply for one transaction says nothing about the others.
  have others : ∀ tid' ≠ tid, tid' ∉ c.execTrans → ∀ tup,
      c.transactions.lookup tid' = some tup →
        tup.replies = (repliersSince tid' (events ++ [.reply conn tid])).length % wordSize
          ∧ (repliersSince tid' (events ++ [.reply conn tid])).Nodup := by
    intro tid' other fresh tup found
    rw [repliersSince_reply, if_neg (Ne.symm other)]
    exact tally.counts running tid' fresh tup found
  -- What is recorded keeps its quorum.
  have quorums : ∀ tid' ∈ c.execTrans, Replied q (events ++ [.reply conn tid]) tid' :=
    fun tid' recorded => (tally.quorum tid' recorded).append _
  rcases c.handle_reply_cases conn tid with
    ⟨recorded, result⟩ | ⟨fresh, unknown, stopped, result⟩
      | ⟨tup, fresh, known, ⟨more, result⟩ | ⟨reached, stopped, result⟩⟩
  · rw [result]
    refine ⟨tally.qsize, fun _ tid' fresh tup found => others tid' ?_ fresh tup found, quorums⟩
    rintro rfl
    exact fresh recorded
  · rw [result]
    refine ⟨tally.qsize, fun _ tid' fresh tup found => others tid' ?_ fresh tup found, quorums⟩
    rintro rfl
    rw [show c.transactions.lookup tid' = none from unknown] at found
    cases found
  · -- The count goes on, together with the repliers.
    obtain ⟨count, distinct⟩ := tally.counted running new fresh known
    rw [result]
    refine ⟨tally.qsize, fun _ tid' fresh' tup' found => ?_, quorums⟩
    by_cases same : tid' = tid
    · subst same
      obtain rfl : TransInfo.mk ((tup.replies + 1) % wordSize) tup.trans = tup' := by
        simpa using found
      rw [repliersSince_reply, if_pos rfl]
      exact ⟨count, distinct⟩
    · exact others tid' same fresh' tup' (by simpa [AList.lookup_insert_ne same] using found)
  · -- The transaction is recorded, with at least as many repliers as it has counted.
    obtain ⟨count, distinct⟩ := tally.counted running new fresh known
    rw [result]
    refine ⟨tally.qsize, fun _ tid' fresh' tup' found => ?_, fun tid' recorded => ?_⟩
    · obtain ⟨other, fresh'⟩ := not_or.1 (mt List.mem_cons.2 fresh')
      exact others tid' other fresh' tup' (by simpa [AList.lookup_insert_ne other] using found)
    · rcases List.mem_cons.1 recorded with rfl | old
      -- The repliers are distinct, and the count that reached the quorum is at most their number.
      · refine ⟨(repliersSince tid' events ++ [conn]).toFinset, ?_, fun p member => ?_⟩
        · rw [List.toFinset_card_of_nodup distinct, ← tally.qsize, ← reached, count]
          exact Nat.mod_le _ _
        · apply mem_repliersSince
          rw [repliersSince_reply, if_pos rfl]
          exact List.mem_toFinset.1 member
      · exact quorums tid' old

/-- Whatever new replies come, the tally is kept. -/
theorem Tally.after {c : Client} {events : List ClientEvent} (tally : Tally c.qsize [] c)
    (new : AllNew cfg c events) : Tally c.qsize events ((component cfg).after c events) := by
  induction events using List.reverseRecOn with
  | nil => exact tally
  | append_singleton events event ih =>
    -- Induction from the end: the condition holds for all events before the last one, too.
    have before := ih fun earlier event' rest split =>
      new earlier event' (rest ++ [event]) (by rw [split]; simp)
    have fits := new events event [] rfl
    rw [Component.after_concat]
    cases stopped : ((component cfg).after c events).stopped with
    | true =>
      -- A client that has stopped stays as it is.
      rw [Component.next_of_throw (answer_stopped stopped event)]
      refine ⟨before.qsize, fun running => ?_, fun tid recorded => (before.quorum tid recorded).append _⟩
      rw [stopped] at running
      cases running
    | false =>
      cases event with
      | send transid =>
        rw [Component.next_of_answer (answer_send stopped transid)]
        exact before.send transid
      | reply conn tid =>
        rw [next_reply stopped]
        exact before.reply stopped fits

/-- An event records a transaction that was not recorded before, and no other change is made. -/
theorem records_cases (c : Client) (event : ClientEvent) :
    (records cfg c event = none ∧ ((component cfg).next c event).execTrans = c.execTrans)
      ∨ ∃ tid, tid ∉ c.execTrans ∧ records cfg c event = some tid
        ∧ ((component cfg).next c event).execTrans = tid :: c.execTrans := by
  cases stopped : c.stopped with
  | true =>
    have silent := @answer_stopped cfg c stopped event
    exact .inl ⟨by simp [records, silent], by rw [Component.next_of_throw silent]⟩
  | false =>
    cases event with
    | send transid =>
      have made := @answer_send cfg c stopped transid
      exact .inl ⟨by simp [records, made], by rw [Component.next_of_answer made]; rfl⟩
    | reply conn tid =>
      have answered := @answer_reply cfg c stopped conn tid
      rw [next_reply stopped]
      simp only [records, answered, Option.bind_some]
      rcases c.handle_reply_cases conn tid with
        ⟨-, result⟩ | ⟨-, -, stopped', result⟩
          | ⟨tup, fresh, -, ⟨-, result⟩ | ⟨-, stopped', result⟩⟩
      · exact .inl ⟨by rw [result], by rw [result]⟩
      · exact .inl ⟨by rw [result], by rw [result]⟩
      · exact .inl ⟨by rw [result], by rw [result]⟩
      · exact .inr ⟨tid, fresh, by rw [result], by rw [result]⟩

/-- From any state, what a sequence records is new and recorded once. -/
theorem records_nodup (c : Client) (events : List ClientEvent) :
    ((component cfg).observed (records cfg) c events).Nodup
      ∧ (∀ tid ∈ (component cfg).observed (records cfg) c events,
        tid ∈ ((component cfg).after c events).execTrans)
      ∧ ∀ tid ∈ c.execTrans, tid ∈ ((component cfg).after c events).execTrans := by
  induction events using List.reverseRecOn with
  | nil => exact ⟨List.nodup_nil, fun _ member => (List.not_mem_nil member).elim, fun _ member => member⟩
  | append_singleton events event ih =>
    obtain ⟨once, all, kept⟩ := ih
    rw [Component.observed_concat, Component.after_concat]
    rcases records_cases ((component cfg).after c events) event with
      ⟨nothing, same⟩ | ⟨tid, fresh, recorded, one_more⟩
    · rw [nothing, same, Option.toList_none, List.append_nil]
      exact ⟨once, all, kept⟩
    -- What is recorded now was not recorded, and all that was recorded is kept.
    · rw [recorded, one_more, Option.toList_some]
      refine ⟨?_, fun tid' member => ?_, fun tid' member => List.mem_cons_of_mem _ (kept tid' member)⟩
      · refine List.Nodup.append once (List.nodup_singleton tid) fun tid' old same => ?_
        rw [List.mem_singleton.1 same] at old
        exact fresh (all tid old)
      · rcases List.mem_append.1 member with old | new
        · exact List.mem_cons_of_mem _ (all tid' old)
        · rw [List.mem_singleton.1 new]
          exact List.mem_cons_self

/-- Where every counted reply is a new one, transactions are recorded once and on a quorum. -/
theorem recorded_onQuorum (cfg : Config) (cid : CID) (numInstances : Nat)
    (events : List ClientEvent) (new : AllNew cfg (init cfg cid numInstances) events) :
    OnQuorum cfg (init cfg cid numInstances) events := by
  refine ⟨fun before within => ?_, (records_nodup _ events).1⟩
  obtain ⟨rest, split⟩ := within
  have start : Tally (init cfg cid numInstances).qsize [] (init cfg cid numInstances) :=
    ⟨rfl, fun _ tid _ tup found => by simp [init] at found, fun tid recorded => by cases recorded⟩
  -- The events before the end meet the condition as part of the whole sequence.
  refine (start.after fun earlier event later part => ?_).quorum
  exact new earlier event (later ++ rest) (by rw [← split, part]; simp)

/-- A transaction is made and answered by three of four replicas. -/
def threeReplies : List ClientEvent := [.send 1, .reply 0 1, .reply 1 1, .reply 2 1]

/-- Of four nodes three reply, one after the other, and the transaction is recorded. -/
theorem recorded_onQuorum_threeReplies :
    OnQuorum Schedule.fourNodes (init Schedule.fourNodes 0 2) threeReplies := by
  refine recorded_onQuorum Schedule.fourNodes 0 2 threeReplies fun before event rest split => ?_
  -- Each event is found after those in front of it.
  rcases before with _ | ⟨first, _ | ⟨second, _ | ⟨third, _ | ⟨fourth, before⟩⟩⟩⟩
  all_goals
    simp only [threeReplies, List.nil_append, List.cons_append, List.cons.injEq] at split
  · rw [← split.1]
    trivial
  · rw [← split.1, ← split.2.1]
    exact fun _ => by decide
  · rw [← split.1, ← split.2.1, ← split.2.2.1]
    exact fun _ => by decide
  · rw [← split.1, ← split.2.1, ← split.2.2.1, ← split.2.2.2.1]
    exact fun _ => by decide
  · simp at split

/-- One replica that replies three times makes the client record the transaction. -/
theorem recorded_oneReplica :
    let events : List ClientEvent := [.send 1, .reply 0 1, .reply 0 1, .reply 0 1]
    ¬ OnQuorum Schedule.fourNodes (init Schedule.fourNodes 0 2) events := by
  intro events onQuorum
  have recorded : 1 ∈ ((component Schedule.fourNodes).after (init Schedule.fourNodes 0 2)
      events).execTrans := by decide
  obtain ⟨Q, large, all⟩ := onQuorum.quorum events (List.prefix_refl _) 1 recorded
  -- Only replica 0 has replied, so no three replicas did.
  have one : Q ⊆ {0} := by
    intro p member
    simpa [events] using all p member
  exact absurd (Nat.le_trans large (Finset.card_le_card one)) (by decide)

end Client

end ParaHotstuff
