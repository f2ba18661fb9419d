import ParaHotstuff.Lib.Component
import ParaHotstuff.Log.Basic
import ParaHotstuff.Log.Para
import ParaHotstuff.Proofs.Votes

/-! When the counts that a log returns are counts of distinct signers. -/

namespace ParaHotstuff

namespace Messages

variable {K T : Type} [DecidableEq K] {signsOf : T → Signs} {lt : T → T → Bool}
variable {log : Messages K T} {k : K} {m : T} {msgs held : List T} {n : Nat}

variable (signsOf) in
/-- A count stands for as many distinct signers, and for as many signatures that are collected. -/
structure CountsSigners (held : List T) (collected : Signs) (n : Nat) : Prop where
  signers : n ≤ (allSigns signsOf held).getSigners.toFinset.card
  full : collected.length = n
  distinct : collected.getSigners.Nodup

variable (signsOf) in
/--
How a message should fit to those already stored for its key.

Either all its signers have signatures there, or it brings signatures of new signers only, one of
each and at least one.
-/
def Fits (held : List T) (m : T) : Prop :=
  (allSigns signsOf held ≠ []
      ∧ ∀ p ∈ (signsOf m).getSigners, p ∈ (allSigns signsOf held).getSigners)
    ∨ (signsOf m ≠ [] ∧ (signsOf m).getSigners.Nodup
      ∧ ∀ p ∈ (signsOf m).getSigners, p ∉ (allSigns signsOf held).getSigners)

instance (held : List T) (m : T) : Decidable (Fits signsOf held m) :=
  inferInstanceAs (Decidable (_ ∨ _))

variable (signsOf) in
/-- Messages that all carry signatures, no two of the same signer. -/
structure Distinct (msgs : List T) : Prop where
  signed : ∀ m ∈ msgs, signsOf m ≠ []
  distinct : (allSigns signsOf msgs).getSigners.Nodup

namespace Distinct

theorem nil : Distinct signsOf ([] : List T) := ⟨by simp, by simp [allSigns, Signs.getSigners]⟩

/-- A message of new signers only may be added anywhere. -/
theorem insert (separate : Distinct signsOf held) (signed : signsOf m ≠ [])
    (once : (signsOf m).getSigners.Nodup)
    (fresh : ∀ p ∈ (signsOf m).getSigners, p ∉ (allSigns signsOf held).getSigners)
    (moved : msgs.Perm (m :: held)) : Distinct signsOf msgs := by
  refine ⟨fun m' member => ?_, ?_⟩
  · rcases List.mem_cons.1 (moved.mem_iff.1 member) with rfl | old
    · exact signed
    · exact separate.signed m' old
  · -- The signers are those of the message and those before, in another order.
    have all := (allSigns_perm signsOf moved).map (·.signer)
    refine all.nodup_iff.2 ?_
    have split : (allSigns signsOf (m :: held)).map (·.signer)
        = (signsOf m).getSigners ++ (allSigns signsOf held).getSigners := by
      simp [allSigns, Signs.getSigners]
    rw [split]
    exact List.Nodup.append once separate.distinct fun p new old => fresh p new old

/-- Storing a message that fits leaves the signers distinct. -/
theorem store (separate : Distinct signsOf (log.held k)) (fits : Fits signsOf (log.held k) m) :
    Distinct signsOf ((log.store signsOf lt k m).2.held k) := by
  rcases fits with ⟨signed, covered⟩ | ⟨signed, once, fresh⟩
  · rw [store_covered covered signed]
    exact separate
  · rcases log.store_cases signsOf lt k m with ⟨kept, -⟩ | ⟨msgs, stored, moved | same, -⟩
    · rw [kept]
      exact separate
    · rw [stored, held_insert, if_pos rfl]
      exact separate.insert signed once fresh moved
    · rw [stored, held_insert, if_pos rfl, same]
      exact separate

/-- So does counting and storing it. -/
theorem storeAndCount (separate : Distinct signsOf (log.held k))
    (fits : Fits signsOf (log.held k) m) :
    Distinct signsOf ((log.storeAndCount signsOf lt k m).2.held k) := by
  obtain ⟨msgs, stored, cases⟩ := storeAndCount_cases signsOf lt log k m
  rw [stored, held_insert, if_pos rfl]
  rcases cases with ⟨same, -⟩ | ⟨moved | same, -, unsigned | ⟨p, signer, absent⟩⟩
  · rw [same]
    exact separate
  · -- Nothing is covered where no signature is held.
    rcases fits with ⟨signed, -⟩ | ⟨signed, once, fresh⟩
    · exact absurd unsigned signed
    · exact separate.insert signed once fresh moved
  · rcases fits with ⟨-, covered⟩ | ⟨signed, once, fresh⟩
    · exact absurd (covered p signer) absent
    · exact separate.insert signed once fresh moved
  · rw [same]
    exact separate
  · rw [same]
    exact separate

variable (lt) in
/-- If distinct signers are held for every key, they are so after a message that fits was stored. -/
theorem store_all (separate : ∀ k', Distinct signsOf (log.held k'))
    (fits : Fits signsOf (log.held k) m) (k' : K) :
    Distinct signsOf ((log.store signsOf lt k m).2.held k') := by
  by_cases here : k' = k
  · subst here
    exact (separate k').store fits
  · rw [held_store_ne here]
    exact separate k'

variable (lt) in
/-- The same for counting and storing. -/
theorem storeAndCount_all (separate : ∀ k', Distinct signsOf (log.held k'))
    (fits : Fits signsOf (log.held k) m) (k' : K) :
    Distinct signsOf ((log.storeAndCount signsOf lt k m).2.held k') := by
  by_cases here : k' = k
  · subst here
    exact (separate k').storeAndCount fits
  · rw [held_storeAndCount_ne here]
    exact separate k'

/-- There are at least as many signatures as messages. -/
theorem length_le (separate : Distinct signsOf msgs) :
    msgs.length ≤ (allSigns signsOf msgs).length := by
  have signed := separate.signed
  clear separate
  induction msgs with
  | nil => exact Nat.zero_le _
  | cons m msgs ih =>
    have first : 0 < (signsOf m).length := List.length_pos_of_ne_nil (signed m List.mem_cons_self)
    have rest := ih fun m' member => signed m' (List.mem_cons_of_mem _ member)
    simp only [allSigns, List.flatMap_cons, List.length_append, List.length_cons] at rest ⊢
    omega

/-- Whatever is counted of such messages stands for distinct signers. -/
theorem counts (separate : Distinct signsOf (log.held k)) (within : n ≤ (log.held k).length) :
    CountsSigners signsOf (log.held k) (log.getSigns signsOf k n) n := by
  have signatures : n ≤ (allSigns signsOf (log.held k)).length :=
    Nat.le_trans within separate.length_le
  refine ⟨?_, ?_, ?_⟩
  · rw [List.toFinset_card_of_nodup separate.distinct, Signs.getSigners, List.length_map]
    exact signatures
  · rw [getSigns_eq, List.length_take]
    omega
  · rw [getSigns_eq]
    exact separate.distinct.sublist ((List.take_sublist n _).map _)

end Distinct

variable (signsOf lt) in
/-- No count exceeds the number of messages held afterwards. -/
theorem count_le_store (log : Messages K T) (k : K) (m : T) :
    (log.store signsOf lt k m).1 ≤ ((log.store signsOf lt k m).2.held k).length := by
  by_cases none_counted : (log.store signsOf lt k m).1 = 0
  · rw [none_counted]
    exact Nat.zero_le _
  · exact Nat.le_of_eq (store_count signsOf lt log k m none_counted).symm

end Messages

/-- The kinds of messages that are counted. -/
inductive VoteKind where
  | newView
  | prepare
  | preCommit
  | commit
deriving DecidableEq, Repr

namespace Log

open Messages

/-- Store a message of a kind. -/
def storeVote (log : Log) : VoteKind → MsgRData → Nat × Log
  | .newView => log.storeNv
  | .prepare => log.storePrep
  | .preCommit => log.storePc
  | .commit => log.storeCom

/-- Collect signatures of a kind. -/
def getVotes (log : Log) : VoteKind → View → Nat → Signs
  | .newView => log.getNewView
  | .prepare => log.getPrepare
  | .preCommit => log.getPrecommit
  | .commit => log.getCommit

/-- The messages of a kind. -/
def votes (log : Log) : VoteKind → Messages View MsgRData
  | .newView => log.newviews
  | .prepare => log.prepares
  | .preCommit => log.precommits
  | .commit => log.commits

/-- The log as a component that is called to store one message after another. -/
def storing : Component Log (VoteKind × MsgRData) Nat where
  answer log call := some (log.storeVote call.1 call.2)

/-- A message fits to those of its kind and view. -/
def FitsIn (log : Log) (call : VoteKind × MsgRData) : Prop :=
  Fits (·.signs) ((log.votes call.1).held call.2.rdata.propv) call.2

/-- The count returned for a message stands for as many signers. -/
def CountsIn (log : Log) (call : VoteKind × MsgRData) : Prop :=
  let (count, log) := log.storeVote call.1 call.2
  CountsSigners (·.signs) ((log.votes call.1).held call.2.rdata.propv)
    (log.getVotes call.1 call.2.rdata.propv count) count

/-- All messages of each kind and view are signed, by distinct signers. -/
def Separate (log : Log) : Prop :=
  ∀ kind v, Distinct (·.signs) ((log.votes kind).held v)

variable {log : Log} {call : VoteKind × MsgRData}

/-- Each kind is stored and counted among its own messages, and the other kinds stay. -/
theorem storeVote_eq (log : Log) (kind : VoteKind) (msg : MsgRData) :
    (log.storeVote kind msg).1
        = ((log.votes kind).store (·.signs) MsgRData.lt msg.rdata.propv msg).1
      ∧ ∀ other, (log.storeVote kind msg).2.votes other = if other = kind then
          ((log.votes kind).store (·.signs) MsgRData.lt msg.rdata.propv msg).2
        else log.votes other := by
  cases kind <;> exact ⟨rfl, fun other => by cases other <;> rfl⟩

theorem getVotes_eq (log : Log) (kind : VoteKind) (v : View) (n : Nat) :
    log.getVotes kind v n = (log.votes kind).getSigns (·.signs) v n := by
  cases kind <;> rfl

/-- Storing a message that fits leaves all signers distinct. -/
theorem Separate.next (separate : log.Separate) (fits : log.FitsIn call) :
    (storing.next log call).Separate := by
  obtain ⟨kind, msg⟩ := call
  intro other v
  change Distinct _ (((log.storeVote kind msg).2.votes other).held v)
  rw [(storeVote_eq log kind msg).2]
  split
  · rename_i same
    subst same
    exact Distinct.store_all MsgRData.lt (separate other) fits v
  · exact separate other v

/-- Then the count returned for it is one of distinct signers. -/
theorem Separate.counts (separate : log.Separate) (fits : log.FitsIn call) : log.CountsIn call := by
  obtain ⟨kind, msg⟩ := call
  have after := separate.next fits kind msg.rdata.propv
  have stored := storeVote_eq log kind msg
  have same := stored.2 kind
  rw [if_pos rfl] at same
  change CountsSigners _ (((log.storeVote kind msg).2.votes kind).held msg.rdata.propv)
    ((log.storeVote kind msg).2.getVotes kind msg.rdata.propv (log.storeVote kind msg).1)
    (log.storeVote kind msg).1
  rw [getVotes_eq]
  refine Distinct.counts after ?_
  rw [stored.1, same]
  exact count_le_store _ _ _ _ _

end Log

namespace LogPara

open Messages

/-- Store a message of a kind. -/
def storeVote (log : LogPara) : VoteKind → MsgRDataPara → Nat × LogPara
  | .newView => log.storeNvPara
  | .prepare => log.storePrepPara
  | .preCommit => log.storePcPara
  | .commit => log.storeComPara

/-- Collect signatures of a kind; reports are kept by their view alone. -/
def getVotes (log : LogPara) (kind : VoteKind) (v : View) (seqNumber n : Nat) : Signs :=
  match kind with
  | .newView => log.getNewViewPara v n
  | .prepare => log.getPreparePara v n seqNumber
  | .preCommit => log.getPrecommitPara v n seqNumber
  | .commit => log.getCommitPara v n seqNumber

/-- The messages of a kind for a slot of a view. -/
def votes (log : LogPara) (kind : VoteKind) (v : View) (seqNumber : Nat) : List MsgRDataPara :=
  match kind with
  | .newView => log.newviewsPara.held v
  | .prepare => log.preparesPara.held (v, seqNumber)
  | .preCommit => log.precommitsPara.held (v, seqNumber)
  | .commit => log.commitsPara.held (v, seqNumber)

/-- The log as a component that is called to store one message after another. -/
def storing : Component LogPara (VoteKind × MsgRDataPara) Nat where
  answer log call := some (log.storeVote call.1 call.2)

/-- A message fits to those of its kind and slot. -/
def FitsIn (log : LogPara) (call : VoteKind × MsgRDataPara) : Prop :=
  Fits (·.signs) (log.votes call.1 call.2.rdata.propv call.2.rdata.seqNumber) call.2

/-- The count returned for a message stands for as many signers. -/
def CountsIn (log : LogPara) (call : VoteKind × MsgRDataPara) : Prop :=
  let (count, log) := log.storeVote call.1 call.2
  CountsSigners (·.signs) (log.votes call.1 call.2.rdata.propv call.2.rdata.seqNumber)
    (log.getVotes call.1 call.2.rdata.propv call.2.rdata.seqNumber count) count

/-- All messages of each kind and slot are signed, by distinct signers. -/
def Separate (log : LogPara) : Prop :=
  ∀ kind v seqNumber, Distinct (·.signs) (log.votes kind v seqNumber)

variable {log : LogPara} {call : VoteKind × MsgRDataPara}

/-- Storing a message that fits leaves all signers distinct. -/
theorem Separate.next (separate : log.Separate) (fits : log.FitsIn call) :
    (storing.next log call).Separate := by
  obtain ⟨kind, msg⟩ := call
  intro other v seqNumber
  -- Of the kind stored only the messages of one slot change, and of another kind none.
  cases kind with
  | newView =>
    cases other with
    | newView =>
      exact Distinct.store_all MsgRDataPara.lt (fun v => separate .newView v seqNumber) fits v
    | prepare => exact separate .prepare v seqNumber
    | preCommit => exact separate .preCommit v seqNumber
    | commit => exact separate .commit v seqNumber
  | prepare =>
    cases other with
    | prepare =>
      exact Distinct.storeAndCount_all MsgRDataPara.lt (fun k => separate .prepare k.1 k.2) fits _
    | newView => exact separate .newView v seqNumber
    | preCommit => exact separate .preCommit v seqNumber
    | commit => exact separate .commit v seqNumber
  | preCommit =>
    cases other with
    | preCommit =>
      exact Distinct.storeAndCount_all MsgRDataPara.lt (fun k => separate .preCommit k.1 k.2) fits _
    | newView => exact separate .newView v seqNumber
    | prepare => exact separate .prepare v seqNumber
    | commit => exact separate .commit v seqNumber
  | commit =>
    cases other with
    | commit =>
      exact Distinct.storeAndCount_all MsgRDataPara.lt (fun k => separate .commit k.1 k.2) fits _
    | newView => exact separate .newView v seqNumber
    | prepare => exact separate .prepare v seqNumber
    | preCommit => exact separate .preCommit v seqNumber

/-- Then the count returned for it is one of distinct signers. -/
theorem Separate.counts (separate : log.Separate) (fits : log.FitsIn call) : log.CountsIn call := by
  obtain ⟨kind, msg⟩ := call
  have after := separate.next fits kind msg.rdata.propv msg.rdata.seqNumber
  cases kind with
  | newView => exact Distinct.counts after (count_le_store _ _ _ _ _)
  | prepare => exact Distinct.counts after (Nat.le_of_eq (storeAndCount_count _ _ _ _ _).symm)
  | preCommit => exact Distinct.counts after (Nat.le_of_eq (storeAndCount_count _ _ _ _ _).symm)
  | commit => exact Distinct.counts after (Nat.le_of_eq (storeAndCount_count _ _ _ _ _).symm)

end LogPara

/--
As long as each message stored fits to those of its kind and view, or slot, every count that a log
returns is one of distinct signers, whose signatures can be collected.
-/
theorem counts_distinct_signers (calls : List (VoteKind × MsgRData))
    (callsPara : List (VoteKind × MsgRDataPara)) :
    ((∀ step ∈ Log.storing.steps .empty calls, step.1.FitsIn step.2) →
      ∀ step ∈ Log.storing.steps .empty calls, step.1.CountsIn step.2)
    ∧ ((∀ step ∈ LogPara.storing.steps .empty callsPara, step.1.FitsIn step.2) →
      ∀ step ∈ LogPara.storing.steps .empty callsPara, step.1.CountsIn step.2) := by
  constructor
  · intro fits step member
    have separate : step.1.Separate :=
      Component.invariant_meeting (fun _ _ fits separate => Log.Separate.next separate fits)
        (fun kind v => by cases kind <;> exact Messages.Distinct.nil) fits member
    exact separate.counts (fits step member)
  · intro fits step member
    have separate : step.1.Separate :=
      Component.invariant_meeting (fun _ _ fits separate => LogPara.Separate.next separate fits)
        (fun kind v seqNumber => by cases kind <;> exact Messages.Distinct.nil) fits member
    exact separate.counts (fits step member)

/-- A message of view 0 that claims to be signed by some nodes. -/
def claimedBy (signers : List PID) : MsgRData :=
  ⟨RData.default, signers.map fun p => ⟨true, p, .other 0⟩⟩

/-- The same message for the first slot of view 0 of the parallel protocol. -/
def claimedSlotBy (signers : List PID) : MsgRDataPara :=
  ⟨⟨Hash.default, 0, Hash.default, 0, PH1_PREPARE, 1⟩, signers.map fun p => ⟨true, p, .other 0⟩⟩

/-- Votes of single nodes, and certificates of nodes that have all voted, are counted as signers. -/
theorem counts_distinct_signers_singles :
    let signers : List (List PID) := [[0], [1], [1, 0], [2]]
    (∀ step ∈ Log.storing.steps .empty (signers.map fun by' => (.prepare, claimedBy by')),
        step.1.CountsIn step.2)
      ∧ ∀ step ∈ LogPara.storing.steps .empty (signers.map fun by' => (.commit, claimedSlotBy by')),
        step.1.CountsIn step.2 := by
  intro signers
  have counts := counts_distinct_signers (signers.map fun by' => (.prepare, claimedBy by'))
    (signers.map fun by' => (.commit, claimedSlotBy by'))
  exact ⟨counts.1 (by unfold Log.FitsIn; decide), counts.2 (by unfold LogPara.FitsIn; decide)⟩

/--
A certificate with a new signer next to an old one is counted as one more signer, though the
signatures collected then are twice of the old one; and a report without signatures counts as well.
-/
theorem counts_without_signers :
    (¬ (Log.storing.after .empty [(.prepare, claimedBy [0])]).CountsIn
        (.prepare, claimedBy [0, 1]))
      ∧ ¬ LogPara.empty.CountsIn (.newView, .empty) := by
  constructor
  · intro counts
    have distinct := counts.distinct
    revert distinct
    decide
  · intro counts
    have full := counts.full
    revert full
    decide

end ParaHotstuff
