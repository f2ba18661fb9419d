import ParaHotstuff.Handler.Schedule
import ParaHotstuff.Proofs.Counting

/-! When a log of the parallel protocol reports each number of votes only once. -/

namespace ParaHotstuff

namespace Messages

variable {K T : Type} [DecidableEq K] {signsOf : T → Signs} {lt : T → T → Bool}

variable (signsOf) in
/-- A message finds others for its key, and all its signers have signatures among them. -/
def Repeated (held : List T) (m : T) : Prop :=
  held ≠ [] ∧ ∀ p ∈ (signsOf m).getSigners, p ∈ (allSigns signsOf held).getSigners

variable (signsOf) in
/-- A message without signatures finds others for its key, all of them without signatures. -/
def Unsigned (held : List T) (m : T) : Prop :=
  held ≠ [] ∧ allSigns signsOf held = [] ∧ signsOf m = []

/-- Among messages without signatures there is room for one only. -/
theorem insert_unsigned
    (same : ∀ a b : T, signsOf a = [] → signsOf b = [] → lt a b = false) {held : List T} {m : T}
    (unsigned : Unsigned signsOf held m) : OrderedSet.insert lt m held = held := by
  obtain ⟨some_held, none_signed, blank⟩ := unsigned
  cases held with
  | nil => exact absurd rfl some_held
  | cons first rest =>
    -- If no signature is held, the first message has none, and so it is equivalent to the new one.
    have empty : signsOf first = [] := by
      simp only [allSigns, List.flatMap_cons, List.append_eq_nil_iff] at none_signed
      exact none_signed.1
    simp [OrderedSet.insert, same m first blank empty, same first m empty blank]

/-- A repeated message has no signature if none is held. -/
theorem Repeated.unsigned {held : List T} {m : T} (repeated : Repeated signsOf held m)
    (none_signed : allSigns signsOf held = []) : Unsigned signsOf held m := by
  -- Each signer would need a signature among those held, and there are none.
  have none_named : (signsOf m).getSigners = [] := List.eq_nil_iff_forall_not_mem.2
    fun p named => by simpa [none_signed, Signs.getSigners] using repeated.2 p named
  exact ⟨repeated.1, none_signed, by simpa [Signs.getSigners] using none_named⟩

/-- The first message for a key is put in whatever it is. -/
theorem store_first {log : Messages K T} {k : K} {m : T} (empty : log.held k = []) :
    log.store signsOf lt k m = (1, log.insert k [m]) := by
  cases known : log.lookup k with
  | none => simp [store, known]
  | some msgs =>
    -- An empty set under the key counts as nothing held.
    have none_held : msgs = [] := by simpa [held, known] using empty
    simp [store, known, none_held, OrderedSet.insert, msgFrom, allSigns, Signs.getSigners,
      signersFrom]

variable (same : ∀ a b : T, signsOf a = [] → signsOf b = [] → lt a b = false)
variable (ordered : ∀ {a b : T}, lt a b = false → lt b a = false →
  (signsOf a).getSigners = (signsOf b).getSigners)

include same ordered in
/-- Counting and storing a message puts it in, unless it is repeated. -/
theorem storeAndCount_counts (log : Messages K T) (k : K) (m : T) :
    (((log.storeAndCount signsOf lt k m).2.held k).length = (log.held k).length + 1
        ∧ (log.storeAndCount signsOf lt k m).1 = (log.held k).length + 1
        ∧ ¬ Repeated signsOf (log.held k) m)
      ∨ (((log.storeAndCount signsOf lt k m).2.held k).length = (log.held k).length
        ∧ (log.held k).length ≠ 0
        ∧ (log.storeAndCount signsOf lt k m).1 = (log.held k).length
        ∧ Repeated signsOf (log.held k) m) := by
  rw [storeAndCount_count]
  by_cases repeated : Repeated signsOf (log.held k) m
  · suffices kept : (log.storeAndCount signsOf lt k m).1 = (log.held k).length from
      .inr ⟨kept, by simpa using repeated.1, kept, repeated⟩
    -- Without any signature the signers pass for new, but the set keeps the message out.
    by_cases signed : allSigns signsOf (log.held k) = []
    · have kept := insert_unsigned same (repeated.unsigned signed)
      simp [storeAndCount, kept]
    · have covered : msgFrom signsOf (log.held k) (signsOf m).getSigners = true :=
        signersFrom_iff.2 ⟨by simpa [Signs.getSigners] using signed, repeated.2⟩
      simp [storeAndCount, covered]
  · suffices grown : (log.storeAndCount signsOf lt k m).1 = (log.held k).length + 1 from
      .inl ⟨grown, grown, repeated⟩
    rcases Decidable.not_and_iff_or_not.1 repeated with none_held | new
    · have empty : log.held k = [] := by simpa using none_held
      simp [storeAndCount, empty, OrderedSet.insert, msgFrom, allSigns, Signs.getSigners,
        signersFrom]
    · have absent : ∃ p ∈ (signsOf m).getSigners,
          p ∉ (allSigns signsOf (log.held k)).getSigners := by simpa using new
      obtain ⟨p, signer, absent⟩ := absent
      have fresh : msgFrom signsOf (log.held k) (signsOf m).getSigners = false := by
        rw [Bool.eq_false_iff]
        exact fun covered => absent ((signersFrom_iff.1 covered).2 p signer)
      -- One signer without a signature makes the message a new one for the set, too.
      have moved := insert_perm_of_absent signsOf lt m _ ordered signer absent
      simpa [storeAndCount, fresh] using moved.length_eq

include same ordered in
/-- Storing a message puts it in, or reports nothing, unless no message has a signature. -/
theorem store_counts (log : Messages K T) (k : K) (m : T) :
    (((log.store signsOf lt k m).2.held k).length = (log.held k).length
        ∧ (log.store signsOf lt k m).1 = 0 ∧ ¬ Unsigned signsOf (log.held k) m)
      ∨ (((log.store signsOf lt k m).2.held k).length = (log.held k).length + 1
        ∧ (log.store signsOf lt k m).1 = (log.held k).length + 1
        ∧ ¬ Unsigned signsOf (log.held k) m)
      ∨ (((log.store signsOf lt k m).2.held k).length = (log.held k).length
        ∧ (log.held k).length ≠ 0
        ∧ (log.store signsOf lt k m).1 = (log.held k).length
        ∧ Unsigned signsOf (log.held k) m) := by
  by_cases unsigned : Unsigned signsOf (log.held k) m
  · -- Without signatures the message passes for new, but is not put in.
    have kept := insert_unsigned same unsigned
    cases known : log.lookup k with
    | none => exact absurd (by simp [held, known]) unsigned.1
    | some msgs =>
      have all : log.held k = msgs := by simp [held, known]
      have fresh : msgFrom signsOf msgs (signsOf m).getSigners = false := by
        rw [← all, msgFrom, unsigned.2.1]
        rfl
      rw [all] at kept unsigned ⊢
      have stored : log.store signsOf lt k m = (msgs.length, log.insert k msgs) := by
        simp [store, known, fresh, kept]
      rw [stored, held_insert, if_pos rfl]
      exact .inr (.inr ⟨rfl, by simpa using unsigned.1, rfl, unsigned⟩)
  by_cases repeated : Repeated signsOf (log.held k) m
  · have signed : allSigns signsOf (log.held k) ≠ [] := fun none_signed =>
      unsigned (repeated.unsigned none_signed)
    -- All signers are crossed off, so the report is neither stored nor counted.
    rw [store_covered repeated.2 signed]
    exact .inl ⟨rfl, rfl, unsigned⟩
  · refine .inr (.inl ?_)
    rcases Decidable.not_and_iff_or_not.1 repeated with none_held | new
    · have empty : log.held k = [] := by simpa using none_held
      rw [store_first empty, held_insert, if_pos rfl, empty]
      exact ⟨rfl, rfl, fun unsigned => unsigned.1 rfl⟩
    · have absent : ∃ p ∈ (signsOf m).getSigners,
          p ∉ (allSigns signsOf (log.held k)).getSigners := by simpa using new
      obtain ⟨p, signer, absent⟩ := absent
      obtain ⟨moved, count⟩ := store_new signsOf lt log k m ordered signer absent
      exact ⟨by simpa using moved.length_eq, count, unsigned⟩

end Messages

namespace LogPara

open Messages

/-- A message of a kind belongs to a slot; reports belong to their view alone. -/
def InSlot (kind : VoteKind) (v : View) (seqNumber : Nat) (call : VoteKind × MsgRDataPara) : Prop :=
  call.1 = kind ∧ call.2.rdata.propv = v ∧ (kind ≠ .newView → call.2.rdata.seqNumber = seqNumber)

instance (kind : VoteKind) (v : View) (seqNumber : Nat) (call : VoteKind × MsgRDataPara) :
    Decidable (InSlot kind v seqNumber call) := inferInstanceAs (Decidable (_ ∧ _ ∧ _))

/-- What the calls for a slot return. -/
def resultIn (kind : VoteKind) (v : View) (seqNumber : Nat) (log : LogPara)
    (call : VoteKind × MsgRDataPara) : Option Nat :=
  if InSlot kind v seqNumber call then some (log.storeVote call.1 call.2).1 else none

/-- Of the calls for a slot at most one returns any given number but 0. -/
def FiresOnce (kind : VoteKind) (v : View) (seqNumber : Nat)
    (calls : List (VoteKind × MsgRDataPara)) : Prop :=
  ∀ k, 1 ≤ k → (storing.observed (resultIn kind v seqNumber) .empty calls).count k ≤ 1

/--
A message that is not stored, but counted all the same.

A vote is so if others are held for its slot and all its signers have voted there; a report is so
only if neither it nor any report held for its view has a signature.
-/
def CountedAgain (log : LogPara) (call : VoteKind × MsgRDataPara) : Prop :=
  let held := log.votes call.1 call.2.rdata.propv call.2.rdata.seqNumber
  match call.1 with
  | .newView => Unsigned (·.signs) held call.2
  | _ => Repeated (·.signs) held call.2

/-- A call for another slot leaves the votes for a slot as they are. -/
theorem votes_other {log : LogPara} {kind : VoteKind} {v : View} {seqNumber : Nat}
    {call : VoteKind × MsgRDataPara} (other : ¬ InSlot kind v seqNumber call) :
    (log.storeVote call.1 call.2).2.votes kind v seqNumber = log.votes kind v seqNumber := by
  obtain ⟨stored, msg⟩ := call
  by_cases same : stored = kind
  · subst same
    -- Of the same kind, another slot has another key.
    cases stored with
    | newView =>
      exact held_store_ne fun here => other ⟨rfl, here.symm, fun vote => absurd rfl vote⟩
    | prepare =>
      exact held_storeAndCount_ne fun here => by
        obtain ⟨view, slot⟩ := Prod.mk.inj here
        exact other ⟨rfl, view.symm, fun _ => slot.symm⟩
    | preCommit =>
      exact held_storeAndCount_ne fun here => by
        obtain ⟨view, slot⟩ := Prod.mk.inj here
        exact other ⟨rfl, view.symm, fun _ => slot.symm⟩
    | commit =>
      exact held_storeAndCount_ne fun here => by
        obtain ⟨view, slot⟩ := Prod.mk.inj here
        exact other ⟨rfl, view.symm, fun _ => slot.symm⟩
  · -- Each kind has a map of its own.
    cases stored <;> cases kind <;> first | rfl | exact absurd rfl same

/-- Messages without signatures are equivalent in a log. -/
theorem lt_of_unsigned (a b : MsgRDataPara) (first : a.signs = []) (second : b.signs = []) :
    a.lt b = false := by
  simp [MsgRDataPara.lt, Signs.lt, Signs.lt.go, first, second]

/-- The votes for a slot are those that a message of the slot belongs to. -/
theorem votes_inSlot {kind : VoteKind} {v : View} {seqNumber : Nat}
    {call : VoteKind × MsgRDataPara} (here : InSlot kind v seqNumber call) (log : LogPara) :
    log.votes kind v seqNumber = log.votes call.1 call.2.rdata.propv call.2.rdata.seqNumber := by
  obtain ⟨rfl, rfl, slot⟩ := here
  -- Reports are held by view, whatever sequence number they carry.
  by_cases report : call.1 = .newView
  · rw [report]
    rfl
  · rw [slot report]

/-- What storing a message does to the number of those held for its slot, and what it returns. -/
theorem storeVote_counts (log : LogPara) (kind : VoteKind) (msg : MsgRDataPara) :
    let before := (log.votes kind msg.rdata.propv msg.rdata.seqNumber).length
    let stored := log.storeVote kind msg
    let after := (stored.2.votes kind msg.rdata.propv msg.rdata.seqNumber).length
    (after = before ∧ stored.1 = 0 ∧ ¬ log.CountedAgain (kind, msg))
      ∨ (after = before + 1 ∧ stored.1 = before + 1 ∧ ¬ log.CountedAgain (kind, msg))
      ∨ (after = before ∧ before ≠ 0 ∧ stored.1 = before ∧ log.CountedAgain (kind, msg)) := by
  have equivalent : ∀ {a b : MsgRDataPara}, a.lt b = false → b.lt a = false →
      a.signs.getSigners = b.signs.getSigners := MsgRDataPara.signers_of_equivalent
  -- Reports are stored by view, and votes by slot and all in the same way.
  cases kind with
  | newView => exact store_counts lt_of_unsigned equivalent _ _ msg
  | prepare => exact .inr (storeAndCount_counts lt_of_unsigned equivalent _ _ msg)
  | preCommit => exact .inr (storeAndCount_counts lt_of_unsigned equivalent _ _ msg)
  | commit => exact .inr (storeAndCount_counts lt_of_unsigned equivalent _ _ msg)

/-- The calls for a slot count up the votes held for it, except those counted again. -/
theorem counts (kind : VoteKind) (v : View) (seqNumber : Nat) :
    Component.Counts (fun log : LogPara => (log.votes kind v seqNumber).length)
      (resultIn kind v seqNumber)
      (fun log call => InSlot kind v seqNumber call ∧ log.CountedAgain call) storing := by
  refine ⟨fun log call => ?_⟩
  by_cases here : InSlot kind v seqNumber call
  · have result : resultIn kind v seqNumber log call = some (log.storeVote call.1 call.2).1 :=
      if_pos here
    rw [result, votes_inSlot here, votes_inSlot here]
    rcases log.storeVote_counts call.1 call.2 with
      ⟨kept, silent, fresh⟩ | ⟨grown, count, fresh⟩ | ⟨kept, some_held, count, stale⟩
    · exact .inl ⟨kept, silent, fun again => fresh again.2⟩
    · exact .inr (.inl ⟨grown, congrArg some count, fun again => fresh again.2⟩)
    · exact .inr (.inr ⟨kept, some_held, congrArg some count, here, stale⟩)
  -- Calls for other slots are not observed, and leave the votes alone.
  · refine .inl ⟨congrArg List.length (votes_other here), ?_, fun again => here again.1⟩
    simp [resultIn, here]

/-- Each number of votes for a slot is returned once exactly when no vote is counted again. -/
theorem firesOnce_iff (kind : VoteKind) (v : View) (seqNumber : Nat)
    (calls : List (VoteKind × MsgRDataPara)) :
    FiresOnce kind v seqNumber calls
      ↔ ∀ step ∈ storing.steps .empty calls, InSlot kind v seqNumber step.2 →
        ¬ step.1.CountedAgain step.2 := by
  have empty : (LogPara.empty.votes kind v seqNumber).length = 0 := by
    cases kind <;> simp [votes, LogPara.empty]
  -- From no votes on, a number comes back only where a call is counted again.
  refine ((counts kind v seqNumber).count_le_one_iff empty calls).trans ?_
  simp only [not_and]

/-- When the third of four nodes votes twice, two calls return that there is a quorum. -/
theorem firesOnce_repeatedVote :
    ¬ FiresOnce .prepare 0 1 ([0, 1, 2, 2].map fun p => (.prepare, claimedSlotBy [p])) := by
  intro once
  -- Three votes are a quorum of four nodes, and the fourth call returns three as well.
  exact absurd (once Schedule.fourNodes.qsize (by decide)) (by decide)

end LogPara

end ParaHotstuff
