import ParaHotstuff.Data.Message
import ParaHotstuff.Lib.OrderedSet
import Mathlib.Data.List.AList

/-! The maps from views, or from slots of views, to sets of signed messages that make up a log. -/

namespace ParaHotstuff

/-- The messages of one kind, by the view, or the slot of a view, that they belong to. -/
abbrev Messages (K T : Type) : Type := AList fun _ : K => List T

namespace Messages

variable {K T : Type} [DecidableEq K] (signsOf : T → Signs) (lt : T → T → Bool)

/-- The messages held for a key. -/
def held (log : Messages K T) (k : K) : List T := (log.lookup k).getD []

/-- The signatures of a list of messages, in order. -/
def allSigns (msgs : List T) : Signs := msgs.flatMap signsOf

/-- Cross off the signers one held signature after the other, until none is left. -/
def signersFrom : List PID → List PID → Bool
  | [], _ => false
  | p :: held, signers =>
    let left := signers.filter (· ≠ p)
    if left.isEmpty then true else signersFrom held left

/-- Checks that there are signatures from all the signers. -/
def msgFrom (msgs : List T) (signers : List PID) : Bool :=
  signersFrom (allSigns signsOf msgs).getSigners signers

/--
Store a message unless all its signers already have one for the key.

The result counts the messages held for the key, or is 0 if nothing was stored.
-/
def store (log : Messages K T) (k : K) (msg : T) : Nat × Messages K T :=
  match log.lookup k with
  | some msgs =>
    if !msgFrom signsOf msgs (signsOf msg).getSigners then
      let msgs := OrderedSet.insert lt msg msgs
      (msgs.length, log.insert k msgs)
    else (0, log)
  | none => (1, log.insert k [msg])

/-- The same, except that the messages are counted also if nothing was stored. -/
def storeAndCount (log : Messages K T) (k : K) (msg : T) : Nat × Messages K T :=
  let msgs := log.held k
  let msgs :=
    if !msgFrom signsOf msgs (signsOf msg).getSigners then OrderedSet.insert lt msg msgs else msgs
  (msgs.length, log.insert k msgs)

/-- Collect signatures message by message until n are held. -/
def getSigns (log : Messages K T) (k : K) (n : Nat) : Signs :=
  (log.held k).foldl
    (fun signs msg => if signs.length < n then Signs.addUpto signs (signsOf msg) n else signs) []

/-- The first message held for a key. -/
def first (log : Messages K T) (k : K) : Option T := (log.held k).head?

variable {signsOf lt}

/-- Signers are all crossed off exactly when each of them holds a signature. -/
theorem signersFrom_iff {held signers : List PID} :
    signersFrom held signers = true ↔ held ≠ [] ∧ ∀ p ∈ signers, p ∈ held := by
  -- Induction on the held signatures; each one crosses off its own signer.
  induction held generalizing signers with
  | nil => simp [signersFrom]
  | cons p held ih =>
    simp only [signersFrom]
    split
    · rename_i none_left
      simp only [List.isEmpty_iff, List.filter_eq_nil_iff, decide_not, Bool.not_eq_true',
        decide_eq_false_iff_not, not_not] at none_left
      simp only [ne_eq, reduceCtorEq, not_false_eq_true, true_and, true_iff]
      exact fun q member => by simp [none_left q member]
    · rename_i some_left
      rw [ih]
      constructor
      · rintro ⟨_, covered⟩
        refine ⟨by simp, fun q member => ?_⟩
        by_cases same : q = p
        · simp [same]
        · exact List.mem_cons_of_mem _ (covered q (by simp [member, same]))
      · rintro ⟨_, covered⟩
        have rest : ∀ q ∈ signers.filter (· ≠ p), q ∈ held := by
          intro q member
          simp only [ne_eq, decide_not, List.mem_filter, Bool.not_eq_true',
            decide_eq_false_iff_not] at member
          exact (List.mem_cons.1 (covered q member.1)).resolve_left member.2
        refine ⟨?_, rest⟩
        rintro rfl
        -- With no further signature held, nothing can be left to cross off.
        exact some_left (by
          rw [List.isEmpty_iff, List.eq_nil_iff_forall_not_mem]
          exact fun q member => by simpa using rest q member)

/-- Stopping at n signatures takes the first n of all. -/
theorem getSigns_eq (log : Messages K T) (v : K) (n : Nat) :
    log.getSigns signsOf v n = (allSigns signsOf (log.held v)).take n := by
  -- The fold keeps the first n signatures of the messages it has passed.
  have general : ∀ (msgs : List T) (signs : Signs),
      msgs.foldl (fun signs msg =>
          if signs.length < n then Signs.addUpto signs (signsOf msg) n else signs) (signs.take n)
        = (signs ++ allSigns signsOf msgs).take n := by
    intro msgs
    induction msgs with
    | nil => intro signs; simp [allSigns]
    | cons msg msgs ih =>
      intro signs
      have step : (if (signs.take n).length < n then Signs.addUpto (signs.take n) (signsOf msg) n
          else signs.take n) = (signs ++ signsOf msg).take n := by
        rw [List.take_append]
        split
        · rename_i short
          have below : signs.length < n := by simp only [List.length_take] at short; omega
          simp [Signs.addUpto, List.take_of_length_le (Nat.le_of_lt below)]
        · rename_i full
          have above : n ≤ signs.length := by simp only [List.length_take] at full; omega
          simp [Nat.sub_eq_zero_of_le above]
      rw [List.foldl_cons, step, ih]
      simp [allSigns, List.append_assoc]
  simpa [getSigns] using general (log.held v) []

/-- Inserting for one key leaves the others as they were. -/
@[simp] theorem held_insert (log : Messages K T) (v w : K) (msgs : List T) :
    held (log.insert v msgs) w = if w = v then msgs else log.held w := by
  by_cases same : w = v
  · subst same; simp [held]
  · simp [held, same]

@[simp] theorem held_empty (v : K) : held (∅ : Messages K T) v = [] := by
  simp [held]

variable (signsOf lt) in
/-- What storing a message does to the messages of each key. -/
theorem store_cases (log : Messages K T) (v : K) (msg : T) :
    (log.store signsOf lt v msg = (0, log)
        ∧ (allSigns signsOf (log.held v)) ≠ []
        ∧ ∀ p ∈ (signsOf msg).getSigners, p ∈ (allSigns signsOf (log.held v)).getSigners)
      ∨ ∃ msgs, log.store signsOf lt v msg = (msgs.length, log.insert v msgs)
          ∧ (msgs.Perm (msg :: log.held v) ∨ msgs = log.held v) ∧ msgs ≠ []
          ∧ (allSigns signsOf (log.held v) = []
            ∨ ∃ p ∈ (signsOf msg).getSigners,
                p ∉ (allSigns signsOf (log.held v)).getSigners) := by
  unfold store
  cases known : log.lookup v with
  | none =>
    refine .inr ⟨[msg], rfl, .inl ?_, by simp, .inl ?_⟩ <;> simp [held, known, allSigns]
  | some msgs =>
    have all : log.held v = msgs := by simp [held, known]
    rw [all]
    simp only [Bool.not_eq_true']
    split
    · rename_i fresh
      refine .inr ⟨_, rfl, OrderedSet.insert_perm_or_eq, OrderedSet.insert_ne_nil, ?_⟩
      have missing := mt signersFrom_iff.2 (by simpa [msgFrom] using fresh)
      rw [not_and_or] at missing
      rcases missing with none_held | some_new
      · exact .inl (by simpa [Signs.getSigners] using none_held)
      · exact .inr (by simpa using some_new)
    · rename_i stale
      have covered := signersFrom_iff.1 (by simpa [msgFrom] using stale)
      exact .inl ⟨rfl, by simpa [Signs.getSigners] using covered.1, covered.2⟩

/-- A message held after storing one was held before or is the stored one. -/
theorem mem_store {log : Messages K T} {v w : K} {msg m : T}
    (member : m ∈ (log.store signsOf lt v msg).2.held w) :
    m ∈ log.held w ∨ (m = msg ∧ w = v) := by
  rcases log.store_cases signsOf lt v msg with
    ⟨kept, _⟩ | ⟨msgs, stored, moved | same, _⟩
  · exact .inl (by simpa [kept] using member)
  · rw [stored, held_insert] at member
    split at member
    · rename_i here
      rcases List.mem_cons.1 (moved.mem_iff.1 member) with rfl | old
      · exact .inr ⟨rfl, here⟩
      · exact .inl (here ▸ old)
    · exact .inl member
  · rw [stored, held_insert] at member
    split at member
    · rename_i here
      exact .inl (by rw [here, ← same]; exact member)
    · exact .inl member

/-- Storing a message loses none of those held. -/
theorem mem_store_of_mem {log : Messages K T} {v w : K} {msg m : T}
    (member : m ∈ log.held w) : m ∈ (log.store signsOf lt v msg).2.held w := by
  rcases log.store_cases signsOf lt v msg with
    ⟨kept, _⟩ | ⟨msgs, stored, moved, _⟩
  · simpa [kept] using member
  · rw [stored, held_insert]
    split
    · rename_i here
      subst here
      rcases moved with moved | same
      · exact moved.mem_iff.2 (List.mem_cons_of_mem _ member)
      · rw [same]; exact member
    · exact member

/-- What counting and storing a message does to the messages of its key. -/
theorem storeAndCount_cases (signsOf : T → Signs) (lt : T → T → Bool) (log : Messages K T) (v : K)
    (msg : T) :
    ∃ msgs, log.storeAndCount signsOf lt v msg = (msgs.length, log.insert v msgs)
      ∧ ((msgs = log.held v ∧ (allSigns signsOf (log.held v)) ≠ []
          ∧ ∀ p ∈ (signsOf msg).getSigners, p ∈ (allSigns signsOf (log.held v)).getSigners)
        ∨ ((msgs.Perm (msg :: log.held v) ∨ msgs = log.held v) ∧ msgs ≠ []
          ∧ (allSigns signsOf (log.held v) = []
            ∨ ∃ p ∈ (signsOf msg).getSigners,
                p ∉ (allSigns signsOf (log.held v)).getSigners))) := by
  refine ⟨_, rfl, ?_⟩
  by_cases covered : msgFrom signsOf (log.held v) (signsOf msg).getSigners = true
  · have all := signersFrom_iff.1 (by simpa [msgFrom] using covered)
    left
    exact ⟨by simp [covered], by simpa [Signs.getSigners] using all.1, all.2⟩
  · right
    simp only [covered, Bool.not_false, if_true]
    refine ⟨OrderedSet.insert_perm_or_eq, OrderedSet.insert_ne_nil, ?_⟩
    -- Either nothing was held, or some signer was not crossed off.
    have missing := mt signersFrom_iff.2 (by simpa [msgFrom] using covered)
    rw [not_and_or] at missing
    rcases missing with none_held | some_new
    · exact .inl (by simpa [Signs.getSigners] using none_held)
    · exact .inr (by simpa using some_new)

/-- A message held after counting and storing one was held before or is the stored one. -/
theorem mem_storeAndCount {log : Messages K T} {v w : K} {msg m : T}
    (member : m ∈ (log.storeAndCount signsOf lt v msg).2.held w) :
    m ∈ log.held w ∨ (m = msg ∧ w = v) := by
  obtain ⟨msgs, stored, cases⟩ := storeAndCount_cases signsOf lt log v msg
  rw [stored, held_insert] at member
  split at member
  · rename_i here
    subst here
    rcases cases with ⟨same, _⟩ | ⟨moved | same, _⟩
    · exact .inl (same ▸ member)
    · rcases List.mem_cons.1 (moved.mem_iff.1 member) with new | old
      · exact .inr ⟨new, rfl⟩
      · exact .inl old
    · exact .inl (same ▸ member)
  · exact .inl member

/-- Counting and storing a message loses none of those held. -/
theorem mem_storeAndCount_of_mem {log : Messages K T} {v w : K} {msg m : T}
    (member : m ∈ log.held w) : m ∈ (log.storeAndCount signsOf lt v msg).2.held w := by
  obtain ⟨msgs, stored, cases⟩ := storeAndCount_cases signsOf lt log v msg
  rw [stored, held_insert]
  split
  · rename_i here
    subst here
    rcases cases with ⟨same, _⟩ | ⟨moved | same, _⟩
    · rw [same]; exact member
    · exact moved.mem_iff.2 (List.mem_cons_of_mem _ member)
    · rw [same]; exact member
  · exact member

/-- The first message of a key is one of those held for it. -/
theorem mem_of_first {log : Messages K T} {v : K} {m : T} (found : log.first v = some m) :
    m ∈ log.held v := List.mem_of_mem_head? (by simpa [first] using found)

end Messages

end ParaHotstuff
