import ParaHotstuff.Handler.Common
import ParaHotstuff.Lib.Quorum
import ParaHotstuff.Log.Messages

/-! Counting signed messages: what a log collects, and when it shows a quorum. -/

namespace ParaHotstuff

section Certificates

variable {cfg : Config}

/-- A verified signature of the table of keys was made by its signer on the text. -/
theorem made_of_verify {signs : Signs} {text : Text} {s : Sign}
    (verified : signs.verify cfg.nodes text = true) (member : s ∈ signs) :
    s.sign = .made s.signer text := by
  obtain ⟨info, found, made⟩ := Signs.verify_iff.1 verified s member
  rw [made, (Nodes.find_upTo found).2]

/-- The signer of a verified signature is one of the nodes. -/
theorem known_of_verify {signs : Signs} {text : Text} {s : Sign}
    (verified : signs.verify cfg.nodes text = true) (member : s ∈ signs) :
    s.signer < cfg.total := by
  obtain ⟨info, found, _⟩ := Signs.verify_iff.1 verified s member
  exact (Nodes.find_upTo found).1

/-- The signers of a full list of signatures form a quorum. -/
theorem quorum_of_signs {signs : Signs} (distinct : signs.getSigners.Nodup)
    (known : ∀ s ∈ signs, s.signer < cfg.total) (full : signs.length = cfg.qsize) :
    IsQuorum cfg.total cfg.qsize signs.getSigners.toFinset := by
  apply IsQuorum.of_nodup distinct
  · intro q member
    obtain ⟨s, held, rfl⟩ := List.mem_map.1 member
    exact known s held
  · simp [Signs.getSigners, full]

/-- The signer of a signature in a list, from its membership among the signers. -/
theorem mem_signers {signs : Signs} {q : PID} (member : q ∈ signs.getSigners.toFinset) :
    ∃ s ∈ signs, s.signer = q := List.mem_map.1 (List.mem_toFinset.1 member)

end Certificates

namespace Messages

variable {K T : Type} [DecidableEq K] {signsOf : T → Signs} {lt : T → T → Bool}
variable {log : Messages K T} {k : K} {m : T} {msgs : List T}

/-- A count other than 0 is the number of messages held for the key afterwards. -/
theorem store_count (signsOf : T → Signs) (lt : T → T → Bool) (log : Messages K T) (k : K)
    (msg : T) (counted : (log.store signsOf lt k msg).1 ≠ 0) :
    ((log.store signsOf lt k msg).2.held k).length = (log.store signsOf lt k msg).1 := by
  rcases log.store_cases signsOf lt k msg with ⟨kept, _⟩ | ⟨msgs, stored, _⟩
  · simp [kept] at counted
  · simp [stored]

/-- Storing never makes fewer messages be held. -/
theorem length_le_store (signsOf : T → Signs) (lt : T → T → Bool) (log : Messages K T) (k k' : K)
    (msg : T) :
    (log.held k').length ≤ ((log.store signsOf lt k msg).2.held k').length := by
  rcases log.store_cases signsOf lt k msg with ⟨kept, _⟩ | ⟨msgs, stored, moved, _⟩
  · rw [kept]
  · rw [stored, held_insert]
    split
    · rename_i here
      subst here
      rcases moved with moved | same
      · rw [moved.length_eq]
        simp
      · rw [same]
    · exact Nat.le_refl _

/-- Storing for one key leaves the messages of the others. -/
theorem held_store_ne {k' : K} (other : k' ≠ k) :
    (log.store signsOf lt k m).2.held k' = log.held k' := by
  rcases log.store_cases signsOf lt k m with ⟨kept, _⟩ | ⟨msgs, stored, _⟩
  · simp [kept]
  · simp [stored, other]

/-- The same for counting and storing. -/
theorem held_storeAndCount_ne {k' : K} (other : k' ≠ k) :
    (log.storeAndCount signsOf lt k m).2.held k' = log.held k' := by
  obtain ⟨msgs, stored, _⟩ := storeAndCount_cases signsOf lt log k m
  simp [stored, other]

/-- The count is the number of messages held for the key afterwards. -/
theorem storeAndCount_count (signsOf : T → Signs) (lt : T → T → Bool) (log : Messages K T) (k : K)
    (msg : T) :
    ((log.storeAndCount signsOf lt k msg).2.held k).length
      = (log.storeAndCount signsOf lt k msg).1 := by
  obtain ⟨msgs, stored, _⟩ := storeAndCount_cases signsOf lt log k msg
  simp [stored]

/-- A message with a new signer is put in, since an equivalent one would have the same signers. -/
theorem insert_perm_of_absent (signsOf : T → Signs) (lt : T → T → Bool) (m : T) (msgs : List T)
    (ordered : ∀ {a b : T}, lt a b = false → lt b a = false →
      (signsOf a).getSigners = (signsOf b).getSigners) {p : PID}
    (signer : p ∈ (signsOf m).getSigners) (absent : p ∉ (allSigns signsOf msgs).getSigners) :
    (OrderedSet.insert lt m msgs).Perm (m :: msgs) := by
  refine OrderedSet.insert_perm_of_new fun m' member => ?_
  by_contra equivalent
  simp only [not_or, Bool.not_eq_true] at equivalent
  rw [ordered equivalent.1 equivalent.2] at signer
  obtain ⟨s, held, rfl⟩ := List.mem_map.1 signer
  exact absent (List.mem_map.2 ⟨s, List.mem_flatMap.2 ⟨m', member, held⟩, rfl⟩)

/-- After a message was counted and stored, all its signers have signatures for the key. -/
theorem signer_of_storeAndCount (signsOf : T → Signs) (lt : T → T → Bool) (log : Messages K T)
    (k : K) (m : T)
    (ordered : ∀ {a b : T}, lt a b = false → lt b a = false →
      (signsOf a).getSigners = (signsOf b).getSigners) {p : PID}
    (signer : p ∈ (signsOf m).getSigners) :
    p ∈ (allSigns signsOf ((log.storeAndCount signsOf lt k m).2.held k)).getSigners := by
  obtain ⟨s, signed, rfl⟩ := List.mem_map.1 signer
  by_cases known : s.signer ∈ (allSigns signsOf (log.held k)).getSigners
  · -- No message is lost.
    obtain ⟨s', member, same⟩ := List.mem_map.1 known
    obtain ⟨m', held, signed'⟩ := List.mem_flatMap.1 member
    exact List.mem_map.2 ⟨s', List.mem_flatMap.2 ⟨m', mem_storeAndCount_of_mem held, signed'⟩, same⟩
  · have fresh : msgFrom signsOf (log.held k) (signsOf m).getSigners = false := by
      rw [Bool.eq_false_iff]
      exact fun covered => known ((signersFrom_iff.1 covered).2 s.signer signer)
    have moved := insert_perm_of_absent signsOf lt m _ ordered signer known
    have member : m ∈ (log.storeAndCount signsOf lt k m).2.held k := by
      simpa [storeAndCount, fresh] using moved.mem_iff.2 List.mem_cons_self
    exact List.mem_map.2 ⟨s, List.mem_flatMap.2 ⟨m, member, signed⟩, rfl⟩

/-- A message with a signer that holds none for its key is put in. -/
theorem store_new (signsOf : T → Signs) (lt : T → T → Bool) (log : Messages K T) (k : K) (m : T)
    (ordered : ∀ {a b : T}, lt a b = false → lt b a = false →
      (signsOf a).getSigners = (signsOf b).getSigners) {p : PID}
    (signer : p ∈ (signsOf m).getSigners)
    (absent : p ∉ (allSigns signsOf (log.held k)).getSigners) :
    ((log.store signsOf lt k m).2.held k).Perm (m :: log.held k)
      ∧ (log.store signsOf lt k m).1 = (log.held k).length + 1 := by
  have moved := insert_perm_of_absent signsOf lt m _ ordered signer absent
  unfold store
  cases known : log.lookup k with
  | none => simp [held, known]
  | some msgs =>
    have all : log.held k = msgs := by simp [held, known]
    rw [all] at moved absent ⊢
    have fresh : msgFrom signsOf msgs (signsOf m).getSigners = false := by
      rw [Bool.eq_false_iff]
      intro covered
      exact absent ((signersFrom_iff.1 covered).2 p signer)
    simp only [fresh, Bool.not_false, if_true, held_insert]
    exact ⟨moved, by simpa using moved.length_eq⟩

/-- A message all of whose signers hold a message for its key is not stored, nor counted. -/
theorem store_covered (covered : ∀ p ∈ (signsOf m).getSigners,
      p ∈ (allSigns signsOf (log.held k)).getSigners)
    (signed : allSigns signsOf (log.held k) ≠ []) : log.store signsOf lt k m = (0, log) := by
  rcases log.store_cases signsOf lt k m with
    ⟨kept, _⟩ | ⟨msgs, _, _, _, none_held | ⟨p, signer, absent⟩⟩
  · exact kept
  · exact absurd none_held signed
  · exact absurd (covered p signer) absent

variable (signsOf) in
/-- Messages in another order carry the same signatures in another order. -/
theorem allSigns_perm {msgs msgs' : List T} (moved : msgs.Perm msgs') :
    (allSigns signsOf msgs).Perm (allSigns signsOf msgs') := moved.flatMap_right signsOf

/-- If a message without signatures is counted, the key holds no signature at all. -/
theorem allSigns_of_unsigned (signsOf : T → Signs) (lt : T → T → Bool) (log : Messages K T)
    (k : K) (msg : T) (unsigned : signsOf msg = [])
    (counted : (log.store signsOf lt k msg).1 ≠ 0) :
    allSigns signsOf ((log.store signsOf lt k msg).2.held k) = [] := by
  rcases log.store_cases signsOf lt k msg with
    ⟨kept, _⟩ | ⟨msgs, stored, moved, _, none_held | ⟨p, signer, _⟩⟩
  · simp [kept] at counted
  · rw [stored, held_insert, if_pos rfl]
    rcases moved with moved | same
    · have all := allSigns_perm signsOf moved
      rw [show allSigns signsOf (msg :: log.held k) = [] by
        simpa [allSigns, unsigned] using none_held] at all
      exact List.perm_nil.1 all
    · rw [same]; exact none_held
  · simp [unsigned, Signs.getSigners] at signer

/-- The signatures collected from a log are those of its first messages. -/
theorem mem_of_collected {n : Nat} {s : Sign} (member : s ∈ log.getSigns signsOf k n) :
    ∃ m ∈ log.held k, s ∈ signsOf m := by
  rw [getSigns_eq] at member
  exact List.mem_flatMap.1 (List.mem_of_mem_take member)

/-- A full set of collected signatures comes from at least one message. -/
theorem first_of_collected {n : Nat} (positive : 0 < n)
    (full : (log.getSigns signsOf k n).length = n) : ∃ m, log.first k = some m ∧ m ∈ log.held k := by
  cases found : log.first k with
  | some m => exact ⟨m, rfl, mem_of_first found⟩
  | none =>
    have none_held : log.held k = [] := by simpa [first] using found
    rw [getSigns_eq, none_held] at full
    simp only [allSigns, List.flatMap_nil, List.take_nil, List.length_nil] at full
    omega

/-- Messages that carry at most one signature each, of distinct signers. -/
structure Singles (signsOf : T → Signs) (msgs : List T) : Prop where
  single : ∀ m ∈ msgs, (signsOf m).length ≤ 1
  distinct : (allSigns signsOf msgs).getSigners.Nodup

/-- Messages with at most one signature carry no more signatures than there are messages. -/
theorem length_allSigns (single : ∀ m ∈ msgs, (signsOf m).length ≤ 1) :
    (allSigns signsOf msgs).length ≤ msgs.length := by
  induction msgs with
  | nil => simp [allSigns]
  | cons m msgs ih =>
    have first := single m (by simp)
    have rest := ih fun m' member => single m' (by simp [member])
    simp only [allSigns, List.flatMap_cons, List.length_append, List.length_cons] at rest ⊢
    omega

namespace Singles

theorem nil : Singles signsOf [] := ⟨by simp, by simp [allSigns, Signs.getSigners]⟩

/-- The signers stay distinct if a message with a new signer, or with none, is added anywhere. -/
theorem insert {held : List T} (singles : Singles signsOf held) (single : (signsOf m).length ≤ 1)
    (moved : msgs.Perm (m :: held))
    (fresh : allSigns signsOf held = []
      ∨ ∃ p ∈ (signsOf m).getSigners, p ∉ (allSigns signsOf held).getSigners) :
    Singles signsOf msgs := by
  refine ⟨fun m' member => ?_, ?_⟩
  · rcases List.mem_cons.1 (moved.mem_iff.1 member) with rfl | old
    · exact single
    · exact singles.single m' old
  -- The only new signer, if there is one, was not held before.
  · have all := (allSigns_perm signsOf moved).map (·.signer)
    apply all.nodup_iff.2
    have tail := singles.distinct
    cases signs : signsOf m with
    | nil => simpa [allSigns, signs, Signs.getSigners] using tail
    | cons s rest =>
      have alone : rest = [] := by
        rw [signs] at single
        simpa using single
      subst alone
      have new : s.signer ∉ (allSigns signsOf held).getSigners := by
        rcases fresh with none_held | ⟨q, signer, absent⟩
        · simp [none_held, Signs.getSigners]
        · simp only [signs, Signs.getSigners, List.map_cons, List.map_nil,
            List.mem_singleton] at signer
          exact signer ▸ absent
      simpa [allSigns, signs, Signs.getSigners] using ⟨by simpa [allSigns, Signs.getSigners]
        using new, by simpa [allSigns, Signs.getSigners] using tail⟩

/-- Storing a message with at most one signature keeps the signers distinct. -/
theorem store (singles : Singles signsOf (log.held k)) (single : (signsOf m).length ≤ 1) :
    Singles signsOf ((log.store signsOf lt k m).2.held k) := by
  rcases log.store_cases signsOf lt k m with
    ⟨kept, _⟩ | ⟨msgs, stored, moved | same, _, fresh⟩
  · rw [kept]; exact singles
  · rw [stored, held_insert, if_pos rfl]
    exact singles.insert single moved fresh
  · rw [stored, held_insert, if_pos rfl, same]
    exact singles

/-- The same for counting and storing. -/
theorem storeAndCount (singles : Singles signsOf (log.held k))
    (single : (signsOf m).length ≤ 1) :
    Singles signsOf ((log.storeAndCount signsOf lt k m).2.held k) := by
  obtain ⟨msgs, stored, cases⟩ := storeAndCount_cases signsOf lt log k m
  rw [stored, held_insert, if_pos rfl]
  rcases cases with ⟨same, _⟩ | ⟨moved | same, _, fresh⟩
  · rw [same]; exact singles
  · exact singles.insert single moved fresh
  · rw [same]; exact singles

/-- The signatures collected from single messages have distinct signers. -/
theorem collected {n : Nat} (singles : Singles signsOf (log.held k)) :
    (Signs.getSigners (log.getSigns signsOf k n)).Nodup := by
  rw [getSigns_eq]
  exact singles.distinct.sublist ((List.take_sublist n _).map _)

end Singles

end Messages

end ParaHotstuff
