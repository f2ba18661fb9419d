import ParaHotstuff.Handler.Client

/-! To whom a client sends its transactions. -/

namespace ParaHotstuff

namespace Sender

variable {numInstances : Nat} {all : List PID}

/-- The transactions from an id on, to the connections from a place in the round on. -/
def roundRobin (all : List PID) (place transid count : Nat) : List (PID × TID) :=
  (List.range count).map fun i => (all.getD ((place + i) % all.length) 0, transid + i)

/-- The first of them, and then the others from the next place on. -/
theorem roundRobin_succ {place transid count : Nat} (inside : place < all.length) :
    roundRobin all place transid (count + 1)
      = (all.getD place 0, transid) :: roundRobin all (place + 1) (transid + 1) count := by
  simp only [roundRobin, List.range_succ_eq_map, List.map_cons, List.map_map, Nat.add_zero,
    Nat.mod_eq_of_lt inside]
  congr 1
  apply List.map_congr_left
  intro i _
  have shift : place + (i + 1) = place + 1 + i ∧ transid + (i + 1) = transid + 1 + i := by omega
  simp only [Function.comp_apply, Nat.succ_eq_add_one, shift.1, shift.2]

/-- The end of a round is the beginning of the next one. -/
theorem roundRobin_length (transid count : Nat) :
    roundRobin all all.length transid count = roundRobin all 0 transid count := by
  simp [roundRobin]

/-- A turn in the middle of a round sends the next transaction. -/
theorem send_transactions_conn {turns transid : Nat} {conn : PID} {conns : List PID}
    (more : transid ≤ numInstances) :
    send_transactions numInstances all (turns + 1) ⟨transid, conn :: conns, false⟩
      = (send_transactions numInstances all turns ⟨(transid + 1) % wordSize, conns, false⟩).map
          ((conn, transid) :: ·) := by
  simp [send_transactions, turn, more]

/-- A turn at the end of a round begins the next one. -/
theorem send_transactions_round {turns transid : Nat} {skipFirst : Bool}
    (more : transid ≤ numInstances) :
    send_transactions numInstances all (turns + 1) ⟨transid, [], skipFirst⟩
      = send_transactions numInstances all turns ⟨transid, all, skipFirst⟩ := by
  simp [send_transactions, turn, more]

/-- A turn that leaves a connection out sends nothing. -/
theorem send_transactions_skip {turns transid : Nat} {conn : PID} {conns : List PID}
    (more : transid ≤ numInstances) :
    send_transactions numInstances all (turns + 1) ⟨transid, conn :: conns, true⟩
      = send_transactions numInstances all turns ⟨transid, conns, false⟩ := by
  simp [send_transactions, turn, more]

/-- From any place of a round, the loops send what is left in turn, and end. -/
theorem send_transactions_from (some_conn : all ≠ []) (small : numInstances + 1 < wordSize)
    {left transid place : Nat} (rest : transid + left = numInstances + 1)
    (inside : place ≤ all.length) :
    ∃ turns, ∀ more, turns ≤ more →
      send_transactions numInstances all more ⟨transid, all.drop place, false⟩
        = some (roundRobin all place transid left) := by
  -- Induction on the number of transactions that are left.
  induction left generalizing transid place with
  | zero =>
    refine ⟨1, fun more enough => ?_⟩
    obtain ⟨more, rfl⟩ := Nat.exists_eq_add_of_le' enough
    have beyond : ¬ transid ≤ numInstances := by omega
    simp [send_transactions, turn, beyond, roundRobin]
  | succ left ih =>
    have next : transid ≤ numInstances := by omega
    have advance : (transid + 1) % wordSize = transid + 1 := Nat.mod_eq_of_lt (by omega)
    -- Within a round the next connection is served.
    have within : ∀ place, place < all.length → ∃ turns, ∀ more, turns ≤ more →
        send_transactions numInstances all more ⟨transid, all.drop place, false⟩
          = some (roundRobin all place transid (left + 1)) := by
      intro place inside
      have fewer : transid + 1 + left = numInstances + 1 := by omega
      obtain ⟨turns, sends⟩ := ih fewer (Nat.succ_le_of_lt inside)
      refine ⟨turns + 1, fun more enough => ?_⟩
      obtain ⟨more, rfl⟩ := Nat.exists_eq_add_of_le' (Nat.le_of_add_left_le enough)
      rw [List.drop_eq_getElem_cons inside, send_transactions_conn next, advance,
        sends more (by omega), roundRobin_succ inside]
      simp [inside]
    rcases Nat.lt_or_eq_of_le inside with inside | rfl
    · exact within place inside
    · -- At the end of a round one more turn begins the next one.
      obtain ⟨turns, sends⟩ := within 0 (List.length_pos_iff.2 some_conn)
      refine ⟨turns + 1, fun more enough => ?_⟩
      obtain ⟨more, rfl⟩ := Nat.exists_eq_add_of_le' (Nat.le_of_add_left_le enough)
      rw [List.drop_length, send_transactions_round next, roundRobin_length]
      exact sends more (by omega)

/-- Without connections, or with a counter that wraps around, the loops never end. -/
theorem send_transactions_endless (endless : all = [] ∨ wordSize ≤ numInstances + 1)
    (turns : Nat) {s : Sender} (more : s.transid ≤ numInstances) (none_left : all = [] → s.conns = []) :
    send_transactions numInstances all turns s = none := by
  induction turns generalizing s with
  | zero => rfl
  | succ turns ih =>
    obtain ⟨transid, conns, skipFirst⟩ := s
    cases conns with
    | nil =>
      rw [send_transactions_round more]
      exact ih more id
    | cons conn conns =>
      -- There are connections, so the counter wraps around.
      have known : all ≠ [] := fun none_known => by cases none_left none_known
      have wraps := endless.resolve_left known
      cases skipFirst with
      | true =>
        rw [send_transactions_skip more]
        exact ih more fun none_known => absurd none_known known
      | false =>
        have below := Nat.mod_lt (transid + 1) (show 0 < wordSize by decide)
        rw [send_transactions_conn more, ih ?_ fun none_known => absurd none_known known]
        · rfl
        · exact Nat.le_of_lt_succ (below.trans_le wraps)

/-- From their start the loops send everything, and end. -/
theorem send_transactions_all (some_conn : all ≠ []) (small : numInstances + 1 < wordSize)
    (skipFirst : Bool) :
    ∃ turns, ∀ more, turns ≤ more →
      send_transactions numInstances all more (init skipFirst)
        = some (roundRobin all skipFirst.toNat 1 numInstances) := by
  have inside : skipFirst.toNat ≤ all.length :=
    (Bool.toNat_le skipFirst).trans (List.length_pos_iff.2 some_conn)
  obtain ⟨turns, sends⟩ := send_transactions_from some_conn small (Nat.add_comm 1 numInstances) inside
  rcases Nat.eq_zero_or_pos numInstances with rfl | positive
  · refine ⟨1, fun more enough => ?_⟩
    obtain ⟨more, rfl⟩ := Nat.exists_eq_add_of_le' enough
    rfl
  -- The first round begins, and its first connection may be left out.
  refine ⟨turns + 2, fun more enough => ?_⟩
  obtain ⟨more, rfl⟩ := Nat.exists_eq_add_of_le' (Nat.le_of_add_left_le enough)
  rw [init, send_transactions_round positive]
  cases skipFirst with
  | false => exact sends (more + 1) (by omega)
  | true =>
    obtain ⟨conn, conns, rfl⟩ := List.exists_cons_of_ne_nil some_conn
    rw [send_transactions_skip positive]
    exact sends more (by omega)

/-- Once the loops have ended, further turns change nothing. -/
theorem send_transactions_more {turns more : Nat} {s : Sender} {sent : List (PID × TID)}
    (ended : send_transactions numInstances all turns s = some sent) (enough : turns ≤ more) :
    send_transactions numInstances all more s = some sent := by
  induction turns generalizing more s sent with
  | zero => cases ended
  | succ turns ih =>
    obtain ⟨more, rfl⟩ := Nat.exists_eq_add_of_le' (Nat.le_of_add_left_le enough)
    rw [send_transactions] at ended ⊢
    split at ended
    · -- The first turn is the same, and the others are fewer.
      obtain ⟨rest, ended', rfl⟩ := Option.map_eq_some_iff.1 ended
      rw [ih ended' (by omega)]
      rfl
    · exact ended

/--
The sending thread ends exactly when there is nothing to send, or there are connections and the
counter of transactions does not wrap around; and then it has sent each transaction once, in the
order of their ids, to one connection after the other, from the second one on in the chained protocol.
-/
theorem send_transactions_in_turn (numInstances : Nat) (all : List PID) (skipFirst : Bool) :
    ((∃ turns sent, send_transactions numInstances all turns (init skipFirst) = some sent)
        ↔ numInstances = 0 ∨ (all ≠ [] ∧ numInstances + 1 < wordSize))
      ∧ ∀ turns sent, send_transactions numInstances all turns (init skipFirst) = some sent →
        sent = (List.range numInstances).map fun i =>
          (all.getD ((skipFirst.toNat + i) % all.length) 0, 1 + i) := by
  have one_way : numInstances = 0 ∨ (all ≠ [] ∧ numInstances + 1 < wordSize) →
      ∃ turns, send_transactions numInstances all turns (init skipFirst)
        = some (roundRobin all skipFirst.toNat 1 numInstances) := by
    rintro (rfl | ⟨some_conn, small⟩)
    · exact ⟨1, rfl⟩
    · obtain ⟨turns, sends⟩ := send_transactions_all some_conn small skipFirst
      exact ⟨turns, sends turns (Nat.le_refl _)⟩
  have other_way : ∀ turns sent, send_transactions numInstances all turns (init skipFirst) = some sent →
      numInstances = 0 ∨ (all ≠ [] ∧ numInstances + 1 < wordSize) := by
    intro turns sent ended
    by_contra endless
    obtain ⟨positive, endless⟩ := not_or.1 endless
    rw [send_transactions_endless (by lia) turns (Nat.one_le_iff_ne_zero.2 positive) fun _ => rfl] at ended
    cases ended
  refine ⟨⟨fun ends => ?_, fun ends => ?_⟩, fun turns sent ended => ?_⟩
  · obtain ⟨turns, sent, ended⟩ := ends
    exact other_way turns sent ended
  · obtain ⟨turns, ended⟩ := one_way ends
    exact ⟨turns, _, ended⟩
  · -- Both numbers of turns are enough together.
    obtain ⟨turns', ended'⟩ := one_way (other_way turns sent ended)
    have both := send_transactions_more ended (Nat.le_max_left turns turns')
    rw [send_transactions_more ended' (Nat.le_max_right turns turns')] at both
    exact (Option.some.inj both).symm

example : send_transactions 3 [0, 1] 9 (init true) = some [(1, 1), (0, 2), (1, 3)] := by decide

end Sender

end ParaHotstuff
