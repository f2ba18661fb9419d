import ParaHotstuff.Lib.Frontier
import ParaHotstuff.Proofs.Trusted.PrefixLock

/-! Where the search for the locked prefix ends, and what a certificate does to the lock. -/

namespace ParaHotstuff

namespace TrustedPara

variable [Hashing]

/-- The block after a slot extends a hash, unless it is missing. -/
def Follows (getBlockFunc : Nat → PBlock) (h : Hash) (i : Nat) : Prop :=
  (getBlockFunc (i + 1)).isBlock = true → (getBlockFunc (i + 1)).extends' h = true

/-- The block after a slot extends the block of the slot, unless one of them is missing. -/
def FollowsBlock (getBlockFunc : Nat → PBlock) (i : Nat) : Prop :=
  (getBlockFunc i).isBlock = true → Follows getBlockFunc (getBlockFunc i).hash i

/-- The slot after which the search for the prefix begins. -/
def lockedSlot (tp : TrustedPara) : Nat :=
  if tp.prefixLockedView = tp.view then tp.prefixLockedSeqNumber else 0

/-- The steps the search may take: the first one is judged by the lock, the others by the blocks. -/
def MayStep (tp : TrustedPara) (getBlockFunc : Nat → PBlock) (i : Nat) : Prop :=
  if i = tp.lockedSlot then i = 0 ∨ Follows getBlockFunc tp.prefixLockedHash i
  else FollowsBlock getBlockFunc i

section Search

variable {data : AList fun _ : Nat => PrecommitData} {getBlockFunc : Nat → PBlock}

/-- The next block passes the test of the search, with the last hash and whether it is of a block. -/
def Passes (getBlockFunc : Nat → PBlock) (prevHash : Hash) (exists' : Bool) (i : Nat) : Prop :=
  (getBlockFunc (i + 1)).isBlock = true → exists' = true → 1 < i + 1 →
    (getBlockFunc (i + 1)).extends' prevHash = true

/-- A round passes a recorded slot; then the next block is judged by the block there. -/
theorem continuousSeq_passes {last p rounds highest : Nat} {prevHash : Hash} {exists' : Bool}
    (here : (data.lookup (p + 1)).isSome = true) (word : p + 1 < wordSize) (within : p + 1 ≤ last)
    (passes : Passes getBlockFunc prevHash exists' p) :
    ∃ prevHash₁ exists₁,
      continuousSeq data getBlockFunc last (rounds + 1) ((p + 1) % wordSize) highest prevHash exists'
        = continuousSeq data getBlockFunc last rounds ((p + 1 + 1) % wordSize) (p + 1) prevHash₁
          exists₁
      ∧ (FollowsBlock getBlockFunc (p + 1) ↔ Passes getBlockFunc prevHash₁ exists₁ (p + 1)) := by
  rw [continuousSeq, Nat.mod_eq_of_lt word]
  simp only [here, within, decide_true, Bool.and_self, if_true]
  cases block : (getBlockFunc (p + 1)).isBlock with
  | true =>
    have unbroken : (exists' && decide (1 < p + 1)
        && !(getBlockFunc (p + 1)).extends' prevHash) = false := by
      have passes := passes block
      cases same : (getBlockFunc (p + 1)).extends' prevHash with
      | true => simp
      | false =>
        simp only [same, Bool.false_eq_true] at passes
        simp only [Bool.not_false, Bool.and_true, Bool.and_eq_false_iff, decide_eq_false_iff_not]
        by_cases there : exists' = true
        · exact .inr (passes there)
        · exact .inl (by simpa using there)
    simp only [unbroken, if_true, Bool.false_eq_true, if_false]
    exact ⟨_, _, rfl, by simp [FollowsBlock, Follows, Passes, block]⟩
  | false =>
    simp only [Bool.false_eq_true, if_false]
    exact ⟨_, _, rfl, by simp [FollowsBlock, Passes, block]⟩

/-- The search ends where a scan of the recorded slots does, or shows nothing if it stays. -/
theorem continuousSeq_eq {last : Nat} {step : Nat → Prop} {p q rounds highest : Nat}
    {prevHash : Hash} {exists' : Bool}
    (bounded : ∀ i, (data.lookup i).isSome = true → i < wordSize ∧ i ≤ last)
    (furthest : Furthest (fun i => (data.lookup i).isSome = true) step p q)
    (fits : p + 1 < wordSize ∨ (p + 1 = wordSize ∧ (data.lookup 0).isSome = false))
    (ends : q + 1 = wordSize → (data.lookup 0).isSome = false)
    (later : ∀ i, p < i → (step i ↔ FollowsBlock getBlockFunc i))
    (judged : step p ↔ Passes getBlockFunc prevHash exists' p) (enough : q - p < rounds) :
    continuousSeq data getBlockFunc last rounds ((p + 1) % wordSize) highest prevHash exists'
      = if p = q then highest else q := by
  -- Induction on the rounds; each of them passes the slot after the one reached.
  induction rounds generalizing p highest prevHash exists' with
  | zero => omega
  | succ rounds ih =>
    by_cases stays : p = q
    · -- The next slot is not recorded, or the step to it may not be taken.
      subst stays
      rw [if_pos rfl, continuousSeq]
      split
      · rename_i found
        simp only [Bool.and_eq_true, decide_eq_true_eq] at found
        have word : p + 1 < wordSize := by
          rcases fits with less | ⟨same, absent⟩
          · exact less
          · rw [same, Nat.mod_self, absent] at found
            exact absurd found.2 (by decide)
        rw [Nat.mod_eq_of_lt word] at found ⊢
        have refused := (not_congr judged).1 (furthest.stuck found.2)
        simp only [Passes, not_forall] at refused
        obtain ⟨block, there, beyond, differs⟩ := refused
        simp [block, there, beyond, differs]
      · rfl
    · have on : p < q := Nat.lt_of_le_of_ne furthest.le stays
      have here := furthest.filled (p + 1) (Nat.lt_succ_self p) on
      obtain ⟨word, within⟩ := bounded (p + 1) here
      have taken := furthest.steps p (Nat.le_refl p) on
      have fits' : p + 1 + 1 < wordSize
          ∨ (p + 1 + 1 = wordSize ∧ (data.lookup 0).isSome = false) := by
        rcases Nat.lt_or_eq_of_le (Nat.succ_le_of_lt word) with less | same
        · exact .inl less
        · have last' := (bounded q (furthest.filled q on (Nat.le_refl q))).1
          exact .inr ⟨same, ends (by omega)⟩
      have rest : Furthest (fun i => (data.lookup i).isSome = true) step (p + 1) q :=
        ⟨furthest.toReaches.rest (Nat.le_succ p) on, furthest.stuck⟩
      obtain ⟨prevHash₁, exists₁, round, next⟩ :=
        @continuousSeq_passes _ _ _ last p rounds highest _ _ here word within (judged.1 taken)
      rw [if_neg stays, round, ih rest fits' (fun i after => later i (by omega))
        ((later (p + 1) (Nat.lt_succ_self p)).trans next) (by omega)]
      split <;> simp_all

/-- A search does not get past a slot that is not recorded. -/
theorem continuousSeq_lt {last rounds i highest missing : Nat} {prevHash : Hash} {exists' : Bool}
    (absent : (data.lookup missing).isSome = false) (word : missing < wordSize)
    (before : i ≤ missing) (low : highest < missing) :
    continuousSeq data getBlockFunc last rounds i highest prevHash exists' < missing := by
  -- Induction on the rounds; the counter stays at or below the missing slot.
  induction rounds generalizing i highest prevHash exists' with
  | zero => exact low
  | succ rounds ih =>
    unfold continuousSeq
    split
    · rename_i found
      simp only [Bool.and_eq_true, decide_eq_true_eq] at found
      have other : i ≠ missing := by
        rintro rfl
        rw [absent] at found
        exact absurd found.2 (by decide)
      have next : (i + 1) % wordSize = i + 1 := Nat.mod_eq_of_lt (by omega)
      dsimp only
      rw [next]
      split
      · split
        · exact low
        · exact ih (by omega) (by omega)
      · exact ih (by omega) (by omega)
    · exact low

/-- A search that passes the last 32-bit number goes on with slot 0, up to a missing slot. -/
theorem continuousSeq_turns {last : Nat} {step : Nat → Prop} {p rounds highest missing : Nat}
    {prevHash : Hash} {exists' : Bool}
    (bounded : ∀ i, (data.lookup i).isSome = true → i < wordSize ∧ i ≤ last)
    (reaches : Reaches (fun i => (data.lookup i).isSome = true) step p (wordSize - 1))
    (turns : (data.lookup 0).isSome = true) (positive : 0 < missing) (word : missing < wordSize)
    (absent : (data.lookup missing).isSome = false)
    (later : ∀ i, p < i → (step i ↔ FollowsBlock getBlockFunc i))
    (judged : step p ↔ Passes getBlockFunc prevHash exists' p)
    (enough : wordSize - 1 - p < rounds) :
    continuousSeq data getBlockFunc last rounds ((p + 1) % wordSize) highest prevHash exists'
      < missing := by
  -- Induction on the rounds; each of them passes a slot, until the counter starts over.
  induction rounds generalizing p highest prevHash exists' with
  | zero => omega
  | succ rounds ih =>
    by_cases ended : p = wordSize - 1
    · have start : (p + 1) % wordSize = 0 := by
        rw [ended]
        rfl
      rw [start, continuousSeq]
      have first : (0 + 1) % wordSize ≤ missing := positive
      simp only [turns, Nat.zero_le, decide_true, Bool.and_self, if_true]
      split
      · simp only [Nat.not_lt_zero, decide_false, Bool.and_false, Bool.false_and,
          Bool.false_eq_true, if_false]
        exact continuousSeq_lt absent word first positive
      · exact continuousSeq_lt absent word first positive
    · have on : p < wordSize - 1 := Nat.lt_of_le_of_ne reaches.le ended
      have here := reaches.filled (p + 1) (Nat.lt_succ_self p) on
      have taken := reaches.steps p (Nat.le_refl p) on
      obtain ⟨prevHash₁, exists₁, round, next⟩ := @continuousSeq_passes _ _ _ last p rounds highest
        _ _ here (bounded _ here).1 (bounded _ here).2 (judged.1 taken)
      rw [round]
      exact ih (reaches.rest (Nat.le_succ p) on) (fun i after => later i (by omega))
        ((later (p + 1) (Nat.lt_succ_self p)).trans next) (by omega)

end Search

section Lock

variable {tp : TrustedPara} {getBlockFunc : Nat → PBlock} {q : Nat}

omit [Hashing] in
theorem lockedSlot_le (tp : TrustedPara) : tp.lockedSlot ≤ tp.prefixLockedSeqNumber := by
  unfold lockedSlot
  split
  · exact Nat.le_refl _
  · exact Nat.zero_le _

omit [Hashing] in
/-- The search begins after the locked slot, with a 32-bit counter. -/
theorem checkFrom_eq (tp : TrustedPara) :
    (if tp.prefixLockedView == tp.view then (tp.prefixLockedSeqNumber + 1) % wordSize else 1)
      = (tp.lockedSlot + 1) % wordSize := by
  unfold lockedSlot
  by_cases here : tp.prefixLockedView = tp.view
  · simp [here]
  · have other : (tp.prefixLockedView == tp.view) = false := by simpa using here
    simp [here, other, wordSize]

/-- The first step of the search is judged by the locked hash, after slot 0 not at all. -/
theorem mayStep_lockedSlot (tp : TrustedPara) :
    tp.MayStep getBlockFunc tp.lockedSlot
      ↔ Passes getBlockFunc tp.prefixLockedHash true tp.lockedSlot := by
  rcases Nat.eq_zero_or_pos tp.lockedSlot with zero | positive
  · simp [MayStep, Passes, zero]
  · have other : tp.lockedSlot ≠ 0 := by omega
    simp [MayStep, Follows, Passes, other, positive]

/-- Slot numbers are 32-bit counters, and not all of them are taken, so that a search ends. -/
structure Counted (slot : Nat → Prop) : Prop where
  word : ∀ i, slot i → i < wordSize
  ends : ∃ i, i < wordSize ∧ ¬ slot i

omit [Hashing] in
/-- No recorded slot is beyond the last one. -/
theorem le_last {data : AList fun _ : Nat => PrecommitData} {i : Nat}
    (here : (data.lookup i).isSome = true) : i ≤ data.keys.foldl max 0 := by
  -- The maximum of a list is at least where it starts and at least each of its members.
  have general : ∀ (keys : List Nat) (start : Nat),
      start ≤ keys.foldl max start ∧ ∀ i ∈ keys, i ≤ keys.foldl max start := by
    intro keys
    induction keys with
    | nil => exact fun start => ⟨Nat.le_refl start, fun i member => by cases member⟩
    | cons key keys ih =>
      intro start
      obtain ⟨low, members⟩ := ih (max start key)
      refine ⟨Nat.le_trans (Nat.le_max_left start key) low, fun i member => ?_⟩
      rcases List.mem_cons.1 member with rfl | rest
      · exact Nat.le_trans (Nat.le_max_right start i) low
      · exact members i rest
  exact (general data.keys 0).2 i (AList.lookup_isSome.1 here)

/--
The lock moves to where a scan of the recorded slots ends, if that is beyond the locked slot.

After the last 32-bit number the search would go on with slot 0.
-/
theorem lockPrefix_eq (word : ∀ i, (tp.precommitData.lookup i).isSome = true → i < wordSize)
    (furthest : Furthest (fun i => (tp.precommitData.lookup i).isSome = true)
      (tp.MayStep getBlockFunc) tp.lockedSlot q)
    (ends : tp.prefixLockedSeqNumber < q → q + 1 = wordSize →
      (tp.precommitData.lookup 0).isSome = false) :
    (q ≤ tp.prefixLockedSeqNumber ∧ tp.lockPrefix getBlockFunc = tp)
      ∨ (tp.prefixLockedSeqNumber < q ∧ ∃ d, tp.precommitData.lookup q = some d
        ∧ tp.lockPrefix getBlockFunc
          = { tp with
              prefixLockedHash := d.blockHash
              prefixLockedView := d.view
              prefixLockedSeqNumber := q }) := by
  have low := tp.lockedSlot_le
  by_cases more : tp.prefixLockedSeqNumber + 1 < wordSize
  · -- The search goes as far as the scan does.
    have found : tp.highestContinuousSeq getBlockFunc = if tp.lockedSlot = q then 0 else q := by
      unfold highestContinuousSeq
      rw [tp.checkFrom_eq]
      refine continuousSeq_eq (fun i here => ⟨word i here, le_last here⟩) furthest
        (.inl (by omega)) (fun last => ends (by omega) last) (fun i after => ?_)
        tp.mayStep_lockedSlot ?_
      · have other : i ≠ tp.lockedSlot := by omega
        simp [MayStep, other]
      · have few := furthest.sub_le_length tp.precommitData.keys fun i here =>
          AList.mem_keys.1 (AList.lookup_isSome.1 here)
        omega
    unfold lockPrefix
    rw [found]
    by_cases stays : tp.lockedSlot = q
    · refine .inl ⟨stays ▸ low, ?_⟩
      rw [if_pos stays]
      cases held : tp.precommitData.lookup 0 <;> simp [held]
    · rw [if_neg stays]
      have here := furthest.filled q (Nat.lt_of_le_of_ne furthest.le stays) (Nat.le_refl q)
      obtain ⟨d, held⟩ := Option.isSome_iff_exists.1 here
      by_cases beyond : tp.prefixLockedSeqNumber < q
      · exact .inr ⟨beyond, d, held, by simp [held, beyond]⟩
      · exact .inl ⟨Nat.not_lt.1 beyond, by simp [held, beyond]⟩
  · -- No slot number is beyond the locked one.
    have none' : ∀ i, (tp.precommitData.lookup i).isSome = true → i ≤ tp.prefixLockedSeqNumber :=
      fun i here => by have := word i here; omega
    refine .inl ⟨?_, ?_⟩
    · rcases Nat.lt_or_eq_of_le furthest.le with on | same
      · exact none' q (furthest.filled q on (Nat.le_refl q))
      · exact same ▸ low
    · rcases tp.lockPrefix_cases getBlockFunc with same | ⟨seq, d, held, beyond, -⟩
      · exact same
      · have := none' seq (by rw [held]; rfl)
        omega

/-- Where the last 32-bit number is passed and slot 0 is recorded, the lock stays. -/
theorem lockPrefix_turns {missing : Nat}
    (word : ∀ i, (tp.precommitData.lookup i).isSome = true → i < wordSize)
    (reaches : Reaches (fun i => (tp.precommitData.lookup i).isSome = true)
      (tp.MayStep getBlockFunc) tp.lockedSlot (wordSize - 1))
    (turns : (tp.precommitData.lookup 0).isSome = true) (positive : 0 < missing)
    (within : missing ≤ tp.lockedSlot) (absent : (tp.precommitData.lookup missing).isSome = false) :
    tp.lockPrefix getBlockFunc = tp := by
  have low := tp.lockedSlot_le
  have short : tp.highestContinuousSeq getBlockFunc < missing := by
    unfold highestContinuousSeq
    rw [tp.checkFrom_eq]
    refine continuousSeq_turns (fun i here => ⟨word i here, le_last here⟩) reaches turns positive
      (by have := reaches.le; omega) absent (fun i after => ?_) tp.mayStep_lockedSlot ?_
    · have other : i ≠ tp.lockedSlot := by omega
      simp [MayStep, other]
    · have few := reaches.sub_le_length tp.precommitData.keys fun i here =>
        AList.mem_keys.1 (AList.lookup_isSome.1 here)
      omega
  unfold lockPrefix
  cases held : tp.precommitData.lookup (tp.highestContinuousSeq getBlockFunc) with
  | none => simp [held]
  | some d =>
    have within' : ¬ tp.prefixLockedSeqNumber < tp.highestContinuousSeq getBlockFunc := by omega
    simp [held, within']

omit [Hashing] in
/-- A call that accepts a certificate has checked its tag, its signatures, its view and its phase. -/
theorem certificate_store_iff {nodes : Nodes} {just : Just} {rd : RDataPara} [Hashing] :
    tp.certificate (.store nodes just getBlockFunc) = some rd ↔
      just.getRDataPara = some rd ∧ just.signs.length = tp.qsize
        ∧ just.signs.verify nodes rd.toString = true ∧ tp.view = rd.propv
        ∧ (rd.phase = PH1_PREPARE ∨ rd.phase = PH1_PRECOMMIT) := by
  constructor
  · intro accepted
    obtain ⟨view, phase, tagged, full, verified, -⟩ := store_accepted accepted
    exact ⟨tagged, full, verified, view.symm, phase⟩
  · rintro ⟨tagged, full, verified, view, phase⟩
    -- All checks pass, so the component answers with a statement, which is set.
    have checks : (just.signs.length == tp.qsize && TEEverify nodes just.signs rd
        && tp.view == rd.propv && (rd.phase == PH1_PREPARE || rd.phase == PH1_PRECOMMIT)) = true := by
      simp only [Bool.and_eq_true, Bool.or_eq_true, beq_iff_eq]
      exact ⟨⟨⟨full, verified⟩, view⟩, phase⟩
    simp only [certificate, TEEstore, tagged, checks, if_true]
    rfl

/-- A pre-commit certificate is recorded for its slot before the lock may move. -/
theorem record_precommit (tp : TrustedPara) {rd : RDataPara} (precommit : rd.phase = PH1_PRECOMMIT)
    (getBlockFunc : Nat → PBlock) :
    ∃ tp₁ : TrustedPara, tp.record rd getBlockFunc = tp₁.lockPrefix getBlockFunc
      ∧ tp₁.prefixLockedHash = tp.prefixLockedHash
      ∧ tp₁.prefixLockedView = tp.prefixLockedView
      ∧ tp₁.prefixLockedSeqNumber = tp.prefixLockedSeqNumber
      ∧ tp₁.view = tp.view
      ∧ tp₁.precommitData = tp.precommitData.insert rd.seqNumber ⟨rd.proph, rd.propv⟩ := by
  obtain ⟨hash, view, slot, current, data⟩ :=
    storePrepared_frame tp rd.proph rd.propv rd.seqNumber
  refine ⟨{ tp.storePrepared rd.proph rd.propv rd.seqNumber with
    precommitData := (tp.storePrepared rd.proph rd.propv rd.seqNumber).precommitData.insert
      rd.seqNumber ⟨rd.proph, rd.propv⟩ },
    by simp only [record, precommit, BEq.rfl, if_true], hash, view, slot, current, ?_⟩
  exact congrArg (·.insert rd.seqNumber ⟨rd.proph, rd.propv⟩) data

end Lock

end TrustedPara

end ParaHotstuff
