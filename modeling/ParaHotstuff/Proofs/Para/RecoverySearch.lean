import Mathlib.Order.Bounds.Defs
import ParaHotstuff.Proofs.Para.Recovery
import ParaHotstuff.Proofs.Para.SlotLeaders

/-! The search of a leader for the blocks that it can build on when it has not recovered all. -/

namespace ParaHotstuff

namespace HandlerPara

open Program Local

variable {cfg : Config} {l : State} {just : Just} {rdata : RDataPara}

section Searching

/-- Count up until a number is missing; the number before it is the highest contiguous one. -/
def searchHighestCont (missing : List Nat) : Nat → Nat → Option Nat
  | 0, _ => none
  | fuel + 1, highestContSeqNum =>
    -- The loop of the source leaves the number one too high, and takes one off.
    if missing.contains highestContSeqNum then some (highestContSeqNum - 1)
    else searchHighestCont missing fuel (highestContSeqNum + 1)

/-- The search ends at the first missing number, given enough fuel to reach it. -/
theorem searchHighestCont_lands {missing : List Nat} {last : Nat} (listed : last ∈ missing)
    {fuel start : Nat} (before : start ≤ last) (first : ∀ i, start ≤ i → i < last → i ∉ missing)
    (enough : last < start + fuel) :
    searchHighestCont missing fuel start = some (last - 1) := by
  -- Induction on the fuel; each step that finds nothing comes one number closer.
  induction fuel generalizing start with
  | zero => omega
  | succ fuel ih =>
    unfold searchHighestCont
    rcases Nat.lt_or_eq_of_le before with short | rfl
    · have unlisted : ¬ missing.contains start = true := by
        rw [List.contains_iff_mem]
        exact first start (Nat.le_refl _) short
      rw [if_neg unlisted]
      exact ih short (fun i later => first i (Nat.le_of_succ_le later)) (by omega)
    · rw [if_pos (List.contains_iff_mem.2 listed)]

/-- The slots up to the first missing one are the longest run of filled slots from the first on. -/
theorem isGreatest_filled {h : HandlerPara} {last : Nat}
    (listed : last ∈ h.missingSeqNumbers rdata)
    (first : ∀ i, 1 ≤ i → i < last → i ∉ h.missingSeqNumbers rdata) :
    IsGreatest {k | ∀ i, 1 ≤ i → i ≤ k → Filled (h.blocksOf rdata.justv) i} (last - 1) := by
  obtain ⟨⟨positive, upTo⟩, empty⟩ := missing_iff.1 listed
  constructor
  · intro i slot within
    have before : i < last := by omega
    by_contra open'
    exact first i slot before (missing_iff.2 ⟨⟨slot, by omega⟩, open'⟩)
  · intro k filled
    -- A longer run would fill the first missing slot.
    by_contra beyond
    exact empty (filled last positive (by omega))

end Searching

section Storing

variable (cfg)

/--
Store the blocks of an answer in turn, and list what is missing again after each block stored.

Nothing comes out where the source leaves the handler, because nothing is missing any more.
-/
def storeBlocks (just : Just) (view : View) : List PBlock → List Nat → M (Option (List Nat))
  | [], missingSeqNumbers => return some missingSeqNumbers
  | block :: rest, missingSeqNumbers => do
    let seq := block.seqNumber
    modify fun h =>
      if (h.blocksOf view).length < seq || (h.pblocks.lookup view).isNone then
        h.resizeBlocks cfg view
      else h
    let h ← this
    if seq = 0 || (h.blocksOf view).length < seq then strayed view seq
    else if !((h.blocksOf view).getD (seq - 1) PBlock.default).isBlock then
      modify fun h => h.setBlock view block
      let missingSeqNumbers ← getMissingSeqNumbersForJust just
      -- The source starts the view and leaves the handler here.
      if missingSeqNumbers.isEmpty then return none
      else storeBlocks just view rest missingSeqNumbers
    else storeBlocks just view rest missingSeqNumbers

/-- Recording blocks is storing them, with nothing missing where the source leaves the handler. -/
theorem recordBlocks_eq (just : Just) (view : View) (blocks : List PBlock) (missing : List Nat) :
    recordBlocks cfg just view blocks missing = do
      let left ← storeBlocks cfg just view blocks missing
      return left.getD [] := by
  -- Induction on the blocks; both go through the same cases.
  induction blocks generalizing missing with
  | nil => rfl
  | cons block rest ih =>
    unfold recordBlocks storeBlocks
    rw [bind_assoc]
    refine bind_congr fun _ => ?_
    rw [bind_assoc]
    refine bind_congr fun h => ?_
    rw [ite_bind, ite_bind]
    refine ite_congr rfl (fun _ => rfl) fun _ => ite_congr rfl (fun _ => ?_) fun _ => ih missing
    rw [bind_assoc]
    refine bind_congr fun _ => ?_
    rw [bind_assoc]
    refine bind_congr fun now => ?_
    rw [ite_bind]
    exact ite_congr rfl (fun _ => rfl) fun _ => ih now

/-- What storing blocks leaves missing is up to date, and never nothing. -/
theorem storeBlocks_current (tagged : just.getRDataPara = some rdata) (blocks : List PBlock)
    {missing : List Nat} (current : missing = l.node.missingSeqNumbers rdata)
    (some_missing : missing ≠ []) :
    (storeBlocks cfg just rdata.justv blocks missing).Gives
      (fun left l' => ∀ missing', left = some missing' →
        missing' = l'.node.missingSeqNumbers rdata ∧ missing' ≠ [])
      (fun _ => True) l := by
  -- Induction on the blocks; a block that is stored has what is missing listed again.
  induction blocks generalizing l missing with
  | nil => exact fun missing' same => by cases same; exact ⟨current, some_missing⟩
  | cons block rest ih =>
    unfold storeBlocks
    rw [gives_bind, gives_modify]
    generalize sized : (if (l.node.blocksOf rdata.justv).length < block.seqNumber
        || (l.node.pblocks.lookup rdata.justv).isNone then l.node.resizeBlocks cfg rdata.justv
      else l.node) = h₁
    rw [gives_bind, gives_this]
    refine gives_ite (fun _ => trivial) fun within => ?_
    simp only [Bool.or_eq_true, decide_eq_true_eq, not_or, Nat.not_lt] at within
    refine gives_ite (fun _ => ?_) fun _ => ?_
    · simp only [gives_bind, gives_modify, getMissingSeqNumbersForJust, tagged,
        gives_ofOption_some, gives_this, gives_pure]
      -- The list was just made from what is stored, and some of it is left.
      refine gives_ite (fun _ missing' none_left => by cases none_left) fun some_left => ?_
      rw [List.isEmpty_iff] at some_left
      exact @ih { l with node := (h₁.setBlock rdata.justv block).enterView rdata.justv } _ rfl
        some_left
    · -- Nothing was stored, and the slots that the view may have been given are empty.
      have unchanged : missing = h₁.missingSeqNumbers rdata :=
        current.trans (missing_of_slots (inSlot_sized sized within.2)).symm
      exact @ih { l with node := h₁ } _ unchanged some_missing

end Storing

section Reaching

variable (cfg)

/-- Only blocks that come with a valid justification are stored. -/
def storeValid (valid : Bool) (just : Just) (view : View) (blocks : List PBlock)
    (missingSeqNumbers : List Nat) : M (Option (List Nat)) :=
  if valid then storeBlocks cfg just view blocks missingSeqNumbers
  else return some missingSeqNumbers

theorem recordValid_eq (valid : Bool) (just : Just) (view : View) (blocks : List PBlock)
    (missing : List Nat) : recordValid cfg valid just view blocks missing = do
      let left ← storeValid cfg valid just view blocks missing
      return left.getD [] := by
  unfold recordValid storeValid
  rw [ite_bind, recordBlocks_eq]
  rfl

variable [Hashing]

/-- Leave if nothing is missing; otherwise count the answer, and go on once there are enough. -/
def countAnswer (msg : MsgRecoverPara) : Option (List Nat) → M (Option (List Nat))
  | none => do
    initiateVerifyPara cfg (Just.ofRDataPara msg.rdata msg.signs)
    return none
  | some missingSeqNumbers => do
    let view := msg.rdata.justv
    let h ← this
    let responses := (h.recoverResponses.lookup view).getD 0 + 1
    modify fun h => { h with recoverResponses := h.recoverResponses.insert view responses }
    if cfg.qsize ≤ responses then return some missingSeqNumbers else return none

/-- An answer to a request up to the search for what to build on, with what is missing then. -/
def untilSearch (msg : MsgRecoverPara) : M (Option (List Nat)) := do
  let h ← this
  if maxViewsReached cfg h then return none
  else if !(← amCurrentLeader cfg) then return none
  else
    let view := msg.rdata.justv
    let just := Just.ofRDataPara msg.rdata msg.signs
    let missingSeqNumbers ← getMissingSeqNumbersForJust just
    if missingSeqNumbers.isEmpty then return none
    else
      modify fun h =>
        match h.recoverResponses.lookup view with
        | some _ => h
        | none => { h with recoverResponses := h.recoverResponses.insert view 1 }
      let valid ← Program.ofOption (verifyJustPara cfg just)
      let left ← storeValid cfg valid just view msg.blocks missingSeqNumbers
      countAnswer cfg msg left

/-- What a leader does with the highest contiguous slot that the search finds. -/
def buildOn (msg : MsgRecoverPara) (highestContSeqNum : Nat) : M Unit :=
  if 0 < highestContSeqNum then initiateVerifyPara cfg (Just.ofRDataPara msg.rdata msg.signs)
  else recoverFromVerified cfg

/-- Where the search ends in front of the first number listed, an answer is handled by it. -/
def searched (msg : MsgRecoverPara) : Option (List Nat) → M Unit
  | none => return ()
  | some missingSeqNumbers => buildOn cfg msg (missingSeqNumbers.headD 1 - 1)

omit [Hashing] in
/-- Storing the blocks of an answer leaves missing what is up to date, and never nothing. -/
theorem storeValid_current {msg : MsgRecoverPara} (valid : Bool) {missing : List Nat}
    (current : missing = l.node.missingSeqNumbers msg.rdata) (some_missing : missing ≠ []) :
    (storeValid cfg valid (Just.ofRDataPara msg.rdata msg.signs) msg.rdata.justv msg.blocks
      missing).Gives
      (fun left l' => ∀ missing', left = some missing' →
        missing' = l'.node.missingSeqNumbers msg.rdata ∧ missing' ≠ [])
      (fun _ => True) l := by
  refine gives_ite (fun _ => ?_) fun _ missing' same => ?_
  · exact storeBlocks_current cfg (Just.getRDataPara_ofRDataPara _ _) msg.blocks current
      some_missing
  · cases same
    exact ⟨current, some_missing⟩

/-- Recording the blocks of an answer, and storing them, lead to the same. -/
theorem recordValid_searches {msg : MsgRecoverPara} (valid : Bool) {missing : List Nat}
    (current : missing = l.node.missingSeqNumbers msg.rdata) (some_missing : missing ≠ []) :
    handleAnswer cfg msg valid missing l
      = (do
        let left ← storeValid cfg valid (Just.ofRDataPara msg.rdata msg.signs) msg.rdata.justv
          msg.blocks missing
        let reached ← countAnswer cfg msg left
        searched cfg msg reached : M Unit) l := by
  unfold handleAnswer
  rw [recordValid_eq]
  simp only [bind_assoc, pure_bind]
  refine bind_eq_of_gives ?_
  refine (storeValid_current cfg valid current some_missing).mono (fun left l' kept => ?_)
    fun _ _ => trivial
  cases left with
  | none =>
    -- The view is started, and the result of that is nothing.
    have ends : initiateVerifyPara cfg (Just.ofRDataPara msg.rdata msg.signs)
        = initiateVerifyPara cfg (Just.ofRDataPara msg.rdata msg.signs) >>= pure :=
      (bind_pure _).symm
    unfold countAnswer
    rw [bind_assoc]
    exact congrFun ends l'
  | some missing' =>
    have some_left : ¬ missing'.isEmpty = true := by
      rw [List.isEmpty_iff]
      exact (kept missing' rfl).2
    unfold countAnswer
    rw [Option.getD_some, if_neg some_left]
    simp only [bind_assoc, ite_bind, pure_bind]
    rfl

/-- Handling an answer is going up to the search, and on with the number in front of the first. -/
theorem handleRecoverPara_searches (msg : MsgRecoverPara) (l : State) :
    handleRecoverPara cfg msg l = (untilSearch cfg msg >>= searched cfg msg) l := by
  unfold handleRecoverPara untilSearch
  simp only [bind_assoc, ite_bind, pure_bind]
  refine congrFun (bind_congr fun h => ite_congr rfl (fun _ => rfl) fun _ => ?_) l
  refine bind_congr fun leads => ite_congr rfl (fun _ => rfl) fun _ => ?_
  funext l'
  refine bind_eq_of_gives ?_
  simp only [getMissingSeqNumbersForJust, Just.getRDataPara_ofRDataPara, gives_bind,
    gives_ofOption_some, gives_modify, gives_this, gives_pure]
  split
  · rfl
  · rename_i some_missing
    rw [List.isEmpty_iff] at some_missing
    refine bind_eq_of_gives ?_
    rw [gives_modify]
    have verified : verifyJustPara cfg (Just.ofRDataPara msg.rdata msg.signs)
        = some (msg.signs.verify cfg.nodes msg.rdata.toString) := rfl
    rw [verified]
    -- Counting the own answer leaves the blocks.
    exact recordValid_searches cfg _ (missing_of_blocks (by split <;> rfl)).symm some_missing

/-- When the search is reached, what is missing is up to date, and not nothing. -/
theorem untilSearch_current (msg : MsgRecoverPara) (l : State) :
    (untilSearch cfg msg).Gives
      (fun reached l' => ∀ missing, reached = some missing →
        missing = l'.node.missingSeqNumbers msg.rdata ∧ missing ≠ [])
      (fun _ => True) l := by
  have leaves : ∀ (l' : State) (missing : List Nat), none = some missing →
      missing = l'.node.missingSeqNumbers msg.rdata ∧ missing ≠ [] :=
    fun _ _ impossible => by cases impossible
  unfold untilSearch
  rw [gives_bind, gives_this]
  refine gives_ite (fun _ => leaves l) fun _ => ?_
  rw [gives_bind, gives_amCurrentLeader]
  refine gives_ite (fun _ => leaves l) fun _ => ?_
  simp only [getMissingSeqNumbersForJust, Just.getRDataPara_ofRDataPara, gives_bind,
    gives_ofOption_some, gives_modify, gives_this, gives_pure]
  refine gives_ite (fun _ => leaves _) fun some_missing => ?_
  rw [List.isEmpty_iff] at some_missing
  have verified : verifyJustPara cfg (Just.ofRDataPara msg.rdata msg.signs)
      = some (msg.signs.verify cfg.nodes msg.rdata.toString) := rfl
  rw [gives_bind, gives_modify, verified, gives_bind, gives_ofOption_some, gives_bind]
  -- Counting the own answer leaves the blocks, and so does counting this one.
  refine Gives.mono (storeValid_current cfg _ (missing_of_blocks (by split <;> rfl)).symm
    some_missing) (fun left l' kept => ?_) fun _ _ => trivial
  cases left with
  | none =>
    unfold countAnswer
    rw [gives_bind]
    exact Gives.mono (@gives_of_state _ _ _ _ (fun _ => True) trivial)
      (fun _ l'' _ => leaves l'') fun _ _ => trivial
  | some missing =>
    unfold countAnswer
    rw [gives_bind, gives_this, gives_bind, gives_modify]
    refine gives_ite (fun _ missing' same => ?_) fun _ => leaves _
    obtain rfl := Option.some.inj same
    exact kept missing rfl

variable {cfg}

/--
Whenever a leader gets to the search, the list is up to date, not empty and free of 0; so the
search ends, on the largest slot up to which all blocks of the view are there, and that is what it
builds on.
-/
theorem searchHighestCont_exact {msg : MsgRecoverPara} {missing : List Nat} {l s : State}
    (reached : untilSearch cfg msg l = .done (some missing) s) :
    missing = s.node.missingSeqNumbers msg.rdata ∧ missing ≠ [] ∧ (∀ i ∈ missing, 1 ≤ i)
      ∧ ∃ k, (∀ fuel, k < fuel → searchHighestCont missing fuel 1 = some k)
        ∧ IsGreatest {k | ∀ i, 1 ≤ i → i ≤ k → Filled (s.node.blocksOf msg.rdata.justv) i} k
        ∧ k < msg.rdata.seqNumber
        ∧ handleRecoverPara cfg msg l = buildOn cfg msg k s := by
  have given := untilSearch_current cfg msg l
  unfold Gives at given
  rw [reached] at given
  obtain ⟨current, some_missing⟩ := given missing rfl
  have slots : ∀ i ∈ missing, 1 ≤ i ∧ i ≤ msg.rdata.seqNumber := by
    rw [current]
    exact fun i listed => (missing_iff.1 listed).1
  -- What comes after the search is what the whole handler does.
  have handled : handleRecoverPara cfg msg l = searched cfg msg (some missing) s := by
    rw [handleRecoverPara_searches]
    exact bind_of_done reached
  have sorted : missing.Pairwise (· < ·) := by
    rw [current]
    exact Slots.sorted_missingSeqNumbers
  refine ⟨current, some_missing, fun i listed => (slots i listed).1, ?_⟩
  -- The first number listed is the first slot that is missing.
  cases missing with
  | nil => exact absurd rfl some_missing
  | cons last later =>
    obtain ⟨positive, upTo⟩ := slots last List.mem_cons_self
    -- The list is sorted, so no number before its head is in it.
    have first : ∀ i, 1 ≤ i → i < last → i ∉ last :: later := by
      intro i _ before listed
      rcases List.mem_cons.1 listed with same | behind
      · omega
      · exact Nat.lt_asymm before (List.rel_of_pairwise_cons sorted behind)
    refine ⟨last - 1, fun fuel enough => ?_, ?_, by omega, handled⟩
    · exact searchHighestCont_lands List.mem_cons_self positive first (by omega)
    · rw [current] at first
      exact isGreatest_filled (by rw [← current]; exact List.mem_cons_self) first

/-- An answer to a request for two blocks. -/
def answerForTwo (blocks : List PBlock) : MsgRecoverPara :=
  let report := reportOn 0 1 slotTwo.hash 0 2
  ⟨report.rdata, report.signs, blocks⟩

/-- A leader that misses two blocks, and was sent the first of them. -/
def lacksSecond : State :=
  ((protocol Schedule.fourNodes 2).serve [.message (.recover (answerForTwo [slotOne]))]
    lacksBlock).state

omit [Hashing] in
/-- The next answer completes the quorum, and the leader builds on the first block. -/
theorem searchHighestCont_exact_lacksSecond :
    let _ := Checksum.hashing
    let msg := answerForTwo []
    ∃ missing s, untilSearch Schedule.fourNodes msg lacksSecond = .done (some missing) s
      ∧ missing = s.node.missingSeqNumbers msg.rdata ∧ missing ≠ [] ∧ (∀ i ∈ missing, 1 ≤ i)
      ∧ ∃ k, (∀ fuel, k < fuel → searchHighestCont missing fuel 1 = some k)
        ∧ IsGreatest {k | ∀ i, 1 ≤ i → i ≤ k → Filled (s.node.blocksOf msg.rdata.justv) i} k
        ∧ k < msg.rdata.seqNumber
        ∧ handleRecoverPara Schedule.fourNodes msg lacksSecond
          = buildOn Schedule.fourNodes msg k s := by
  intro hashing msg
  have reached : (untilSearch Schedule.fourNodes msg lacksSecond).result? = some (some [2]) := by
    decide +kernel
  have ended := Outcome.eq_done reached
  exact ⟨_, _, ended, searchHighestCont_exact ended⟩

end Reaching

end HandlerPara

end ParaHotstuff
