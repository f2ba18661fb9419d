import ParaHotstuff.Proofs.Para.Announcements

/-! What a leader has recorded once it recovered the blocks of a view. -/

namespace ParaHotstuff

namespace HandlerPara

open Program Local

variable {cfg : Config} {l : State} {just : Just} {rdata : RDataPara}

section Merging

/-- The blocks of a view, each empty slot filled with the first block received for it, if any. -/
def merged (held received : List PBlock) (i : Nat) : PBlock :=
  -- Only a slot that holds no block is written.
  if (inSlot held i).isBlock then inSlot held i
  else (received.find? (·.seqNumber == i)).getD (inSlot held i)

/-- A slot of the justification is missing exactly if it holds no block. -/
theorem missing_iff {h : HandlerPara} {i : Nat} : i ∈ h.missingSeqNumbers rdata
    ↔ (0 < i ∧ i ≤ rdata.seqNumber) ∧ ¬ Filled (h.blocksOf rdata.justv) i := by
  -- The slots are listed from 1 on, and those that hold a block are left out.
  have listed : i ∈ List.range' 1 rdata.seqNumber ↔ 0 < i ∧ i ≤ rdata.seqNumber := by
    rw [List.mem_range'_1]
    omega
  simp only [missingSeqNumbers, List.mem_filter, listed, Filled, inSlot, Bool.not_eq_true',
    Bool.not_eq_true]

/-- Which slots are missing depends on what the slots of the view hold only. -/
theorem missing_of_slots {h h' : HandlerPara}
    (same : ∀ i, inSlot (h'.blocksOf rdata.justv) i = inSlot (h.blocksOf rdata.justv) i) :
    h'.missingSeqNumbers rdata = h.missingSeqNumbers rdata := by
  unfold missingSeqNumbers
  refine List.filter_congr fun i _ => ?_
  exact congrArg (fun block => !block.isBlock) (same i)

/-- Giving a view its slots changes none, unless there were more. -/
theorem inSlot_resize {blocks : List PBlock} {size : Nat} (short : blocks.length ≤ size) (i : Nat) :
    inSlot (blocks.take size ++ List.replicate (size - blocks.length) PBlock.default) i
      = inSlot blocks i := by
  rw [List.take_of_length_le short]
  unfold inSlot
  rw [List.getD_eq_getElem?_getD, List.getD_eq_getElem?_getD]
  by_cases within : i - 1 < blocks.length
  · rw [List.getElem?_append_left within]
  · -- A new slot is as empty as one outside the view.
    have beyond : blocks.length ≤ i - 1 := Nat.le_of_not_lt within
    rw [List.getElem?_append_right beyond, List.getElem?_replicate,
      List.getElem?_eq_none beyond]
    split <;> rfl

/-- A slot just written holds the block. -/
theorem inSlot_set_self {blocks : List PBlock} {block : PBlock} (positive : block.seqNumber ≠ 0)
    (within : block.seqNumber ≤ blocks.length) :
    inSlot (blocks.set (block.seqNumber - 1) block) block.seqNumber = block := by
  have bound : block.seqNumber - 1 < blocks.length := by omega
  rw [inSlot, List.getD_eq_getElem?_getD, List.getElem?_set_self bound, Option.getD_some]

/-- Any other slot holds what it held. -/
theorem inSlot_set_ne {blocks : List PBlock} {block : PBlock} {i : Nat}
    (positive : block.seqNumber ≠ 0) (slot : 0 < i) (other : i ≠ block.seqNumber) :
    inSlot (blocks.set (block.seqNumber - 1) block) i = inSlot blocks i := by
  have apart : block.seqNumber - 1 ≠ i - 1 := by omega
  rw [inSlot, List.getD_eq_getElem?_getD, List.getElem?_set_ne apart,
    ← List.getD_eq_getElem?_getD]
  rfl

/-- A slot that holds a block keeps it, whatever is received. -/
theorem merged_of_filled {held : List PBlock} {i : Nat} (filled : Filled held i)
    (received : List PBlock) : merged held received i = inSlot held i := if_pos filled

/-- Blocks for other slots do not matter. -/
theorem merged_cons_ne {held rest : List PBlock} {block : PBlock} {i : Nat}
    (other : i ≠ block.seqNumber) : merged held (block :: rest) i = merged held rest i := by
  have skipped : (block.seqNumber == i) = false := by
    rw [beq_eq_false_iff_ne]
    exact Ne.symm other
  unfold merged
  rw [List.find?_cons_of_neg (by simp [skipped])]

/-- The first block for an empty slot fills it. -/
theorem merged_cons_self {held rest : List PBlock} {block : PBlock}
    (empty : ¬ Filled held block.seqNumber) :
    merged held (block :: rest) block.seqNumber = block := by
  have vacant : ¬ (inSlot held block.seqNumber).isBlock = true := empty
  unfold merged
  rw [if_neg vacant, List.find?_cons_of_pos (by simp), Option.getD_some]

/-- Merging depends on what the slot holds only. -/
theorem merged_congr {held held' : List PBlock} {i : Nat} (same : inSlot held' i = inSlot held i)
    (received : List PBlock) : merged held' received i = merged held received i := by
  unfold merged
  rw [same]

end Merging

section Recording

/-- Blocks of one view in a state after they were replaced. -/
theorem blocksOf_insert (h : HandlerPara) (v : View) (blocks : List PBlock) :
    ({ h with pblocks := h.pblocks.insert v blocks } : HandlerPara).blocksOf v = blocks := by
  unfold blocksOf
  rw [AList.lookup_insert]
  rfl

/-- Making room for a slot changes none. -/
theorem inSlot_sized {h : HandlerPara} {v : View} {seq : Nat} {h₁ : HandlerPara}
    (sized : (if (h.blocksOf v).length < seq || (h.pblocks.lookup v).isNone
      then h.resizeBlocks cfg v else h) = h₁) (within : seq ≤ (h₁.blocksOf v).length) (i : Nat) :
    inSlot (h₁.blocksOf v) i = inSlot (h.blocksOf v) i := by
  split at sized
  · rename_i resized
    subst sized
    unfold resizeBlocks at within ⊢
    rw [blocksOf_insert] at within ⊢
    rw [Bool.or_eq_true, decide_eq_true_eq, Option.isNone_iff_eq_none] at resized
    refine inSlot_resize ?_ i
    rcases resized with short | unknown
    · -- The slot is within the view now, so the view had fewer slots than it may have.
      rw [List.length_append, List.length_take, List.length_replicate] at within
      omega
    · have nothing : h.blocksOf v = [] := by
        unfold blocksOf
        rw [unknown]
        rfl
      rw [nothing]
      exact Nat.zero_le _
  · rw [← sized]

/-- Recording blocks merges them into their view, and leaves missing what is still empty. -/
theorem recordBlocks_merges (cfg : Config) (l : State) (tagged : just.getRDataPara = some rdata)
    (blocks : List PBlock) {missing : List Nat} (current : missing = l.node.missingSeqNumbers rdata) :
    (recordBlocks cfg just rdata.justv blocks missing).Gives
      (fun left l' => left = l'.node.missingSeqNumbers rdata
        ∧ ∀ i, 0 < i → i ≤ rdata.seqNumber → inSlot (l'.node.blocksOf rdata.justv) i
          = merged (l.node.blocksOf rdata.justv) blocks i)
      (fun _ => True) l := by
  -- Induction on the blocks; each fills its slot, finds it filled, or is outside the view.
  induction blocks generalizing l missing with
  | nil =>
    refine ⟨current, fun i _ _ => ?_⟩
    unfold merged
    rw [List.find?_nil, Option.getD_none, ite_self]
  | cons block rest ih =>
    unfold recordBlocks
    rw [gives_bind, gives_modify]
    generalize sized : (if (l.node.blocksOf rdata.justv).length < block.seqNumber
        || (l.node.pblocks.lookup rdata.justv).isNone then l.node.resizeBlocks cfg rdata.justv
      else l.node) = h₁
    rw [gives_bind, gives_this]
    refine gives_ite (fun _ => trivial) fun within => ?_
    simp only [Bool.or_eq_true, decide_eq_true_eq, not_or, Nat.not_lt] at within
    obtain ⟨positive, within⟩ := within
    -- The view may have been given its slots, which changed none.
    have slots : ∀ i, inSlot (h₁.blocksOf rdata.justv) i
        = inSlot (l.node.blocksOf rdata.justv) i := inSlot_sized sized within
    have filled_iff : ∀ i, Filled (h₁.blocksOf rdata.justv) i
        ↔ Filled (l.node.blocksOf rdata.justv) i := by
      intro i
      rw [Filled, Filled, slots]
    refine gives_ite (fun empty => ?_) fun held => ?_
    · -- The slot of the block was empty.
      have vacant : ¬ Filled (h₁.blocksOf rdata.justv) block.seqNumber := by
        intro filled
        have held : ((h₁.blocksOf rdata.justv).getD (block.seqNumber - 1)
          PBlock.default).isBlock = true := filled
        dsimp only at empty
        rw [held] at empty
        cases empty
      have vacant' : ¬ Filled (l.node.blocksOf rdata.justv) block.seqNumber :=
        fun filled => vacant ((filled_iff _).2 filled)
      simp only [gives_bind, gives_modify, getMissingSeqNumbersForJust, tagged,
        gives_ofOption_some, gives_this, gives_pure]
      generalize written : (h₁.setBlock rdata.justv block).enterView rdata.justv = h₂
      have blocks₂ : h₂.blocksOf rdata.justv
          = (h₁.blocksOf rdata.justv).set (block.seqNumber - 1) block := by
        rw [← written, blocksOf_enterView]
        exact blocksOf_insert h₁ rdata.justv _
      have self₂ : inSlot (h₂.blocksOf rdata.justv) block.seqNumber = block := by
        rw [blocks₂]
        exact inSlot_set_self positive within
      have others₂ : ∀ i, 0 < i → i ≠ block.seqNumber →
          inSlot (h₂.blocksOf rdata.justv) i = inSlot (l.node.blocksOf rdata.justv) i := by
        intro i slot other
        rw [blocks₂, inSlot_set_ne positive slot other, slots]
      have filled₂ : Filled (h₂.blocksOf rdata.justv) block.seqNumber := by
        rw [Filled, self₂]
        simpa [PBlock.isBlock] using positive
      refine gives_ite (fun none_left => ?_) fun _ => ?_
      · -- Nothing is missing any more, so every other slot was filled before.
        rw [List.isEmpty_iff] at none_left
        refine ⟨none_left.symm, fun i slot upTo => ?_⟩
        by_cases same : i = block.seqNumber
        · subst same
          rw [self₂, merged_cons_self vacant']
        · have filled : Filled (h₂.blocksOf rdata.justv) i := by
            by_contra open'
            have missing : i ∈ h₂.missingSeqNumbers rdata := missing_iff.2 ⟨⟨slot, upTo⟩, open'⟩
            rw [none_left] at missing
            cases missing
          rw [Filled, others₂ i slot same] at filled
          rw [others₂ i slot same, merged_of_filled filled]
      · have rest₂ := @ih { l with node := h₂ } _ rfl
        refine rest₂.mono (fun left l' recorded => ?_) fun _ _ => trivial
        obtain ⟨missing, now⟩ := recorded
        refine ⟨missing, fun i slot upTo => ?_⟩
        rw [now i slot upTo]
        by_cases same : i = block.seqNumber
        · subst same
          rw [merged_of_filled filled₂, self₂, merged_cons_self vacant']
        · rw [merged_congr (others₂ i slot same), merged_cons_ne same]
    · -- The slot of the block is taken.
      have taken : Filled (l.node.blocksOf rdata.justv) block.seqNumber := by
        rw [← filled_iff]
        simp only [Bool.not_eq_true, Bool.not_eq_false'] at held
        exact held
      have unchanged : missing = h₁.missingSeqNumbers rdata :=
        current.trans (missing_of_slots slots).symm
      have rest₁ := @ih { l with node := h₁ } _ unchanged
      refine rest₁.mono (fun left l' recorded => ?_) fun _ _ => trivial
      obtain ⟨missing, now⟩ := recorded
      refine ⟨missing, fun i slot upTo => ?_⟩
      rw [now i slot upTo, merged_congr (slots i)]
      by_cases same : i = block.seqNumber
      · subst same
        rw [merged_of_filled taken, merged_of_filled taken]
      · rw [merged_cons_ne same]

end Recording

section Recovering

variable [Hashing]

/-- The blocks up to the slot of a justification are a chain that ends in the block it is about. -/
structure Authentic (block : Nat → PBlock) (rdata : RDataPara) : Prop where
  numbered : ∀ i, 0 < i → i ≤ rdata.seqNumber → (block i).seqNumber = i
  linked : ∀ i, 0 < i → i < rdata.seqNumber → (block (i + 1)).extends' (block i).hash = true
  last : ((block rdata.seqNumber).hash == rdata.justh) = true

/-- Only the blocks of these slots matter. -/
theorem Authentic.congr {block block' : Nat → PBlock} (positive : 0 < rdata.seqNumber)
    (same : ∀ i, 0 < i → i ≤ rdata.seqNumber → block' i = block i)
    (authentic : Authentic block rdata) : Authentic block' rdata where
  numbered := fun i slot upTo => by rw [same i slot upTo]; exact authentic.numbered i slot upTo
  linked := fun i slot before => by
    rw [same i slot (Nat.le_of_lt before), same (i + 1) (Nat.succ_pos i) before]
    exact authentic.linked i slot before
  last := by rw [same _ positive (Nat.le_refl _)]; exact authentic.last

omit [Hashing] in
/-- How recording the blocks of an answer ends. -/
def recording (cfg : Config) (msg : MsgRecoverPara) (l : State) : Outcome State (List Nat) :=
  recordBlocks cfg (Just.ofRDataPara msg.rdata msg.signs) msg.rdata.justv msg.blocks
    (l.node.missingSeqNumbers msg.rdata) { l with node := l.node.collecting msg.rdata.justv }

omit [Hashing] in
/-- A leader misses blocks, and after recording those of an answer it misses none any more. -/
structure FindsNoneMissing (cfg : Config) (msg : MsgRecoverPara) (l : State) : Prop where
  running : maxViewsReached cfg l.node = false
  leads : Leads cfg l.node
  missing : l.node.missingSeqNumbers msg.rdata ≠ []
  valid : msg.signs.verify cfg.nodes msg.rdata.toString = true
  found : (recording cfg msg l).result? = some []

variable {msg : MsgRecoverPara}

/-- Then it starts its view on the justification of the answer. -/
theorem FindsNoneMissing.starts (finds : FindsNoneMissing cfg msg l) :
    handleRecoverPara cfg msg l
      = initiateVerifyPara cfg (Just.ofRDataPara msg.rdata msg.signs)
          (recording cfg msg l).state := by
  have leader : cfg.amLeaderOf l.node.myid l.node.view = true :=
    Config.amLeaderOf_iff.2 finds.leads
  have some_missing : (l.node.missingSeqNumbers msg.rdata).isEmpty = false := by
    simpa using finds.missing
  have counted : (modify fun h => h.collecting msg.rdata.justv : M Unit) l
      = .done () { l with node := l.node.collecting msg.rdata.justv } := rfl
  have recorded : recordValid cfg true (Just.ofRDataPara msg.rdata msg.signs) msg.rdata.justv
      msg.blocks (l.node.missingSeqNumbers msg.rdata)
      { l with node := l.node.collecting msg.rdata.justv }
      = .done [] (recording cfg msg l).state := Outcome.eq_done finds.found
  rw [handleRecoverPara_eq, if_neg (by rw [finds.running]; decide),
    if_neg (by rw [leader]; decide), if_neg (by rw [some_missing]; decide), bind_of_done counted,
    finds.valid]
  unfold handleAnswer
  exact bind_of_done recorded

/-- Node 1 leads view 1 on reports of a block it has never seen, and asks for it. -/
def lacksBlock : State :=
  let reports := [0, 2, 3].map fun q => reportOn q 1 slotOne.hash 0 1
  ((protocol Schedule.fourNodes 2).serve (reports.map fun report => .message (.newView report))
    ⟨init Schedule.fourNodes (fun _ => []) 1, [], []⟩).state

/-- An answer to its request. -/
def answerWith (blocks : List PBlock) : MsgRecoverPara :=
  let report := reportOn 0 1 slotOne.hash 0 1
  ⟨report.rdata, report.signs, blocks⟩

/-- Another block for the first slot than the one reported. -/
def otherBlock : PBlock := PBlock.ofTransactions slotOne.hash 0 1 []

/--
Whatever answers a leader has handled before, when it finds no block missing any more and starts
its view, the blocks it has recorded are authentic exactly if the blocks it held before the last answer,
together with the first one in that answer for each empty slot, are.
-/
theorem recovered_authentic_iff (cfg : Config) (depth : Nat) (origin : State)
    (earlier : List MsgRecoverPara) (msg : MsgRecoverPara) :
    let l := ((protocol cfg depth).serve (earlier.map fun m => .message (.recover m)) origin).state
    FindsNoneMissing cfg msg l →
    handleRecoverPara cfg msg l
        = initiateVerifyPara cfg (Just.ofRDataPara msg.rdata msg.signs) (recording cfg msg l).state
      ∧ (Authentic (inSlot ((recording cfg msg l).state.node.blocksOf msg.rdata.justv)) msg.rdata
        ↔ Authentic (merged (l.node.blocksOf msg.rdata.justv) msg.blocks) msg.rdata) := by
  intro l finds
  refine ⟨finds.starts, ?_⟩
  have positive : 0 < msg.rdata.seqNumber := by
    obtain ⟨i, missing⟩ := List.exists_mem_of_ne_nil _ finds.missing
    obtain ⟨⟨slot, upTo⟩, -⟩ := missing_iff.1 missing
    exact Nat.lt_of_lt_of_le slot upTo
  -- Recording merged the blocks of the answer into those held.
  have current : l.node.missingSeqNumbers msg.rdata
      = (l.node.collecting msg.rdata.justv).missingSeqNumbers msg.rdata :=
    (missing_of_blocks (blocksOf_collecting l.node msg.rdata.justv msg.rdata.justv)).symm
  have merges := recordBlocks_merges cfg { l with node := l.node.collecting msg.rdata.justv }
    (Just.getRDataPara_ofRDataPara msg.rdata msg.signs) msg.blocks current
  have recorded : recordBlocks cfg (Just.ofRDataPara msg.rdata msg.signs) msg.rdata.justv
      msg.blocks (l.node.missingSeqNumbers msg.rdata)
      { l with node := l.node.collecting msg.rdata.justv }
      = .done [] (recording cfg msg l).state := Outcome.eq_done finds.found
  unfold Gives at merges
  rw [recorded] at merges
  have slots : ∀ i, 0 < i → i ≤ msg.rdata.seqNumber →
      inSlot ((recording cfg msg l).state.node.blocksOf msg.rdata.justv) i
        = merged (l.node.blocksOf msg.rdata.justv) msg.blocks i := by
    intro i slot upTo
    have now := merges.2 i slot upTo
    rw [blocksOf_collecting] at now
    exact now
  exact ⟨fun authentic => authentic.congr positive fun i slot upTo => (slots i slot upTo).symm,
    fun authentic => authentic.congr positive slots⟩

omit [Hashing] in
/-- The block asked for is recorded as it is. -/
theorem recovered_authentic_slotOne :
    let _ := Checksum.hashing
    let msg := answerWith [slotOne]
    handleRecoverPara Schedule.fourNodes msg lacksBlock
        = initiateVerifyPara Schedule.fourNodes (Just.ofRDataPara msg.rdata msg.signs)
          (recording Schedule.fourNodes msg lacksBlock).state
      ∧ (Authentic (inSlot ((recording Schedule.fourNodes msg
            lacksBlock).state.node.blocksOf 0)) msg.rdata
        ↔ Authentic (merged (lacksBlock.node.blocksOf 0) msg.blocks) msg.rdata) := by
  intro hashing msg
  have finds : FindsNoneMissing Schedule.fourNodes msg lacksBlock :=
    { running := rfl
      leads := by unfold Leads; decide +kernel
      missing := by decide +kernel
      valid := by decide +kernel
      found := by decide +kernel }
  -- With nothing handled before, the state is the one at the origin, whatever that is.
  generalize lacksBlock = origin at finds ⊢
  exact recovered_authentic_iff Schedule.fourNodes 2 origin [] msg finds

omit [Hashing] in
/-- Any other block for the slot is recorded as well, and the leader starts its view. -/
theorem recovered_not_authentic :
    let _ := Checksum.hashing
    let msg := answerWith [otherBlock]
    FindsNoneMissing Schedule.fourNodes msg lacksBlock
      ∧ ¬ Authentic (inSlot ((recording Schedule.fourNodes msg
          lacksBlock).state.node.blocksOf 0)) msg.rdata := by
  intro hashing msg
  refine ⟨{ running := rfl, leads := ?_, missing := ?_, valid := ?_, found := ?_ }, ?_⟩
  · unfold Leads
    decide +kernel
  · decide +kernel
  · decide +kernel
  · decide +kernel
  · intro authentic
    have other : ((inSlot ((recording Schedule.fourNodes msg
        lacksBlock).state.node.blocksOf 0) msg.rdata.seqNumber).hash == msg.rdata.justh) = false := by
      decide +kernel
    have last := authentic.last
    rw [other] at last
    cases last

end Recovering

end HandlerPara

end ParaHotstuff
