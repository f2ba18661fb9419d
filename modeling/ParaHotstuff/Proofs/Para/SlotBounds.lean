import ParaHotstuff.Proofs.Para.Proposals
import ParaHotstuff.Proofs.Para.VerifyRuns

/-! Which messages make a node go outside the slots of a view. -/

namespace ParaHotstuff

namespace HandlerPara

open Program Local

variable {cfg : Config} {l : State} {h h' : HandlerPara}

section Conditions

/-- A number that no slot of a view has. -/
def noSlot (cfg : Config) (seq : Nat) : Bool := seq = 0 || cfg.maxBlocksInView < seq

end Conditions

section Invariant

/-- The blocks of a view in a state after those of some view were replaced. -/
theorem blocksOf_replaced (h : HandlerPara) (v w : View) (blocks : List PBlock) :
    HandlerPara.blocksOf { h with pblocks := h.pblocks.insert v blocks } w
      = if w = v then blocks else h.blocksOf w := by
  split
  · rename_i same
    rw [same, blocksOf_insert]
  · rename_i other
    unfold blocksOf
    rw [AList.lookup_insert_ne other]

/-- Giving a view its slots gives it as many as a view has. -/
theorem length_resizeBlocks (cfg : Config) (h : HandlerPara) (v : View) :
    ((h.resizeBlocks cfg v).blocksOf v).length = cfg.maxBlocksInView := by
  unfold resizeBlocks
  rw [blocksOf_insert, List.length_append, List.length_take, List.length_replicate]
  omega

/--
A node that has never gone outside the slots of a view.

Its view has all its slots, other views have them or none, and proposals are kept under their own
slots.
-/
structure Contained (cfg : Config) (h : HandlerPara) : Prop where
  sizes : ∀ v, h.blocksOf v = [] ∨ (h.blocksOf v).length = cfg.maxBlocksInView
  here : (h.blocksOf h.view).length = cfg.maxBlocksInView
  filed : ∀ {v seq m}, m ∈ h.log.proposalsPara.held (v, seq) → m.prop.block.seqNumber = seq
  tagged : ∃ rd, h.verifiedJust.getRDataPara = some rd
  inside : h.outside = none

namespace Contained

/-- Only the blocks, the view, the proposals and the justification verified matter. -/
theorem same (contained : Contained cfg h) (blocks : ∀ v, h'.blocksOf v = h.blocksOf v)
    (view : h'.view = h.view) (proposals : h'.log.proposalsPara = h.log.proposalsPara)
    (adopted : h'.verifiedJust = h.verifiedJust) (outside : h'.outside = h.outside) :
    Contained cfg h' where
  sizes := fun v => by rw [blocks]; exact contained.sizes v
  here := by rw [blocks, view]; exact contained.here
  filed := by rw [proposals]; exact contained.filed
  tagged := by rw [adopted]; exact contained.tagged
  inside := outside.trans contained.inside

/-- A slot that the view has is accessed without going outside. -/
theorem visit (contained : Contained cfg h) {v : View} {seq : Nat}
    (full : (h.blocksOf v).length = cfg.maxBlocksInView) (named : noSlot cfg seq = false) :
    Contained cfg (h.visit v seq) := by
  have within : (decide (seq = 0) || decide ((h.blocksOf v).length < seq)) = false := by
    rw [full]
    exact named
  refine contained.same (fun _ => rfl) rfl rfl rfl ?_
  unfold HandlerPara.visit
  rw [within]
  rfl

/-- The blocks of one view may be replaced by as many slots as a view has. -/
theorem insert (contained : Contained cfg h) {v : View} {blocks : List PBlock}
    (full : blocks.length = cfg.maxBlocksInView) :
    Contained cfg { h with pblocks := h.pblocks.insert v blocks } := by
  have replaced := fun w => blocksOf_replaced h v w blocks
  exact
    { sizes := fun w => by
        rw [replaced]
        split
        · exact .inr full
        · exact contained.sizes w
      here := by
        rw [replaced]
        split
        · exact full
        · exact contained.here
      filed := contained.filed
      tagged := contained.tagged
      inside := contained.inside }

/-- A view may be given its slots. -/
theorem resize (contained : Contained cfg h) (v : View) : Contained cfg (h.resizeBlocks cfg v) := by
  have full := length_resizeBlocks cfg h v
  unfold resizeBlocks at full ⊢
  rw [blocksOf_insert] at full
  exact contained.insert full

/-- A block may be recorded in a view; one without slots stays without. -/
theorem setBlock (contained : Contained cfg h) (v : View) (block : PBlock) :
    Contained cfg (h.setBlock v block) := by
  have replaced : ∀ w, (h.setBlock v block).blocksOf w
      = if w = v then (h.blocksOf v).set (block.seqNumber - 1) block else h.blocksOf w :=
    fun w => blocksOf_replaced h v w _
  exact
    { sizes := fun w => by
        rw [replaced]
        split
        -- A view without slots gets none by writing to one of them.
        · rcases contained.sizes v with none_here | full
          · exact .inl (by rw [none_here]; rfl)
          · exact .inr (by rw [List.length_set, full])
        · exact contained.sizes w
      here := by
        have here : (h.setBlock v block).view = h.view := rfl
        rw [here, replaced]
        split
        · rename_i same
          rw [List.length_set, ← same, contained.here]
        · exact contained.here
      filed := contained.filed
      tagged := contained.tagged
      inside := contained.inside }

theorem recorded (contained : Contained cfg h) (filed : Filed cfg h h') : Contained cfg h' := by
  cases filed with
  | records v block => exact contained.setBlock v block
  | resizes v => exact contained.resize v
  | forgets v => exact contained.insert List.length_replicate

/-- A view may be looked up. -/
theorem enterView (contained : Contained cfg h) (v : View) : Contained cfg (h.enterView v) := by
  have frame := frame_enterView h v
  have outside : (h.enterView v).outside = h.outside := by
    unfold HandlerPara.enterView
    split <;> rfl
  exact contained.same (blocksOf_enterView h v) frame.view (by rw [frame.log]) frame.verifiedJust
    outside

/-- A view entered has all its slots. -/
theorem entered (contained : Contained cfg h) (v : View) : Contained cfg (h.entered cfg v) := by
  have sized : ∀ w, (h.entered cfg v).blocksOf w = (h.resizeBlocks cfg v).blocksOf w :=
    fun _ => rfl
  have resized := contained.resize v
  exact
    { sizes := fun w => by rw [sized]; exact resized.sizes w
      here := by
        have here : (h.entered cfg v).view = v := rfl
        rw [here, sized, length_resizeBlocks]
      filed := contained.filed
      tagged := contained.tagged
      inside := contained.inside }

/-- A proposal is stored under its own slot, whatever that is. -/
theorem stored (contained : Contained cfg h) {msg : MsgLdrPreparePara} {count : Nat} {log : LogPara}
    (kept : h.log.storePropPara msg = some (count, log)) :
    Contained cfg { h with log := log } := by
  unfold LogPara.storePropPara at kept
  split at kept
  · cases kept
  · obtain ⟨-, rfl⟩ := Prod.mk.inj (Option.some.inj kept)
    exact { contained with
      filed := fun member => by
        rcases Messages.mem_storeAndCount member with old | ⟨rfl, slot⟩
        · exact contained.filed old
        · exact (Prod.mk.inj slot).2.symm }

/-- A message whose numbers are all of slots, where they are accessed without a further look. -/
def Named (cfg : Config) : MsgPara → Prop
  | .ldrPrepare m => noSlot cfg m.prop.block.seqNumber = false
  | .ldrRecover m => m.missingSeqNumbers.any (noSlot cfg) = false
  | _ => True

/-- Signing reports and entering views leads nowhere outside. -/
theorem signing : Signing cfg (fun l => Contained cfg l.node) (Named cfg) False where
  note := fun contained _ _ => contained
  begin := fun contained => contained.same (fun _ => rfl) rfl rfl rfl rfl
  sign := fun contained => contained.same (fun _ => rfl) rfl rfl rfl rfl
  signed := fun _ => trivial
  counted := fun impossible _ => impossible.elim
  change := fun v contained _ => contained.entered v

/-- A slot executed is one of the view. -/
theorem executing [Hashing] (contained : Contained cfg h) {rdata : RDataPara}
    (named : noSlot cfg rdata.seqNumber = false) : Contained cfg (h.executing rdata) :=
  (contained.visit contained.here named).same (fun _ => rfl) rfl rfl rfl rfl

/-- No effect of a handler leads outside, if the messages that it works on name slots only. -/
theorem closed [Hashing] : Closed cfg (fun l => Contained cfg l.node) (Named cfg)
    (fun _ _ => True) False False where
  still := fun contained still =>
    contained.same (fun v => by unfold blocksOf; rw [still.pblocks]) still.view
      (by rw [still.log]) still.verifiedJust still.outside
  looks := fun v contained => contained.enterView v
  visits := fun {l v seq} contained access => by
    cases access with
    | own positive within =>
      -- Loops over the slots of the own view stay between 1 and the last one.
      exact contained.visit contained.here (by simp [noSlot]; omega)
    | proposed named => exact contained.visit contained.here named
    | asked named some_blocks member =>
      -- A view that has any slots has all of them.
      refine contained.visit ((contained.sizes _).resolve_left some_blocks) ?_
      simpa using List.any_eq_false.1 named _ member
  blocks := fun contained _ filed => contained.recorded filed
  votes := fun contained voted =>
    contained.same (fun _ => rfl) rfl voted.same.proposalsPara rfl rfl
  commits := fun contained _ => contained.same (fun _ => rfl) rfl rfl rfl rfl
  storeNv := fun contained _ => contained.same (fun _ => rfl) rfl rfl rfl rfl
  storeProp := fun contained _ kept => contained.stored kept
  storeVerify := fun contained _ => contained.same (fun _ => rfl) rfl rfl rfl rfl
  proposals := fun contained positive within member => by
    rw [Named, contained.filed member]
    simp [noSlot]
    omega
  verifies := fun _ _ => trivial
  reports := fun _ _ => trivial
  noReports := fun _ _ => trivial
  sorted := fun impossible _ => impossible.elim
  small := fun impossible _ => impossible.elim
  smallVerify := fun impossible _ => impossible.elim
  sendVote := fun _ contained _ => contained
  sendCommit := fun contained _ => contained
  sendReport := fun _ contained _ => contained
  sendBlocks := fun _ _ contained _ => contained
  request := fun _ _ contained _ _ _ => contained
  announce := fun _ _ contained _ _ _ => contained
  note := (@signing cfg).notes
  execute := fun contained positive within _ slot =>
    contained.executing (by rw [slot]; simp [noSlot]; omega)
  leaves := signing.leaves
  catches := signing.catches
  starts := fun held _ => (@signing cfg).starts held
  propose := fun contained _ _ _ _ _ _ => contained.same (fun _ => rfl) rfl rfl rfl rfl
  store := fun contained _ _ _ _ _ => contained.same (fun _ => rfl) rfl rfl rfl rfl
  respond := fun {l msg _ _} contained _ _ _ positive within _ _ _ _ _ _ => by
    rw [contained.here] at within
    have voted : Contained cfg { l.node with
        tpara := l.node.tpara.increment_block_phase msg.prop.block.hash } :=
      contained.same (fun _ => rfl) rfl rfl rfl rfl
    have named : noSlot cfg msg.prop.block.seqNumber = false := by
      simp [noSlot]
      omega
    have visited := voted.visit voted.here named
    exact visited.setBlock _ _
  -- What is adopted is the justification of an announcement, which is tagged.
  adopts := fun contained _ _ _ _ _ _ => { contained with
    tagged := ⟨_, Just.getRDataPara_ofRDataPara _ _⟩ }
  change := fun v contained later small =>
    signing.change v contained fun bounded => ⟨later, small bounded⟩

/-- At the start the first view has its slots, and nothing is stored. -/
theorem init (choices : PID → List Nat) (p : PID) : Contained cfg (init cfg choices p) := by
  have blocks : ∀ v, (HandlerPara.init cfg choices p).blocksOf v
      = if v = 0 then List.replicate cfg.maxBlocksInView PBlock.default else [] :=
    fun v => blocksOf_replaced { HandlerPara.init cfg choices p with pblocks := ∅ } 0 v _
  exact
    { sizes := fun v => by
        rw [blocks]
        split
        · exact .inr List.length_replicate
        · exact .inl rfl
      here := by
        have first : (HandlerPara.init cfg choices p).view = 0 := rfl
        rw [blocks, first, if_pos rfl, List.length_replicate]
      filed := fun member => by cases member
      tagged := ⟨_, rfl⟩
      inside := rfl }

end Contained

end Invariant

section Steps

/--
A reaction tells whether a node strays.

It stops outside the slots of a view if it does, and leaves the node where it was contained if not.
-/
def Tells (cfg : Config) (strays : Bool) (program : M Unit) (l : State) : Prop :=
  program.Gives (fun _ l' => strays = false ∧ Contained cfg l'.node)
    (fun l' => if strays then l'.node.outside ≠ none else Contained cfg l'.node) l

variable [Hashing]

omit [Hashing] in
/-- A block recorded in its slot is missing no more. -/
theorem missing_setBlock {rdata : RDataPara} {block : PBlock} (positive : block.seqNumber ≠ 0)
    (within : block.seqNumber ≤ (h.blocksOf rdata.justv).length) :
    (h.setBlock rdata.justv block).missingSeqNumbers rdata
      = (h.missingSeqNumbers rdata).filter (· != block.seqNumber) := by
  have blocks : (h.setBlock rdata.justv block).blocksOf rdata.justv
      = (h.blocksOf rdata.justv).set (block.seqNumber - 1) block := blocksOf_insert h _ _
  unfold missingSeqNumbers
  rw [List.filter_filter, blocks]
  refine List.filter_congr fun i listed => ?_
  have slot : 0 < i := by
    rw [List.mem_range'_1] at listed
    omega
  by_cases same : i = block.seqNumber
  · subst same
    have held := congrArg PBlock.isBlock (inSlot_set_self positive within)
    unfold inSlot at held
    rw [held]
    simp [PBlock.isBlock, positive]
  · have kept := congrArg PBlock.isBlock
      (@inSlot_set_ne (h.blocksOf rdata.justv) block i positive slot same)
    unfold inSlot at kept
    rw [kept]
    simp [same]

end Steps

section Runs

variable [Hashing]

end Runs

end HandlerPara

end ParaHotstuff
