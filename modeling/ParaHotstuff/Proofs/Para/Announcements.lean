import ParaHotstuff.Data.Checksum
import ParaHotstuff.Handler.Schedule
import ParaHotstuff.Lib.Frontier
import ParaHotstuff.Proofs.Para.Effects

/-! The blocks a leader announces with its justification, and what its proposals extend. -/

namespace ParaHotstuff

namespace HandlerPara

open Program Local

section Slots

variable [Hashing]

/-- The block in a slot of a view; slots are numbered from 1. -/
def inSlot (blocks : List PBlock) (i : Nat) : PBlock :=
  -- A slot outside the view is as good as an empty one.
  blocks.getD (i - 1) PBlock.default

omit [Hashing] in
/-- A slot of a view holds a block. -/
def Filled (blocks : List PBlock) (i : Nat) : Prop := (inSlot blocks i).isBlock = true

/-- The block of the next slot extends the one of this slot; the first slot follows no other. -/
def Linked (blocks : List PBlock) (i : Nat) : Prop :=
  i = 0 ∨ (inSlot blocks (i + 1)).extends' (inSlot blocks i).hash = true

/-- The hashes of the blocks in some slots one after the other. -/
def slotHashes (blocks : List PBlock) (first count : Nat) : List Hash :=
  (List.range' first count).map fun i => (inSlot blocks i).hash

/-- The hashes of the longest prefix of blocks in which each extends the one before it. -/
def ListsPrefix (blocks : List PBlock) (hashes : List Hash) : Prop :=
  -- The prefix covers the slots 1 to k.
  ∃ k, Furthest (Filled blocks) (Linked blocks) 0 k ∧ hashes = slotHashes blocks 1 k

variable {blocks rest : List PBlock} {i : Nat}

omit [Hashing] in
/-- The slot after those dropped holds the first of the others. -/
theorem inSlot_of_drop {block : PBlock} (dropped : blocks.drop i = block :: rest) :
    inSlot blocks (i + 1) = block := by
  -- Dropping and then taking the head reads the list at that place.
  have found : blocks[i]? = some block := by
    rw [← List.head?_drop, dropped]
    rfl
  rw [inSlot, Nat.add_sub_cancel, List.getD_eq_getElem?_getD, found, Option.getD_some]

omit [Hashing] in
/-- Past the end of the list no slot holds a block. -/
theorem not_filled_of_drop (dropped : blocks.drop i = []) : ¬ Filled blocks (i + 1) := by
  -- The list is too short, so the slot reads as the empty block.
  have short : blocks.length ≤ i := List.drop_eq_nil_iff.1 dropped
  have missing : blocks[i]? = none := List.getElem?_eq_none short
  rw [Filled, inSlot, Nat.add_sub_cancel, List.getD_eq_getElem?_getD, missing]
  decide

/-- The hashes chained from a slot on are those of a scan that begins there. -/
theorem chainedHashes_scan (positive : 0 < i) (dropped : blocks.drop i = rest) :
    ∃ k, Furthest (Filled blocks) (Linked blocks) i k
      ∧ chainedHashes (inSlot blocks i).hash rest = slotHashes blocks (i + 1) (k - i) := by
  -- Induction on the blocks of the slots that are left.
  induction rest generalizing i with
  | nil =>
    have stuck : Filled blocks (i + 1) → ¬ Linked blocks i :=
      fun filled => absurd filled (not_filled_of_drop dropped)
    refine ⟨i, { Reaches.refl i with stuck := stuck }, ?_⟩
    rw [Nat.sub_self]
    rfl
  | cons block rest ih =>
    have here := inSlot_of_drop dropped
    have after : blocks.drop (i + 1) = rest := by
      rw [← List.drop_drop, dropped]
      rfl
    by_cases chained : (block.isBlock && block.extends' (inSlot blocks i).hash) = true
    · -- The scan takes this step, and goes on from the next slot.
      obtain ⟨filled, linked⟩ := Bool.and_eq_true_iff.1 chained
      obtain ⟨k, furthest, hashes⟩ := ih (Nat.succ_pos i) after
      have first : Filled blocks (i + 1) := by rw [Filled, here]; exact filled
      have step : Linked blocks i := .inr (by rw [here]; exact linked)
      refine ⟨k, { furthest.toReaches.cons first step with stuck := furthest.stuck }, ?_⟩
      have beyond : i + 1 ≤ k := furthest.le
      have count : k - i = (k - (i + 1)) + 1 := by omega
      rw [here] at hashes
      rw [chainedHashes, if_pos chained, hashes, count, slotHashes, slotHashes, List.range'_succ,
        List.map_cons, here]
    · -- The scan ends here.
      have stuck : Filled blocks (i + 1) → ¬ Linked blocks i := by
        intro filled linked
        rw [Filled, here] at filled
        rw [Linked, here] at linked
        rcases linked with first | linked
        · omega
        · exact chained (Bool.and_eq_true_iff.2 ⟨filled, linked⟩)
      refine ⟨i, { Reaches.refl i with stuck := stuck }, ?_⟩
      rw [chainedHashes, if_neg chained, Nat.sub_self]
      rfl

/-- What is announced of a view: its first block if there is one, and what a scan passes after it. -/
theorem announcedHashes_scan (blocks : List PBlock) :
    ∃ k, Furthest (Filled blocks) (Linked blocks) 1 k
      ∧ announcedHashes blocks
        = (if (inSlot blocks 1).isBlock then [(inSlot blocks 1).hash] else [])
          ++ slotHashes blocks 2 (k - 1) := by
  cases blocks with
  | nil =>
    -- Without any slot the scan passes none.
    obtain ⟨k, furthest, hashes⟩ := @chainedHashes_scan _ [] _ 1 Nat.one_pos rfl
    exact ⟨k, furthest, hashes⟩
  | cons first rest =>
    obtain ⟨k, furthest, hashes⟩ := @chainedHashes_scan _ (first :: rest) _ 1 Nat.one_pos rfl
    exact ⟨k, furthest, congrArg (_ ++ ·) hashes⟩

/--
The hashes announced are those of the longest prefix exactly if the first slot holds a block, or
the block of the second one does not extend what stands in the empty first slot.
-/
theorem announcedHashes_prefix_iff (blocks : List PBlock) :
    ListsPrefix blocks (announcedHashes blocks)
      ↔ Filled blocks 1 ∨ ¬ (Filled blocks 2 ∧ Linked blocks 1) := by
  obtain ⟨k, furthest, hashes⟩ := announcedHashes_scan blocks
  rw [hashes]
  by_cases first : Filled blocks 1
  · -- The scan from the first slot is one from the beginning.
    have whole : Furthest (Filled blocks) (Linked blocks) 0 k :=
      { furthest.toReaches.cons first (.inl rfl) with stuck := furthest.stuck }
    have count : k = (k - 1) + 1 := by
      have reached : 1 ≤ k := furthest.le
      omega
    have list : slotHashes blocks 1 k
        = [(inSlot blocks 1).hash] ++ slotHashes blocks 2 (k - 1) := by
      rw [count, slotHashes, List.range'_succ]
      rfl
    have held : (inSlot blocks 1).isBlock = true := first
    rw [if_pos held, ← list]
    exact ⟨fun _ => .inl first, fun _ => ⟨k, whole, rfl⟩⟩
  · have empty : ¬ (inSlot blocks 1).isBlock = true := first
    rw [if_neg empty, List.nil_append]
    have nothing : Furthest (Filled blocks) (Linked blocks) 0 0 :=
      { Reaches.refl 0 with stuck := fun filled => absurd filled first }
    constructor
    · -- The prefix is empty, so the scan must not get beyond the empty slot.
      rintro ⟨k', furthest', list⟩
      obtain rfl : k' = 0 := furthest'.unique nothing
      have none_listed : k - 1 = 0 := by simpa [slotHashes] using list
      have reached : 1 ≤ k := furthest.le
      obtain rfl : k = 1 := by omega
      exact .inr fun ⟨filled, linked⟩ => furthest.stuck filled linked
    · intro condition
      have stops := condition.resolve_left first
      -- A scan that takes a step finds the second slot filled and linked.
      have same : k = 1 := by
        rcases Nat.lt_or_eq_of_le furthest.le with beyond | same
        · have filled := furthest.filled 2 (by omega) (by omega)
          have linked := furthest.steps 1 (by omega) beyond
          exact absurd ⟨filled, linked⟩ stops
        · exact same.symm
      exact ⟨0, nothing, by rw [same]; rfl⟩

end Slots

section Sending

variable [Hashing] {cfg : Config} {l : State} {just : Just} {rdata : RDataPara}

/-- Proposals on one justification, each block on the one before it. -/
def Proposed (just : Just) : Hash → List MsgLdrPreparePara → Prop
  | _, [] => True
  | prevHash, msg :: rest =>
    msg.prop.just = just ∧ msg.prop.block.prevHash = prevHash
      ∧ Proposed just msg.prop.block.hash rest

omit [Hashing] in
/-- The packets of some proposals, each of which goes to the same nodes. -/
def proposalPackets (recipients : List PID) (props : List MsgLdrPreparePara) :
    List (Packet MsgPara) :=
  props.flatMap fun msg => recipients.map (⟨·, .ldrPrepare msg⟩)

/-- A leader announces a justification with some hashes, and then sends some proposals. -/
structure Announces (cfg : Config) (just : Just) (rdata : RDataPara) (hashes : List Hash)
    (props : List MsgLdrPreparePara) (l l' : State) : Prop where
  sent : l'.sent = l.sent
    ++ (cfg.remove_from_peers l.node.myid l.node.myid).map (⟨·, .verify ⟨rdata, just.signs, hashes⟩⟩)
    ++ proposalPackets (cfg.remove_from_peers l.node.myid l.node.myid) props
  proposed : Proposed just rdata.justh props

omit [Hashing] in
/-- The number of slots a leader proposes for; some leaders leave out the first one. -/
def slotsToPropose (cfg : Config) (myid : PID) : Nat :=
  cfg.maxBlocksInView + 1 - (if ((myid % 4 : Nat) : Int) = cfg.byzantine then 2 else 1)

/-- A proposal for one slot is sent exactly if the component votes on the justification. -/
theorem proposeBlock_sends (tagged : just.getRDataPara = some rdata) (prevHash : Hash)
    {post : Hash → State → Prop} {stop : State → Prop}
    (refused : l.node.tpara.votesOn cfg.nodes just = false → ∀ l', l'.sent = l.sent →
      l'.node.myid = l.node.myid → l'.node.tpara = l.node.tpara → post prevHash l')
    (accepted : l.node.tpara.votesOn cfg.nodes just = true → ∀ block signs l',
      block.prevHash = prevHash →
      l'.sent = l.sent ++ (cfg.remove_from_peers l.node.myid l.node.myid).map
        (⟨·, .ldrPrepare ⟨⟨just, block⟩, signs⟩⟩) →
      l'.node.myid = l.node.myid → l'.node.tpara.view = l.node.tpara.view → post block.hash l') :
    (proposeBlock cfg just prevHash).Gives post stop l := by
  simp only [proposeBlock, createNewBlockPara, callTEEpreparePara, gives_bind, gives_this,
    gives_modify, gives_pure]
  generalize made : PBlock.ofTransactions prevHash
    (min cfg.maxNumTransactions l.node.transactions.length) l.node.localSeq
    (cfg.fillBlock l.node.transactions) = block
  -- The component answers, as the justification is one of this protocol.
  rcases l.node.tpara.TEEprepare_cases cfg.nodes block just with
    ⟨refuses, thrown | called⟩ | ⟨rd, -, votes, called⟩
  · rw [TrustedPara.TEEprepare, tagged] at thrown
    dsimp only at thrown
    split at thrown <;> cases thrown
  · rw [called]
    simp only [gives_ofOption_some, gives_noteIf, gives_pure, Just.defaultPara,
      Bool.false_eq_true, if_false]
    exact refused refuses _ rfl rfl rfl
  · rw [called]
    simp only [TrustedPara.signBlock, gives_ofOption_some, gives_bind, gives_modify, gives_noteIf,
      gives_pure, Just.set_ofRDataPara, if_true, Just.getRDataPara_ofRDataPara, gives_this,
      gives_multicast, gives_storePrepPara]
    exact accepted votes block _ _ (by rw [← made]; rfl) rfl rfl rfl

omit [Hashing] in
/-- Whether the component votes depends on its view only. -/
theorem votesOn_of_view {tp tp' : TrustedPara} (same : tp'.view = tp.view) (nodes : Nodes)
    (just : Just) : tp'.votesOn nodes just = tp.votesOn nodes just := by
  unfold TrustedPara.votesOn
  rw [same]

/-- Either all slots are proposed for, each block on the one before, or none is. -/
theorem proposeBlocks_sends (tagged : just.getRDataPara = some rdata) (slots : Nat)
    (prevHash : Hash) {stop : State → Prop} :
    (proposeBlocks cfg just slots prevHash).Gives
      (fun _ l' => ∃ props,
        l'.sent = l.sent
            ++ proposalPackets (cfg.remove_from_peers l.node.myid l.node.myid) props
          ∧ Proposed just prevHash props
          ∧ props.length = if l.node.tpara.votesOn cfg.nodes just then slots else 0) stop l := by
  -- Induction on the slots left; a vote leaves the view, so the next one is judged alike.
  induction slots generalizing l prevHash with
  | zero => exact ⟨[], by simp [proposalPackets], trivial, by simp⟩
  | succ slots ih =>
    unfold proposeBlocks
    rw [gives_bind]
    refine proposeBlock_sends tagged prevHash (fun refuses l₁ sent₁ myid₁ tpara₁ => ?_)
      fun votes block signs l₁ extends₁ sent₁ myid₁ view₁ => ?_
    · refine (ih prevHash).mono (fun _ l₂ more => ?_) fun _ left => left
      obtain ⟨props, sent₂, chain, count⟩ := more
      rw [tpara₁, refuses] at count
      rw [sent₁, myid₁] at sent₂
      exact ⟨props, sent₂, chain, by rw [refuses]; exact count⟩
    · refine (ih block.hash).mono (fun _ l₂ more => ?_) fun _ left => left
      obtain ⟨props, sent₂, chain, count⟩ := more
      rw [votesOn_of_view view₁, votes] at count
      refine ⟨⟨⟨just, block⟩, signs⟩ :: props, ?_, ⟨rfl, extends₁, chain⟩, ?_⟩
      · rw [sent₂, sent₁, myid₁, List.append_assoc]
        rfl
      · rw [List.length_cons, count, votes]
        rfl

/-- What a leader announces of a view: nothing, if the view is not below the number of views known. -/
def announcedFor (h : HandlerPara) (v : View) : List Hash :=
  if v < h.pblocks.keys.length then announcedHashes (h.blocksOf v) else []

/-- Announcing a view sends its hashes once, and then proposes on them for all slots or none. -/
theorem initiateVerifyPara_sends (cfg : Config) (l : State) (tagged : just.getRDataPara = some rdata) :
    ∃ props, Announces cfg just rdata (announcedFor l.node rdata.justv) props l
        (initiateVerifyPara cfg just l).state
      ∧ props.length = if l.node.tpara.votesOn cfg.nodes just
          then slotsToPropose cfg l.node.myid else 0 := by
  refine @Gives.state _ _ _ _ (fun l' => ∃ props,
    Announces cfg just rdata (announcedFor l.node rdata.justv) props l l'
      ∧ props.length = if l.node.tpara.votesOn cfg.nodes just
          then slotsToPropose cfg l.node.myid else 0) ?_
  unfold initiateVerifyPara
  rw [tagged, gives_bind, gives_ofOption_some, gives_bind, gives_this, gives_bind, gives_modify,
    gives_bind, gives_multicast]
  -- Looking the view up leaves the id and the component of the node.
  have frame : Frame l.node
      (if rdata.justv < l.node.pblocks.keys.length then l.node.enterView rdata.justv
        else l.node) := by
    split
    · exact frame_enterView l.node rdata.justv
    · exact .refl l.node
  generalize (if rdata.justv < l.node.pblocks.keys.length then l.node.enterView rdata.justv
    else l.node) = h at frame ⊢
  unfold preparePara
  rw [tagged, gives_bind, gives_ofOption_some, gives_bind, gives_this, gives_bind, gives_note,
    gives_bind, gives_modify]
  refine (proposeBlocks_sends tagged _ _).mono (fun _ l' ⟨props, sent, chain, count⟩ => ?_)
    fun _ left => left
  dsimp only at sent count
  rw [frame.myid] at sent count
  rw [frame.tpara] at count
  exact ⟨props, ⟨sent, chain⟩, count⟩

end Sending

section Placing

variable {cfg : Config} {l : State} {h h' : HandlerPara} {blocks : List PBlock}

/-- Every block of a view is in the slot of its number. -/
def PlacedIn (blocks : List PBlock) : Prop :=
  ∀ i, 0 < i → Filled blocks i → (inSlot blocks i).seqNumber = i

/-- Every block a node holds is in the slot of its number. -/
def Placed (h : HandlerPara) : Prop := ∀ v, PlacedIn (h.blocksOf v)

/-- Empty slots hold no misplaced block. -/
theorem placedIn_replicate (count : Nat) : PlacedIn (List.replicate count PBlock.default) := by
  -- Whatever slot is read, it holds the empty block.
  intro i _ filled
  have empty : inSlot (List.replicate count PBlock.default) i = PBlock.default := by
    rw [inSlot, List.getD_eq_getElem?_getD, List.getElem?_replicate]
    split <;> rfl
  rw [Filled, empty] at filled
  exact absurd filled (by decide)

/-- A block may be written into the slot of its number. -/
theorem PlacedIn.set (placed : PlacedIn blocks) (block : PBlock) :
    PlacedIn (blocks.set (block.seqNumber - 1) block) := by
  intro i positive filled
  by_cases here : block.seqNumber - 1 = i - 1 ∧ i - 1 < blocks.length
  · -- The slot just written holds the block, whose number is not zero.
    have written : inSlot (blocks.set (block.seqNumber - 1) block) i = block := by
      rw [inSlot, List.getD_eq_getElem?_getD, here.1, List.getElem?_set_self here.2,
        Option.getD_some]
    rw [Filled, written] at filled
    rw [written]
    have numbered : block.seqNumber ≠ 0 := by simpa [PBlock.isBlock] using filled
    omega
  · -- Any other slot holds what it held.
    have same : inSlot (blocks.set (block.seqNumber - 1) block) i = inSlot blocks i := by
      unfold inSlot
      rw [List.getD_eq_getElem?_getD, List.getElem?_set, List.getD_eq_getElem?_getD]
      split
      · rename_i at'
        have beyond : ¬ i - 1 < blocks.length := fun within => here ⟨at', within⟩
        rw [at', if_neg beyond, List.getElem?_eq_none (Nat.le_of_not_lt beyond)]
      · rfl
    rw [Filled, same] at filled
    rw [same]
    exact placed i positive filled

/-- A view may be given its slots. -/
theorem PlacedIn.resize (placed : PlacedIn blocks) (count size : Nat) :
    PlacedIn (blocks.take size ++ List.replicate count PBlock.default) := by
  intro i positive filled
  by_cases kept : i - 1 < (blocks.take size).length
  · -- A slot kept holds what it held.
    have same : inSlot (blocks.take size ++ List.replicate count PBlock.default) i
        = inSlot blocks i := by
      have within : i - 1 < size := by
        rw [List.length_take] at kept
        omega
      rw [inSlot, inSlot, List.getD_eq_getElem?_getD, List.getElem?_append_left kept,
        List.getElem?_take_of_lt within, List.getD_eq_getElem?_getD]
    rw [Filled, same] at filled
    rw [same]
    exact placed i positive filled
  · -- A new one is empty.
    have empty : inSlot (blocks.take size ++ List.replicate count PBlock.default) i
        = PBlock.default := by
      rw [inSlot, List.getD_eq_getElem?_getD, List.getElem?_append_right (Nat.le_of_not_lt kept),
        List.getElem?_replicate]
      split <;> rfl
    rw [Filled, empty] at filled
    exact absurd filled (by decide)

/-- The blocks of one view may be replaced. -/
theorem Placed.insert (placed : Placed h) {v : View} (ofView : PlacedIn blocks) :
    Placed { h with pblocks := h.pblocks.insert v blocks } := by
  intro w
  by_cases same : w = v
  · subst same
    simpa [blocksOf] using ofView
  · simpa [blocksOf, same] using placed w

/-- Only the blocks matter. -/
theorem Placed.same (placed : Placed h) (pblocks : h'.pblocks = h.pblocks) : Placed h' := by
  intro v
  have blocks : h'.blocksOf v = h.blocksOf v := by
    unfold blocksOf
    rw [pblocks]
  rw [blocks]
  exact placed v

/-- Recording, resizing and forgetting misplace no block. -/
theorem Placed.filed (placed : Placed h) (filed : Filed cfg h h') : Placed h' := by
  cases filed with
  | records v block => exact placed.insert ((placed v).set block)
  | resizes v => exact placed.insert ((placed v).resize _ _)
  | forgets v => exact placed.insert (placedIn_replicate _)

/-- Looking a view up misplaces no block. -/
theorem Placed.enterView (placed : Placed h) (v : View) : Placed (h.enterView v) := by
  intro w
  rw [blocksOf_enterView]
  exact placed w

/-- Signing reports and entering views misplaces no block. -/
theorem Placed.signing : Signing cfg (fun l => Placed l.node) (fun _ => True) False where
  note := fun placed _ _ => placed
  begin := fun placed => placed.same rfl
  sign := fun placed => placed.same rfl
  signed := fun _ => trivial
  counted := fun impossible _ => impossible.elim
  change := fun {l} v placed _ => by
    have moved : Placed { l.node with tpara := l.node.tpara.changeView v, view := v } :=
      placed.same rfl
    exact (moved.filed (.resizes v)).same rfl

/-- No effect of a handler misplaces a block. -/
theorem Placed.closed [Hashing] :
    Closed cfg (fun l => Placed l.node) (fun _ => True) (fun _ _ => True) False False where
  still := fun placed still => placed.same still.pblocks
  looks := fun v placed => placed.enterView v
  visits := fun placed _ => placed.same rfl
  blocks := fun placed _ filed => placed.filed filed
  votes := fun placed _ => placed.same rfl
  commits := fun placed _ => placed.same rfl
  storeNv := fun placed _ => placed.same rfl
  storeProp := fun placed _ _ => placed.same rfl
  storeVerify := fun placed _ => placed.same rfl
  proposals := fun _ _ _ _ => trivial
  verifies := fun _ _ => trivial
  reports := fun _ _ => trivial
  noReports := fun _ _ => trivial
  sorted := fun impossible _ => impossible.elim
  small := fun impossible _ => impossible.elim
  smallVerify := fun impossible _ => impossible.elim
  sendVote := fun _ placed _ => placed
  sendCommit := fun placed _ => placed
  sendReport := fun _ placed _ => placed
  sendBlocks := fun _ _ placed _ => placed
  request := fun _ _ placed _ _ _ => placed
  announce := fun _ _ placed _ _ _ => placed
  note := (@Placed.signing cfg).notes
  execute := fun placed _ _ _ _ => placed.same rfl
  leaves := Placed.signing.leaves
  catches := Placed.signing.catches
  starts := fun held _ => (@Placed.signing cfg).starts held
  propose := fun placed _ _ _ _ _ _ => placed.same rfl
  store := fun placed _ _ _ _ _ => placed.same rfl
  respond := fun {l msg _ _} placed _ _ _ _ _ _ _ _ _ _ _ => by
    have voted : Placed ({ l.node with
        tpara := l.node.tpara.increment_block_phase msg.prop.block.hash }.visit l.node.view
          msg.prop.block.seqNumber) := placed.same rfl
    exact @Placed.filed cfg _ _ voted (.records _ _)
  adopts := fun placed _ _ _ _ _ _ => placed.same rfl
  change := fun v placed later small =>
    Placed.signing.change v placed fun bounded => ⟨later, small bounded⟩

/-- At the start all slots are empty. -/
theorem placed_init (choices : PID → List Nat) (p : PID) : Placed (init cfg choices p) := by
  intro v
  by_cases first : v = 0
  · subst first
    have blocks : (init cfg choices p).blocksOf 0
        = List.replicate cfg.maxBlocksInView PBlock.default := by
      unfold blocksOf init
      rw [AList.lookup_insert]
      rfl
    rw [blocks]
    exact placedIn_replicate _
  · have blocks : (init cfg choices p).blocksOf v = [] := by
      unfold blocksOf init
      rw [AList.lookup_insert_ne first]
      rfl
    rw [blocks]
    intro i _ filled
    exact absurd filled (by simp [Filled, inSlot, PBlock.isBlock, PBlock.default])

/-- In every run of a node each block is held in the slot of its number. -/
theorem placed_run [Hashing] (choices : PID → List Nat) (depth : Nat) (p : PID)
    (stimuli : List (Stimulus MsgPara Input)) :
    Placed ((protocol cfg depth).serve stimuli ⟨init cfg choices p, [], []⟩).state.node := by
  have kept : Keeps (fun l => Placed l.node) ((protocol cfg depth).serve stimuli) := by
    refine Protocol.keeps_serve fun stimulus _ => ?_
    cases stimulus with
    | message msg =>
      exact Placed.closed.handle_kept depth trivial fun m _ =>
        Placed.closed.handleRecoverPara_kept (fun _ _ => trivial) (fun _ _ placed => placed.same rfl) m
    | input i => exact Placed.closed.react_kept depth i
  have start : Placed (⟨init cfg choices p, [], []⟩ : State).node := placed_init choices p
  have reached := kept.state start
  exact reached

end Placing

section Example

variable [Hashing]

omit [Hashing] in
/-- A new-view statement of a node on which a view may be built. -/
def reportOn (signer : PID) (view : View) (justh : Hash) (justv : View) (seq : Nat) :
    MsgNewViewPara :=
  let rd : RDataPara := ⟨Hash.ofBool false, view, justh, justv, PH1_NEWVIEW, seq⟩
  ⟨rd, [Sign.ofText signer signer rd.toString]⟩

omit [Hashing] in
/-- What a node receives that follows one view as a backup and leads the next one. -/
def followsThenLeads (opening : MsgNewViewPara) (blocks : List PBlock)
    (reports : List MsgNewViewPara) : List (Stimulus MsgPara Input) :=
  let just := Just.ofRDataPara opening.rdata opening.signs
  .message (.verify ⟨opening.rdata, opening.signs, []⟩)
    :: blocks.map (fun block => .message (.ldrPrepare ⟨⟨just, block⟩, []⟩))
    ++ reports.map (fun report => .message (.newView report))

omit [Hashing] in
/-- A block without transactions on the genesis block. -/
def slotOne : PBlock := PBlock.ofTransactions Hash.default 0 1 []

/-- The block that extends it. -/
def slotTwo : PBlock := PBlock.ofTransactions slotOne.hash 0 2 []

/-- Node 2 hears of nothing before view 5, votes for a block there, and leads view 6. -/
def skippedViews : State :=
  let reports := [0, 1, 3].map fun q => reportOn q 6 slotOne.hash 5 1
  ((protocol Schedule.fourNodes 2).serve
    (followsThenLeads (reportOn 1 5 Hash.default 0 0) [slotOne] reports)
    ⟨init Schedule.fourNodes (fun _ => []) 2, [], []⟩).state

/-- Node 1 votes for both blocks of view 0, and leads view 1 on reports of the first one only. -/
def heldMore : State :=
  let reports := [0, 2, 3].map fun q => reportOn q 1 slotOne.hash 0 1
  ((protocol Schedule.fourNodes 2).serve
    (followsThenLeads (reportOn 0 0 Hash.default 0 0) [slotOne, slotTwo] reports)
    ⟨init Schedule.fourNodes (fun _ => []) 1, [], []⟩).state

end Example

section Judging

variable [Hashing]

/--
In every run of a node each block is held in the slot of its number. Whenever a leader announces a
view, the hashes it sends are those of the longest prefix of the blocks it holds, exactly if: the
view is below the number of views it knows, or its first slot is empty; and the first slot is
filled, or the second block does not extend the block that stands for an empty slot.
-/
theorem verify_lists_prefix_iff (cfg : Config) (choices : PID → List Nat) (depth : Nat) (p : PID)
    (stimuli : List (Stimulus MsgPara Input)) :
    Placed ((protocol cfg depth).serve stimuli ⟨init cfg choices p, [], []⟩).state.node
      ∧ ∀ (l : State) (just : Just) (rdata : RDataPara), just.getRDataPara = some rdata →
        ∃ hashes props,
          Announces cfg just rdata hashes props l (initiateVerifyPara cfg just l).state
          ∧ (ListsPrefix (l.node.blocksOf rdata.justv) hashes ↔
            if rdata.justv < l.node.pblocks.keys.length
            then Filled (l.node.blocksOf rdata.justv) 1
              ∨ ¬ (Filled (l.node.blocksOf rdata.justv) 2
                ∧ Linked (l.node.blocksOf rdata.justv) 1)
            else ¬ Filled (l.node.blocksOf rdata.justv) 1) := by
  refine ⟨placed_run choices depth p stimuli, fun l just rdata tagged => ?_⟩
  obtain ⟨props, announces, -⟩ := initiateVerifyPara_sends cfg l tagged
  refine ⟨_, props, announces, ?_⟩
  unfold announcedFor
  by_cases known : rdata.justv < l.node.pblocks.keys.length
  · rw [if_pos known, if_pos known]
    exact announcedHashes_prefix_iff _
  · -- Nothing is listed, which is right only if there is no first block.
    rw [if_neg known, if_neg known]
    constructor
    · rintro ⟨k, furthest, list⟩ first
      have empty : k = 0 := by simpa [slotHashes] using list.symm
      subst empty
      exact furthest.stuck first (.inl rfl)
    · intro first
      exact ⟨0, { Reaches.refl 0 with stuck := fun filled => absurd filled first }, rfl⟩

omit [Hashing] in
/-- A leader that skipped views announces none of the blocks it holds. -/
theorem verify_omits_prefix :
    let _ := Checksum.hashing
    Leads Schedule.fourNodes skippedViews.node
      ∧ ∃ m, ⟨0, .verify m⟩ ∈ skippedViews.sent ∧ m.rdata.propv = skippedViews.node.view
        ∧ ¬ ListsPrefix (skippedViews.node.blocksOf m.rdata.justv) m.blockHashes := by
  intro hashing
  have leads : Leads Schedule.fourNodes skippedViews.node := by
    unfold Leads
    decide +kernel
  let report := reportOn 0 6 slotOne.hash 5 1
  refine ⟨leads, ⟨report.rdata, report.signs, []⟩, by decide +kernel, by decide +kernel, ?_⟩
  -- The prefix has at least one block.
  rintro ⟨k, furthest, list⟩
  have empty : k = 0 := by simpa [slotHashes] using list.symm
  subst empty
  have first : Filled (skippedViews.node.blocksOf 5) 1 := by
    unfold Filled
    decide +kernel
  exact furthest.stuck first (.inl rfl)

/-- The first proposal extends the block whose hash is announced last, if any is announced. -/
def Anchored (hashes : List Hash) (props : List MsgLdrPreparePara) : Prop :=
  -- Without hashes or without proposals nothing is required.
  ∀ last ∈ hashes.getLast?, ∀ first ∈ props.head?, (first.prop.block.prevHash == last) = true

/--
The chain of blocks held for the view of a justification ends in the block the justification is
about.

The chain starts in the first slot, empty or not; a chain of the empty slot alone does not count.
-/
def ChainEndsAt (h : HandlerPara) (rdata : RDataPara) : Prop :=
  rdata.justv < h.pblocks.keys.length →
    ∀ k, Furthest (Filled (h.blocksOf rdata.justv)) (Linked (h.blocksOf rdata.justv)) 1 k →
      Filled (h.blocksOf rdata.justv) 1 ∨ 1 < k →
      ((inSlot (h.blocksOf rdata.justv) k).hash == rdata.justh) = true

/-- The last hash announced is that of the slot where the scan ends, if there is one at all. -/
theorem getLast_announcedHashes {blocks : List PBlock} {k : Nat}
    (furthest : Furthest (Filled blocks) (Linked blocks) 1 k) (last : Hash) :
    last ∈ (announcedHashes blocks).getLast?
      ↔ (Filled blocks 1 ∨ 1 < k) ∧ last = (inSlot blocks k).hash := by
  obtain ⟨k', furthest', hashes⟩ := announcedHashes_scan blocks
  obtain rfl := furthest'.unique furthest
  rw [hashes]
  have reached : 1 ≤ k' := furthest.le
  by_cases further : 1 < k'
  · -- The scan passed a slot after the first one, which is listed last.
    obtain ⟨count, rfl⟩ : ∃ count, k' = count + 2 := ⟨k' - 2, by omega⟩
    have split : slotHashes blocks 2 (count + 2 - 1)
        = slotHashes blocks 2 count ++ [(inSlot blocks (count + 2)).hash] := by
      rw [Nat.add_sub_assoc (by omega), slotHashes, List.range'_concat, List.map_append,
        Nat.one_mul, Nat.add_comm 2 count]
      rfl
    rw [split, ← List.append_assoc, List.getLast?_append_cons]
    simp only [List.getLast?_singleton, Option.mem_def, Option.some.injEq]
    exact ⟨fun same => ⟨.inr further, same.symm⟩, fun ⟨_, same⟩ => same.symm⟩
  · -- At most the first block is listed.
    obtain rfl : k' = 1 := by omega
    have nothing : slotHashes blocks 2 (1 - 1) = [] := rfl
    rw [nothing, List.append_nil]
    by_cases first : (inSlot blocks 1).isBlock = true
    · rw [if_pos first]
      simp only [List.getLast?_singleton, Option.mem_def, Option.some.injEq]
      exact ⟨fun same => ⟨.inl first, same.symm⟩, fun ⟨_, same⟩ => same.symm⟩
    · rw [if_neg first]
      simp only [List.getLast?_nil, Option.mem_def, reduceCtorEq, false_iff]
      rintro ⟨held | beyond, -⟩
      · exact first held
      · exact further beyond

/--
In whatever state a leader announces a view, its proposals are a chain on the block that the
justification is about; and its first proposal extends the block announced last, exactly if
either its component does not vote on the justification, or there is no slot to propose for, or
the chain of blocks held for the view of the justification ends in the block it is about.
-/
theorem proposals_anchored_iff (cfg : Config) (l : State) {just : Just} {rdata : RDataPara}
    (tagged : just.getRDataPara = some rdata) :
    ∃ hashes props, Announces cfg just rdata hashes props l (initiateVerifyPara cfg just l).state
      ∧ (Anchored hashes props ↔
        (l.node.tpara.votesOn cfg.nodes just = true → 0 < slotsToPropose cfg l.node.myid →
          ChainEndsAt l.node rdata)) := by
  obtain ⟨props, announces, count⟩ := initiateVerifyPara_sends cfg l tagged
  refine ⟨_, props, announces, ?_⟩
  -- The first proposal, if there is one, extends the block of the justification.
  have proposed := announces.proposed
  have extends' : ∀ first ∈ props.head?, first.prop.block.prevHash = rdata.justh := by
    intro first member
    cases props with
    | nil => cases member
    | cons msg rest =>
      obtain rfl : msg = first := by simpa using member
      exact proposed.2.1
  have some_proposed : (∃ first, first ∈ props.head?)
      ↔ l.node.tpara.votesOn cfg.nodes just = true ∧ 0 < slotsToPropose cfg l.node.myid := by
    have filled : (∃ first, first ∈ props.head?) ↔ 0 < props.length := by
      cases props with
      | nil => simp
      | cons msg rest => simp
    rw [filled, count]
    by_cases votes : l.node.tpara.votesOn cfg.nodes just = true
    · simp [votes]
    · simp [votes]
  unfold Anchored ChainEndsAt announcedFor
  by_cases known : rdata.justv < l.node.pblocks.keys.length
  · rw [if_pos known]
    obtain ⟨k, furthest, -⟩ := announcedHashes_scan (l.node.blocksOf rdata.justv)
    constructor
    · intro anchored votes slots _ k' furthest' counts
      obtain ⟨first, member⟩ := some_proposed.2 ⟨votes, slots⟩
      have last := (getLast_announcedHashes furthest' _).2 ⟨counts, rfl⟩
      have same := anchored _ last first member
      rw [extends' first member, Hash.beq_iff] at same
      rw [Hash.beq_iff, same]
    · intro ends last listed first member
      obtain ⟨votes, slots⟩ := some_proposed.1 ⟨first, member⟩
      obtain ⟨counts, rfl⟩ := (getLast_announcedHashes furthest last).1 listed
      have same := ends votes slots known k furthest counts
      rw [Hash.beq_iff] at same
      rw [extends' first member, Hash.beq_iff, same]
  · -- Nothing is announced.
    rw [if_neg known]
    exact ⟨fun _ _ _ within => absurd within known, fun _ last listed => by cases listed⟩

omit [Hashing] in
/-- The leader of view 1 announces a block reported to it, and proposes on that. -/
theorem proposals_anchored_heldMore :
    let _ := Checksum.hashing
    let report := reportOn 0 1 slotOne.hash 0 1
    let just := Just.ofRDataPara report.rdata report.signs
    ∃ hashes props, Announces Schedule.fourNodes just report.rdata hashes props heldMore
        (initiateVerifyPara Schedule.fourNodes just heldMore).state
      ∧ (Anchored hashes props ↔
        (heldMore.node.tpara.votesOn Schedule.fourNodes.nodes just = true →
          0 < slotsToPropose Schedule.fourNodes heldMore.node.myid →
          ChainEndsAt heldMore.node report.rdata)) := by
  intro hashing report just
  exact proposals_anchored_iff Schedule.fourNodes heldMore (Just.getRDataPara_ofRDataPara _ _)

omit [Hashing] in
/-- A leader that holds more blocks than were reported proposes beside the last one announced. -/
theorem proposals_beside_announced :
    let _ := Checksum.hashing
    Leads Schedule.fourNodes heldMore.node
      ∧ ∃ earlier m props, heldMore.sent = earlier ++ [0, 2, 3].map (⟨·, .verify m⟩)
          ++ proposalPackets [0, 2, 3] props
        ∧ m.rdata.propv = heldMore.node.view ∧ m.blockHashes ≠ []
        ∧ ¬ Anchored m.blockHashes props := by
  intro hashing
  have leads : Leads Schedule.fourNodes heldMore.node := by
    unfold Leads
    decide +kernel
  let report := reportOn 0 1 slotOne.hash 0 1
  -- The proposals sent are read off the packets to node 0.
  let props := heldMore.sent.filterMap fun packet =>
    match packet with
    | ⟨0, .ldrPrepare m⟩ => some m
    | _ => none
  refine ⟨leads, heldMore.sent.take 2,
    ⟨report.rdata, report.signs, [slotOne.hash, slotTwo.hash]⟩, props, ?_, by decide +kernel,
    by simp, ?_⟩
  · decide +kernel
  · intro anchored
    have first : ∃ first ∈ props.head?, (first.prop.block.prevHash == slotTwo.hash) = false := by
      decide +kernel
    obtain ⟨first, member, other⟩ := first
    have same := anchored slotTwo.hash rfl first member
    rw [other] at same
    cases same

end Judging

end HandlerPara

end ParaHotstuff
