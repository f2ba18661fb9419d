import ParaHotstuff.Data.Checksum
import ParaHotstuff.Handler.Schedule
import ParaHotstuff.Proofs.Para.Effects

/-! A backup of the parallel protocol answers at most one proposal for each slot of a view. -/

namespace ParaHotstuff

/-- Whether an event is the answer of a backup to a proposal for a slot of a view. -/
def ParaEvent.answers (v : View) (seq : Nat) : ParaEvent → Bool
  | answered _ r _ _ _ _ => r.propv == v && r.seqNumber == seq
  | _ => false

/-- The views that reports and announcements can bring a node to are 32-bit counters. -/
def MsgPara.wordSized : MsgPara → Bool
  | newView m => m.rdata.propv < wordSize
  | verify m => m.rdata.propv < wordSize
  | _ => true

namespace HandlerPara

open Program Local

variable [Hashing] {cfg : Config} {p : PID} {l : State}

/-- What keeps a node from answering twice: where it answered, its slots hold blocks. -/
structure Once (cfg : Config) (p : PID) (l : State) : Prop where
  myid : l.node.myid = p
  trusted : l.node.tpara.view < wordSize
  verifies : ∀ {v m}, l.node.log.verifiesPara.lookup v = some m → m.rdata.propv < wordSize
  /-- It has answered no proposal of a later view. -/
  later : ∀ v seq, l.node.view < v → l.history.countP (ParaEvent.answers v seq) = 0
  filled : cfg.getLeaderOf l.node.view ≠ p → ∀ seq,
    0 < l.history.countP (ParaEvent.answers l.node.view seq) → (l.node.blockAt seq).isBlock = true
  once : ∀ v seq, cfg.getLeaderOf v ≠ p → l.history.countP (ParaEvent.answers v seq) ≤ 1

section Steps

omit [Hashing]

/-- Only the node's place, its announcements and the blocks of its view matter. -/
theorem Once.node (once : Once cfg p l) {h : HandlerPara} (myid : h.myid = l.node.myid)
    (view : h.view = l.node.view) (trusted : h.tpara.view < wordSize)
    (verifies : h.log.verifiesPara = l.node.log.verifiesPara)
    (blocks : h.blocksOf h.view = l.node.blocksOf l.node.view) :
    Once cfg p { l with node := h } where
  myid := myid.trans once.myid
  trusted := trusted
  verifies := by rw [verifies]; exact once.verifies
  later := fun v seq after => once.later v seq (view ▸ after)
  filled := fun other seq answered => by
    have block := once.filled (view ▸ other) seq (view ▸ answered)
    unfold blockAt at block ⊢
    rw [blocks]
    exact block
  once := once.once

/-- Events that are no answers may be noted. -/
theorem Once.event (once : Once cfg p l) {e : ParaEvent} (other : ∀ v seq, e.answers v seq = false) :
    Once cfg p { l with history := e :: l.history } := by
  -- Such an event counts nowhere.
  have same : ∀ v seq, (e :: l.history).countP (ParaEvent.answers v seq)
      = l.history.countP (ParaEvent.answers v seq) := fun v seq =>
    List.countP_cons_of_neg (by simp [other])
  exact
    { once with
      later := fun v seq after => (same v seq).trans (once.later v seq after)
      filled := fun leader seq answered => once.filled leader seq (same _ seq ▸ answered)
      once := fun v seq leader => (same v seq).le.trans (once.once v seq leader) }

/-- A leader may have any blocks. -/
theorem Once.leads (once : Once cfg p l) (leads : Leads cfg l.node)
    (pblocks : AList fun _ : View => List PBlock) :
    Once cfg p { l with node := { l.node with pblocks := pblocks } } :=
  { once with filled := fun other => absurd (leads.trans once.myid) other }

/-- In a later view nothing has been answered yet. -/
theorem Once.entered (once : Once cfg p l) {v : View} (later : l.node.view < v)
    (small : v < wordSize) : Once cfg p { l with node := l.node.entered cfg v } where
  myid := once.myid
  trusted := small
  verifies := once.verifies
  later := fun w seq after => once.later w seq (Nat.lt_trans later after)
  filled := fun _ seq answered => by
    have none' := once.later v seq later
    change 0 < l.history.countP (ParaEvent.answers v seq) at answered
    omega
  once := once.once

/-- Answering for an empty slot of the view, and filling it, keeps one answer for each slot. -/
theorem Once.answer (once : Once cfg p l) {l' : State} {block : PBlock}
    (myid : l'.node.myid = l.node.myid) (view : l'.node.view = l.node.view)
    (trusted : l'.node.tpara.view < wordSize)
    (verifies : l'.node.log.verifiesPara = l.node.log.verifiesPara)
    (blocks : l'.node.blocksOf l.node.view
      = (l.node.blocksOf l.node.view).set (block.seqNumber - 1) block)
    (counts : ∀ v seq, l'.history.countP (ParaEvent.answers v seq)
      = l.history.countP (ParaEvent.answers v seq)
        + if l.node.view = v ∧ block.seqNumber = seq then 1 else 0)
    (positive : 0 < block.seqNumber)
    (within : block.seqNumber ≤ (l.node.blocksOf l.node.view).length)
    (empty : (l.node.blockAt block.seqNumber).isBlock = false) : Once cfg p l' where
  myid := myid.trans once.myid
  trusted := trusted
  verifies := by rw [verifies]; exact once.verifies
  later := fun v seq after => by
    rw [view] at after
    rw [counts, once.later v seq after, if_neg (by lia)]
  filled := fun other seq answered => by
    rw [view] at other answered
    rw [counts] at answered
    unfold blockAt
    rw [view, blocks]
    -- The slot just answered holds the block; any other one holds what it held.
    by_cases same : seq = block.seqNumber
    · subst same
      rw [if_neg (by omega), List.getD_eq_getElem?_getD, List.getElem?_set_self (by omega),
        Option.getD_some]
      simpa [PBlock.isBlock] using Nat.pos_iff_ne_zero.1 positive
    · have old : 0 < l.history.countP (ParaEvent.answers l.node.view seq) := by
        rw [if_neg (by lia)] at answered
        exact answered
      have held := once.filled other seq old
      unfold blockAt at held
      split
      · rename_i zero
        rw [if_pos zero] at held
        cases held
      · rename_i nonzero
        rw [if_neg nonzero] at held
        rw [List.getD_eq_getElem?_getD, List.getElem?_set_ne (by omega),
          ← List.getD_eq_getElem?_getD]
        exact held
  once := fun v seq other => by
    rw [counts]
    split
    · rename_i here
      obtain ⟨rfl, rfl⟩ := here
      -- The slot was empty, so it had not been answered before.
      have first : l.history.countP (ParaEvent.answers l.node.view block.seqNumber) = 0 := by
        by_contra answered
        have held := once.filled other block.seqNumber (Nat.pos_of_ne_zero answered)
        rw [empty] at held
        cases held
      rw [first]
    · exact once.once v seq other

end Steps

/-- A vote for a proposal whose slot holds no block is the first one for the slot. -/
theorem Once.respond (once : Once cfg p l) {just : Just} {block : PBlock} {rd r : RDataPara}
    (view : rd.propv = l.node.view) (positive : 0 < block.seqNumber)
    (within : block.seqNumber ≤ (l.node.blocksOf l.node.view).length)
    (empty : (l.node.blockAt block.seqNumber).isBlock = false)
    (here : l.node.tpara.view = rd.propv)
    (signed : r = l.node.tpara.blockStatement block.hash rd.justh rd.justv block.seqNumber) :
    Once cfg p (answering cfg l just block r) := by
  -- The statement is about the slot of the block, in the view of the node.
  have ofView : r.propv = l.node.view := by rw [signed]; exact here.trans view
  have ofSlot : r.seqNumber = block.seqNumber := by rw [signed]; rfl
  refine once.answer rfl rfl once.trusted rfl ?_ (fun v seq => ?_) positive within empty
  · simp [answering, setBlock, visit, blocksOf]
  · unfold answering
    rw [List.countP_cons, List.countP_cons_of_neg (by simp [ParaEvent.answers])]
    simp [ParaEvent.answers, ofView, ofSlot]

/-- What such a node receives: reports and announcements of views that are counters. -/
def WordSized (msg : MsgPara) : Prop := msg.wordSized = true

omit [Hashing] in
/-- A node that signs reports and enters views answers nothing. -/
theorem Once.signing : Signing cfg (Once cfg p) WordSized True where
  note := fun {l e} once progress _ => once.event fun v seq => by
    cases e <;> first | rfl | cases progress
  begin := fun once => once.node rfl rfl once.trusted rfl rfl
  sign := fun {l} once => (once.node (h := { l.node with
      tpara := l.node.tpara.increment_node_phase }) rfl rfl
      (TrustedPara.view_increment_node_phase once.trusted) rfl rfl).event fun _ _ => rfl
  signed := fun {l} once => decide_eq_true once.trusted
  counted := fun _ once => once.trusted
  change := fun v once later => once.entered (later trivial).1 (later trivial).2

/-- Every effect of a handler keeps a node from answering twice. -/
theorem Once.closed : Closed cfg (Once cfg p) WordSized (fun _ _ => True) True False where
  still := fun once still => once.node still.myid still.view (by rw [still.tpara]; exact once.trusted)
    (by rw [still.log]) (by unfold blocksOf; rw [still.pblocks, still.view])
  looks := fun {l} v once => by
    have frame := frame_enterView l.node v
    exact once.node frame.myid frame.view (by rw [frame.tpara]; exact once.trusted)
      (by rw [frame.log]) (by rw [blocksOf_enterView, frame.view])
  visits := fun once _ => once.node rfl rfl once.trusted rfl rfl
  blocks := fun once leads filed => by
    obtain ⟨pblocks, rfl⟩ := filed.blocks_only
    exact once.leads leads pblocks
  votes := fun once voted => once.node rfl rfl once.trusted voted.same.verifiesPara rfl
  commits := fun once _ => once.node rfl rfl once.trusted rfl rfl
  storeNv := fun once _ => once.node rfl rfl once.trusted rfl rfl
  storeProp := fun once _ stored => by
    unfold LogPara.storePropPara at stored
    split at stored
    · cases stored
    · obtain ⟨-, rfl⟩ := Prod.mk.inj (Option.some.inj stored)
      exact once.node rfl rfl once.trusted rfl rfl
  storeVerify := fun {l msg} once known =>
    { once with
      verifies := fun {v m} found => by
        by_cases same : v = msg.rdata.propv
        · subst same
          obtain rfl : msg = m := by simpa [LogPara.storeVerifyPara] using found
          simpa [WordSized, MsgPara.wordSized] using known
        · exact once.verifies (by simpa [LogPara.storeVerifyPara, same] using found) }
  proposals := fun _ _ _ _ => rfl
  verifies := fun once found => by simpa [WordSized, MsgPara.wordSized] using once.verifies found
  reports := fun _ _ => trivial
  noReports := fun _ _ => trivial
  sorted := fun impossible _ => impossible.elim
  small := fun _ known => by simpa [WordSized, MsgPara.wordSized] using known
  smallVerify := fun _ known => by simpa [WordSized, MsgPara.wordSized] using known
  sendVote := fun _ once _ => { once with }
  sendCommit := fun once _ => { once with }
  sendReport := fun _ once _ => { once with }
  sendBlocks := fun _ _ once _ => { once with }
  request := fun _ _ once _ _ _ => { once.event (fun _ _ => rfl) with }
  announce := fun _ _ once _ _ _ => { once.event (fun _ _ => rfl) with }
  note := Once.signing.notes
  execute := fun {l seq} once _ _ _ _ => ((once.node (h := l.node.executing
      (l.node.log.getCommitForSeq l.node.view seq).rdata) rfl rfl once.trusted rfl rfl).event
      fun _ _ => rfl).event fun _ _ => rfl
  leaves := Once.signing.leaves
  catches := Once.signing.catches
  starts := fun held _ => Once.signing.starts held
  propose := fun {l block} just rd r once _ _ _ _ _ _ => (once.node (h := { l.node with
      tpara := l.node.tpara.increment_block_phase block.hash }) rfl rfl once.trusted rfl
      rfl).event fun _ _ => rfl
  store := fun {l just cert out tpara r} once called set _ _ _ => by
    obtain ⟨rd, -, -, -, -, -, signed⟩ := TrustedPara.TEEstore_set called set
    obtain ⟨-, rfl⟩ := Prod.mk.inj signed
    have trusted : (l.node.tpara.record rd l.node.blockAt).view < wordSize := by
      simpa using once.trusted
    exact (once.node (h := { l.node with
      tpara := (l.node.tpara.record rd l.node.blockAt).increment_block_phase rd.proph }) rfl rfl
      trusted rfl rfl).event fun _ _ => rfl
  respond := fun once _ _ view positive within empty _ _ here _ signed =>
    once.respond view positive within empty here signed
  adopts := fun {l m _} once _ _ _ _ _ _ => (once.node (h := { l.node with
      verifiedJust := Just.ofRDataPara m.rdata m.signs }) rfl rfl once.trusted rfl rfl).event
      fun _ _ => rfl
  change := fun v once later small =>
    Once.signing.change v once fun bounded => ⟨later, small bounded⟩

/-- A node answers at most one proposal for a slot of a view it does not lead, whatever it receives. -/
theorem answers_once (choices : PID → List Nat) (depth : Nat) (p : PID)
    (stimuli : List (Stimulus MsgPara Input))
    (counters : ∀ msg, Stimulus.message msg ∈ stimuli → msg.wordSized = true) (v : View) (seq : Nat)
    (other : cfg.getLeaderOf v ≠ p) :
    ((protocol cfg depth).serve stimuli ⟨init cfg choices p, [], []⟩).state.history.countP
      (ParaEvent.answers v seq) ≤ 1 := by
  have start : Once cfg p ⟨init cfg choices p, [], []⟩ :=
    { myid := rfl
      trusted := by simp [init, TrustedPara.init, wordSize]
      verifies := by simp [init, LogPara.empty]
      later := fun _ _ _ => rfl
      filled := fun _ _ answered => absurd answered (Nat.lt_irrefl 0)
      once := fun _ _ _ => Nat.zero_le _ }
  have kept : Keeps (Once cfg p) ((protocol cfg depth).serve stimuli) := by
    refine Protocol.keeps_serve fun stimulus member => ?_
    cases stimulus with
    | message msg =>
      exact Once.closed.handle_kept depth (counters msg member) fun m _ =>
        Once.closed.handleRecoverPara_kept (fun _ _ => trivial)
          (fun _ _ once => once.node rfl rfl once.trusted rfl rfl) m
    | input i => exact Once.closed.react_kept depth i
  exact (kept.state start).once v seq other

/-- The leader's first report, on which it builds view 0. -/
def firstReport : MsgNewViewPara :=
  let rd : RDataPara := ⟨Hash.ofBool false, 0, Hash.default, 0, PH1_NEWVIEW, 0⟩
  ⟨rd, [Sign.ofText 0 0 rd.toString]⟩

/-- An announcement of the first view, and two different proposals for its first slot. -/
def twoProposals : List (Stimulus MsgPara Input) :=
  let just := Just.ofRDataPara firstReport.rdata firstReport.signs
  let propose (hash : Hash) : MsgPara := .ldrPrepare ⟨⟨just, PBlock.ofTransactions hash 0 1 []⟩, []⟩
  [.message (.verify ⟨firstReport.rdata, firstReport.signs, []⟩),
    .message (propose (Hash.ofBool true)), .message (propose (Hash.ofBool false))]

omit [Hashing] in
/-- Only one of two proposals for a slot is answered. -/
theorem answers_once_twoProposals :
    let _ := Checksum.hashing
    ((protocol Schedule.fourNodes 1).serve twoProposals
      ⟨init Schedule.fourNodes (fun _ => []) 1, [], []⟩).state.history.countP
        (ParaEvent.answers 0 1) ≤ 1 := by
  intro hashing
  refine answers_once (fun _ => []) 1 1 twoProposals (fun msg member => ?_) 0 1 (by decide)
  simp only [twoProposals, List.mem_cons, Stimulus.message.injEq, List.not_mem_nil,
    or_false] at member
  rcases member with rfl | rfl | rfl <;> rfl

end HandlerPara

end ParaHotstuff
