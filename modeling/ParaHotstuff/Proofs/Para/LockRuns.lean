import ParaHotstuff.Data.Checksum
import ParaHotstuff.Handler.Schedule
import ParaHotstuff.Proofs.Para.Effects
import ParaHotstuff.Proofs.Trusted.LeftBehind

/-! The calls that a node's component answers in a run, and when its prefix lock keeps up. -/

namespace ParaHotstuff

/-- The certificate that the component accepted in an event. -/
def ParaEvent.certificate : ParaEvent → Option RDataPara
  | stored _ cert _ _ => some cert
  | _ => none

namespace HandlerPara

open Program Local TrustedPara

variable [Hashing] {cfg : Config} {p : PID} {l : State} {calls : List PublicCall}

/--
The calls a node's component has answered so far.

They lead to its state, they accept the certificates that the node noted as accepted, and in each
call with a certificate the component looks at the blocks that the node holds for its view then.
-/
structure Answered (cfg : Config) (p : PID) (calls : List PublicCall) (l : State) : Prop where
  state : l.node.tpara = component.after (TrustedPara.init p p cfg.qsize) calls
  accepted : l.history.filterMap ParaEvent.certificate
    = ((TrustedPara.init p p cfg.qsize).certificates calls).reverse
  held : ∀ step ∈ component.steps (TrustedPara.init p p cfg.qsize) calls,
    ∀ nodes just getBlockFunc, step.2 = .store nodes just getBlockFunc →
      nodes = cfg.nodes ∧ ∃ h : HandlerPara, h.tpara = step.1 ∧ getBlockFunc = h.blockAt

/-- What does not touch the component leaves its calls, if it notes no certificate. -/
theorem Answered.same (answered : Answered cfg p calls l) {l' : State}
    (tpara : l'.node.tpara = l.node.tpara)
    (history : l'.history.filterMap ParaEvent.certificate
      = l.history.filterMap ParaEvent.certificate) : Answered cfg p calls l' where
  state := tpara.trans answered.state
  accepted := history.trans answered.accepted
  held := answered.held

/-- The component answers one more call. -/
theorem Answered.next (answered : Answered cfg p calls l) {call : PublicCall} {l' : State}
    (tpara : l'.node.tpara = component.next l.node.tpara call)
    (history : l'.history.filterMap ParaEvent.certificate
      = (l.node.tpara.certificate call).toList ++ l.history.filterMap ParaEvent.certificate)
    (held : ∀ nodes just getBlockFunc, call = .store nodes just getBlockFunc →
      nodes = cfg.nodes ∧ getBlockFunc = l.node.blockAt) :
    Answered cfg p (calls ++ [call]) l' where
  state := by
    rw [Component.after_concat, ← answered.state]
    exact tpara
  accepted := by
    have more : (TrustedPara.init p p cfg.qsize).certificates (calls ++ [call])
        = (TrustedPara.init p p cfg.qsize).certificates calls
          ++ (l.node.tpara.certificate call).toList := by
      rw [answered.state]
      exact Component.observed_concat _ _ _ _
    rw [history, answered.accepted, more, List.reverse_append]
    cases l.node.tpara.certificate call <;> rfl
  held := by
    intro step member nodes just getBlockFunc store
    rw [Component.steps_concat, List.mem_append, List.mem_singleton] at member
    rcases member with earlier | rfl
    · exact answered.held step earlier nodes just getBlockFunc store
    · obtain ⟨known, blocks⟩ := held nodes just getBlockFunc store
      exact ⟨known, l.node, answered.state, blocks⟩

/-- A vote for a block is one more call. -/
theorem Answered.vote (answered : Answered cfg p calls l) {just : Just} {rd : RDataPara}
    {block : PBlock} (tagged : just.getRDataPara = some rd)
    (verified : just.signs.verify cfg.nodes rd.toString = true)
    (here : l.node.tpara.view = rd.propv) (phase : rd.phase = PH1_NEWVIEW) {l' : State}
    (tpara : l'.node.tpara = l.node.tpara.increment_block_phase block.hash)
    (history : l'.history.filterMap ParaEvent.certificate
      = l.history.filterMap ParaEvent.certificate) :
    Answered cfg p (calls ++ [.prepare cfg.nodes block just]) l' := by
  have checks : (TEEverify cfg.nodes just.signs rd && l.node.tpara.view == rd.propv
      && rd.phase == PH1_NEWVIEW) = true := by
    simp only [Bool.and_eq_true, beq_iff_eq]
    exact ⟨⟨verified, here⟩, phase⟩
  have called : component.answer l.node.tpara (.prepare cfg.nodes block just)
      = some (l.node.tpara.signBlock block.hash rd.justh rd.justv block.seqNumber) := by
    simp only [component, TEEprepare, tagged, checks, if_true]
  have next : component.next l.node.tpara (.prepare cfg.nodes block just)
      = l.node.tpara.increment_block_phase block.hash := Component.next_of_answer called
  exact answered.next (tpara.trans next.symm) history fun _ _ _ same => by cases same

/-- Signing a report and entering a view are calls to the component. -/
theorem signing_answered : Signing cfg (fun l => ∃ calls, Answered cfg p calls l)
    (fun _ => True) False where
  note := fun {l e} ⟨calls, answered⟩ progress _ => ⟨calls, answered.same rfl (by
    cases e <;> first | rfl | cases progress)⟩
  begin := fun ⟨calls, answered⟩ => ⟨calls, answered.same rfl rfl⟩
  sign := fun ⟨calls, answered⟩ => ⟨calls ++ [.sign], answered.next rfl rfl fun _ _ _ same => by
    cases same⟩
  signed := fun _ => trivial
  counted := fun impossible _ => impossible.elim
  change := fun v ⟨calls, answered⟩ _ => ⟨calls ++ [.changeView v], answered.next rfl rfl
    fun _ _ _ same => by cases same⟩

/-- Every effect of a handler is a call to the component, or leaves the component alone. -/
theorem closed_answered : Closed cfg (fun l => ∃ calls, Answered cfg p calls l)
    (fun _ => True) (fun _ _ => True) False False where
  still := fun ⟨calls, answered⟩ still => ⟨calls, answered.same still.tpara rfl⟩
  looks := fun {l} v ⟨calls, answered⟩ => ⟨calls, answered.same (frame_enterView l.node v).tpara rfl⟩
  visits := fun ⟨calls, answered⟩ _ => ⟨calls, answered.same rfl rfl⟩
  blocks := fun ⟨calls, answered⟩ _ filed => by
    obtain ⟨pblocks, rfl⟩ := filed.blocks_only
    exact ⟨calls, answered.same rfl rfl⟩
  votes := fun ⟨calls, answered⟩ _ => ⟨calls, answered.same rfl rfl⟩
  commits := fun ⟨calls, answered⟩ _ => ⟨calls, answered.same rfl rfl⟩
  storeNv := fun ⟨calls, answered⟩ _ => ⟨calls, answered.same rfl rfl⟩
  storeProp := fun ⟨calls, answered⟩ _ _ => ⟨calls, answered.same rfl rfl⟩
  storeVerify := fun ⟨calls, answered⟩ _ => ⟨calls, answered.same rfl rfl⟩
  proposals := fun _ _ _ _ => trivial
  verifies := fun _ _ => trivial
  reports := fun _ _ => trivial
  noReports := fun _ _ => trivial
  sorted := fun impossible _ => impossible.elim
  small := fun impossible _ => impossible.elim
  smallVerify := fun impossible _ => impossible.elim
  sendVote := fun _ ⟨calls, answered⟩ _ => ⟨calls, answered.same rfl rfl⟩
  sendCommit := fun ⟨calls, answered⟩ _ => ⟨calls, answered.same rfl rfl⟩
  sendReport := fun _ ⟨calls, answered⟩ _ => ⟨calls, answered.same rfl rfl⟩
  sendBlocks := fun _ _ ⟨calls, answered⟩ _ => ⟨calls, answered.same rfl rfl⟩
  request := fun _ _ ⟨calls, answered⟩ _ _ _ => ⟨calls, answered.same rfl rfl⟩
  announce := fun _ _ ⟨calls, answered⟩ _ _ _ => ⟨calls, answered.same rfl rfl⟩
  note := signing_answered.notes
  execute := fun ⟨calls, answered⟩ _ _ _ _ => ⟨calls, answered.same rfl rfl⟩
  leaves := signing_answered.leaves
  catches := signing_answered.catches
  starts := fun held _ => signing_answered.starts held
  propose := fun ⟨calls, answered⟩ _ tagged verified here phase _ =>
    ⟨_, answered.vote tagged verified here phase rfl rfl⟩
  store := fun {l just cert out tpara r} ⟨calls, answered⟩ called set tagged _ _ => by
    have next : component.next l.node.tpara (.store cfg.nodes just l.node.blockAt) = tpara :=
      Component.next_of_answer called
    have certificate : l.node.tpara.certificate (.store cfg.nodes just l.node.blockAt)
        = some cert := by
      simp [TrustedPara.certificate, called, set, tagged]
    exact ⟨calls ++ [.store cfg.nodes just l.node.blockAt], answered.next next.symm
      (by rw [certificate]; rfl) fun _ _ _ same => by cases same; exact ⟨rfl, rfl⟩⟩
  respond := fun ⟨calls, answered⟩ _ tagged _ _ _ _ _ verified here phase _ =>
    ⟨_, answered.vote tagged verified here phase rfl rfl⟩
  adopts := fun ⟨calls, answered⟩ _ _ _ _ _ _ => ⟨calls, answered.same rfl rfl⟩
  change := fun v held later small =>
    signing_answered.change v held fun bounded => ⟨later, small bounded⟩

/--
In every run of a node, whatever happens to it, its lock keeps up after an accepted pre-commit
certificate exactly if the slot number from before does not hold it back.
-/
theorem lock_keepsUp_iff (choices : PID → List Nat) (depth : Nat) (p : PID)
    (stimuli : List (Stimulus MsgPara Input)) :
    ∃ calls, Answered cfg p calls
        ((protocol cfg depth).serve stimuli ⟨init cfg choices p, [], []⟩).state
      ∧ ∀ before just getBlockFunc rest rd,
        calls = before ++ .store cfg.nodes just getBlockFunc :: rest →
        certificate (component.after (TrustedPara.init p p cfg.qsize) before)
          (.store cfg.nodes just getBlockFunc) = some rd →
        rd.phase = PH1_PRECOMMIT →
        Counted (Certified ((TrustedPara.init p p cfg.qsize).sinceEntering
          (before ++ [.store cfg.nodes just getBlockFunc]))) →
        ((TrustedPara.init p p cfg.qsize).KeepsUp
            (before ++ [.store cfg.nodes just getBlockFunc]) getBlockFunc
          ↔ (TrustedPara.init p p cfg.qsize).NotHeldBack
            (component.after (TrustedPara.init p p cfg.qsize) before)
            (before ++ [.store cfg.nodes just getBlockFunc]) getBlockFunc) := by
  have kept : Keeps (fun l => ∃ calls, Answered cfg p calls l)
      ((protocol cfg depth).serve stimuli) := by
    refine Protocol.keeps_serve fun stimulus member => ?_
    cases stimulus with
    | message msg =>
      exact closed_answered.handle_kept depth trivial fun m _ =>
        closed_answered.handleRecoverPara_kept (fun _ _ => trivial)
          (fun _ _ ⟨calls, answered⟩ => ⟨calls, answered.same rfl rfl⟩) m
    | input i => exact closed_answered.react_kept depth i
  obtain ⟨calls, answered⟩ := kept.state (s := ⟨init cfg choices p, [], []⟩)
    ⟨[], rfl, rfl, fun step member => by cases member⟩
  exact ⟨calls, answered, fun before just getBlockFunc rest rd _ accepted precommit counted =>
    keepsUp_iff accepted precommit counted⟩

section Example

/-- A new-view statement of node 0 about a slot of view 0, on which a view is built. -/
def reportOf (view : View) (justh : Hash) (seq : Nat) : Just :=
  let rd : RDataPara := ⟨Hash.ofBool false, view, justh, 0, PH1_NEWVIEW, seq⟩
  Just.ofRDataPara rd [Sign.ofText 0 0 rd.toString]

/-- A pre-commit certificate of three nodes for a block, on the statement of its view. -/
def precommitOf (view : View) (h justh : Hash) (seq : Nat) : Just :=
  let rd : RDataPara := ⟨h, view, justh, 0, PH1_PRECOMMIT, seq⟩
  Just.ofRDataPara rd ([0, 1, 2].map fun p => Sign.ofText p p rd.toString)

/-- An empty block for a slot. -/
def emptyBlock (prevHash : Hash) (seq : Nat) : PBlock := PBlock.ofTransactions prevHash 0 seq []

/-- The two blocks of view 0, and the first one of view 1, each on the one before. -/
def blockOne : PBlock := emptyBlock Hash.default 1
def blockTwo : PBlock := emptyBlock blockOne.hash 2
def nextBlock : PBlock := emptyBlock blockTwo.hash 1

/-- An announcement of a view on a justification. -/
def verifyArrives (just : Just) (blockHashes : List Hash) : Stimulus MsgPara Input :=
  .message (.verify ⟨just.getRDataPara.getD .default, just.signs, blockHashes⟩)

/-- A proposal on a justification. -/
def proposalArrives (just : Just) (block : PBlock) : Stimulus MsgPara Input :=
  .message (.ldrPrepare ⟨⟨just, block⟩, []⟩)

/-- A certificate on its way. -/
def precommitArrives (just : Just) : Stimulus MsgPara Input :=
  .message (.preCommit ⟨just.getRDataPara.getD .default, just.signs⟩)

/--
What a backup receives: both slots of view 0 are certified, and before it executes them the
announcement of view 1 arrives, where the first slot is certified next.
-/
def announcedEarly : List (Stimulus MsgPara Input) :=
  let first := reportOf 0 Hash.default 0
  let second := reportOf 1 blockTwo.hash 2
  [verifyArrives first [], proposalArrives first blockOne, proposalArrives first blockTwo,
    precommitArrives (precommitOf 0 blockOne.hash Hash.default 1),
    precommitArrives (precommitOf 0 blockTwo.hash Hash.default 2),
    verifyArrives second [blockOne.hash, blockTwo.hash], proposalArrives second nextBlock,
    precommitArrives (precommitOf 1 nextBlock.hash blockTwo.hash 1)]

/-- The node that received all of this. -/
def announcedEarlyNode : HandlerPara :=
  ((protocol Schedule.fourNodes 4).serve announcedEarly
    ⟨init Schedule.fourNodes (fun _ => []) 3, [], []⟩).state.node

/-- The calls of its component before the last certificate. -/
def announcedEarlyCalls : List PublicCall :=
  let nodes := Schedule.fourNodes.nodes
  let blocks (i : Nat) := if i = 1 then blockOne else if i = 2 then blockTwo else PBlock.default
  let first := reportOf 0 Hash.default 0
  [.prepare nodes blockOne first, .prepare nodes blockTwo first,
    .store nodes (precommitOf 0 blockOne.hash Hash.default 1) blocks,
    .store nodes (precommitOf 0 blockTwo.hash Hash.default 2) blocks, .changeView 1,
    .prepare nodes nextBlock (reportOf 1 blockTwo.hash 2)]

omit [Hashing] in
/-- Components with the same fields and the same maps, entry by entry, are the same. -/
theorem eq_of_entries {a b : TrustedPara}
    (latest : (a.latestPreparedHash, a.latestPreparedView, a.latestPreparedSeqNumber)
      = (b.latestPreparedHash, b.latestPreparedView, b.latestPreparedSeqNumber))
    (lock : (a.prefixLockedHash, a.prefixLockedView, a.prefixLockedSeqNumber)
      = (b.prefixLockedHash, b.prefixLockedView, b.prefixLockedSeqNumber))
    (place : (a.view, a.phase, a.id, a.priv, a.qsize) = (b.view, b.phase, b.id, b.priv, b.qsize))
    (phases : a.blockPhases.entries = b.blockPhases.entries)
    (data : a.precommitData.entries = b.precommitData.entries) : a = b := by
  cases a
  cases b
  simp only [Prod.mk.injEq] at latest lock place
  simp only [TrustedPara.mk.injEq]
  exact ⟨latest.1, latest.2.1, latest.2.2, lock.1, lock.2.1, lock.2.2, place.1, place.2.1,
    AList.ext phases, AList.ext data, place.2.2⟩

omit [Hashing] in
/-- In view 1 the first slot is certified and held, but the lock stays with view 0. -/
theorem lock_left_behind :
    let _ := Checksum.hashing
    let nodes := Schedule.fourNodes.nodes
    let just := precommitOf 1 nextBlock.hash blockTwo.hash 1
    let getBlockFunc := announcedEarlyNode.blockAt
    let calls := announcedEarlyCalls ++ [.store nodes just getBlockFunc]
    let start := TrustedPara.init 3 3 Schedule.fourNodes.qsize
    announcedEarlyNode.tpara = component.after start calls
      ∧ (certificate (component.after start announcedEarlyCalls)
          (.store nodes just getBlockFunc)).map (·.phase) = some PH1_PRECOMMIT
      ∧ ¬ start.KeepsUp calls getBlockFunc := by
  intro hashing nodes just getBlockFunc calls start
  refine ⟨?_, by decide +kernel, fun keeps => ?_⟩
  · refine eq_of_entries ?_ ?_ ?_ ?_ ?_
    · decide +kernel
    · decide +kernel
    · decide +kernel
    · decide +kernel
    · decide +kernel
  · have view : (component.after start calls).view = 1 := by decide +kernel
    have one : start.sinceEntering calls = [⟨nextBlock.hash, 1, blockTwo.hash, 0,
        PH1_PRECOMMIT, 1⟩] := by decide +kernel
    have certs : ∀ rd ∈ start.certificates calls, rd.propv = 1 →
        rd.proph = nextBlock.hash := by decide +kernel
    have block : getBlockFunc 1 = nextBlock := by decide +kernel
    have locked := (keeps 1 Nat.one_pos
      { certified := fun i positive within => by
          obtain rfl : i = 1 := by omega
          rw [one]
          exact ⟨_, List.mem_singleton_self _, rfl⟩
        held := fun i positive within => by
          obtain rfl : i = 1 := by omega
          rw [block]
          rfl
        follows := fun i positive within => by omega
        hash := fun i positive within h ⟨rd, member, _, ofView, _, same⟩ => by
          obtain rfl : i = 1 := by omega
          rw [block, ← same, certs rd member (by rw [ofView, view])] }).1
    rw [view] at locked
    have stays : (component.after start calls).prefixLockedView = 0 := by decide +kernel
    rw [stays] at locked
    cases locked

end Example

end HandlerPara

end ParaHotstuff
