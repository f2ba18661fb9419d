import ParaHotstuff.Handler.Replies
import ParaHotstuff.Log.Ch
import ParaHotstuff.Trusted.Ch

/-! The handlers of the chained protocol. -/

namespace ParaHotstuff

/-- The state of a node of the chained protocol. -/
structure HandlerCh where
  myid : PID
  view : View
  started : Bool
  timer : Bool
  transactions : List Transaction
  /-- The block of each view the node took up, whether or not it voted for it. -/
  jblocks : AList fun _ : View => JBlock
  /-- The justification of the next proposal, when this node is to make it. -/
  justNV : Just
  clients : Clients
  rep_queue : List (TID × CID)
  log : LogCh
  tp : TrustedCh

/-- What a node has done, for the properties of runs; no handler reads it. -/
inductive ChEvent where
  /-- The node signed a vote for a block. -/
  | voted (node : PID) (rdata : RData) (block : JBlock)
  /-- The node executed a block. -/
  | executed (node : PID) (block : JBlock)
  /-- The node entered a view, started or not, with its component in a view and phase. -/
  | entered (node : PID) (started : Bool) (view trusted : View) (phase : Phase1)
deriving DecidableEq, Repr

namespace HandlerCh

open Local

abbrev State : Type := Local HandlerCh MsgCh ChEvent

/-- A handler is a program over the node's state and the network. -/
abbrev M : Type → Type := Program State

/-- The next view, as a 32-bit counter, and the one before. -/
def nextView (v : View) : View := (v + 1) % wordSize
def prevView (v : View) : View := (v + wordSize - 1) % wordSize

variable [Hashing] [SignatureBytes] (cfg : Config)

/-- A node at its start. -/
def init (myid : PID) : HandlerCh where
  myid := myid
  view := 0
  started := false
  timer := false
  transactions := []
  jblocks := ∅
  justNV := Just.default
  clients := ∅
  rep_queue := []
  log := LogCh.empty
  tp := TrustedCh.init myid myid cfg.qsize

omit [Hashing] [SignatureBytes] in
def setTimer : M Unit := modify fun h => { h with timer := true }

omit [Hashing] [SignatureBytes] in
/-- Note the view that was just entered. -/
def noteView : M Unit := do
  let h ← this
  note (.entered h.myid h.started h.view h.tp.view h.tp.phase)

omit [Hashing] [SignatureBytes] in
/-- Noting the view changes the history only. -/
@[simp] theorem gives_noteView {post : Unit → State → Prop} {stop : State → Prop} {l : State} :
    noteView.Gives post stop l ↔ post () { l with
      history := .entered l.node.myid l.node.started l.node.view l.node.tp.view l.node.tp.phase
        :: l.history } := Iff.rfl

omit [Hashing] [SignatureBytes] in
def storeNvCh (msg : MsgNewViewCh) : M Nat := do
  let h ← this
  let (count, log) := h.log.storeNvCh msg
  modify fun h => { h with log }
  return count

omit [Hashing] [SignatureBytes] in
def storePrepCh (msg : MsgPrepareCh) : M Nat := do
  let h ← this
  let (count, log) := h.log.storePrepCh msg
  modify fun h => { h with log }
  return count

omit [Hashing] [SignatureBytes] in
def storeLdrPrepCh (msg : MsgLdrPrepareCh) : M Unit :=
  modify fun h => { h with log := (h.log.storeLdrPrepCh msg).2 }

omit [Hashing] [SignatureBytes] in
/-- Fill a block with pending transactions, on the justification held. -/
def createNewBlockCh : M JBlock := do
  let h ← this
  -- The transactions leave the queue before anyone votes.
  modify fun h => { h with transactions := h.transactions.drop cfg.maxNumTransactions }
  let size := min cfg.maxNumTransactions h.transactions.length
  return JBlock.ofTransactions h.view h.justNV size (cfg.fillBlock h.transactions)

omit [Hashing] [SignatureBytes] in
def callTEEsignCh : M Just := do
  let h ← this
  let (just, tp) := h.tp.TEEsign
  modify fun h => { h with tp }
  return just

def callTEEprepareCh (block block0 block1 : JBlock) : M Just := do
  let h ← this
  let (just, tp) ← Program.ofOption (h.tp.TEEprepare cfg.nodes block block0 block1)
  modify fun h => { h with tp }
  return just

/-- The statement a proposal carries a signature on. -/
def ldrPrepareCh2just (msg : MsgLdrPrepareCh) : Just :=
  Just.ofRData ⟨msg.block.hash, msg.block.view, Hash.default, 0, PH1_PREPARE⟩ [msg.sign]

/--
Go from a view down through the certificates of blocks that are not executed yet.

The result lists the blocks passed, the oldest first; it is empty if a block is missing. The
source does not return if it comes back to a view, which is when more rounds would be needed
than there are blocks.
-/
def blocksToExec (jblocks : AList fun _ : View => JBlock) :
    Nat → View → List JBlock → Option (List JBlock)
  | 0, _, _ => none
  | rounds + 1, view2, blocks =>
    match jblocks.lookup view2 with
    | some block2 =>
      if !block2.executed then
        -- The source has a comparison with the certified hash here, which it skips.
        if view2 == 0 then some (block2 :: blocks)
        else blocksToExec jblocks rounds block2.just.getCView (block2 :: blocks)
      -- An executed block ends the walk, and what was passed is executed.
      else some blocks
    | none => some []

omit [Hashing] [SignatureBytes] in
/-- Execute a block: mark it under its own view, and answer the clients. -/
def executeCh (block : JBlock) : M Unit := do
  let h ← this
  note (.executed h.myid block)
  modify fun h =>
    { h with
      jblocks := h.jblocks.insert block.view block.markExecuted
      rep_queue := h.rep_queue ++ replyTransactions h.clients block.transactions }

omit [Hashing] [SignatureBytes] in
/-- Execute blocks one after the other. -/
def executeAllCh : List JBlock → M Unit
  | [] => return ()
  | block :: blocks => do
    executeCh block
    executeAllCh blocks

omit [Hashing] [SignatureBytes] in
/-- Execute the block that the third of three certificates is for, and all before it. -/
def tryExecuteCh (_block block0 block1 : JBlock) : M Unit := do
  let h ← this
  -- Genesis carries no certificate to execute on.
  if block0.view != 0 then
    let blocks ← Program.ofOption
      (blocksToExec h.jblocks (h.jblocks.keys.length + 1) block1.just.getCView [])
    executeAllCh blocks

section

-- Voting for a block may lead to the next view, and to votes there.
variable (voteCh : JBlock → M Unit)

omit [Hashing] [SignatureBytes] in
/-- Take the highest new-view statement received, unless a certificate of the last view is held. -/
def selectJustCh : M Unit := do
  let h ← this
  let rdata ← Program.ofOption h.justNV.getRData
  -- A certificate of an older view than the last is replaced as well.
  if !h.justNV.set || rdata.propv != prevView h.view then
    modify fun h => { h with justNV := h.log.findHighestNvCh (prevView h.view) }

omit [Hashing] [SignatureBytes] in
/-- For leaders: begin a view with a proposal. -/
def prepareCh : M Unit := do
  selectJustCh
  let block ← createNewBlockCh cfg
  voteCh block

omit [Hashing] [SignatureBytes] in
/-- For leaders of the next view: begin it with a certificate if there are enough votes. -/
def checkNewJustCh (data : RData) : M Unit := do
  let h ← this
  let signs := h.log.getPrepareCh data.propv cfg.qsize
  if signs.length == cfg.qsize then
    -- The leader moves on with the certificate of its own view.
    modify fun h => { h with justNV := Just.ofRData data signs, view := nextView h.view }
    noteView
    setTimer
    prepareCh cfg voteCh

omit [Hashing] [SignatureBytes] in
/-- Vote for the stored proposal of the current view, unless a block was taken up already. -/
def handleEarlierMessagesCh : M Unit := do
  let h ← this
  if cfg.amLeaderOf h.myid h.view then return ()
  else
    match h.log.firstLdrPrepareCh h.view with
    | some msg =>
      if msg.sign.set && (h.jblocks.lookup h.view).isNone then voteCh msg.block
    | none => return ()

omit [Hashing] [SignatureBytes] in
/-- Hand a new-view statement to the leader of the next view. -/
def passNvCh (msgNv : MsgNewViewCh) : M Unit := do
  let h ← this
  if cfg.amLeaderOf h.myid (nextView h.view) then
    -- The leader of the next view keeps its own report, without a look at the count.
    let _ ← storeNvCh msgNv
  else
    multicast_msg (.newView msgNv)
      (cfg.keep_from_peers h.myid (cfg.getLeaderOf (nextView h.view)))

omit [Hashing] [SignatureBytes] in
/-- Send a vote out: as a proposal from the leader, to the leader of the next view from others. -/
def passPrepCh (block : JBlock) (rdata : RData) (sigPrep : Sign) : M Unit := do
  let h ← this
  if cfg.amLeaderOf h.myid h.view then
    multicast_msg (.ldrPrepare ⟨block, sigPrep⟩) (cfg.remove_from_peers h.myid h.myid)
  else
    if cfg.amLeaderOf h.myid (nextView h.view) then
      -- A backup that leads the next view collects the votes, its own among them.
      let _ ← storePrepCh ⟨rdata, sigPrep⟩
    else
      multicast_msg (.prepare ⟨rdata, sigPrep⟩)
        (cfg.keep_from_peers h.myid (cfg.getLeaderOf (nextView h.view)))

omit [Hashing] [SignatureBytes] in
/-- Leave the view after a vote; the leader of the next view waits for enough votes. -/
def leaveViewCh (rdata : RData) : M Unit := do
  let h ← this
  -- It stays in its view as long as the votes are not enough.
  if cfg.amLeaderOf h.myid (nextView h.view) then checkNewJustCh cfg voteCh rdata
  else
    modify fun h => { h with view := nextView h.view }
    noteView
    setTimer
    handleEarlierMessagesCh cfg voteCh

end

/-- Vote for a block; the number bounds how deep views are entered from within each other. -/
def voteCh : Nat → JBlock → M Unit
  | 0, _ => Program.halt
  | depth + 1, block => do
    -- The block is kept before anything about it is checked.
    modify fun h => { h with jblocks := h.jblocks.insert h.view block }
    let h ← this
    match h.jblocks.lookup block.just.getCView with
    | some block0 =>
      match h.jblocks.lookup block0.just.getCView with
      | some block1 =>
        let justPrep ← callTEEprepareCh cfg block block0 block1
        -- The new-view statement is signed even if the vote was refused.
        let justNv2 ← callTEEsignCh
        match justPrep.signs with
        -- One signature is a vote; a refused one has none, and nothing else happens.
        | [sigPrep] =>
          let rdata ← Program.ofOption justPrep.getRData
          note (.voted h.myid rdata block)
          passPrepCh cfg block rdata sigPrep
          match justNv2.signs with
          | [sigNv] =>
            let rdataNv ← Program.ofOption justNv2.getRData
            passNvCh cfg ⟨rdataNv, sigNv⟩
            -- The vote is out before anything is executed on the certificates it rests on.
            tryExecuteCh block block0 block1
            leaveViewCh cfg (voteCh depth) rdata
          | _ => return ()
        | _ => return ()
      | none => return ()
    | none => return ()

omit [Hashing] [SignatureBytes] in
/-- Sign until the statement is a new-view statement of the current view or a later one. -/
def signUntilCh : Nat → View → M Just
  | 0, _ => Program.halt
  | rounds + 1, view => do
    let justNv ← callTEEsignCh
    let rdata ← Program.ofOption justNv.getRData
    -- Votes and earlier statements are signed and thrown away.
    if rdata.propv < view || rdata.phase != PH1_NEWVIEW then signUntilCh rounds view
    else return justNv

/-- Enter the next view. -/
def startNewViewCh (depth : Nat) : M Unit := do
  let h ← this
  -- The component signs twice in each view, so these rounds reach the current view.
  let justNv ← signUntilCh (2 * (h.view - h.tp.view) + 2) h.view
  match justNv.signs with
  | [sigNv] =>
    let rdata ← Program.ofOption justNv.getRData
    passNvCh cfg ⟨rdata, sigNv⟩
    modify fun h => { h with view := nextView h.view }
    noteView
    setTimer
    let h ← this
    if cfg.amLeaderOf h.myid h.view then return ()
    else handleEarlierMessagesCh cfg (voteCh cfg depth)
  | _ => return ()

omit [Hashing] [SignatureBytes] in
/-- Whether the last view has been reached. -/
def maxViewsReached (view : View) : Bool := 0 < cfg.maxViews && cfg.maxViews ≤ view

def handleNewviewCh (depth : Nat) (msg : MsgNewViewCh) : M Unit := do
  let h ← this
  if maxViewsReached cfg h.view then return ()
  else
    let viewP := nextView msg.data.propv
    if msg.data.proph.isDummy && h.view ≤ viewP && msg.data.phase == PH1_NEWVIEW
        && cfg.amLeaderOf h.myid viewP then
      -- A report of the view before the node's own; one for a later view is only stored.
      if viewP == h.view then
        let count ← storeNvCh msg
        -- With a quorum the leader proposes, unless it has its block.
        if cfg.qsize ≤ count && (h.jblocks.lookup h.view).isNone then
          prepareCh cfg (voteCh cfg depth)
        else
          -- Storing it again changes nothing.
          let _ ← storeNvCh msg
      else
        let _ ← storeNvCh msg

omit [Hashing] [SignatureBytes] in
/-- The leader of the next view counts a proposal as the vote of the one who made it. -/
def keepPrepCh (v : View) (msg : MsgPrepareCh) : M Unit := do
  let h ← this
  if cfg.amLeaderOf h.myid (nextView v) then
    let _ ← storePrepCh msg

def handleLdrPrepareCh (depth : Nat) (msg : MsgLdrPrepareCh) : M Unit := do
  let h ← this
  if maxViewsReached cfg h.view then return ()
  else
    let v := msg.block.view
    let just := ldrPrepareCh2just msg
    if h.view ≤ v && !cfg.amLeaderOf h.myid v
        && just.signs.verify cfg.nodes just.rdata.toString then
      -- The proposal is verified; its mark and its justification are taken as they come.
      keepPrepCh cfg v ⟨just.rdata, msg.sign⟩
      -- A block that is held for the view already is replaced.
      if v == h.view then voteCh cfg depth msg.block
      else
        storeLdrPrepCh msg
        handleEarlierMessagesCh cfg (voteCh cfg depth)

def handlePrepareCh (depth : Nat) (msg : MsgPrepareCh) : M Unit := do
  let h ← this
  if maxViewsReached cfg h.view then return ()
  else
    let v := msg.data.propv
    if v == h.view then
      if cfg.amLeaderOf h.myid (nextView v) then
        let count ← storePrepCh msg
        -- The leader of the next view does not go on before it has voted itself.
        if cfg.qsize ≤ count && (h.jblocks.lookup h.view).isSome then
          checkNewJustCh cfg (voteCh cfg depth) msg.data
    else
      if h.view < v then
        let _ ← storePrepCh msg

/-- The first statement goes to the leader of view 1, where voting begins. -/
def getStarted (depth : Nat) : M Unit := do
  let just ← callTEEsignCh
  let rdata ← Program.ofOption just.getRData
  let sign := just.signs.headD ⟨false, 0, .blank⟩
  let msg : MsgNewViewCh := ⟨rdata, sign⟩
  let h ← this
  let nextRecipients := cfg.keep_from_peers h.myid (cfg.getLeaderOf (nextView h.view))
  -- Genesis is the block of view 0, in which nobody votes.
  modify fun h => { h with view := 1, jblocks := h.jblocks.insert 0 JBlock.default }
  noteView
  if cfg.amLeaderOf h.myid 1 then handleNewviewCh cfg depth msg
  else
    multicast_msg (.newView msg) nextRecipients
    handleEarlierMessagesCh cfg (voteCh cfg depth)

def handle_start (depth : Nat) (cid : CID) : M Unit := do
  modify fun h =>
    match h.clients.lookup cid with
    | some _ => h
    | none => { h with clients := h.clients.insert cid ⟨true, 0, 0⟩ }
  let h ← this
  if !h.started then
    modify fun h => { h with started := true }
    getStarted cfg depth

omit [Hashing] [SignatureBytes] in
def handleTransaction (trans : Transaction) : M Unit := do
  let h ← this
  match acceptTransaction h.clients trans with
  | some clients =>
    modify fun h => { h with clients, transactions := h.transactions ++ [trans] }
  | none => return ()

/-- The timer acts only once it has been armed; at the last view it stops the node. -/
def handleTimeout (depth : Nat) : M Unit := do
  let h ← this
  if h.timer then
    -- At the last view the node records its statistics and stops.
    if cfg.timeToStop h.view then Program.halt
    else startNewViewCh cfg depth

/-- The chained protocol, with a bound on how deep views are entered from within each other. -/
def protocol (depth : Nat) : Protocol HandlerCh MsgCh ChEvent Input where
  receive
    | .newView msg => handleNewviewCh cfg depth msg
    | .ldrPrepare msg => handleLdrPrepareCh cfg depth msg
    | .prepare msg => handlePrepareCh cfg depth msg
  input
    | .start cid => handle_start cfg depth cid
    | .transaction t => handleTransaction t
    | .timeout => handleTimeout cfg depth

/-- All nodes at their start, and nothing sent; there are no nodes beyond the last. -/
def initial : Net HandlerCh MsgCh ChEvent where
  nodes := init cfg
  stopped := fun p => !decide (p < cfg.total)
  sent := []
  history := []

/-- A node of the chained protocol as one that answers clients. -/
def replica (depth : Nat) : Replica HandlerCh MsgCh ChEvent where
  protocol := protocol cfg depth
  clients := clients
  rep_queue := rep_queue
  answering := fun h clients rep_queue => { h with clients, rep_queue }

end HandlerCh

end ParaHotstuff
