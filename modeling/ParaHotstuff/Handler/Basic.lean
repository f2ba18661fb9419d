import ParaHotstuff.Handler.Replies
import ParaHotstuff.Log.Basic
import ParaHotstuff.Trusted.Fun

/-! The handlers of the basic protocol. -/

namespace ParaHotstuff

/-- The state of a node of the basic protocol. -/
structure Handler where
  myid : PID
  view : View
  started : Bool
  /-- Whether the timer has been armed; it rearms itself whenever it runs out. -/
  timer : Bool
  transactions : List Transaction
  blocks : AList fun _ : View => Block
  clients : Clients
  rep_queue : List (TID × CID)
  log : Log
  tf : TrustedFun

/-- What a node has done, for the properties of runs; no handler reads it. -/
inductive BasicEvent where
  /-- The node sent a statement signed in the new-view phase. -/
  | newview (node : PID) (rdata : RData)
  /-- The node signed a vote for a block while its component held a lock. -/
  | voted (node : PID) (rdata : RData) (block : Block) (lockh : Hash) (lockv : View)
  /-- The component of the node accepted a certificate. -/
  | stored (node : PID) (rdata : RData)
  /-- The node executed a block in a view. -/
  | executed (node : PID) (view : View) (rdata : RData)
  /-- The node entered a view with a statement that is no new-view statement for it. -/
  | wrong (node : PID) (view : View) (rdata : RData)
deriving DecidableEq, Repr

/-- The node that did what an event notes. -/
def BasicEvent.actor : BasicEvent → PID
  | newview p _ | voted p _ _ _ _ | stored p _ | executed p _ _ | wrong p _ _ => p

namespace Handler

open Local

abbrev State : Type := Local Handler MsgBasic BasicEvent

/-- A handler is a program over the node's state and the network. -/
abbrev M : Type → Type := Program State

/-- A node at its start. -/
def init (cfg : Config) (myid : PID) : Handler where
  myid := myid
  view := 0
  started := false
  timer := false
  transactions := []
  blocks := ∅
  clients := ∅
  rep_queue := []
  log := Log.empty
  tf := TrustedFun.init myid myid cfg.qsize

def setTimer : M Unit := modify fun h => { h with timer := true }

def callTEEsign : M Just := do
  let h ← this
  let (just, tf) := h.tf.TEEsign
  modify fun h => { h with tf }
  return just

variable [Hashing] (cfg : Config)

def callTEEprepare (hash : Hash) (j : Just) : M Just := do
  let h ← this
  let (just, tf) ← Program.ofOption (h.tf.TEEprepare cfg.nodes hash j)
  modify fun h => { h with tf }
  return just

/-- Accepted certificates are noted. -/
def callTEEstore (j : Just) : M Just := do
  let h ← this
  let (just, tf) ← Program.ofOption (h.tf.TEEstore cfg.nodes j)
  modify fun h => { h with tf }
  if just.set then note (.stored h.myid j.rdata)
  return just

/-- Keep the block voted for in the current view, and note the vote. -/
def keepBlock (block : Block) (rdata : RData) : M Unit := do
  let h ← this
  modify fun h => { h with blocks := h.blocks.insert h.view block }
  note (.voted h.myid rdata block h.tf.lockh h.tf.lockv)

def storePrep (msg : MsgPrepare) : M Nat := do
  let h ← this
  let (count, log) := h.log.storePrep msg
  modify fun h => { h with log }
  return count

def storePc (msg : MsgPreCommit) : M Nat := do
  let h ← this
  let (count, log) := h.log.storePc msg
  modify fun h => { h with log }
  return count

def storeCom (msg : MsgCommit) : M Nat := do
  let h ← this
  let (count, log) := h.log.storeCom msg
  modify fun h => { h with log }
  return count

def storeNv (msg : MsgNewView) : M Nat := do
  let h ← this
  let (count, log) := h.log.storeNv msg
  modify fun h => { h with log }
  return count

def storeProp (msg : MsgLdrPrepare) : M Unit := do
  let h ← this
  let (_, log) ← Program.ofOption (h.log.storeProp msg)
  modify fun h => { h with log }

def amCurrentLeader : M Bool := do
  let h ← this
  return cfg.amLeaderOf h.myid h.view

/-- Whether all signatures of a justification are on its round data. -/
def verifyJust (rdata : RData) (signs : Signs) : Bool := signs.verify cfg.nodes rdata.toString

/-- Fill a block with pending transactions. -/
def createNewBlock (hash : Hash) : M Block := do
  let h ← this
  -- The transactions leave the queue before the component is asked to sign.
  modify fun h => { h with transactions := h.transactions.drop cfg.maxNumTransactions }
  let size := min cfg.maxNumTransactions h.transactions.length
  return Block.ofTransactions hash size (cfg.fillBlock h.transactions)

/-- Answer the clients of the block of the current view, if it has the given hash. -/
def replyHash (hash : Hash) : M Unit := do
  let h ← this
  match h.blocks.lookup h.view with
  | some block =>
    if block.hash == hash then
      modify fun h =>
        { h with rep_queue := h.rep_queue ++ replyTransactions h.clients block.transactions }
  | none => return ()

section

-- Executing a block enters the next view, which may execute further blocks.
variable (startNewView : M Unit)

def executeRData (rdata : RData) : M Unit := do
  let h ← this
  note (.executed h.myid h.view rdata)
  replyHash rdata.proph
  -- At the last view no other one is entered.
  if cfg.timeToStop h.view then return ()
  else startNewView

/-- For leaders: bundle the commits, send them out, and execute. -/
def initiateCommit (rdata : RData) : M Unit := do
  let h ← this
  let signs := h.log.getCommit rdata.propv cfg.qsize
  if signs.length == cfg.qsize then
    multicast_msg (.commit ⟨rdata, signs⟩) (cfg.remove_from_peers h.myid h.myid)
    executeRData cfg startNewView rdata

/-- For leaders: bundle the pre-commits, send them out, and store the own commit. -/
def initiatePrecommit (rdata : RData) : M Unit := do
  let h ← this
  let signs := h.log.getPrecommit rdata.propv cfg.qsize
  if signs.length == cfg.qsize then
    multicast_msg (.preCommit ⟨rdata, signs⟩) (cfg.remove_from_peers h.myid h.myid)
    let justCom ← callTEEstore cfg (Just.ofRData rdata signs)
    let rdataCom ← Program.ofOption justCom.getRData
    let count ← storeCom ⟨rdataCom, justCom.signs⟩
    -- With a quorum of one the own commit is enough.
    if cfg.qsize ≤ count then initiateCommit cfg startNewView rdataCom

/-- For leaders: bundle the prepare votes, send them out, and store the own pre-commit. -/
def initiatePrepare (rdata : RData) : M Unit := do
  let h ← this
  let signs := h.log.getPrepare rdata.propv cfg.qsize
  if signs.length == cfg.qsize then
    multicast_msg (.prepare ⟨rdata, signs⟩) (cfg.remove_from_peers h.myid h.myid)
    let justPc ← callTEEstore cfg (Just.ofRData rdata signs)
    let rdataPc ← Program.ofOption justPc.getRData
    let count ← storePc ⟨rdataPc, justPc.signs⟩
    -- The own pre-commit may complete the quorum, and the next phase begins at once.
    if cfg.qsize ≤ count then initiatePrecommit cfg startNewView rdataPc

/-- For leaders: propose a block that extends the highest prepared block. -/
def prepare : M Unit := do
  let h ← this
  let justNV := h.log.findHighestNv h.view
  let rdataNV ← Program.ofOption justNV.getRData
  let block ← createNewBlock cfg rdataNV.justh
  -- A refused block is dropped with the transactions it took.
  let justPrep ← callTEEprepare cfg block.hash justNV
  if justPrep.set then
    let rdata ← Program.ofOption justPrep.getRData
    keepBlock block rdata
    multicast_msg (.ldrPrepare ⟨⟨justNV, block⟩, justPrep.signs⟩)
      (cfg.remove_from_peers h.myid h.myid)
    let count ← storePrep ⟨rdata, justPrep.signs⟩
    if cfg.qsize ≤ count then initiatePrepare cfg startNewView rdata

/-- Vote for a proposed block. -/
def respondToProposal (justNv : Just) (block : Block) : M Unit := do
  -- Only a block that the component votes for is kept.
  let newJustPrep ← callTEEprepare cfg block.hash justNv
  if newJustPrep.set then
    let rdata ← Program.ofOption newJustPrep.getRData
    keepBlock block rdata
    let h ← this
    multicast_msg (.prepare ⟨rdata, newJustPrep.signs⟩)
      (cfg.keep_from_peers h.myid (cfg.getLeaderOf h.view))

/-- For backups: answer a prepare certificate, with the dummy justification if it was refused. -/
def respondToPrepareJust (justPrep : Just) : M Unit := do
  let justPc ← callTEEstore cfg justPrep
  let rdata ← Program.ofOption justPc.getRData
  let h ← this
  multicast_msg (.preCommit ⟨rdata, justPc.signs⟩)
    (cfg.keep_from_peers h.myid (cfg.getLeaderOf h.view))

/-- For backups: answer a pre-commit certificate, likewise. -/
def respondToPreCommitJust (justPc : Just) : M Unit := do
  let justCom ← callTEEstore cfg justPc
  let rdata ← Program.ofOption justCom.getRData
  let h ← this
  multicast_msg (.commit ⟨rdata, justCom.signs⟩)
    (cfg.keep_from_peers h.myid (cfg.getLeaderOf h.view))

/-- Late nodes go through what they already hold for the new view. -/
def handleEarlierMessages : M Unit := do
  let h ← this
  if ← amCurrentLeader cfg then
    let signsNV := h.log.getNewView h.view cfg.qsize
    -- A leader that comes late may hold its quorum of reports already.
    if signsNV.length == cfg.qsize then prepare cfg startNewView
  else
    -- A pre-commit certificate stands for the previous steps, whose statements are skipped.
    let signsPc := h.log.getPrecommit h.view cfg.qsize
    if signsPc.length == cfg.qsize then
      let justPc := h.log.firstPrecommit h.view
      let _ ← callTEEsign
      let _ ← callTEEsign
      respondToPreCommitJust cfg justPc
      let h ← this
      let signsCom := h.log.getCommit h.view cfg.qsize
      if signsCom.length == cfg.qsize then
        -- The commit certificate is there as well, and was verified when it came.
        let rdata ← Program.ofOption (h.log.firstCommit h.view).getRData
        executeRData cfg startNewView rdata
    else
      let signsPrep := h.log.getPrepare h.view cfg.qsize
      if signsPrep.length == cfg.qsize then
        let justPrep := h.log.firstPrepare h.view
        let _ ← callTEEsign
        -- Its component answers as if it had voted for the proposal.
        respondToPrepareJust cfg justPrep
      else
        match h.log.firstProposal h.view with
        | some msgProp =>
          -- No certificate yet: the proposal that waited is voted for, if it carries one signature.
          if msgProp.signs.length == 1 then
            respondToProposal cfg msgProp.prop.just msgProp.prop.block
        | none => return ()

def handleNewview (msg : MsgNewView) : M Unit := do
  let h ← this
  if msg.rdata.proph.isDummy && h.view ≤ msg.rdata.propv && msg.rdata.phase == PH1_NEWVIEW
      && cfg.amLeaderOf h.myid msg.rdata.propv then
    let count ← storeNv msg
    -- Only the report that completes the quorum acts, and only in the view of the report.
    if count == cfg.qsize && msg.rdata.propv == h.view then prepare cfg startNewView

def handleLdrPrepare (msg : MsgLdrPrepare) : M Unit := do
  let h ← this
  let rdataNV ← Program.ofOption msg.prop.just.getRData
  let b := msg.prop.block
  -- The leader's own vote is rebuilt from the proposal.
  let rdataLdrPrep : RData :=
    ⟨b.hash, rdataNV.propv, rdataNV.justh, rdataNV.justv, PH1_PREPARE⟩
  if h.view ≤ rdataNV.propv && verifyJust cfg rdataLdrPrep msg.signs
      && b.extends' rdataNV.justh then
    -- A proposal of a later view waits in the log.
    if rdataNV.propv == h.view then respondToProposal cfg msg.prop.just b
    else storeProp msg

def handlePrepare (msg : MsgPrepare) : M Unit := do
  let h ← this
  if msg.rdata.propv == h.view then
    if ← amCurrentLeader cfg then
      let count ← storePrep msg
      -- The leader goes on with the data of the vote that completes the quorum.
      if count == cfg.qsize then initiatePrepare cfg startNewView msg.rdata
    else
      if msg.signs.length == cfg.qsize then
        respondToPrepareJust cfg (Just.ofRData msg.rdata msg.signs)
  else
    -- Votes and certificates of later views wait in the log, those of earlier ones are discarded.
    if h.view < msg.rdata.propv then let _ ← storePrep msg

def handlePrecommit (msg : MsgPreCommit) : M Unit := do
  let h ← this
  if msg.rdata.propv == h.view && msg.rdata.phase == PH1_PRECOMMIT then
    if ← amCurrentLeader cfg then
      let count ← storePc msg
      -- Likewise for pre-commits, which must be of their phase.
      if count == cfg.qsize then initiatePrecommit cfg startNewView msg.rdata
    else
      if msg.signs.length == cfg.qsize then
        respondToPreCommitJust cfg (Just.ofRData msg.rdata msg.signs)
  else
    if h.view < msg.rdata.propv then let _ ← storePc msg

def handleCommit (msg : MsgCommit) : M Unit := do
  let h ← this
  if msg.rdata.propv == h.view && msg.rdata.phase == PH1_COMMIT then
    if ← amCurrentLeader cfg then
      let count ← storeCom msg
      -- The leader counts votes without verifying them.
      if count == cfg.qsize then initiateCommit cfg startNewView msg.rdata
    else
      -- A backup executes on a certificate that it has verified itself.
      if msg.signs.length == cfg.qsize && verifyJust cfg msg.rdata msg.signs then
        executeRData cfg startNewView msg.rdata
  else
    if h.view < msg.rdata.propv then
      -- A leader of the later view leaves the verification to the component.
      if cfg.amLeaderOf h.myid msg.rdata.propv then let _ ← storeCom msg
      else if verifyJust cfg msg.rdata msg.signs then let _ ← storeCom msg

end

/-- Sign until the statement is for a later view; the number of rounds bounds the loop. -/
def signUntil : Nat → View → M Just
  | 0, _ => Program.halt
  | rounds + 1, view => do
    let just ← callTEEsign
    let rdata ← Program.ofOption just.getRData
    if rdata.propv ≤ view then signUntil rounds view else return just

/-- Enter the next view; the number bounds how deep views are entered from within each other. -/
def startNewView : Nat → M Unit
  | 0 => Program.halt
  | depth + 1 => do
    let h ← this
    let just ← signUntil (depth + 1) h.view
    -- The view changes before the statement that was signed is looked at.
    modify fun h => { h with view := (h.view + 1) % wordSize }
    setTimer
    let rdata ← Program.ofOption just.getRData
    let h ← this
    if rdata.propv == h.view && rdata.phase == PH1_NEWVIEW then
      note (.newview h.myid rdata)
      let msg : MsgNewView := ⟨rdata, just.signs⟩
      if ← amCurrentLeader cfg then
        handleEarlierMessages cfg (startNewView depth)
        -- The leader hands its own report to itself, after what it held already.
        handleNewview cfg (startNewView depth) msg
      else
        multicast_msg (.newView msg) (cfg.keep_from_peers h.myid (cfg.getLeaderOf h.view))
        handleEarlierMessages cfg (startNewView depth)
    -- Something wrong happened: the source does nothing here.
    else note (.wrong h.myid h.view rdata)

/-- The first new-view statement goes to the leader of the first view. -/
def getStarted (depth : Nat) : M Unit := do
  let just ← callTEEsign
  let rdata ← Program.ofOption just.getRData
  let msg : MsgNewView := ⟨rdata, just.signs⟩
  let h ← this
  if rdata.phase == PH1_NEWVIEW then note (.newview h.myid rdata)
  if ← amCurrentLeader cfg then handleNewview cfg (startNewView cfg depth) msg
  else multicast_msg (.newView msg) (cfg.keep_from_peers h.myid (cfg.getLeaderOf h.view))

def handle_start (depth : Nat) (cid : CID) : M Unit := do
  let h ← this
  if (h.clients.lookup cid).isNone then
    modify fun h => { h with clients := h.clients.insert cid ⟨true, 0, 0⟩ }
  if !h.started then
    modify fun h => { h with started := true }
    getStarted cfg depth

def handleTransaction (trans : Transaction) : M Unit := do
  let h ← this
  match acceptTransaction h.clients trans with
  | some clients =>
    modify fun h => { h with clients, transactions := h.transactions ++ [trans] }
  | none => return ()

/-- The timer acts only once it has been armed; at the last view it stops the node. -/
def handleTimeout (depth : Nat) : M Unit := do
  let h ← this
  if h.timer then
    -- At the last view the node records its statistics and stops.
    if cfg.timeToStop h.view then Program.halt
    else startNewView cfg depth

/-- The basic protocol, with a bound on how deep handlers enter views from within each other. -/
def protocol (depth : Nat) : Protocol Handler MsgBasic BasicEvent Input where
  receive
    | .newView msg => handleNewview cfg (startNewView cfg depth) msg
    | .ldrPrepare msg => handleLdrPrepare cfg msg
    | .prepare msg => handlePrepare cfg (startNewView cfg depth) msg
    | .preCommit msg => handlePrecommit cfg (startNewView cfg depth) msg
    | .commit msg => handleCommit cfg (startNewView cfg depth) msg
  input
    | .start cid => handle_start cfg depth cid
    | .transaction t => handleTransaction t
    | .timeout => handleTimeout cfg depth

/-- All nodes at their start, and nothing sent; there are no nodes beyond the last. -/
def initial : Net Handler MsgBasic BasicEvent where
  nodes := init cfg
  stopped := fun p => !decide (p < cfg.total)
  sent := []
  history := []

/-- The nodes of the basic protocol as they answer their clients. -/
def replica (depth : Nat) : Replica Handler MsgBasic BasicEvent where
  protocol := protocol cfg depth
  clients := Handler.clients
  rep_queue := Handler.rep_queue
  answering := fun h clients rep_queue => { h with clients, rep_queue }

end Handler

end ParaHotstuff
