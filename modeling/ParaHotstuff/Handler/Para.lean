import ParaHotstuff.Handler.Common
import ParaHotstuff.Log.Para
import ParaHotstuff.Trusted.Para

/-! The handlers of the parallel protocol. -/

namespace ParaHotstuff

/-- The state of a node of the parallel protocol. -/
structure HandlerPara where
  myid : PID
  view : View
  started : Bool
  timer : Bool
  transactions : List Transaction
  localSeq : Nat
  /-- The blocks of each view, slot after slot; the keys are the views ever looked up. -/
  pblocks : AList fun _ : View => List PBlock
  recoverResponses : AList fun _ : View => Nat
  lastExecutedSeq : Nat
  /-- The justification of the last VERIFY message adopted. -/
  verifiedJust : Just
  clients : Clients
  rep_queue : List (TID × CID)
  log : LogPara
  tpara : TrustedPara
  /-- What the program leaves open: random draws, and results the language does not define. -/
  choices : List Nat
  /-- The slot that was accessed outside the blocks of its view, if one was; no handler reads it. -/
  outside : Option (View × Nat) := none

/-- What a node has done, for the properties of runs; no handler reads it. -/
inductive ParaEvent where
  /-- The component signed a statement in the phase of the node. -/
  | signed (node : PID) (rdata : RDataPara)
  /-- The node sent a statement signed in the new-view phase. -/
  | newview (node : PID) (rdata : RDataPara)
  /-- The component signed a vote for a block. -/
  | voted (node : PID) (rdata : RDataPara) (block : PBlock)
  /-- The component accepted a certificate, and signed a statement about its block. -/
  | stored (node : PID) (cert : RDataPara) (signs : Signs) (rdata : RDataPara)
  /-- A certificate the component accepted came from pre-commit messages. -/
  | precommitted (node : PID) (cert : RDataPara)
  /-- The node adopted a justification, having verified one of the given view before. -/
  | adopted (node : PID) (rdata : RDataPara) (blockHashes : List Hash) (verified : View)
      (lockh : Hash) (lockv : View)
  /-- The node voted for a proposal on a justification, compared with its verified one. -/
  | answered (node : PID) (rdata : RDataPara) (just verified : Just) (lockh : Hash) (lockv : View)
  /-- A leader asked the others for blocks, on a justification. -/
  | recovering (node : PID) (rdata : RDataPara)
  /-- A leader began to propose in its view, on a justification. -/
  | prepared (node : PID) (view : View) (rdata : RDataPara)
  /-- A leader gave up a recovery, and built on the justification of the view before. -/
  | fallback (node : PID) (view : View)
  /-- The node executed a slot of a view, holding some commit messages for it. -/
  | executed (node : PID) (view : View) (rdata : RDataPara) (commits : List MsgCommitPara)
  /-- The node marked a slot as executed; the block, clients and replies it had then. -/
  | marked (node : PID) (view : View) (rdata : RDataPara) (block : PBlock) (clients : List CID)
      (queue : List (TID × CID))
  /-- The node set out from a view for the next one. -/
  | leaving (node : PID) (view : View)
deriving DecidableEq, Repr

namespace HandlerPara

open Local

abbrev State : Type := Local HandlerPara MsgPara ParaEvent

/-- A handler is a program over the node's state and the network. -/
abbrev M : Type → Type := Program State

/-- A node at its start, with what its program will leave open. -/
def init (cfg : Config) (choices : PID → List Nat) (myid : PID) : HandlerPara where
  myid := myid
  view := 0
  started := false
  timer := false
  transactions := []
  localSeq := 1
  pblocks := (∅ : AList fun _ : View => List PBlock).insert 0
    (List.replicate cfg.maxBlocksInView PBlock.default)
  recoverResponses := ∅
  lastExecutedSeq := 0
  verifiedJust := Just.defaultPara
  clients := ∅
  rep_queue := []
  log := LogPara.empty
  tpara := TrustedPara.init myid myid cfg.qsize
  choices := choices myid

section Blocks

variable (h : HandlerPara)

/-- The blocks recorded for a view. -/
def blocksOf (v : View) : List PBlock := (h.pblocks.lookup v).getD []

/-- Looking a view up in the map enters it there. -/
def enterView (v : View) : HandlerPara :=
  match h.pblocks.lookup v with
  | some _ => h
  | none => { h with pblocks := h.pblocks.insert v [] }

/-- Give a view as many slots as a view has, and keep the blocks it has there. -/
def resizeBlocks (cfg : Config) (v : View) : HandlerPara :=
  let blocks := h.blocksOf v
  let empty := List.replicate (cfg.maxBlocksInView - blocks.length) PBlock.default
  { h with pblocks := h.pblocks.insert v (blocks.take cfg.maxBlocksInView ++ empty) }

/-- Write a block into its slot of a view; slots are numbered from 1. -/
def setBlock (v : View) (block : PBlock) : HandlerPara :=
  { h with pblocks := h.pblocks.insert v ((h.blocksOf v).set (block.seqNumber - 1) block) }

/-- An access to a slot of a view, which is noted if the view does not have the slot. -/
def visit (v : View) (seq : Nat) : HandlerPara :=
  { h with
    -- Slots are numbered from 1, so slot 0 is outside of every view.
    outside := if seq = 0 || (h.blocksOf v).length < seq then some (v, seq) else h.outside }

/-- The block of a slot of the current view, as the component asks for it. -/
def blockAt (seqNumber : Nat) : PBlock :=
  -- Slot 0 wraps around to a slot that no view has.
  if seqNumber = 0 then PBlock.default
  else (h.blocksOf h.view).getD (seqNumber - 1) PBlock.default

/-- The slots up to that of a justification that hold no block. -/
def missingSeqNumbers (rdata : RDataPara) : List Nat :=
  (List.range' 1 rdata.seqNumber).filter fun i =>
    !((h.blocksOf rdata.justv).getD (i - 1) PBlock.default).isBlock

/-- The last slot of the current view up to which every slot has some commit message. -/
def findHighestSeq (seqNumber : Nat) : Nat :=
  -- The first slot without a commit message ends the search.
  ((List.range' 1 seqNumber).takeWhile fun i => h.log.hasCommitForSeq h.view i).length

end Blocks

/-- The hashes of the blocks of a view as long as each extends the one before it. -/
def chainedHashes [Hashing] : Hash → List PBlock → List Hash
  | _, [] => []
  | expectedPrevHash, block :: rest =>
    if block.isBlock && block.extends' expectedPrevHash then
      block.hash :: chainedHashes block.hash rest
    else []

/-- The hashes a leader announces for a view: the first block need not extend anything. -/
def announcedHashes [Hashing] : List PBlock → List Hash
  | [] => []
  | first :: rest =>
    -- The first slot is hashed even when it holds no block.
    (if first.isBlock then [first.hash] else []) ++ chainedHashes first.hash rest

/-- Take the next value the program leaves open. -/
def choose : M Nat := do
  let h ← this
  modify fun h => { h with choices := h.choices.tail }
  return h.choices.headD 0

/-- Compare justifications; where the source returns nothing, any result may come out. -/
def sameJust (a b : Just) : M Bool := do
  match a.eq? b with
  | some same => return same
  | none =>
    let choice ← choose
    return choice != 0

def setTimer : M Unit := modify fun h => { h with timer := true }

/-- Access a slot of a view where the source does not look how many slots there are. -/
def accessSlot (v : View) (seq : Nat) : M Unit := modify fun h => h.visit v seq

/-- An access outside the blocks of a view: what the program does from there on is undefined. -/
def strayed {α : Type} (v : View) (seq : Nat) : M α := do
  accessSlot v seq
  Program.halt

def storeNvPara (msg : MsgNewViewPara) : M Nat := do
  let h ← this
  let (count, log) := h.log.storeNvPara msg
  modify fun h => { h with log }
  return count

def storePrepPara (msg : MsgPreparePara) : M Nat := do
  let h ← this
  let (count, log) := h.log.storePrepPara msg
  modify fun h => { h with log }
  return count

def storePcPara (msg : MsgPreCommitPara) : M Nat := do
  let h ← this
  let (count, log) := h.log.storePcPara msg
  modify fun h => { h with log }
  return count

def storeComPara (msg : MsgCommitPara) : M Nat := do
  let h ← this
  let (count, log) := h.log.storeComPara msg
  modify fun h => { h with log }
  return count

def storePropPara (msg : MsgLdrPreparePara) : M Unit := do
  let h ← this
  -- Asking a proposal for round data of the other kind throws.
  let (_, log) ← Program.ofOption (h.log.storePropPara msg)
  modify fun h => { h with log }

/-- Statements of the node's phase are noted. -/
def callTEEsignPara : M Just := do
  let h ← this
  let (just, tpara) := h.tpara.TEEsign
  modify fun h => { h with tpara }
  note (.signed h.myid (just.getRDataPara.getD .default))
  return just

variable [Hashing] (cfg : Config)

/-- Votes are noted. -/
def callTEEpreparePara (block : PBlock) (j : Just) : M Just := do
  let h ← this
  let (just, tpara) ← Program.ofOption (h.tpara.TEEprepare cfg.nodes block j)
  modify fun h => { h with tpara }
  noteIf just.set (.voted h.myid (just.getRDataPara.getD .default) block)
  return just

/-- Accepted certificates are noted. -/
def callTEEstorePara (j : Just) : M Just := do
  let h ← this
  let (just, tpara) ← Program.ofOption (h.tpara.TEEstore cfg.nodes j h.blockAt)
  modify fun h => { h with tpara }
  noteIf just.set (.stored h.myid (j.getRDataPara.getD .default) j.signs
    (just.getRDataPara.getD .default))
  return just

def callTEEVerifyPara (j : Just) (blockHashes : List Hash) (checkHashes : Bool) : M Just := do
  let h ← this
  Program.ofOption (h.tpara.TEEverifyLeaderQC cfg.nodes j blockHashes checkHashes)

def amCurrentLeader : M Bool := do
  let h ← this
  return cfg.amLeaderOf h.myid h.view

/-- Whether all signatures of a justification are on its round data; the source throws on its tag. -/
def verifyJustPara (just : Just) : Option Bool :=
  match just.getRDataPara with
  | none => none
  | some rdata => some (just.signs.verify cfg.nodes rdata.toString)

/-- The last view is never left behind. -/
def maxViewsReached (h : HandlerPara) : Bool := 0 < cfg.maxViews && cfg.maxViews ≤ h.view

/-- Enter a view in the handler and in its component alike. -/
def changeView (newView : View) : M Unit := do
  modify fun h => { h with tpara := h.tpara.changeView newView, view := newView }
  modify fun h => h.resizeBlocks cfg newView
  -- Slots count from the first one again in every view.
  modify fun h => { h with lastExecutedSeq := 0 }
  setTimer

/-- Fill a block of the next slot with pending transactions. -/
def createNewBlockPara (hash : Hash) : M PBlock := do
  let h ← this
  -- The transactions leave the queue before the component is asked to sign.
  modify fun h => { h with transactions := h.transactions.drop cfg.maxNumTransactions }
  let size := min cfg.maxNumTransactions h.transactions.length
  return PBlock.ofTransactions hash size h.localSeq (cfg.fillBlock h.transactions)

/-- For leaders: propose a block for the next slot; the result is what the one after extends. -/
def proposeBlock (just : Just) (prevHash : Hash) : M Hash := do
  let block ← createNewBlockPara cfg prevHash
  modify fun h => { h with localSeq := h.localSeq + 1 }
  let justPrep ← callTEEpreparePara cfg block just
  if justPrep.set then
    modify fun h => (h.visit h.view block.seqNumber).setBlock h.view block
    let rdata ← Program.ofOption justPrep.getRDataPara
    let h ← this
    multicast_msg (.ldrPrepare ⟨⟨just, block⟩, justPrep.signs⟩)
      (cfg.remove_from_peers h.myid h.myid)
    let _ ← storePrepPara ⟨rdata, justPrep.signs⟩
    return block.hash
  -- A refused block is dropped, and its slot stays empty.
  else return prevHash

/-- Propose for a number of slots in turn. -/
def proposeBlocks (just : Just) : Nat → Hash → M Unit
  | 0, _ => return ()
  | slots + 1, prevHash => do
    let next ← proposeBlock cfg just prevHash
    proposeBlocks just slots next

/-- For leaders: propose for all slots of the view; some leaders leave out the first one. -/
def preparePara (just : Just) : M Unit := do
  let rdata ← Program.ofOption just.getRDataPara
  let h ← this
  note (.prepared h.myid h.view rdata)
  -- A faulty leader of the experiments starts with the second slot.
  let first := if ((h.myid % 4 : Nat) : Int) = cfg.byzantine then 2 else 1
  modify fun h => { h with localSeq := first }
  proposeBlocks cfg just (cfg.maxBlocksInView + 1 - first) rdata.justh

/-- For leaders: announce the justification of the view and the blocks it covers, and propose. -/
def initiateVerifyPara (just : Just) : M Unit := do
  let rdata ← Program.ofOption just.getRDataPara
  let h ← this
  -- The number of views in the map bounds the view, which enters it if it is not there yet.
  let known := rdata.justv < h.pblocks.keys.length
  let hashes := if known then announcedHashes (h.blocksOf rdata.justv) else []
  modify fun h => if known then h.enterView rdata.justv else h
  multicast_msg (.verify ⟨rdata, just.signs, hashes⟩) (cfg.remove_from_peers h.myid h.myid)
  preparePara cfg just

/-- For leaders: ask the others for missing blocks. -/
def initiateRecoverPara (missing : List Nat) (just : Just) : M Unit := do
  let rdata ← Program.ofOption just.getRDataPara
  let h ← this
  note (.recovering h.myid rdata)
  multicast_msg (.ldrRecover ⟨rdata, just.signs, missing⟩)
    (cfg.remove_from_peers h.myid h.myid)

def getMissingSeqNumbersForJust (just : Just) : M (List Nat) := do
  let rdata ← Program.ofOption just.getRDataPara
  -- Looking up the blocks enters the view in the map, even if there are none.
  modify fun h => h.enterView rdata.justv
  let h ← this
  return h.missingSeqNumbers rdata

/-- For leaders: forward the prepare votes of a slot, and store the own pre-commit. -/
def initiatePreparePara (rdata : RDataPara) : M Unit := do
  let h ← this
  let signs := h.log.getPreparePara rdata.propv cfg.qsize rdata.seqNumber
  -- What is sent on is of the prepare phase; the component gets the data of the vote.
  multicast_msg (.prepare ⟨{ rdata with phase := PH1_PREPARE }, signs⟩)
    (cfg.remove_from_peers h.myid h.myid)
  let justPcPara ← callTEEstorePara cfg (Just.ofRDataPara rdata signs)
  let rdataPc ← Program.ofOption justPcPara.getRDataPara
  -- The own vote is counted like any other, without a look at the count.
  let _ ← storePcPara ⟨rdataPc, justPcPara.signs⟩

/-- For leaders: forward the pre-commits of a slot, and store the own commit. -/
def initiatePrecommitPara (rdata : RDataPara) : M Unit := do
  let h ← this
  let signs := h.log.getPrecommitPara rdata.propv cfg.qsize rdata.seqNumber
  multicast_msg (.preCommit ⟨rdata, signs⟩) (cfg.remove_from_peers h.myid h.myid)
  let justComPara ← callTEEstorePara cfg (Just.ofRDataPara rdata signs)
  -- The event tells what the certificate was made of.
  noteIf justComPara.set (.precommitted h.myid rdata)
  let rdataCom ← Program.ofOption justComPara.getRDataPara
  let _ ← storeComPara ⟨rdataCom, justComPara.signs⟩

/-- For backups: vote for a proposed block. -/
def respondToProposalPara (justNv : Just) (block : PBlock) : M Unit := do
  let newJustPrep ← callTEEpreparePara cfg block justNv
  -- Only a block that the component votes for is stored.
  if newJustPrep.set then
    modify fun h => (h.visit h.view block.seqNumber).setBlock h.view block
    let rdata ← Program.ofOption newJustPrep.getRDataPara
    let h ← this
    note (.answered h.myid rdata justNv h.verifiedJust h.tpara.prefixLockedHash
      h.tpara.prefixLockedView)
    multicast_msg (.prepare ⟨rdata, newJustPrep.signs⟩)
      (cfg.keep_from_peers h.myid (cfg.getLeaderOf h.view))

/-- For backups: answer a prepare certificate, with the dummy justification if it was refused. -/
def respondToPrepareJustPara (justPrep : Just) : M Unit := do
  let justPc ← callTEEstorePara cfg justPrep
  let rdata ← Program.ofOption justPc.getRDataPara
  let h ← this
  multicast_msg (.preCommit ⟨rdata, justPc.signs⟩)
    (cfg.keep_from_peers h.myid (cfg.getLeaderOf h.view))

/-- For backups: answer a pre-commit certificate, likewise. -/
def respondToPreCommitJustPara (justPc : Just) : M Unit := do
  let cert ← Program.ofOption justPc.getRDataPara
  let justComPara ← callTEEstorePara cfg justPc
  let h ← this
  noteIf justComPara.set (.precommitted h.myid cert)
  let rdata ← Program.ofOption justComPara.getRDataPara
  multicast_msg (.commit ⟨rdata, justComPara.signs⟩)
    (cfg.keep_from_peers h.myid (cfg.getLeaderOf h.view))

/-- Answer the clients of the block of a slot, if it is recorded with the given hash. -/
def replyHashPara (hash : Hash) (seqNumber : Nat) : M Unit := do
  let h ← this
  accessSlot h.view seqNumber
  let pblock := h.blockAt seqNumber
  if pblock.isBlock && pblock.hash == hash then
    modify fun h =>
      { h with rep_queue := h.rep_queue ++ replyTransactions h.clients pblock.transactions }

/-- A proposal is for the backups; only a slot that holds no block yet is voted for. -/
def handleLdrPreparePara (msg : MsgLdrPreparePara) : M Unit := do
  let h ← this
  if maxViewsReached cfg h then return ()
  else
    let justNV := msg.prop.just
    let b := msg.prop.block
    let rdataNV ← Program.ofOption justNV.getRDataPara
    let verified ← Program.ofOption h.verifiedJust.getRDataPara
    let valid ← Program.ofOption (verifyJustPara cfg justNV)
    -- A proposal of an earlier view, or on bad signatures, is discarded.
    if rdataNV.propv < h.view || !valid then return ()
    else if rdataNV.propv == h.view then
      if ← sameJust justNV h.verifiedJust then
        -- A slot outside the view is an access outside the vector.
        if b.seqNumber = 0 || (h.blocksOf h.view).length < b.seqNumber then
          strayed h.view b.seqNumber
        -- A slot is voted on once: its block stays when another proposal comes.
        else if !(h.blockAt b.seqNumber).isBlock then respondToProposalPara cfg justNV b
      -- The VERIFY message of the view may still come, so the proposal waits for it.
      else if verified.justv < rdataNV.justv then storePropPara msg
    else storePropPara msg

/-- The last statement a node signs before it enters the next view. -/
def signUntil : Nat → View → M Just
  | 0, _ => Program.halt
  | rounds + 1, view => do
    let just ← callTEEsignPara
    let rdata ← Program.ofOption just.getRDataPara
    -- Statements of the view, in whatever phase, are signed and thrown away.
    if rdata.propv ≤ view then signUntil rounds view else return just

/-- How often the component signs before it is back in the view and phase where it began. -/
def signRounds : Nat := 2 * wordSize + 1

/-- For leaders: verify the highest report, or first recover the blocks it needs. -/
def verifyOrRecover (justNV : Just) (missing : List Nat) : M Unit :=
  if missing.isEmpty then initiateVerifyPara cfg justNV
  else initiateRecoverPara cfg missing justNV

/-- A leader that was left behind catches up with the view of a message. -/
def catchUp (view : View) : M Unit := do
  let h ← this
  if h.view < view then
    let _ ← callTEEsignPara
    changeView cfg view

/-- Act on the highest report, which a random draw may make a reason to recover blocks. -/
def actOnReports : M Unit := do
  let h ← this
  let justNV := h.log.findHighestNvPara h.view
  let missing ← getMissingSeqNumbersForJust justNV
  -- The draw is made even where it decides nothing.
  let chanceRecover ← choose
  if h.view == 0 then initiateVerifyPara cfg justNV
  else if missing.isEmpty && chanceRecover < cfg.forceRecover then
    let rdata ← Program.ofOption justNV.getRDataPara
    -- The recovery is forced by forgetting the blocks.
    modify fun h =>
      { h with
        pblocks := h.pblocks.insert rdata.justv
          (List.replicate cfg.maxBlocksInView PBlock.default) }
    let missing ← getMissingSeqNumbersForJust justNV
    initiateRecoverPara cfg missing justNV
  else verifyOrRecover cfg justNV missing

/-- A leader that holds a quorum of reports verifies the highest one, or recovers its blocks. -/
def handleNewViewPara (msg : MsgNewViewPara) : M Unit := do
  let h ← this
  if maxViewsReached cfg h then return ()
  -- A report is on no block, and for a view that the node leads and has not left.
  else if msg.rdata.proph.isDummy && h.view ≤ msg.rdata.propv && msg.rdata.phase == PH1_NEWVIEW
      && cfg.amLeaderOf h.myid msg.rdata.propv then
    let storedNewViews ← storeNvPara msg
    -- Only the report that completes the quorum acts; later ones are stored.
    if storedNewViews == cfg.qsize then
      catchUp cfg msg.rdata.propv
      actOnReports cfg

/-- A backup sends what it holds of the blocks asked for to the leader of its own view. -/
def handleLdrRecoverPara (msg : MsgLdrRecoverPara) : M Unit := do
  let h ← this
  if maxViewsReached cfg h then return ()
  else
    let view := msg.rdata.justv
    let known := view < h.pblocks.keys.length
    let blocks := if known then h.blocksOf view else []
    modify fun h => if known then h.enterView view else h
    -- A slot outside the view is an access outside the vector.
    if !blocks.isEmpty
        && msg.missingSeqNumbers.any (fun seq => seq == 0 || blocks.length < seq) then
      strayed view
        ((msg.missingSeqNumbers.find? fun seq => seq == 0 || blocks.length < seq).getD 0)
    else
      let blocksToSend := (msg.missingSeqNumbers.map fun seq =>
        blocks.getD (seq - 1) PBlock.default).filter PBlock.isBlock
      multicast_msg (.recover ⟨msg.rdata, msg.signs, blocksToSend⟩)
        (cfg.keep_from_peers h.myid (cfg.getLeaderOf h.view))

/-- Record recovered blocks in the empty slots of a view, until none is missing. -/
def recordBlocks (just : Just) (view : View) : List PBlock → List Nat → M (List Nat)
  | [], missing => return missing
  | block :: rest, missing => do
    let seq := block.seqNumber
    modify fun h =>
      if (h.blocksOf view).length < seq || (h.pblocks.lookup view).isNone then
        h.resizeBlocks cfg view
      else h
    let h ← this
    if seq = 0 || (h.blocksOf view).length < seq then strayed view seq
    else if !((h.blocksOf view).getD (seq - 1) PBlock.default).isBlock then
      modify fun h => h.setBlock view block
      let missing ← getMissingSeqNumbersForJust just
      -- Nothing is missing any more, and the blocks that are left are not looked at.
      if missing.isEmpty then return [] else recordBlocks just view rest missing
    else recordBlocks just view rest missing

/-- Only blocks that come with a valid justification are recorded. -/
def recordValid (valid : Bool) (just : Just) (view : View) (blocks : List PBlock)
    (missing : List Nat) : M (List Nat) :=
  if valid then recordBlocks cfg just view blocks missing else return missing

/-- A leader whose recovery failed from the first slot on builds on the view before. -/
def recoverFromVerified : M Unit := do
  let h ← this
  let verified ← Program.ofOption h.verifiedJust.getRDataPara
  -- Without a justification of the view before there is nothing to build on.
  if verified.propv == (h.view + wordSize - 1) % wordSize then
    note (.fallback h.myid h.view)
    let newRData : RDataPara := ⟨Hash.default, h.view, verified.justh, verified.justv,
      verified.phase, verified.seqNumber⟩
    multicast_msg (.verify ⟨newRData, h.verifiedJust.signs, []⟩)
      (cfg.remove_from_peers h.myid h.myid)
    preparePara cfg (Just.ofRDataPara newRData h.verifiedJust.signs)

/-- For leaders: record the blocks received, and go on once all or enough answers are there. -/
def handleRecoverPara (msg : MsgRecoverPara) : M Unit := do
  let h ← this
  if maxViewsReached cfg h then return ()
  else if !(← amCurrentLeader cfg) then return ()
  else
    let view := msg.rdata.justv
    let just := Just.ofRDataPara msg.rdata msg.signs
    let missing ← getMissingSeqNumbersForJust just
    if missing.isEmpty then return ()
    else
      modify fun h =>
        match h.recoverResponses.lookup view with
        | some _ => h
        -- The leader counts as the first one to answer.
        | none => { h with recoverResponses := h.recoverResponses.insert view 1 }
      let valid ← Program.ofOption (verifyJustPara cfg just)
      let missing ← recordValid cfg valid just view msg.blocks missing
      -- All blocks are there: the view starts on the justification that was to be recovered.
      if missing.isEmpty then initiateVerifyPara cfg just
      else
        let h ← this
        let responses := (h.recoverResponses.lookup view).getD 0 + 1
        modify fun h => { h with recoverResponses := h.recoverResponses.insert view responses }
        if cfg.qsize ≤ responses then
          -- The slots before the first missing one are all there.
          let highestContSeqNum := missing.headD 1 - 1
          if 0 < highestContSeqNum then initiateVerifyPara cfg just
          else recoverFromVerified cfg

section Entering

-- Going through earlier messages, one level further down.
variable (earlier : M Unit)

/-- Leave the view for the next one, and report the last prepared block to its leader. -/
def startNewViewPara : M Unit := do
  let h ← this
  note (.leaving h.myid h.view)
  let just ← signUntil signRounds h.view
  -- The node goes on by one view, wherever its component came to.
  changeView cfg ((h.view + 1) % wordSize)
  let rdata ← Program.ofOption just.getRDataPara
  let h ← this
  if rdata.propv == h.view && rdata.phase == PH1_NEWVIEW then
    note (.newview h.myid rdata)
    let msg : MsgNewViewPara := ⟨rdata, just.signs⟩
    if ← amCurrentLeader cfg then
      earlier
      handleNewViewPara cfg msg
    else
      multicast_msg (.newView msg) (cfg.keep_from_peers h.myid (cfg.getLeaderOf h.view))
      earlier

/-- Execute a slot; after the last slot of a view comes the next view, or the end. -/
def executeRDataPara (rdata : RDataPara) : M Unit := do
  let h ← this
  note (.executed h.myid h.view rdata (h.log.commitsPara.held (h.view, rdata.seqNumber)))
  replyHashPara rdata.proph rdata.seqNumber
  -- The slot counts as executed whether or not its block was there to answer clients.
  modify fun h => { h with lastExecutedSeq := rdata.seqNumber }
  let after ← this
  note (.marked h.myid h.view rdata (after.blockAt rdata.seqNumber) after.clients.keys
    after.rep_queue)
  if cfg.timeToStop h.view && rdata.seqNumber == cfg.maxBlocksInView then Program.halt
  else if rdata.seqNumber == cfg.maxBlocksInView then startNewViewPara cfg earlier

/-- Execute a slot if its commit message is for that slot. -/
def executeSlot (seq : Nat) (rdata : RDataPara) : M Unit :=
  if rdata.seqNumber == seq then executeRDataPara cfg earlier rdata else return ()

/-- Execute slots in turn; only a block that is there can fail to extend the one before it. -/
def executeSlots (view : View) : Nat → Nat → Hash → Bool → M Unit
  | 0, _, _, _ => return ()
  | slots + 1, seq, expectedPrevHash, prevBlockExists => do
    accessSlot view seq
    let h ← this
    let block := (h.blocksOf view).getD (seq - 1) PBlock.default
    -- A block that does not extend the one before it ends the execution.
    if block.isBlock && prevBlockExists && 1 < seq && !block.extends' expectedPrevHash then
      return ()
    else
      -- What is executed is the commit message held, whether or not the block is.
      executeSlot cfg earlier seq (h.log.getCommitForSeq view seq).rdata
      if block.isBlock then executeSlots view slots (seq + 1) block.hash true
      -- The block after a missing one is not compared with anything.
      else executeSlots view slots (seq + 1) expectedPrevHash false

omit [Hashing] in
/-- The block before the first one to execute is looked at, if there is one. -/
def accessBefore (view : View) (startSeq : Nat) : M Unit :=
  if 1 < startSeq then accessSlot view (startSeq - 1) else return ()

def executeBlocksFrom (view : View) (startSeq endSeq : Nat) : M Unit := do
  -- A slot beyond the last one is an error that is reported and ignored.
  if cfg.maxBlocksInView < startSeq || cfg.maxBlocksInView < endSeq then return ()
  else
    accessBefore view startSeq
    let h ← this
    let before := (h.blocksOf view).getD (startSeq - 2) PBlock.default
    if 1 < startSeq && before.isBlock then
      executeSlots cfg earlier view (endSeq + 1 - startSeq) startSeq before.hash true
    else
      executeSlots cfg earlier view (endSeq + 1 - startSeq) startSeq Hash.default (startSeq == 1)

/-- Execute the slots up to a given one that all have some commit message. -/
def executeUpTo (seqNumber : Nat) : M Unit := do
  let h ← this
  let highestContinuousSeq := h.findHighestSeq seqNumber
  if h.lastExecutedSeq < highestContinuousSeq then
    executeBlocksFrom cfg earlier h.view (h.lastExecutedSeq + 1) highestContinuousSeq

/-- For leaders: forward the commits of a slot, and execute as far as possible. -/
def initiateCommitPara (rdata : RDataPara) : M Unit := do
  let h ← this
  let signs := h.log.getCommitPara rdata.propv cfg.qsize rdata.seqNumber
  if signs.length == cfg.qsize then
    multicast_msg (.commit ⟨rdata, signs⟩) (cfg.remove_from_peers h.myid h.myid)
    executeUpTo cfg earlier rdata.seqNumber

/-- Adopt the justification of a view, and go through the proposals already held for it. -/
def adopt (js : Just) (blockHashes : List Hash) : M Unit := do
  if js.set then
    let h ← this
    note (.adopted h.myid (js.getRDataPara.getD .default) blockHashes
      (h.verifiedJust.getRDataPara.getD .default).propv h.tpara.prefixLockedHash
      h.tpara.prefixLockedView)
    -- From here on the proposals of the view are compared with this justification.
    modify fun h => { h with verifiedJust := js }
    earlier

/-- Whether the blocks recorded for a view have the hashes listed, as far as the list goes. -/
def hashesMatch : List PBlock → List Hash → Bool
  | _, [] => true
  | [], _ :: _ => false
  | block :: blocks, hash :: hashes =>
    block.isBlock && block.hash == hash && hashesMatch blocks hashes

/-- A node that was left behind enters the view of a message. -/
def enterLater (view : View) : M Unit := do
  let h ← this
  -- Nothing is signed on the way, so the node reports nothing for the views it skips.
  if h.view < view then changeView cfg view

/--
A VERIFY message moves a node to its view.

The listed hashes are checked only if the justification is newer than the one verified last.
-/
def handleVerifyPara (msg : MsgVerifyPara) : M Unit := do
  let h ← this
  if maxViewsReached cfg h then return ()
  else if h.view ≤ msg.rdata.propv then
    enterLater cfg msg.rdata.propv
    let h ← this
    if msg.rdata.propv == h.view then
      let verified ← Program.ofOption h.verifiedJust.getRDataPara
      let just := Just.ofRDataPara msg.rdata msg.signs
      -- The certified block is of a view after the one verified last: its hashes are checked.
      if verified.propv < msg.rdata.justv then
        modify fun h => h.enterView msg.rdata.justv
        if hashesMatch (h.blocksOf msg.rdata.justv) msg.blockHashes then
          let js ← callTEEVerifyPara cfg just msg.blockHashes true
          adopt earlier js msg.blockHashes
      else
        let js ← callTEEVerifyPara cfg just msg.blockHashes false
        adopt earlier js msg.blockHashes
    -- A node is in the view of the message by now, so this is never reached.
    else modify fun h => { h with log := h.log.storeVerifyPara msg }

def handlePreparePara (msg : MsgPreparePara) : M Unit := do
  let h ← this
  if maxViewsReached cfg h then return ()
  else if msg.rdata.propv == h.view then
    if ← amCurrentLeader cfg then
      let count ← storePrepPara msg
      -- The leader goes on with the data of the vote that completes the quorum.
      if count == cfg.qsize then initiatePreparePara cfg msg.rdata
    else
      -- A backup answers the first certificate for a slot.
      if msg.signs.length == cfg.qsize && !h.log.hasPrepForSeq h.view msg.rdata.seqNumber then
        let _ ← storePrepPara msg
        respondToPrepareJustPara cfg (Just.ofRDataPara msg.rdata msg.signs)
  else
    if h.view < msg.rdata.propv then let _ ← storePrepPara msg

def handlePrecommitPara (msg : MsgPreCommitPara) : M Unit := do
  let h ← this
  if maxViewsReached cfg h then return ()
  else if msg.rdata.propv == h.view && msg.rdata.phase == PH1_PRECOMMIT then
    if ← amCurrentLeader cfg then
      let count ← storePcPara msg
      -- Likewise for pre-commits, which must be of their phase.
      if count == cfg.qsize then initiatePrecommitPara cfg msg.rdata
    else
      if msg.signs.length == cfg.qsize && !h.log.hasPrecommitForSeq h.view msg.rdata.seqNumber
      then
        let _ ← storePcPara msg
        respondToPreCommitJustPara cfg (Just.ofRDataPara msg.rdata msg.signs)
  else
    if h.view < msg.rdata.propv then let _ ← storePcPara msg

def handleCommitPara (msg : MsgCommitPara) : M Unit := do
  let h ← this
  let valid := msg.signs.verify cfg.nodes msg.rdata.toString
  if maxViewsReached cfg h then return ()
  else if msg.rdata.propv == h.view && msg.rdata.phase == PH1_COMMIT then
    if ← amCurrentLeader cfg then
      let count ← storeComPara msg
      -- The leader counts votes without verifying them.
      if count == cfg.qsize then initiateCommitPara cfg earlier msg.rdata
    else
      -- A backup verifies the certificate, and executes what it can.
      if msg.signs.length == cfg.qsize && valid then
        let _ ← storeComPara msg
        executeUpTo cfg earlier msg.rdata.seqNumber
  else
    if h.view < msg.rdata.propv then
      -- A leader of the later view stores the message without verifying it.
      if cfg.amLeaderOf h.myid msg.rdata.propv then let _ ← storeComPara msg
      else if valid then let _ ← storeComPara msg

/-- For backups: go through what the log holds for one slot of the view. -/
def handleEarlierSlot (seqNumber : Nat) : M Unit := do
  let h ← this
  let signsPc := h.log.getPrecommitPara h.view cfg.qsize seqNumber
  if signsPc.length == cfg.qsize then
    respondToPreCommitJustPara cfg (h.log.firstPrecommitPara h.view seqNumber)
    let h ← this
    let signsCom := h.log.getCommitPara h.view cfg.qsize seqNumber
    -- The commit certificate may be there as well.
    if signsCom.length == cfg.qsize then executeUpTo cfg earlier seqNumber
  else
    let signsPrep := h.log.getPreparePara h.view cfg.qsize seqNumber
    if signsPrep.length == cfg.qsize then
      respondToPrepareJustPara cfg (h.log.firstPreparePara h.view seqNumber)
    else
      match h.log.firstProposalPara h.view seqNumber with
      -- No certificate yet: a proposal that waited is handled as if it came now.
      | some msgProp => if msgProp.signs.length == 1 then handleLdrPreparePara cfg msgProp
      | none => return ()

def handleEarlierSlots : Nat → Nat → M Unit
  | 0, _ => return ()
  | slots + 1, seqNumber => do
    handleEarlierSlot cfg earlier seqNumber
    handleEarlierSlots slots (seqNumber + 1)

end Entering

/-- Late nodes go through what they hold for a new view; the number bounds how deep they nest. -/
def handleEarlierMessagesPara : Nat → M Unit
  | 0 => Program.halt
  | depth + 1 => do
    let h ← this
    if ← amCurrentLeader cfg then
      let signsNV := h.log.getNewViewPara h.view cfg.qsize
      if signsNV.length == cfg.qsize then
        let justNV := h.log.findHighestNvPara h.view
        let missing ← getMissingSeqNumbersForJust justNV
        -- In the first view there is nothing to recover.
        if h.view == 0 then initiateVerifyPara cfg justNV
        else verifyOrRecover cfg justNV missing
    else
      let verified ← Program.ofOption h.verifiedJust.getRDataPara
      -- Proposals and votes of the view are of no use before its VERIFY message.
      if verified.propv != h.view then
        let verifyMsg := h.log.getVerifyPara h.view
        if !verifyMsg.isEmpty then
          handleVerifyPara cfg (handleEarlierMessagesPara depth) verifyMsg
      else handleEarlierSlots cfg (handleEarlierMessagesPara depth) cfg.maxBlocksInView 1

/-- The first new-view statement goes to the leader of the first view. -/
def getStarted : M Unit := do
  let just ← callTEEsignPara
  let rdata ← Program.ofOption just.getRDataPara
  let msg : MsgNewViewPara := ⟨rdata, just.signs⟩
  setTimer
  let h ← this
  noteIf (rdata.phase == PH1_NEWVIEW) (.newview h.myid rdata)
  if ← amCurrentLeader cfg then handleNewViewPara cfg msg
  else multicast_msg (.newView msg) (cfg.keep_from_peers h.myid (cfg.getLeaderOf h.view))

def handle_start (cid : CID) : M Unit := do
  let h ← this
  modify fun h =>
    match h.clients.lookup cid with
    | some _ => h
    | none => { h with clients := h.clients.insert cid ⟨true, 0, 0⟩ }
  if !h.started then
    modify fun h => { h with started := true }
    getStarted cfg

omit [Hashing] in
def handleTransaction (trans : Transaction) : M Unit := do
  let h ← this
  match acceptTransaction h.clients trans with
  | some clients =>
    modify fun h => { h with clients, transactions := h.transactions ++ [trans] }
  | none => return ()

/-- The timer acts only once it has been armed; at the last view it stops the node. -/
def handleTimeout (depth : Nat) : M Unit := do
  let h ← this
  if h.timer then
    -- At the last view the node records its statistics and stops.
    if cfg.timeToStop h.view then Program.halt
    else startNewViewPara cfg (handleEarlierMessagesPara cfg depth)

/-- Handle a message, whatever its kind. -/
def handle (depth : Nat) : MsgPara → M Unit
  | .newView msg => handleNewViewPara cfg msg
  | .ldrRecover msg => handleLdrRecoverPara cfg msg
  | .recover msg => handleRecoverPara cfg msg
  | .verify msg => handleVerifyPara cfg (handleEarlierMessagesPara cfg depth) msg
  | .ldrPrepare msg => handleLdrPreparePara cfg msg
  | .prepare msg => handlePreparePara cfg msg
  | .preCommit msg => handlePrecommitPara cfg msg
  | .commit msg => handleCommitPara cfg (handleEarlierMessagesPara cfg depth) msg

/-- React to the environment, whatever it does. -/
def react (depth : Nat) : Input → M Unit
  | .start cid => handle_start cfg cid
  | .transaction t => handleTransaction t
  | .timeout => handleTimeout cfg depth

/-- The parallel protocol, with a bound on how deep handlers nest. -/
def protocol (depth : Nat) : Protocol HandlerPara MsgPara ParaEvent Input where
  receive := handle cfg depth
  input := react cfg depth

/-- All nodes at their start, and nothing sent; there are no nodes beyond the last. -/
def initial (cfg : Config) (choices : PID → List Nat) : Net HandlerPara MsgPara ParaEvent where
  nodes := init cfg choices
  stopped := fun p => !decide (p < cfg.total)
  sent := []
  history := []

end HandlerPara

end ParaHotstuff
