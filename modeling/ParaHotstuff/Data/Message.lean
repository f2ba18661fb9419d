import ParaHotstuff.Data.Block

/-! The messages of the protocols. -/

namespace ParaHotstuff

/-- Round data with signatures on it, the shape of most messages of the basic protocol. -/
structure MsgRData where
  rdata : RData
  signs : Signs
deriving DecidableEq, Repr

/-- Messages with round data are ordered by their signatures. -/
def MsgRData.lt (a b : MsgRData) : Bool := Signs.lt a.signs b.signs

/-- Messages that are not ordered either way have the same signers. -/
theorem MsgRData.signers_of_equivalent {a b : MsgRData} (first : a.lt b = false)
    (second : b.lt a = false) : a.signs.getSigners = b.signs.getSigners :=
  Signs.getSigners_of_equivalent first second

abbrev MsgNewView := MsgRData
abbrev MsgPrepare := MsgRData
abbrev MsgPreCommit := MsgRData
abbrev MsgCommit := MsgRData

/-- A proposed block with the justification it rests on. -/
structure Proposal where
  just : Just
  block : Block
deriving DecidableEq, Repr

/-- A leader's proposal, signed as its own prepare vote. -/
structure MsgLdrPrepare where
  prop : Proposal
  signs : Signs
deriving DecidableEq, Repr

/-- Proposals are ordered by their signatures. -/
def MsgLdrPrepare.lt (a b : MsgLdrPrepare) : Bool := Signs.lt a.signs b.signs

/-- The messages of the basic protocol. -/
inductive MsgBasic where
  | newView (msg : MsgNewView)
  | ldrPrepare (msg : MsgLdrPrepare)
  | prepare (msg : MsgPrepare)
  | preCommit (msg : MsgPreCommit)
  | commit (msg : MsgCommit)
deriving DecidableEq, Repr

/-- Round data with one signature on it, the shape of votes in the chained protocol. -/
structure MsgRDataCh where
  data : RData
  sign : Sign
deriving DecidableEq, Repr

/-- Signatures are ordered by their signers, and these messages by their signatures. -/
def MsgRDataCh.lt (a b : MsgRDataCh) : Bool := a.sign.signer < b.sign.signer

abbrev MsgNewViewCh := MsgRDataCh
abbrev MsgPrepareCh := MsgRDataCh

/-- A leader's proposal of the chained protocol, with one signature. -/
structure MsgLdrPrepareCh where
  block : JBlock
  sign : Sign
deriving DecidableEq, Repr

/-- Proposals are ordered by their signatures as well. -/
def MsgLdrPrepareCh.lt (a b : MsgLdrPrepareCh) : Bool := a.sign.signer < b.sign.signer

/-- The messages of the chained protocol. -/
inductive MsgCh where
  | newView (msg : MsgNewViewCh)
  | ldrPrepare (msg : MsgLdrPrepareCh)
  | prepare (msg : MsgPrepareCh)
deriving DecidableEq, Repr

/-- Round data of the parallel protocol with signatures on it. -/
structure MsgRDataPara where
  rdata : RDataPara
  signs : Signs
deriving DecidableEq, Repr

/-- These messages are ordered by their signatures as well. -/
def MsgRDataPara.lt (a b : MsgRDataPara) : Bool := Signs.lt a.signs b.signs

/-- So those that are not ordered either way have the same signers, too. -/
theorem MsgRDataPara.signers_of_equivalent {a b : MsgRDataPara} (first : a.lt b = false)
    (second : b.lt a = false) : a.signs.getSigners = b.signs.getSigners :=
  Signs.getSigners_of_equivalent first second

abbrev MsgNewViewPara := MsgRDataPara
abbrev MsgPreparePara := MsgRDataPara
abbrev MsgPreCommitPara := MsgRDataPara
abbrev MsgCommitPara := MsgRDataPara

/-- The message the source returns where none is stored. -/
def MsgRDataPara.empty : MsgRDataPara := ⟨.default, []⟩

/-- A leader asks for the blocks of some slots, naming the justification it needs them for. -/
structure MsgLdrRecoverPara where
  rdata : RDataPara
  signs : Signs
  missingSeqNumbers : List Nat
deriving DecidableEq, Repr

/-- The answer repeats the justification and carries the blocks the sender holds. -/
structure MsgRecoverPara where
  rdata : RDataPara
  signs : Signs
  blocks : List PBlock
deriving DecidableEq, Repr

/-- A leader announces the justification of its view and the hashes of the blocks it covers. -/
structure MsgVerifyPara where
  rdata : RDataPara
  signs : Signs
  blockHashes : List Hash
deriving DecidableEq, Repr

def MsgVerifyPara.isEmpty (msg : MsgVerifyPara) : Bool := msg.blockHashes.isEmpty

/-- A proposed block of a slot with the justification its view rests on. -/
structure ParaProposal where
  just : Just
  block : PBlock
deriving DecidableEq, Repr

/-- A leader's proposal for a slot, signed as its own prepare vote. -/
structure MsgLdrPreparePara where
  prop : ParaProposal
  signs : Signs
deriving DecidableEq, Repr

/-- Proposals for slots are ordered by their signatures. -/
def MsgLdrPreparePara.lt (a b : MsgLdrPreparePara) : Bool := Signs.lt a.signs b.signs

/-- The messages of the parallel protocol. -/
inductive MsgPara where
  | newView (msg : MsgNewViewPara)
  | ldrRecover (msg : MsgLdrRecoverPara)
  | recover (msg : MsgRecoverPara)
  | verify (msg : MsgVerifyPara)
  | ldrPrepare (msg : MsgLdrPreparePara)
  | prepare (msg : MsgPreparePara)
  | preCommit (msg : MsgPreCommitPara)
  | commit (msg : MsgCommitPara)
deriving DecidableEq, Repr

end ParaHotstuff
