import ParaHotstuff.Wire.Data

/-! How messages are laid out on the wire. -/

namespace ParaHotstuff

namespace Wire

open Sizes

variable [Scalars] [Sizes]

/-- A client transaction with the signature of the client. -/
structure MsgTransaction where
  trans : Transaction
  sign : Sign
deriving DecidableEq, Repr

namespace MsgTransaction

def serialize (msg : MsgTransaction) : Text := msg.trans.serialize ++ msg.sign.serialize

def unserialize : Reader MsgTransaction := do
  let trans ← Transaction.unserialize
  let sign ← Sign.unserialize
  return ⟨trans, sign⟩

structure Fits (msg : MsgTransaction) : Prop where
  trans : msg.trans.Fits
  sign : msg.sign.Fits

end MsgTransaction

/-- A client asks the nodes to start. -/
structure MsgStart where
  cid : CID
  sign : Sign
deriving DecidableEq, Repr

namespace MsgStart

def serialize (msg : MsgStart) : Text := putUnsigned msg.cid ++ msg.sign.serialize

def unserialize : Reader MsgStart := do
  let cid ← getUnsigned
  let sign ← Sign.unserialize
  return ⟨cid, sign⟩

structure Fits (msg : MsgStart) : Prop where
  cid : msg.cid < wordSize
  sign : msg.sign.Fits

end MsgStart

/-- The number of the transaction that a node has executed. -/
structure MsgReply where
  reply : Nat
deriving DecidableEq, Repr

namespace MsgReply

def serialize (msg : MsgReply) : Text := putUnsigned msg.reply

def unserialize : Reader MsgReply := return ⟨← getUnsigned⟩

def Fits (msg : MsgReply) : Prop := msg.reply < wordSize

end MsgReply

/-- Round data with signatures on it. -/
structure MsgRData where
  rdata : RData
  signs : Signs
deriving DecidableEq, Repr

namespace MsgRData

def serialize (msg : MsgRData) : Text := msg.rdata.serialize ++ msg.signs.serialize

def unserialize : Reader MsgRData := do
  let rdata ← RData.unserialize
  let signs ← Signs.unserialize
  return ⟨rdata, signs⟩

structure Fits (msg : MsgRData) : Prop where
  rdata : msg.rdata.Fits
  signs : msg.signs.Fits

end MsgRData

abbrev MsgNewView := MsgRData
abbrev MsgPrepare := MsgRData
abbrev MsgPreCommit := MsgRData
abbrev MsgCommit := MsgRData

/-- A leader's proposal of the basic protocol. -/
structure MsgLdrPrepare where
  prop : Proposal
  signs : Signs
deriving DecidableEq, Repr

namespace MsgLdrPrepare

def serialize (msg : MsgLdrPrepare) : Text := msg.prop.serialize ++ msg.signs.serialize

def unserialize : Reader MsgLdrPrepare := do
  let prop ← Proposal.unserialize
  let signs ← Signs.unserialize
  return ⟨prop, signs⟩

structure Fits (msg : MsgLdrPrepare) : Prop where
  prop : msg.prop.Fits
  signs : msg.signs.Fits

end MsgLdrPrepare

/-- Round data with one signature, the votes of the chained protocol. -/
structure MsgRDataCh where
  data : RData
  sign : Sign
deriving DecidableEq, Repr

namespace MsgRDataCh

def serialize (msg : MsgRDataCh) : Text := msg.data.serialize ++ msg.sign.serialize

def unserialize : Reader MsgRDataCh := do
  let data ← RData.unserialize
  let sign ← Sign.unserialize
  return ⟨data, sign⟩

structure Fits (msg : MsgRDataCh) : Prop where
  data : msg.data.Fits
  sign : msg.sign.Fits

end MsgRDataCh

abbrev MsgNewViewCh := MsgRDataCh
abbrev MsgPrepareCh := MsgRDataCh

/-- A leader's proposal of the chained protocol. -/
structure MsgLdrPrepareCh where
  block : JBlock
  sign : Sign
deriving DecidableEq, Repr

namespace MsgLdrPrepareCh

def serialize (msg : MsgLdrPrepareCh) : Text := msg.block.serialize ++ msg.sign.serialize

def unserialize : Reader MsgLdrPrepareCh := do
  let block ← JBlock.unserialize
  let sign ← Sign.unserialize
  return ⟨block, sign⟩

structure Fits (msg : MsgLdrPrepareCh) : Prop where
  block : msg.block.Fits
  sign : msg.sign.Fits

end MsgLdrPrepareCh

/-- Round data of the parallel protocol with signatures on it. -/
structure MsgRDataPara where
  rdata : RDataPara
  signs : Signs
deriving DecidableEq, Repr

namespace MsgRDataPara

def serialize (msg : MsgRDataPara) : Text := msg.rdata.serialize ++ msg.signs.serialize

def unserialize : Reader MsgRDataPara := do
  let rdata ← RDataPara.unserialize
  let signs ← Signs.unserialize
  return ⟨rdata, signs⟩

structure Fits (msg : MsgRDataPara) : Prop where
  rdata : msg.rdata.Fits
  signs : msg.signs.Fits

end MsgRDataPara

abbrev MsgNewViewPara := MsgRDataPara
abbrev MsgPreparePara := MsgRDataPara
abbrev MsgPreCommitPara := MsgRDataPara
abbrev MsgCommitPara := MsgRDataPara

/-- The blocks a node holds; their number takes four bytes. -/
structure MsgRecoverPara where
  rdata : RDataPara
  signs : Signs
  blocks : List PBlock
deriving DecidableEq, Repr

namespace MsgRecoverPara

def serialize (msg : MsgRecoverPara) : Text :=
  msg.rdata.serialize ++ msg.signs.serialize ++ putUnsigned msg.blocks.length
    ++ msg.blocks.flatMap PBlock.serialize

def unserialize : Reader MsgRecoverPara := do
  let rdata ← RDataPara.unserialize
  let signs ← Signs.unserialize
  let size ← getUnsigned
  let blocks ← Reader.times PBlock.unserialize size
  return ⟨rdata, signs, blocks.1⟩

structure Fits (msg : MsgRecoverPara) : Prop where
  rdata : msg.rdata.Fits
  signs : msg.signs.Fits
  size : msg.blocks.length < wordSize
  blocks : ∀ block ∈ msg.blocks, block.Fits

end MsgRecoverPara

/-- The slots a leader asks the blocks of; their number takes four bytes. -/
structure MsgLdrRecoverPara where
  rdata : RDataPara
  signs : Signs
  missingSeqNumbers : List Nat
deriving DecidableEq, Repr

namespace MsgLdrRecoverPara

def serialize (msg : MsgLdrRecoverPara) : Text :=
  msg.rdata.serialize ++ msg.signs.serialize ++ putUnsigned msg.missingSeqNumbers.length
    ++ msg.missingSeqNumbers.flatMap putUnsigned

def unserialize : Reader MsgLdrRecoverPara := do
  let rdata ← RDataPara.unserialize
  let signs ← Signs.unserialize
  let size ← getUnsigned
  let missingSeqNumbers ← Reader.times getUnsigned size
  return ⟨rdata, signs, missingSeqNumbers.1⟩

structure Fits (msg : MsgLdrRecoverPara) : Prop where
  rdata : msg.rdata.Fits
  signs : msg.signs.Fits
  size : msg.missingSeqNumbers.length < wordSize
  missingSeqNumbers : ∀ seq ∈ msg.missingSeqNumbers, seq < wordSize

end MsgLdrRecoverPara

/-- The hashes a leader announces; their number takes eight bytes. -/
structure MsgVerifyPara where
  rdata : RDataPara
  signs : Signs
  blockHashes : List Hash
deriving DecidableEq, Repr

namespace MsgVerifyPara

def serialize (msg : MsgVerifyPara) : Text :=
  msg.rdata.serialize ++ msg.signs.serialize ++ Scalars.put 8 msg.blockHashes.length
    ++ msg.blockHashes.flatMap Hash.serialize

def unserialize : Reader MsgVerifyPara := do
  let rdata ← RDataPara.unserialize
  let signs ← Signs.unserialize
  let size ← Scalars.get 8
  let blockHashes ← Reader.times Hash.unserialize size
  return ⟨rdata, signs, blockHashes.1⟩

structure Fits (msg : MsgVerifyPara) : Prop where
  rdata : msg.rdata.Fits
  signs : msg.signs.Fits
  size : msg.blockHashes.length < 2 ^ 64

end MsgVerifyPara

/-- A leader's proposal for a slot. -/
structure MsgLdrPreparePara where
  prop : ParaProposal
  signs : Signs
deriving DecidableEq, Repr

namespace MsgLdrPreparePara

def serialize (msg : MsgLdrPreparePara) : Text := msg.prop.serialize ++ msg.signs.serialize

def unserialize : Reader MsgLdrPreparePara := do
  let prop ← ParaProposal.unserialize
  let signs ← Signs.unserialize
  return ⟨prop, signs⟩

structure Fits (msg : MsgLdrPreparePara) : Prop where
  prop : msg.prop.Fits
  signs : msg.signs.Fits

end MsgLdrPreparePara

/-- The messages of all protocols and of the clients. -/
inductive Msg where
  | transaction (msg : MsgTransaction)
  | start (msg : MsgStart)
  | reply (msg : MsgReply)
  | newView (msg : MsgNewView)
  | ldrPrepare (msg : MsgLdrPrepare)
  | prepare (msg : MsgPrepare)
  | preCommit (msg : MsgPreCommit)
  | commit (msg : MsgCommit)
  | newViewCh (msg : MsgNewViewCh)
  | ldrPrepareCh (msg : MsgLdrPrepareCh)
  | prepareCh (msg : MsgPrepareCh)
  | newViewPara (msg : MsgNewViewPara)
  | recoverPara (msg : MsgRecoverPara)
  | ldrRecoverPara (msg : MsgLdrRecoverPara)
  | verifyPara (msg : MsgVerifyPara)
  | ldrPreparePara (msg : MsgLdrPreparePara)
  | preparePara (msg : MsgPreparePara)
  | preCommitPara (msg : MsgPreCommitPara)
  | commitPara (msg : MsgCommitPara)
deriving DecidableEq, Repr

def HDR_NEWVIEW : UInt8 := 0x00
def HDR_PREPARE : UInt8 := 0x01
def HDR_PREPARE_LDR : UInt8 := 0x02
def HDR_PRECOMMIT : UInt8 := 0x03
def HDR_COMMIT : UInt8 := 0x04
def HDR_NEWVIEW_PARA : UInt8 := 0x05
def HDR_RECOVER_PARA : UInt8 := 0x06
def HDR_VERIFY_PARA : UInt8 := 0x07
def HDR_PREPARE_PARA : UInt8 := 0x08
def HDR_PREPARE_LDR_PARA : UInt8 := 0x09
def HDR_PRECOMMIT_PARA : UInt8 := 0x10
def HDR_COMMIT_PARA : UInt8 := 0x11
def HDR_RECOVER_LDR_PARA : UInt8 := 0x12
def HDR_TRANSACTION : UInt8 := 0x18
def HDR_REPLY : UInt8 := 0x19
def HDR_START : UInt8 := 0x20
def HDR_NEWVIEW_CH : UInt8 := 0x21
def HDR_PREPARE_LDR_CH : UInt8 := 0x22
def HDR_PREPARE_CH : UInt8 := 0x23

namespace Msg

/-- The code of a message's kind, which goes ahead of the message. -/
def opcode : Msg → UInt8
  | transaction _ => HDR_TRANSACTION
  | start _ => HDR_START
  | reply _ => HDR_REPLY
  | newView _ => HDR_NEWVIEW
  | ldrPrepare _ => HDR_PREPARE_LDR
  | prepare _ => HDR_PREPARE
  | preCommit _ => HDR_PRECOMMIT
  | commit _ => HDR_COMMIT
  | newViewCh _ => HDR_NEWVIEW_CH
  | ldrPrepareCh _ => HDR_PREPARE_LDR_CH
  | prepareCh _ => HDR_PREPARE_CH
  | newViewPara _ => HDR_NEWVIEW_PARA
  | recoverPara _ => HDR_RECOVER_PARA
  | ldrRecoverPara _ => HDR_RECOVER_LDR_PARA
  | verifyPara _ => HDR_VERIFY_PARA
  | ldrPreparePara _ => HDR_PREPARE_LDR_PARA
  | preparePara _ => HDR_PREPARE_PARA
  | preCommitPara _ => HDR_PRECOMMIT_PARA
  | commitPara _ => HDR_COMMIT_PARA

def serialize : Msg → Text
  | transaction msg => msg.serialize
  | start msg => msg.serialize
  | reply msg => msg.serialize
  | newView msg => msg.serialize
  | ldrPrepare msg => msg.serialize
  | prepare msg => msg.serialize
  | preCommit msg => msg.serialize
  | commit msg => msg.serialize
  | newViewCh msg => msg.serialize
  | ldrPrepareCh msg => msg.serialize
  | prepareCh msg => msg.serialize
  | newViewPara msg => msg.serialize
  | recoverPara msg => msg.serialize
  | ldrRecoverPara msg => msg.serialize
  | verifyPara msg => msg.serialize
  | ldrPreparePara msg => msg.serialize
  | preparePara msg => msg.serialize
  | preCommitPara msg => msg.serialize
  | commitPara msg => msg.serialize

/-- How a message is constructed from a stream, by the code of its kind. -/
def unserialize (opcode : UInt8) : Reader Msg :=
  if opcode == HDR_TRANSACTION then do return transaction (← MsgTransaction.unserialize)
  else if opcode == HDR_START then do return start (← MsgStart.unserialize)
  else if opcode == HDR_REPLY then do return reply (← MsgReply.unserialize)
  else if opcode == HDR_NEWVIEW then do return newView (← MsgRData.unserialize)
  else if opcode == HDR_PREPARE_LDR then do return ldrPrepare (← MsgLdrPrepare.unserialize)
  else if opcode == HDR_PREPARE then do return prepare (← MsgRData.unserialize)
  else if opcode == HDR_PRECOMMIT then do return preCommit (← MsgRData.unserialize)
  else if opcode == HDR_COMMIT then do return commit (← MsgRData.unserialize)
  else if opcode == HDR_NEWVIEW_CH then do return newViewCh (← MsgRDataCh.unserialize)
  else if opcode == HDR_PREPARE_LDR_CH then do
    return ldrPrepareCh (← MsgLdrPrepareCh.unserialize)
  else if opcode == HDR_PREPARE_CH then do return prepareCh (← MsgRDataCh.unserialize)
  else if opcode == HDR_NEWVIEW_PARA then do return newViewPara (← MsgRDataPara.unserialize)
  else if opcode == HDR_RECOVER_PARA then do return recoverPara (← MsgRecoverPara.unserialize)
  else if opcode == HDR_RECOVER_LDR_PARA then do
    return ldrRecoverPara (← MsgLdrRecoverPara.unserialize)
  else if opcode == HDR_VERIFY_PARA then do return verifyPara (← MsgVerifyPara.unserialize)
  else if opcode == HDR_PREPARE_LDR_PARA then do
    return ldrPreparePara (← MsgLdrPreparePara.unserialize)
  else if opcode == HDR_PREPARE_PARA then do return preparePara (← MsgRDataPara.unserialize)
  else if opcode == HDR_PRECOMMIT_PARA then do return preCommitPara (← MsgRDataPara.unserialize)
  else if opcode == HDR_COMMIT_PARA then do return commitPara (← MsgRDataPara.unserialize)
  else failure

/-- Sizes and tags are valid: every array is full and every number fits its width. -/
def Fits : Msg → Prop
  | transaction msg => msg.Fits
  | start msg => msg.Fits
  | reply msg => msg.Fits
  | newView msg => msg.Fits
  | ldrPrepare msg => msg.Fits
  | prepare msg => msg.Fits
  | preCommit msg => msg.Fits
  | commit msg => msg.Fits
  | newViewCh msg => msg.Fits
  | ldrPrepareCh msg => msg.Fits
  | prepareCh msg => msg.Fits
  | newViewPara msg => msg.Fits
  | recoverPara msg => msg.Fits
  | ldrRecoverPara msg => msg.Fits
  | verifyPara msg => msg.Fits
  | ldrPreparePara msg => msg.Fits
  | preparePara msg => msg.Fits
  | preCommitPara msg => msg.Fits
  | commitPara msg => msg.Fits

end Msg

end Wire

end ParaHotstuff
