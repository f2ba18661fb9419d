import ParaHotstuff.Lib.Stream
import ParaHotstuff.Data.Block

/-! How the data of messages is laid out on the wire, with all its arrays at their full size. -/

namespace ParaHotstuff

/-- The sizes that are fixed when the program is compiled. -/
class Sizes where
  MAX_NUM_SIGNATURES : Nat
  MAX_NUM_TRANSACTIONS : Nat
  PAYLOAD_SIZE : Nat
  SIGN_LEN : Nat

open Sizes

section Numbers

variable [Scalars]

def putBool (b : Bool) : Text := Scalars.put 1 (if b then 1 else 0)
def getBool : Reader Bool := return (← Scalars.get 1) != 0

def putByte (byte : UInt8) : Text := Scalars.put 1 byte.toNat
def getByte : Reader UInt8 := return UInt8.ofNat (← Scalars.get 1)

/-- Unsigned and signed integers take four bytes each. -/
def putUnsigned (n : Nat) : Text := Scalars.put 4 n
def getUnsigned : Reader Nat := Scalars.get 4

end Numbers

variable [Scalars]

namespace Hash

def serialize (h : Hash) : Text := h.hash.bytes.flatMap putByte ++ putBool h.set

def unserialize : Reader Hash := do
  let hash ← Reader.times getByte 32
  let set ← getBool
  return ⟨⟨hash.1, hash.2⟩, set⟩

end Hash

namespace RData

def serialize (r : RData) : Text :=
  r.proph.serialize ++ putUnsigned r.propv ++ r.justh.serialize ++ putUnsigned r.justv
    ++ putByte r.phase

def unserialize : Reader RData := do
  let proph ← Hash.unserialize
  let propv ← getUnsigned
  let justh ← Hash.unserialize
  let justv ← getUnsigned
  let phase ← getByte
  return ⟨proph, propv, justh, justv, phase⟩

/-- Views are 32-bit numbers. -/
structure Fits (r : RData) : Prop where
  propv : r.propv < wordSize
  justv : r.justv < wordSize

end RData

namespace RDataPara

def serialize (r : RDataPara) : Text :=
  r.proph.serialize ++ putUnsigned r.propv ++ r.justh.serialize ++ putUnsigned r.justv
    ++ putByte r.phase ++ putUnsigned r.seqNumber

def unserialize : Reader RDataPara := do
  let proph ← Hash.unserialize
  let propv ← getUnsigned
  let justh ← Hash.unserialize
  let justv ← getUnsigned
  let phase ← getByte
  let seqNumber ← getUnsigned
  return ⟨proph, propv, justh, justv, phase, seqNumber⟩

/-- Views and slot numbers are 32-bit numbers. -/
structure Fits (r : RDataPara) : Prop where
  propv : r.propv < wordSize
  justv : r.justv < wordSize
  seqNumber : r.seqNumber < wordSize

end RDataPara

namespace Transaction

variable [Sizes]

def serialize (t : Transaction) : Text :=
  putUnsigned t.clientid ++ putUnsigned t.transid ++ t.data.flatMap putByte

def unserialize : Reader Transaction := do
  let clientid ← getUnsigned
  let transid ← getUnsigned
  let data ← Reader.times getByte PAYLOAD_SIZE
  return ⟨clientid, transid, data.1⟩

/-- Ids are 32-bit numbers and the payload has its fixed size. -/
structure Fits (t : Transaction) : Prop where
  clientid : t.clientid < wordSize
  transid : t.transid < wordSize
  data : t.data.length = PAYLOAD_SIZE

end Transaction

/-- The array of transactions of a block is full, whatever the size of the block says. -/
structure FitTransactions [Sizes] (size : Nat) (transactions : List Transaction) : Prop where
  size : size < wordSize
  full : transactions.length = MAX_NUM_TRANSACTIONS
  each : ∀ t ∈ transactions, t.Fits

namespace Block

variable [Sizes]

def serialize (b : Block) : Text :=
  putBool b.set ++ b.prevHash.serialize ++ putUnsigned b.size
    ++ b.transactions.flatMap Transaction.serialize

def unserialize : Reader Block := do
  let set ← getBool
  let prevHash ← Hash.unserialize
  let size ← getUnsigned
  let transactions ← Reader.times Transaction.unserialize MAX_NUM_TRANSACTIONS
  return ⟨set, prevHash, size, transactions.1⟩

def Fits (b : Block) : Prop := FitTransactions b.size b.transactions

end Block

namespace PBlock

variable [Sizes]

def serialize (b : PBlock) : Text :=
  putBool b.set ++ b.prevHash.serialize ++ putUnsigned b.size ++ putUnsigned b.seqNumber
    ++ b.transactions.flatMap Transaction.serialize

def unserialize : Reader PBlock := do
  let set ← getBool
  let prevHash ← Hash.unserialize
  let size ← getUnsigned
  let seqNumber ← getUnsigned
  let transactions ← Reader.times Transaction.unserialize MAX_NUM_TRANSACTIONS
  return ⟨set, prevHash, size, seqNumber, transactions.1⟩

structure Fits (b : PBlock) : Prop where
  seqNumber : b.seqNumber < wordSize
  transactions : FitTransactions b.size b.transactions

end PBlock

namespace Wire

variable [Sizes]

/-- A signature as an array of bytes. -/
structure Sign where
  set : Bool
  signer : PID
  sign : Text
deriving DecidableEq, Repr

namespace Sign

def serialize (s : Sign) : Text :=
  putBool s.set ++ putUnsigned s.signer ++ s.sign.flatMap putByte

def unserialize : Reader Sign := do
  let set ← getBool
  let signer ← getUnsigned
  let sign ← Reader.times getByte SIGN_LEN
  return ⟨set, signer, sign.1⟩

/-- Signatures are compared by their mark, their signer and all their bytes. -/
def eq (a b : Sign) : Bool := a.set == b.set && a.signer == b.signer && a.sign == b.sign

/-- The signer is a 32-bit number and the array has its fixed size. -/
structure Fits (s : Sign) : Prop where
  signer : s.signer < wordSize
  sign : s.sign.length = SIGN_LEN

end Sign

/-- An array of signatures, of which the first are in use. -/
structure Signs where
  size : Nat
  signs : List Sign
deriving DecidableEq, Repr

namespace Signs

def serialize (s : Signs) : Text := putUnsigned s.size ++ s.signs.flatMap Sign.serialize

def unserialize : Reader Signs := do
  let size ← getUnsigned
  let signs ← Reader.times Sign.unserialize MAX_NUM_SIGNATURES
  return ⟨size, signs.1⟩

/-- The signatures in use; the array may be shorter than the number says. -/
def used (s : Signs) : List Sign := s.signs.take s.size

/-- Only the signatures in use are compared. -/
def eq (a b : Signs) : Bool :=
  a.size == b.size && (a.used.zip b.used).all fun pair => pair.1.eq pair.2

/-- The array is full, whatever the number of signatures in use. -/
structure Fits (s : Signs) : Prop where
  size : s.size < wordSize
  full : s.signs.length = MAX_NUM_SIGNATURES
  each : ∀ sign ∈ s.signs, sign.Fits

end Signs

/-- The tag of a justification and the member of the union that the tag selects. -/
inductive Tagged where
  | RData (rdata : RData)
  | RDataPara (rdataPara : RDataPara)
  /-- Any other tag selects no member. -/
  | other (type : Nat)
deriving DecidableEq, Repr

namespace Tagged

/-- The tag of each member is its place in the enumeration. -/
def type : Tagged → Nat
  | .RData _ => 0
  | .RDataPara _ => 1
  | .other type => type

/-- Only the member that the tag selects is written. -/
def serialize : Tagged → Text
  | .RData rdata => rdata.serialize
  | .RDataPara rdataPara => rdataPara.serialize
  | .other _ => []

/-- The tag read before says which member to read. -/
def unserialize (type : Nat) : Reader Tagged :=
  if type == 0 then do return .RData (← RData.unserialize)
  else if type == 1 then do return .RDataPara (← RDataPara.unserialize)
  else return .other type

/-- The tag is one of the two that there are. -/
def Fits : Tagged → Prop
  | .RData rdata => rdata.Fits
  | .RDataPara rdataPara => rdataPara.Fits
  | .other _ => False

end Tagged

/-- A justification with its array of signatures. -/
structure Just where
  set : Bool
  data : Tagged
  signs : Signs
deriving DecidableEq, Repr

namespace Just

def serialize (j : Just) : Text :=
  putBool j.set ++ putUnsigned j.data.type ++ j.data.serialize ++ j.signs.serialize

def unserialize : Reader Just := do
  let set ← getBool
  let type ← getUnsigned
  let data ← Tagged.unserialize type
  let signs ← Signs.unserialize
  return ⟨set, data, signs⟩

/--
Equality of justifications, as far as the source defines it.

Without a result stands the path that compares signatures, finds them different and returns
nothing.
-/
def eq? (a b : Just) : Option Bool :=
  if a.set != b.set then some false
  else if a.data.type != b.data.type then some false
  else if a.signs.eq b.signs then
    match a.data, b.data with
    | .RData r, .RData r' => some (r == r')
    | .RDataPara r, .RDataPara r' => some (r == r')
    -- Under another tag no member of the union is there to be compared.
    | _, _ => none
  else none

structure Fits (j : Just) : Prop where
  data : j.data.Fits
  signs : j.signs.Fits

end Just

/-- A block of the chained protocol with its justification. -/
structure JBlock where
  set : Bool
  executed : Bool
  view : View
  just : Just
  size : Nat
  transactions : List Transaction
deriving DecidableEq, Repr

namespace JBlock

def serialize (b : JBlock) : Text :=
  putBool b.set ++ putBool b.executed ++ putUnsigned b.view ++ b.just.serialize
    ++ putUnsigned b.size ++ b.transactions.flatMap Transaction.serialize

def unserialize : Reader JBlock := do
  let set ← getBool
  let executed ← getBool
  let view ← getUnsigned
  let just ← Just.unserialize
  let size ← getUnsigned
  let transactions ← Reader.times Transaction.unserialize MAX_NUM_TRANSACTIONS
  return ⟨set, executed, view, just, size, transactions.1⟩

structure Fits (b : JBlock) : Prop where
  view : b.view < wordSize
  just : b.just.Fits
  transactions : FitTransactions b.size b.transactions

end JBlock

/-- A proposed block with the justification it rests on. -/
structure Proposal where
  just : Just
  block : Block
deriving DecidableEq, Repr

namespace Proposal

def serialize (p : Proposal) : Text := p.just.serialize ++ p.block.serialize

def unserialize : Reader Proposal := do
  let just ← Just.unserialize
  let block ← Block.unserialize
  return ⟨just, block⟩

structure Fits (p : Proposal) : Prop where
  just : p.just.Fits
  block : p.block.Fits

end Proposal

/-- A proposed block of a slot with the justification its view rests on. -/
structure ParaProposal where
  just : Just
  block : PBlock
deriving DecidableEq, Repr

namespace ParaProposal

def serialize (p : ParaProposal) : Text := p.just.serialize ++ p.block.serialize

def unserialize : Reader ParaProposal := do
  let just ← Just.unserialize
  let block ← PBlock.unserialize
  return ⟨just, block⟩

structure Fits (p : ParaProposal) : Prop where
  just : p.just.Fits
  block : p.block.Fits

end ParaProposal

end Wire

end ParaHotstuff
