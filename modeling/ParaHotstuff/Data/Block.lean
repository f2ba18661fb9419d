import ParaHotstuff.Data.Just

/-! Transactions and the three kinds of blocks, with the texts that name them. -/

namespace ParaHotstuff

/-- A client transaction; the id 0 is reserved for dummy transactions. -/
structure Transaction where
  clientid : CID
  transid : TID
  data : Text
deriving DecidableEq, Repr

namespace Transaction

/-- The dummy transaction, whose payload is all the character '0'. -/
def default (payloadSize : Nat) : Transaction := ⟨0, 0, List.replicate payloadSize zeroChar⟩

/-- Ids and payload bytes are written as decimal numbers. -/
def toString (t : Transaction) : Text :=
  toText t.clientid ++ toText t.transid ++ t.data.flatMap fun byte => toText byte.toNat

end Transaction

/-- The first transactions of a block, those its size counts, one after the other. -/
def transactions2string (size : Nat) (transactions : List Transaction) : Text :=
  (transactions.take size).flatMap Transaction.toString

/-- A block of the basic protocol. -/
structure Block where
  set : Bool
  prevHash : Hash
  size : Nat
  transactions : List Transaction
deriving DecidableEq, Repr

namespace Block

def ofTransactions (prevHash : Hash) (size : Nat) (transactions : List Transaction) : Block :=
  ⟨true, prevHash, size, transactions⟩


def toString (b : Block) : Text :=
  flagText b.set ++ b.prevHash.toString ++ toText b.size
    ++ transactions2string b.size b.transactions

def hash [Hashing] (b : Block) : Hash := hashText b.toString

/-- Whether the block extends the block with the given hash. -/
def extends' (b : Block) (h : Hash) : Bool := b.prevHash == h

end Block

/-- A block of the parallel protocol, which also knows its slot in the view. -/
structure PBlock where
  set : Bool
  prevHash : Hash
  size : Nat
  seqNumber : Nat
  transactions : List Transaction
deriving DecidableEq, Repr

namespace PBlock

/-- The block a slot holds before anything is stored there. -/
def default : PBlock := ⟨true, Hash.default, 0, 0, []⟩

def ofTransactions (prevHash : Hash) (size seqNumber : Nat)
    (transactions : List Transaction) : PBlock :=
  ⟨true, prevHash, size, seqNumber, transactions⟩


/-- Slots are numbered from 1, so number 0 marks an empty slot. -/
def isBlock (b : PBlock) : Bool := b.seqNumber != 0

def toString (b : PBlock) : Text :=
  flagText b.set ++ b.prevHash.toString ++ toText b.seqNumber ++ toText b.size
    ++ transactions2string b.size b.transactions

def hash [Hashing] (b : PBlock) : Hash := hashText b.toString

/-- Whether the block extends the block with the given hash. -/
def extends' (b : PBlock) (h : Hash) : Bool := b.prevHash == h

end PBlock

/-- The bytes a signature prints as. -/
class SignatureBytes where
  bytesOf : SigVal → Text

/-- A signature prints its mark, its signer and its bytes. -/
def Sign.toString [SignatureBytes] (s : Sign) : Text :=
  flagText s.set ++ toText s.signer ++ SignatureBytes.bytesOf s.sign

/-- The signatures of a certificate print their number and then each of them. -/
def Signs.toString [SignatureBytes] (signs : Signs) : Text :=
  toText signs.length ++ signs.flatMap Sign.toString

/-- A block of the chained protocol, which carries the justification of its parent. -/
structure JBlock where
  set : Bool
  executed : Bool
  view : View
  just : Just
  size : Nat
  transactions : List Transaction
deriving DecidableEq, Repr

namespace JBlock

/-- The genesis block. -/
def default : JBlock := ⟨true, false, 0, Just.default, 0, []⟩

/-- The dummy block. -/
def dummy : JBlock := { default with set := false }

def ofTransactions (view : View) (just : Just) (size : Nat)
    (transactions : List Transaction) : JBlock :=
  ⟨true, false, view, just, size, transactions⟩

def markExecuted (b : JBlock) : JBlock := { b with executed := true }

/-- The mark of execution is not part of the text, so it does not change the hash. -/
def toString [SignatureBytes] (b : JBlock) : Text :=
  flagText b.set ++ toText b.view ++ b.just.toString Signs.toString ++ toText b.size
    ++ transactions2string b.size b.transactions

def hash [Hashing] [SignatureBytes] (b : JBlock) : Hash := hashText b.toString

@[simp] theorem hash_markExecuted [Hashing] [SignatureBytes] (b : JBlock) :
    b.markExecuted.hash = b.hash := rfl

/-- Whether the block directly extends the block with the given hash. -/
def extends' (b : JBlock) (h : Hash) : Bool :=
  match b.just.getRData with
  | some r =>
    if r.proph.set then r.proph == h else if r.justh.set then r.justh == h else false
  | none => false

end JBlock

end ParaHotstuff
