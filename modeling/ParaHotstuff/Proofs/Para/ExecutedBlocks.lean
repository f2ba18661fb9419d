import ParaHotstuff.Proofs.Para.Watching

/-! What a parallel node holds of a slot when it marks the slot as executed. -/

namespace ParaHotstuff

/--
An executed slot has its block: the node holds a block with the committed hash there, and replies
to all its transactions wait to be sent that are no dummies and whose clients are known.
-/
structure Backed [Hashing] (rdata : RDataPara) (block : PBlock) (clients : List CID)
    (queue : List (TID × CID)) : Prop where
  present : block.isBlock = true
  committed : (block.hash == rdata.proph) = true
  replied : ∀ trans ∈ block.transactions, trans.transid ≠ 0 → trans.clientid ∈ clients →
    (trans.transid, trans.clientid) ∈ queue

/-- Whether a block is there and has the committed hash, which is when its clients are answered. -/
def holdsCommitted [Hashing] (rdata : RDataPara) (block : PBlock) : Bool :=
  block.isBlock && block.hash == rdata.proph

namespace HandlerPara

open Program Local

variable [Hashing] {cfg : Config} {l : State}

/-- Whether an event notes that a node marked a slot, with its block or without it. -/
def marks (p : PID) (backed : Bool) : ParaEvent → Bool
  | .marked q _ rdata block _ _ => q == p && holdsCommitted rdata block == backed
  | _ => false

end HandlerPara

end ParaHotstuff
