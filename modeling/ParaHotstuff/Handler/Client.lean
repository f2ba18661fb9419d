import ParaHotstuff.Handler.Common
import ParaHotstuff.Lib.Component

/-! The client: it sends transactions and counts the replies to each of them. -/

namespace ParaHotstuff

/-- What a client knows of a transaction: how many replies it counted, and the transaction. -/
structure TransInfo where
  replies : Nat
  trans : Transaction
deriving DecidableEq, Repr

/-- The state of a client. -/
structure Client where
  cid : CID
  qsize : Nat
  numInstances : Nat
  /-- Current transactions. -/
  transactions : AList fun _ : TID => TransInfo
  /-- The ids of the executed transactions. -/
  execTrans : List TID
  /-- No more events are handled once all transactions have been executed. -/
  stopped : Bool

/-- What happens to a client: it makes a transaction to send, or a reply comes from a replica. -/
inductive ClientEvent where
  | send (transid : TID)
  | reply (conn : PID) (reply : TID)
deriving DecidableEq, Repr

namespace Client

def init (cfg : Config) (cid : CID) (numInstances : Nat) : Client where
  cid := cid
  qsize := cfg.qsize
  numInstances := numInstances
  transactions := ∅
  execTrans := []
  stopped := false

def addNewTransaction (c : Client) (trans : Transaction) : Client :=
  { c with transactions := c.transactions.insert trans.transid ⟨0, trans⟩ }

/-- The payload of a transaction is filled with one character. -/
def mkTransaction (cfg : Config) (c : Client) (transid : TID) : Transaction × Client :=
  let transaction : Transaction := ⟨c.cid, transid, List.replicate cfg.payloadSize 17⟩
  (transaction, c.addNewTransaction transaction)

/-- Count one more reply, as a 32-bit counter; the result is 0 for an unknown transaction. -/
def updTransaction (c : Client) (tid : TID) : Nat × Client :=
  match c.transactions.lookup tid with
  | some tup =>
    let numReplies := (tup.replies + 1) % wordSize
    (numReplies, { c with transactions := c.transactions.insert tid ⟨numReplies, tup.trans⟩ })
  | none => (0, c)

/-- Record a transaction as executed if it is known; the result is what is recorded. -/
def executed (c : Client) (tid : TID) : Option TID × Client :=
  match c.transactions.lookup tid with
  | some _ => (some tid, { c with execTrans := c.execTrans.insert tid })
  | none => (none, c)

/-- The connection that a reply comes from is not looked at. -/
def handle_reply (c : Client) (_conn : PID) (tid : TID) : Option TID × Client :=
  if tid ∈ c.execTrans then (none, c)
  else
    let (numReplies, c) := c.updTransaction tid
    if numReplies == c.qsize then
      let (recorded, c) := c.executed tid
      (recorded, { c with stopped := c.stopped || c.execTrans.length == c.numInstances })
    else (none, c)

/-- The client as a component; what it answers to an event is the transaction it records. -/
def component (cfg : Config) : Component Client ClientEvent (Option TID) where
  answer c event :=
    if c.stopped then none
    else match event with
      | .send transid => some (none, (c.mkTransaction cfg transid).2)
      | .reply conn reply => some (c.handle_reply conn reply)

end Client

/-- Where the loops of the sending thread are: the next transaction, and the connections left in the round. -/
structure Sender where
  transid : TID
  conns : List PID
  skipFirst : Bool
deriving DecidableEq, Repr

namespace Sender

/-- The loops before their first round; the clients of the chained protocol skip one connection. -/
def init (skipFirst : Bool) : Sender := ⟨1, [], skipFirst⟩

/--
One turn of the loops: what is sent to whom, if anything, and where they go on.

The loops end once the next transaction is beyond the last.
-/
def turn (numInstances : Nat) (all : List PID) (s : Sender) : Option (Option (PID × TID) × Sender) :=
  if s.transid ≤ numInstances then
    match s.conns with
    -- The round is over, and the next one begins with the first connection.
    | [] => some (none, { s with conns := all })
    | conn :: conns =>
      if s.skipFirst then some (none, { s with conns, skipFirst := false })
      else some (some (conn, s.transid), { s with transid := (s.transid + 1) % wordSize, conns })
  else none

/-- The sending thread: what it sends to whom, in order, if its loops end within a number of turns. -/
def send_transactions (numInstances : Nat) (all : List PID) :
    Nat → Sender → Option (List (PID × TID))
  | 0, _ => none
  | turns + 1, s =>
    match s.turn numInstances all with
    | some (sent, s) => (send_transactions numInstances all turns s).map (sent.toList ++ ·)
    | none => some []

end Sender

end ParaHotstuff
