import ParaHotstuff.Data.Block
import ParaHotstuff.Lib.Network
import Mathlib.Data.List.AList

/-! What the three protocols share: parameters, leaders, peers, clients and transactions. -/

namespace ParaHotstuff

/-- The parameters a system is started with. -/
structure Config where
  constFactor : Nat
  numFaults : Nat
  maxViews : Nat
  maxBlocksInView : Nat
  /-- The constant MAX_NUM_TRANSACTIONS. -/
  maxNumTransactions : Nat
  /-- The constant PAYLOAD_SIZE. -/
  payloadSize : Nat
  /-- The chance out of a million that a leader recovers blocks it does not miss. -/
  forceRecover : Nat
  /-- Nodes whose id has this remainder modulo 4 leave out the first slot when they lead. -/
  byzantine : Int
deriving Repr

namespace Config

variable (cfg : Config)

def total : Nat := cfg.constFactor * cfg.numFaults + 1

def qsize : Nat := cfg.total - cfg.numFaults

/-- Every node knows all nodes and their public keys. -/
def nodes : Nodes := Nodes.upTo cfg.total

def getLeaderOf (v : View) : PID := v % cfg.total

def amLeaderOf (myid : PID) (v : View) : Bool := myid == cfg.getLeaderOf v

/-- The other nodes, in the order in which a node connects to them. -/
def peers (myid : PID) : List PID := (List.range cfg.total).filter (· != myid)

def remove_from_peers (myid id : PID) : List PID := (cfg.peers myid).filter (id != ·)

def keep_from_peers (myid id : PID) : List PID := (cfg.peers myid).filter (id == ·)

/-- Whether the last view has been reached; the sum is one of 32-bit counters. -/
def timeToStop (view : View) : Bool :=
  0 < cfg.maxViews && cfg.maxViews ≤ (view + 1) % wordSize

/-- The transactions of a new block: the oldest pending ones, filled up with dummies. -/
def fillBlock (pending : List Transaction) : List Transaction :=
  let taken := pending.take cfg.maxNumTransactions
  taken ++ List.replicate (cfg.maxNumTransactions - taken.length)
    (Transaction.default cfg.payloadSize)

/-- With three times as many nodes as may be faulty, and one more, quorums are majorities. -/
theorem majority {cfg : Config} (three : cfg.constFactor = 3) : cfg.total < 2 * cfg.qsize := by
  simp only [qsize, total, three]
  omega

/-- With a fault to be tolerated, no node is a quorum alone. -/
theorem several {cfg : Config} (three : cfg.constFactor = 3) (faults : 0 < cfg.numFaults) :
    1 < cfg.qsize := by
  simp only [qsize, total, three]
  omega

/-- A node leads a view exactly when the view's leader is that node. -/
@[simp] theorem amLeaderOf_iff {cfg : Config} {myid : PID} {v : View} :
    cfg.amLeaderOf myid v = true ↔ cfg.getLeaderOf v = myid := by
  rw [amLeaderOf, beq_iff_eq]
  exact eq_comm

/-- A peer kept by its id is that peer, and it is another node. -/
theorem mem_keep_from_peers {cfg : Config} {myid id dest : PID} :
    dest ∈ cfg.keep_from_peers myid id ↔ dest < cfg.total ∧ dest ≠ myid ∧ dest = id := by
  simp only [keep_from_peers, peers, List.mem_filter, List.mem_range, bne_iff_ne, ne_eq,
    beq_iff_eq, and_assoc]
  exact ⟨fun ⟨known, other, same⟩ => ⟨known, other, same.symm⟩,
    fun ⟨known, other, same⟩ => ⟨known, other, same.symm⟩⟩

/-- Removing one's own id from the peers leaves every other node. -/
theorem mem_remove_from_peers {cfg : Config} {myid dest : PID} :
    dest ∈ cfg.remove_from_peers myid myid ↔ dest < cfg.total ∧ dest ≠ myid := by
  simp only [remove_from_peers, peers, List.mem_filter, List.mem_range, bne_iff_ne, ne_eq]
  exact ⟨fun member => member.1, fun other => ⟨other, Ne.symm other.2⟩⟩

end Config

/-- What a node keeps of a client: whether it runs, and how often it wrote and was answered. -/
structure ClientNfo where
  running : Bool
  received : Nat
  replied : Nat
deriving DecidableEq, Repr

abbrev Clients : Type := AList fun _ : CID => ClientNfo

/-- The replies to the transactions of a block: one for each that is no dummy and whose client is known. -/
def replyTransactions (clients : Clients) (transactions : List Transaction) :
    List (TID × CID) :=
  transactions.filterMap fun trans =>
    if trans.transid != 0 && (clients.lookup trans.clientid).isSome then
      some (trans.transid, trans.clientid)
    else none

/-- A transaction is accepted from a known client that runs, and counted there. -/
def acceptTransaction (clients : Clients) (trans : Transaction) : Option Clients :=
  match clients.lookup trans.clientid with
  | some nfo =>
    if nfo.running then
      some (clients.insert trans.clientid ⟨true, nfo.received + 1, nfo.replied⟩)
    else none
  | none => none

/-- What the environment does to a node: a client starts or writes, or the timer runs out. -/
inductive Input where
  | start (cid : CID)
  | transaction (trans : Transaction)
  | timeout
deriving DecidableEq, Repr

end ParaHotstuff
