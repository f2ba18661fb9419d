import ParaHotstuff.Handler.Client
import ParaHotstuff.Handler.Replies

/-! A client together with the nodes that serve it. -/

namespace ParaHotstuff

/-- A client, the nodes, and what is under way on the connections between them. -/
structure Deployment (Node Msg Event : Type) where
  net : Net Node Msg Event
  client : Client
  sender : Sender
  /-- Transactions on their way to nodes. -/
  transfers : List (PID × Transaction)
  /-- Replies of nodes on their way to the client. -/
  replies : List (PID × TID)

/--
What happens in a deployment.

A connection delivers what it was given once or never; transfers and replies are named by their
places, so those on different connections may overtake each other.
-/
inductive Happening where
  /-- Something happens to a node that the connections to the client have no part in. -/
  | among (action : Action ServedInput)
  /-- The sending thread takes a turn. -/
  | send
  | arrive (index : Nat)
  | answer (index : Nat)
deriving DecidableEq, Repr

namespace Deployment

variable {Node Msg Event : Type} (R : Replica Node Msg Event) (cfg : Config)

/-- The nodes at their start, and a client that has sent nothing yet. -/
def init (net : Net Node Msg Event) (cid : CID) (numInstances : Nat) (skipFirst : Bool) :
    Deployment Node Msg Event where
  net := net
  client := Client.init cfg cid numInstances
  sender := Sender.init skipFirst
  transfers := []
  replies := []

/-- An action of the nodes; a reply to the client is under way then. -/
def act (d : Deployment Node Msg Event) (action : Action ServedInput) :
    Deployment Node Msg Event :=
  { d with
    net := d.net.step R.served action
    replies := d.replies ++ (R.reply? d.net action).toList.filterMap fun reply =>
      if reply.2.2 = d.client.cid then some (reply.1, reply.2.1) else none }

/-- One step; the client has a connection to every node. -/
def step (d : Deployment Node Msg Event) : Happening → Deployment Node Msg Event
  | .among action => d.act R action
  | .arrive index =>
    match d.transfers[index]? with
    | some (p, transaction) =>
      { d.act R (.input p (.input (.transaction transaction))) with
        transfers := d.transfers.eraseIdx index }
    | none => d
  | .send =>
    -- The thread has ended when the client stops.
    if d.client.stopped then d
    else match d.sender.turn d.client.numInstances (List.range cfg.total) with
      | some (some (p, transid), sender) =>
        let (transaction, client) := d.client.mkTransaction cfg transid
        { d with client, sender, transfers := d.transfers ++ [(p, transaction)] }
      | some (none, sender) => { d with sender }
      | none => d
  | .answer index =>
    match d.replies[index]? with
    | some (p, tid) =>
      { d with
        client := (Client.component cfg).next d.client (.reply p tid)
        replies := d.replies.eraseIdx index }
    | none => d

def run (d : Deployment Node Msg Event) (happenings : List Happening) :
    Deployment Node Msg Event :=
  happenings.foldl (step R cfg) d

/-- The action that a step is for the nodes. -/
def action? (d : Deployment Node Msg Event) : Happening → Option (Action ServedInput)
  | .among action => some action
  | .arrive index => d.transfers[index]?.map fun transfer =>
    .input transfer.1 (.input (.transaction transfer.2))
  | .send | .answer _ => none

/-- The event that a step is for the client. -/
def clientEvent? (d : Deployment Node Msg Event) : Happening → Option ClientEvent
  | .send =>
    if d.client.stopped then none
    else (d.sender.turn d.client.numInstances (List.range cfg.total)).bind fun turn =>
      turn.1.map fun sent => .send sent.2
  | .answer index => d.replies[index]?.map fun reply => .reply reply.1 reply.2
  | .among _ | .arrive _ => none

/-- What a run is for the nodes. -/
def actions (d : Deployment Node Msg Event) : List Happening → List (Action ServedInput)
  | [] => []
  | happening :: rest =>
    (d.action? happening).toList ++ actions (d.step R cfg happening) rest

/-- What a run is for the client. -/
def clientEvents (d : Deployment Node Msg Event) : List Happening → List ClientEvent
  | [] => []
  | happening :: rest =>
    (d.clientEvent? cfg happening).toList ++ clientEvents (d.step R cfg happening) rest

end Deployment

end ParaHotstuff
