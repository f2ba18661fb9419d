import ParaHotstuff.Handler.Common

/-! How nodes answer their clients, whichever protocol they run. -/

namespace ParaHotstuff

open Local

/-- What the handler of the reply queue does with the first reply: whom it answers, and what it leaves. -/
structure Dequeued where
  reply : Option (TID × CID)
  clients : Clients
  rest : List (TID × CID)

/-- The first reply is sent to its client and counted there, if the client is known and can be reached. -/
def try_dequeue (clients : Clients) (reachable : Bool) : List (TID × CID) → Dequeued
  | [] => ⟨none, clients, []⟩
  | (tid, cid) :: rest =>
    match clients.lookup cid with
    | some nfo =>
      if reachable then
        ⟨some (tid, cid), clients.insert cid ⟨nfo.running, nfo.received, nfo.replied + 1⟩, rest⟩
      -- The exception that sending throws is caught, and the reply is gone.
      else ⟨none, clients, rest⟩
    | none => ⟨none, clients, rest⟩

/-- What happens to a node that answers clients: the reply queue has a handler of its own. -/
inductive ServedInput where
  | input (i : Input)
  | dequeue (reachable : Bool)
deriving DecidableEq, Repr

/-- A protocol whose nodes keep clients and a queue of replies to them. -/
structure Replica (Node Msg Event : Type) where
  protocol : Protocol Node Msg Event Input
  clients : Node → Clients
  rep_queue : Node → List (TID × CID)
  /-- The node with other clients and another queue. -/
  answering : Node → Clients → List (TID × CID) → Node

namespace Replica

variable {Node Msg Event : Type} (R : Replica Node Msg Event)

/-- What the handler of the reply queue does at a node. -/
def dequeue (reachable : Bool) (node : Node) : Dequeued :=
  try_dequeue (R.clients node) reachable (R.rep_queue node)

/-- The node once its reply queue has been handled. -/
def dequeued (reachable : Bool) (node : Node) : Node :=
  R.answering node (R.dequeue reachable node).clients (R.dequeue reachable node).rest

/-- The protocol together with the handler of the reply queue. -/
def served : Protocol Node Msg Event ServedInput where
  receive := R.protocol.receive
  input
    | .input i => R.protocol.input i
    | .dequeue reachable => modify (R.dequeued reachable)

/-- The reply that an action makes a node send. -/
def reply? (net : Net Node Msg Event) : Action ServedInput → Option (PID × TID × CID)
  | .input p (.dequeue reachable) =>
    if net.stopped p then none else (R.dequeue reachable (net.nodes p)).reply.map (p, ·)
  | .input _ (.input _) | .deliver _ => none

/-- The replies that are sent in a run, in order. -/
def replies (net : Net Node Msg Event) : List (Action ServedInput) → List (PID × TID × CID)
  | [] => []
  | action :: rest => (R.reply? net action).toList ++ replies (net.step R.served action) rest

/-- The replies of a run with one more action. -/
theorem replies_concat (net : Net Node Msg Event) (actions : List (Action ServedInput))
    (action : Action ServedInput) :
    R.replies net (actions ++ [action])
      = R.replies net actions ++ (R.reply? (net.run R.served actions) action).toList := by
  induction actions generalizing net with
  | nil => simp [replies, Net.run]
  | cons first actions ih =>
    rw [List.cons_append, replies, ih, replies, List.append_assoc]
    rfl

end Replica

/-- An action hands a transaction to some node. -/
def handsIn (t : Transaction) : Action ServedInput → Bool
  | .input _ (.input i) => i == .transaction t
  | .input _ (.dequeue _) | .deliver _ => false

end ParaHotstuff
