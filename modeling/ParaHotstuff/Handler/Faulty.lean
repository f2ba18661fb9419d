import ParaHotstuff.Handler.Para

/-! Runs of the parallel protocol in which some nodes send whatever they like. -/

namespace ParaHotstuff

/-- The statement a component signed in an event, with the node it belongs to. -/
def ParaEvent.statement : ParaEvent → Option (PID × RDataPara)
  | signed p r | voted p r _ | stored p _ _ r => some (p, r)
  | _ => none

/-- All signatures a message carries; a proposal carries those of its justification as well. -/
def MsgPara.signs : MsgPara → Signs
  | newView msg | prepare msg | preCommit msg | commit msg => msg.signs
  | ldrRecover msg => msg.signs
  | recover msg => msg.signs
  | verify msg => msg.signs
  | ldrPrepare msg => msg.signs ++ msg.prop.just.signs

/-- What happens to a node: its own environment, or a packet of a faulty node on its way. -/
inductive FaultyInput where
  | own (i : Input)
  | send (packet : Packet MsgPara)
deriving DecidableEq, Repr

namespace HandlerPara

/-- Whether the component of a node has signed a statement with the given text. -/
def madeIn (H : List ParaEvent) (p : PID) (text : Text) : Bool :=
  H.any fun e => match e.statement with
    | some (q, r) => q == p && r.toString == text
    | none => false

/-- A signature is possible unless it is one of a correct node's key that this node never made. -/
def possible (correct : PID → Bool) (H : List ParaEvent) (s : Sign) : Bool :=
  match s.sign with
  | .made key text => !correct key || madeIn H key text
  | _ => true

/-- Let a packet with arbitrary contents, but only possible signatures, into the network. -/
def sendAny (correct : PID → Bool) (packet : Packet MsgPara) : M Unit :=
  Program.update fun s =>
    if packet.msg.signs.all (possible correct s.history) then
      { s with sent := s.sent ++ [packet] }
    else s

/--
The parallel protocol with faulty nodes.

Correct nodes follow their handlers. A faulty node needs no handler: whatever it sends is a
packet that enters the network with signatures the faulty nodes can make or have seen.
-/
def protocolFaulty [Hashing] (cfg : Config) (correct : PID → Bool) (depth : Nat) :
    Protocol HandlerPara MsgPara ParaEvent FaultyInput where
  receive := handle cfg depth
  input
    | .own i => react cfg depth i
    | .send packet => sendAny correct packet

end HandlerPara

end ParaHotstuff
