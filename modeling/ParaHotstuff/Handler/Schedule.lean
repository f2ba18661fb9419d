import ParaHotstuff.Handler.Common

/-! Schedules of runs with four nodes. -/

namespace ParaHotstuff

namespace Schedule

/-- Four nodes, one of which may be faulty, without a last view, and two blocks in a view. -/
def fourNodes : Config where
  constFactor := 3
  numFaults := 1
  maxViews := 0
  maxBlocksInView := 2
  maxNumTransactions := 1
  payloadSize := 0
  forceRecover := 0
  byzantine := -1

variable {Input : Type}

/-- Start the first nodes one after the other. -/
def startAll (count : Nat) : List (Action ParaHotstuff.Input) :=
  (List.range count).map fun p => .input p (.start 0)

/-- Deliver the packets with the given numbers. -/
def deliver (indices : List Nat) : List (Action Input) := indices.map .deliver

/-- Deliver as many packets in the order they were sent, from a number on. -/
def deliverFrom (first count : Nat) : List (Action Input) :=
  deliver (List.range' first count)

/-- Let the timers of nodes run out. -/
def timeouts (nodes : List PID) : List (Action ParaHotstuff.Input) :=
  nodes.map fun p => .input p .timeout

end Schedule

end ParaHotstuff
