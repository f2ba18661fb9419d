import ParaHotstuff.Log.Messages

/-! The log of the chained protocol. -/

namespace ParaHotstuff

/-- The messages a node of the chained protocol has stored. -/
structure LogCh where
  newviewsCh : Messages View MsgNewViewCh
  preparesCh : Messages View MsgPrepareCh
  ldrpreparesCh : Messages View MsgLdrPrepareCh

namespace LogCh

def empty : LogCh := ⟨∅, ∅, ∅⟩

-- Messages with one signature are stored unless their signer has one in the view already.

def storeNvCh (log : LogCh) (msg : MsgNewViewCh) : Nat × LogCh :=
  let (count, newviewsCh) :=
    log.newviewsCh.store (fun m => [m.sign]) MsgRDataCh.lt msg.data.propv msg
  (count, { log with newviewsCh })

def storePrepCh (log : LogCh) (msg : MsgPrepareCh) : Nat × LogCh :=
  let (count, preparesCh) :=
    log.preparesCh.store (fun m => [m.sign]) MsgRDataCh.lt msg.data.propv msg
  (count, { log with preparesCh })

def storeLdrPrepCh (log : LogCh) (msg : MsgLdrPrepareCh) : Nat × LogCh :=
  let (count, ldrpreparesCh) :=
    log.ldrpreparesCh.store (fun m => [m.sign]) MsgLdrPrepareCh.lt msg.block.view msg
  (count, { log with ldrpreparesCh })

def getPrepareCh (log : LogCh) (view : View) (n : Nat) : Signs :=
  log.preparesCh.getSigns (fun m => [m.sign]) view n

/-- One round of the search for the highest justified view; among equals the last one wins. -/
def higherNvCh (best : View × Just) (msg : MsgNewViewCh) : View × Just :=
  if msg.data.justv ≥ best.1 then (msg.data.justv, Just.ofRData msg.data [msg.sign]) else best

/-- The new-view message with the highest justified view. -/
def findHighestNvCh (log : LogCh) (view : View) : Just :=
  ((log.newviewsCh.held view).foldl higherNvCh (0, Just.default)).2

/-- The first proposal of a view; without one the source returns a message that is not signed. -/
def firstLdrPrepareCh (log : LogCh) (view : View) : Option MsgLdrPrepareCh :=
  log.ldrpreparesCh.first view

end LogCh

end ParaHotstuff
