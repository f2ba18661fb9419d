import ParaHotstuff.Log.Messages

/-! The log of the basic protocol. -/

namespace ParaHotstuff

/-- The messages a node of the basic protocol has stored. -/
structure Log where
  newviews : Messages View MsgNewView
  prepares : Messages View MsgPrepare
  precommits : Messages View MsgPreCommit
  commits : Messages View MsgCommit
  proposals : Messages View MsgLdrPrepare

namespace Log

def empty : Log := ⟨∅, ∅, ∅, ∅, ∅⟩

def storeNv (log : Log) (msg : MsgNewView) : Nat × Log :=
  let (count, newviews) := log.newviews.store (·.signs) MsgRData.lt msg.rdata.propv msg
  (count, { log with newviews })

def storePrep (log : Log) (msg : MsgPrepare) : Nat × Log :=
  let (count, prepares) := log.prepares.store (·.signs) MsgRData.lt msg.rdata.propv msg
  (count, { log with prepares })

def storePc (log : Log) (msg : MsgPreCommit) : Nat × Log :=
  let (count, precommits) := log.precommits.store (·.signs) MsgRData.lt msg.rdata.propv msg
  (count, { log with precommits })

def storeCom (log : Log) (msg : MsgCommit) : Nat × Log :=
  let (count, commits) := log.commits.store (·.signs) MsgRData.lt msg.rdata.propv msg
  (count, { log with commits })

/-- Proposals are stored under the view of their justification; the source throws on its tag. -/
def storeProp (log : Log) (msg : MsgLdrPrepare) : Option (Nat × Log) :=
  match msg.prop.just.getRData with
  | none => none
  | some rdata =>
    let (count, proposals) := log.proposals.store (·.signs) MsgLdrPrepare.lt rdata.propv msg
    some (count, { log with proposals })

/-- One round of the search for the highest justified view; among equals the last one wins. -/
def higherNv (best : View × Just) (msg : MsgNewView) : View × Just :=
  if msg.rdata.justv ≥ best.1 then (msg.rdata.justv, Just.ofRData msg.rdata msg.signs) else best

/-- The new-view message with the highest justified view. -/
def findHighestNv (log : Log) (view : View) : Just :=
  ((log.newviews.held view).foldl higherNv (0, Just.default)).2

/-- The justification made of the first message of a view, or the dummy one. -/
def firstOf (msgs : Messages View MsgRData) (view : View) : Just :=
  match msgs.first view with
  | some msg => Just.ofRData msg.rdata msg.signs
  | none => Just.default

def firstPrepare (log : Log) (view : View) : Just := firstOf log.prepares view
def firstPrecommit (log : Log) (view : View) : Just := firstOf log.precommits view
def firstCommit (log : Log) (view : View) : Just := firstOf log.commits view

/-- The first proposal of a view; without one the source returns a message with no signature. -/
def firstProposal (log : Log) (view : View) : Option MsgLdrPrepare := log.proposals.first view

def getNewView (log : Log) (view : View) (n : Nat) : Signs :=
  log.newviews.getSigns (·.signs) view n

def getPrepare (log : Log) (view : View) (n : Nat) : Signs :=
  log.prepares.getSigns (·.signs) view n

def getPrecommit (log : Log) (view : View) (n : Nat) : Signs :=
  log.precommits.getSigns (·.signs) view n

def getCommit (log : Log) (view : View) (n : Nat) : Signs :=
  log.commits.getSigns (·.signs) view n

/-- The justification found is a stored new-view message, unless there is none. -/
theorem findHighestNv_mem (log : Log) (view : View) :
    (log.newviews.held view = [] ∧ log.findHighestNv view = Just.default)
      ∨ ∃ msg ∈ log.newviews.held view,
          log.findHighestNv view = Just.ofRData msg.rdata msg.signs
          ∧ ∀ m ∈ log.newviews.held view, m.rdata.justv ≤ msg.rdata.justv := by
  -- The fold holds the last message with the highest justified view among those passed.
  have general : ∀ (msgs : List MsgNewView) (best : MsgNewView),
      ∃ msg ∈ best :: msgs,
        msgs.foldl higherNv (best.rdata.justv, Just.ofRData best.rdata best.signs)
            = (msg.rdata.justv, Just.ofRData msg.rdata msg.signs)
        ∧ ∀ m ∈ best :: msgs, m.rdata.justv ≤ msg.rdata.justv := by
    intro msgs
    induction msgs with
    | nil => intro best; exact ⟨best, by simp, rfl, by simp⟩
    | cons next msgs ih =>
      intro best
      rw [List.foldl_cons, higherNv]
      split
      · rename_i higher
        obtain ⟨msg, member, folded, highest⟩ := ih next
        refine ⟨msg, List.mem_cons_of_mem _ member, folded, fun m held => ?_⟩
        rcases List.mem_cons.1 held with rfl | later
        · exact Nat.le_trans higher (highest next (by simp))
        · exact highest m later
      · rename_i lower
        obtain ⟨msg, member, folded, highest⟩ := ih best
        have kept : msg ∈ best :: next :: msgs := by
          rcases List.mem_cons.1 member with rfl | later
          · simp
          · simp [later]
        refine ⟨msg, kept, folded, fun m held => ?_⟩
        rcases List.mem_cons.1 held with rfl | later
        · exact highest m (by simp)
        rcases List.mem_cons.1 later with rfl | rest
        · exact Nat.le_trans (Nat.le_of_lt (Nat.lt_of_not_le lower)) (highest best (by simp))
        · exact highest m (by simp [rest])
  unfold findHighestNv
  cases held : log.newviews.held view with
  | nil => exact .inl ⟨rfl, rfl⟩
  | cons next msgs =>
    obtain ⟨msg, member, folded, highest⟩ := general msgs next
    exact .inr ⟨msg, member, by simp [higherNv, folded], highest⟩

end Log

end ParaHotstuff
