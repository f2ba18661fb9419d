import ParaHotstuff.Log.Messages

/-! The log of the parallel protocol, whose votes are kept apart by view and slot. -/

namespace ParaHotstuff

/-- The messages a node of the parallel protocol has stored. -/
structure LogPara where
  newviewsPara : Messages View MsgNewViewPara
  preparesPara : Messages (View × Nat) MsgPreparePara
  precommitsPara : Messages (View × Nat) MsgPreCommitPara
  commitsPara : Messages (View × Nat) MsgCommitPara
  proposalsPara : Messages (View × Nat) MsgLdrPreparePara
  verifiesPara : AList fun _ : View => MsgVerifyPara

namespace LogPara

def empty : LogPara := ⟨∅, ∅, ∅, ∅, ∅, ∅⟩

def storeNvPara (log : LogPara) (msg : MsgNewViewPara) : Nat × LogPara :=
  let (count, newviewsPara) :=
    log.newviewsPara.store (·.signs) MsgRDataPara.lt msg.rdata.propv msg
  (count, { log with newviewsPara })

def storePrepPara (log : LogPara) (msg : MsgPreparePara) : Nat × LogPara :=
  let (count, preparesPara) := log.preparesPara.storeAndCount (·.signs) MsgRDataPara.lt
    (msg.rdata.propv, msg.rdata.seqNumber) msg
  (count, { log with preparesPara })

def storePcPara (log : LogPara) (msg : MsgPreCommitPara) : Nat × LogPara :=
  let (count, precommitsPara) := log.precommitsPara.storeAndCount (·.signs) MsgRDataPara.lt
    (msg.rdata.propv, msg.rdata.seqNumber) msg
  (count, { log with precommitsPara })

def storeComPara (log : LogPara) (msg : MsgCommitPara) : Nat × LogPara :=
  let (count, commitsPara) := log.commitsPara.storeAndCount (·.signs) MsgRDataPara.lt
    (msg.rdata.propv, msg.rdata.seqNumber) msg
  (count, { log with commitsPara })

/-- Proposals go by the view of their justification; the source throws on its tag. -/
def storePropPara (log : LogPara) (msg : MsgLdrPreparePara) : Option (Nat × LogPara) :=
  match msg.prop.just.getRDataPara with
  | none => none
  | some rdata =>
    let (count, proposalsPara) := log.proposalsPara.storeAndCount (·.signs) MsgLdrPreparePara.lt
      (rdata.propv, msg.prop.block.seqNumber) msg
    some (count, { log with proposalsPara })

/-- Only the last message of a view is kept. -/
def storeVerifyPara (log : LogPara) (msg : MsgVerifyPara) : LogPara :=
  { log with verifiesPara := log.verifiesPara.insert msg.rdata.propv msg }

/-- The message stored for a view, or one without hashes. -/
def getVerifyPara (log : LogPara) (view : View) : MsgVerifyPara :=
  (log.verifiesPara.lookup view).getD ⟨.default, [], []⟩

/-- The best report found so far: its view, its slot once there is one, and its justification. -/
abbrev Best : Type := View × Option Nat × Just

/-- One round of the search for the highest report; among equals the first one stays. -/
def higherNvPara (best : Best) (msg : MsgNewViewPara) : Best :=
  let higher := best.1 < msg.rdata.justv || (msg.rdata.justv == best.1
    && match best.2.1 with
      | none => true
      | some seqNumber => seqNumber < msg.rdata.seqNumber)
  if higher then
    (msg.rdata.justv, some msg.rdata.seqNumber, Just.ofRDataPara msg.rdata msg.signs)
  else best

/-- The new-view message that reports the highest view, and in it the highest slot. -/
def findHighestNvPara (log : LogPara) (view : View) : Just :=
  ((log.newviewsPara.held view).foldl higherNvPara (0, none, Just.defaultPara)).2.2

def getNewViewPara (log : LogPara) (view : View) (n : Nat) : Signs :=
  log.newviewsPara.getSigns (·.signs) view n

def getPreparePara (log : LogPara) (view : View) (n seqNumber : Nat) : Signs :=
  log.preparesPara.getSigns (·.signs) (view, seqNumber) n

def getPrecommitPara (log : LogPara) (view : View) (n seqNumber : Nat) : Signs :=
  log.precommitsPara.getSigns (·.signs) (view, seqNumber) n

def getCommitPara (log : LogPara) (view : View) (n seqNumber : Nat) : Signs :=
  log.commitsPara.getSigns (·.signs) (view, seqNumber) n

def hasPrepForSeq (log : LogPara) (view : View) (seqNumber : Nat) : Bool :=
  !(log.preparesPara.held (view, seqNumber)).isEmpty

def hasPrecommitForSeq (log : LogPara) (view : View) (seqNumber : Nat) : Bool :=
  !(log.precommitsPara.held (view, seqNumber)).isEmpty

def hasCommitForSeq (log : LogPara) (view : View) (seqNumber : Nat) : Bool :=
  !(log.commitsPara.held (view, seqNumber)).isEmpty

/-- The first commit message of a slot, whoever sent it, or the empty one. -/
def getCommitForSeq (log : LogPara) (view : View) (seqNumber : Nat) : MsgCommitPara :=
  (log.commitsPara.first (view, seqNumber)).getD MsgRDataPara.empty

/-- The justification made of the first message of a slot, or the dummy one. -/
def firstOf (msgs : Messages (View × Nat) MsgRDataPara) (view : View) (seqNumber : Nat) : Just :=
  match msgs.first (view, seqNumber) with
  | some msg => Just.ofRDataPara msg.rdata msg.signs
  | none => Just.defaultPara

def firstPreparePara (log : LogPara) (view : View) (seqNumber : Nat) : Just :=
  firstOf log.preparesPara view seqNumber

def firstPrecommitPara (log : LogPara) (view : View) (seqNumber : Nat) : Just :=
  firstOf log.precommitsPara view seqNumber

/-- The first proposal of a slot; without one the source returns a message with no signature. -/
def firstProposalPara (log : LogPara) (view : View) (seqNumber : Nat) :
    Option MsgLdrPreparePara :=
  log.proposalsPara.first (view, seqNumber)

/-- Whether one report is at most another one: by view, then by slot. -/
def reportLe (a b : RDataPara) : Prop :=
  a.justv < b.justv ∨ (a.justv = b.justv ∧ a.seqNumber ≤ b.seqNumber)

theorem reportLe_refl (a : RDataPara) : reportLe a a := .inr ⟨rfl, Nat.le_refl _⟩

theorem reportLe_trans {a b c : RDataPara} (first : reportLe a b) (second : reportLe b c) :
    reportLe a c := by
  unfold reportLe at *
  lia

/-- The justification found is the highest of the stored reports, unless there is none. -/
theorem findHighestNvPara_mem (log : LogPara) (view : View) :
    (log.newviewsPara.held view = [] ∧ log.findHighestNvPara view = Just.defaultPara)
      ∨ ∃ msg ∈ log.newviewsPara.held view,
          log.findHighestNvPara view = Just.ofRDataPara msg.rdata msg.signs
          ∧ ∀ m ∈ log.newviewsPara.held view, reportLe m.rdata msg.rdata := by
  -- The fold holds the first highest report among those passed.
  have general : ∀ (msgs : List MsgNewViewPara) (best : MsgNewViewPara),
      ∃ msg ∈ best :: msgs,
        msgs.foldl higherNvPara (best.rdata.justv, some best.rdata.seqNumber,
            Just.ofRDataPara best.rdata best.signs)
          = (msg.rdata.justv, some msg.rdata.seqNumber, Just.ofRDataPara msg.rdata msg.signs)
        ∧ ∀ m ∈ best :: msgs, reportLe m.rdata msg.rdata := by
    intro msgs
    induction msgs with
    | nil =>
      intro best
      exact ⟨best, by simp, rfl, by simp [reportLe_refl]⟩
    | cons next msgs ih =>
      intro best
      rw [List.foldl_cons]
      by_cases higher : best.rdata.justv < next.rdata.justv
          ∨ (next.rdata.justv = best.rdata.justv ∧ best.rdata.seqNumber < next.rdata.seqNumber)
      -- The next report replaces the best one.
      · obtain ⟨msg, member, folded, highest⟩ := ih next
        refine ⟨msg, List.mem_cons_of_mem _ member, by simpa [higherNvPara, higher] using folded,
          fun m held => ?_⟩
        rcases List.mem_cons.1 held with rfl | later
        · apply reportLe_trans _ (highest next (by simp))
          unfold reportLe
          lia
        · exact highest m later
      -- The best report stays.
      · obtain ⟨msg, member, folded, highest⟩ := ih best
        have kept : msg ∈ best :: next :: msgs := by
          rcases List.mem_cons.1 member with rfl | later
          · simp
          · simp [later]
        refine ⟨msg, kept, by simpa [higherNvPara, higher] using folded, fun m held => ?_⟩
        rcases List.mem_cons.1 held with rfl | later
        · exact highest m (by simp)
        rcases List.mem_cons.1 later with rfl | rest
        · apply reportLe_trans _ (highest best (by simp))
          unfold reportLe
          lia
        · exact highest m (by simp [rest])
  unfold findHighestNvPara
  cases held : log.newviewsPara.held view with
  | nil => exact .inl ⟨rfl, rfl⟩
  | cons next msgs =>
    right
    obtain ⟨msg, member, folded, highest⟩ := general msgs next
    have begun : higherNvPara (0, none, Just.defaultPara) next
        = (next.rdata.justv, some next.rdata.seqNumber,
          Just.ofRDataPara next.rdata next.signs) := by
      rcases Nat.eq_zero_or_pos next.rdata.justv with zero | positive
      · simp [higherNvPara, zero]
      · simp [higherNvPara, positive]
    exact ⟨msg, member, by rw [List.foldl_cons, begun, folded], highest⟩

end LogPara

end ParaHotstuff
