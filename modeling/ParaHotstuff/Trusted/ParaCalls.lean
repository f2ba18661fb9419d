import ParaHotstuff.Lib.Component
import ParaHotstuff.Trusted.Para

/-! The trusted component of the parallel protocol, as answering calls of all its functions. -/

namespace ParaHotstuff

namespace TrustedPara

/-- A call of a public function; verifying signatures, which only reads, is part of others. -/
inductive PublicCall where
  | sign
  | prepare (nodes : Nodes) (block : PBlock) (just : Just)
  | verifyLeaderQC (nodes : Nodes) (just : Just) (blockHashes : List Hash) (checkHashes : Bool)
  | store (nodes : Nodes) (just : Just) (getBlockFunc : Nat → PBlock)
  | changeView (v : View)
  | increment_node_phase
  | increment_view
  | set_phase (phase : Phase1)

variable [Hashing]

/-- The component, with the answers its functions give; some of them answer nothing. -/
def component : Component TrustedPara PublicCall Just where
  answer tp
    | .sign => some tp.TEEsign
    | .prepare nodes block just => tp.TEEprepare nodes block just
    | .verifyLeaderQC nodes just blockHashes checkHashes =>
      (tp.TEEverifyLeaderQC nodes just blockHashes checkHashes).map fun out => (out, tp)
    | .store nodes just getBlockFunc => tp.TEEstore nodes just getBlockFunc
    | .changeView v => some (Just.defaultPara, tp.changeView v)
    | .increment_node_phase => some (Just.defaultPara, tp.increment_node_phase)
    | .increment_view => some (Just.defaultPara, tp.increment_view)
    | .set_phase phase => some (Just.defaultPara, tp.set_phase phase)

/-- The certificate a call makes the component accept, if it accepts one. -/
def certificate (tp : TrustedPara) : PublicCall → Option RDataPara
  | .store nodes just getBlockFunc =>
    match tp.TEEstore nodes just getBlockFunc with
    | some (out, _) => if out.set then just.getRDataPara else none
    | none => none
  | _ => none

/-- The certificates a sequence of calls makes the component accept, in order. -/
def certificates (tp : TrustedPara) (calls : List PublicCall) : List RDataPara :=
  component.observed certificate tp calls

section Cases

variable {tp : TrustedPara} {rd : RDataPara}

/-- An accepted certificate is of the view of the component, and it is recorded and answered. -/
theorem store_accepted {nodes : Nodes} {just : Just} {getBlockFunc : Nat → PBlock}
    (accepted : tp.certificate (.store nodes just getBlockFunc) = some rd) :
    rd.propv = tp.view ∧ (rd.phase = PH1_PREPARE ∨ rd.phase = PH1_PRECOMMIT)
      ∧ just.getRDataPara = some rd ∧ just.signs.length = tp.qsize
      ∧ just.signs.verify nodes rd.toString = true
      ∧ component.next tp (.store nodes just getBlockFunc)
        = (tp.record rd getBlockFunc).increment_block_phase rd.proph := by
  simp only [certificate] at accepted
  cases answered : tp.TEEstore nodes just getBlockFunc with
  | none => simp [answered] at accepted
  | some result =>
    obtain ⟨out, tp'⟩ := result
    simp only [answered] at accepted
    split at accepted
    · rename_i set
      obtain ⟨rd', tagged, full, verified, view, phase, signed⟩ := TEEstore_set answered set
      obtain rfl := Option.some.inj (accepted.symm.trans tagged)
      refine ⟨view.symm, phase, tagged, full, verified, ?_⟩
      have next : component.next tp (.store nodes just getBlockFunc) = tp' :=
        Component.next_of_answer answered
      rw [next]
      exact (congrArg Prod.snd signed).symm
    · cases accepted

/-- What is prepared, pre-committed and locked, and the view this is about. -/
structure Memory (tp tp' : TrustedPara) : Prop where
  latestPreparedHash : tp'.latestPreparedHash = tp.latestPreparedHash
  latestPreparedView : tp'.latestPreparedView = tp.latestPreparedView
  latestPreparedSeqNumber : tp'.latestPreparedSeqNumber = tp.latestPreparedSeqNumber
  prefixLockedHash : tp'.prefixLockedHash = tp.prefixLockedHash
  prefixLockedView : tp'.prefixLockedView = tp.prefixLockedView
  prefixLockedSeqNumber : tp'.prefixLockedSeqNumber = tp.prefixLockedSeqNumber
  view : tp'.view = tp.view
  precommitData : tp'.precommitData = tp.precommitData

/-- Whether a call takes the component to a view. -/
def enters (tp : TrustedPara) : PublicCall → Bool
  | .sign | .increment_node_phase => tp.phase == PH1_PARALLEL
  | .changeView _ | .increment_view => true
  | _ => false

/-- What a call that accepts no certificate does to the memory of the component. -/
inductive Moved (entering : Bool) (tp tp' : TrustedPara) : Prop
  /-- Nothing. -/
  | stays (same : entering = false) (memory : Memory tp tp')
  /-- It enters a view, where nothing is pre-committed, and leaves the lock. -/
  | enters (on : entering = true) (v : View)
    (memory : Memory { tp with view := v, precommitData := ∅ } tp')
  /-- It enters a view and begins the slots of the lock anew. -/
  | resets (on : entering = true) (v : View)
    (memory : Memory { tp with view := v, precommitData := ∅, prefixLockedSeqNumber := 0 } tp')

omit [Hashing] in
theorem Memory.refl (tp : TrustedPara) : Memory tp tp := ⟨rfl, rfl, rfl, rfl, rfl, rfl, rfl, rfl⟩

omit [Hashing] in
/-- Moving the phase of the node on may enter the next view. -/
theorem moved_increment_node_phase (tp : TrustedPara) :
    Moved (tp.phase == PH1_PARALLEL) tp tp.increment_node_phase := by
  unfold increment_node_phase
  cases phase : tp.phase == PH1_PARALLEL with
  | true =>
    have here := beq_iff_eq.1 phase
    simp only [here]
    exact .resets rfl _ ⟨rfl, rfl, rfl, rfl, rfl, rfl, rfl, rfl⟩
  | false =>
    simp only [Bool.false_eq_true, if_false]
    refine .stays rfl ?_
    split
    · exact ⟨rfl, rfl, rfl, rfl, rfl, rfl, rfl, rfl⟩
    split
    · exact ⟨rfl, rfl, rfl, rfl, rfl, rfl, rfl, rfl⟩
    split
    · exact ⟨rfl, rfl, rfl, rfl, rfl, rfl, rfl, rfl⟩
    · exact Memory.refl tp

/-- A call accepts a certificate, or it moves the component without one. -/
theorem next_cases (tp : TrustedPara) (call : PublicCall) :
    (∃ nodes just getBlockFunc rd, call = .store nodes just getBlockFunc
        ∧ tp.certificate call = some rd)
      ∨ (tp.certificate call = none ∧ Moved (tp.enters call) tp (component.next tp call)) := by
  cases call with
  | sign => exact .inr ⟨rfl, moved_increment_node_phase tp⟩
  | prepare nodes block just =>
    refine .inr ⟨rfl, .stays rfl ?_⟩
    cases answered : tp.TEEprepare nodes block just with
    | none => rw [Component.next_of_throw answered]; exact Memory.refl tp
    | some result =>
      obtain ⟨out, tp'⟩ := result
      have next : component.next tp (.prepare nodes block just) = tp' :=
        Component.next_of_answer answered
      rw [next]
      cases set : out.set with
      | true =>
        -- A vote moves the phase of its block only.
        obtain ⟨rd, -, -, -, -, signed⟩ := TEEprepare_set answered set
        obtain rfl : (tp.signBlock block.hash rd.justh rd.justv block.seqNumber).2 = tp' :=
          congrArg Prod.snd signed
        exact ⟨rfl, rfl, rfl, rfl, rfl, rfl, rfl, rfl⟩
      | false =>
        obtain ⟨-, rfl⟩ := TEEprepare_unset answered set
        exact Memory.refl _
  | verifyLeaderQC nodes just blockHashes checkHashes =>
    refine .inr ⟨rfl, .stays rfl ?_⟩
    cases answered : tp.TEEverifyLeaderQC nodes just blockHashes checkHashes with
    | none =>
      have thrown : component.answer tp (.verifyLeaderQC nodes just blockHashes checkHashes)
          = none := by simp [component, answered]
      rw [Component.next_of_throw thrown]
      exact Memory.refl tp
    | some out =>
      have same : component.answer tp (.verifyLeaderQC nodes just blockHashes checkHashes)
          = some (out, tp) := by simp [component, answered]
      rw [Component.next_of_answer same]
      exact Memory.refl tp
  | store nodes just getBlockFunc =>
    cases accepted : tp.certificate (.store nodes just getBlockFunc) with
    | some rd => exact .inl ⟨nodes, just, getBlockFunc, rd, rfl, rfl⟩
    | none =>
      refine .inr ⟨rfl, .stays rfl ?_⟩
      cases answered : tp.TEEstore nodes just getBlockFunc with
      | none => rw [Component.next_of_throw answered]; exact Memory.refl tp
      | some result =>
        obtain ⟨out, tp'⟩ := result
        have next : component.next tp (.store nodes just getBlockFunc) = tp' :=
          Component.next_of_answer answered
        rw [next]
        cases set : out.set with
        | true =>
          obtain ⟨rd, tagged, -⟩ := TEEstore_set answered set
          simp [certificate, answered, set, tagged] at accepted
        | false =>
          obtain ⟨-, rfl⟩ := TEEstore_unset answered set
          exact Memory.refl _
  | changeView v => exact .inr ⟨rfl, .enters rfl v ⟨rfl, rfl, rfl, rfl, rfl, rfl, rfl, rfl⟩⟩
  | increment_node_phase => exact .inr ⟨rfl, moved_increment_node_phase tp⟩
  | increment_view => exact .inr ⟨rfl, .resets rfl _ ⟨rfl, rfl, rfl, rfl, rfl, rfl, rfl, rfl⟩⟩
  | set_phase phase => exact .inr ⟨rfl, .stays rfl ⟨rfl, rfl, rfl, rfl, rfl, rfl, rfl, rfl⟩⟩

end Cases

end TrustedPara

end ParaHotstuff
