import ParaHotstuff.Proofs.Para.Watching

/-! A parallel node and its component are in the same view, and leave it for the next one. -/

namespace ParaHotstuff

namespace HandlerPara

open Program Local

variable {cfg : Config} {l : State} {p : PID} {v first : View} {H : List ParaEvent}

section Traces

/--
What a node notes from where it sets out from a view, the newest event first.

The component signs at most three times, the last time a report for the next view, and the node
goes on with that report.
-/
def Arrives (p : PID) (v : View) (later : List ParaEvent) : Prop :=
  ∃ (rest : List ParaEvent) (signed : List RDataPara) (r : RDataPara),
    later = rest ++ .newview p r :: signed.map (.signed p)
    ∧ signed.length ≤ 3 ∧ signed.head? = some r ∧ r.propv = v + 1 ∧ r.phase = PH1_NEWVIEW

/-- Every time a node set out from a view that is not the last counter, it arrived. -/
def AlwaysArrives (H : List ParaEvent) : Prop :=
  ∀ later p v before, H = later ++ .leaving p v :: before → v + 1 < wordSize → Arrives p v later

theorem Arrives.more {later : List ParaEvent} (arrives : Arrives p v later)
    (added : List ParaEvent) : Arrives p v (added ++ later) := by
  obtain ⟨rest, signed, r, rfl, length, last, next, phase⟩ := arrives
  exact ⟨added ++ rest, signed, r, (List.append_assoc _ _ _).symm, length, last, next, phase⟩

/-- Whether a node arrives depends on what it notes after it set out. -/
theorem AlwaysArrives.leaves (arrives : AlwaysArrives H) {added : List ParaEvent}
    (once : ∀ q w, .leaving q w ∉ added) (arrived : v + 1 < wordSize → Arrives p v added) :
    AlwaysArrives (added ++ .leaving p v :: H) := by
  intro later q w before split small
  rcases List.append_eq_append_iff.1 split with ⟨between, laterSplit, rest⟩ | ⟨between, addedSplit, rest⟩
  · -- The node sets out at the new event, or at an older one.
    cases between with
    | nil =>
      obtain ⟨same, -⟩ := List.cons.inj rest
      obtain ⟨rfl, rfl⟩ := ParaEvent.leaving.inj same
      rw [laterSplit, List.append_nil]
      exact arrived small
    | cons e between =>
      obtain ⟨rfl, older⟩ := List.cons.inj rest
      have before := arrives between q w before older small
      rw [laterSplit]
      exact (before.more [.leaving p v]).more added
  · -- It does not set out again in between.
    cases between with
    | nil =>
      obtain ⟨same, -⟩ := List.cons.inj rest
      obtain ⟨rfl, rfl⟩ := ParaEvent.leaving.inj same
      rw [List.append_nil] at addedSplit
      exact addedSplit ▸ arrived small
    | cons e between =>
      obtain ⟨rfl, -⟩ := List.cons.inj rest
      have member : ParaEvent.leaving q w ∈ added := by
        rw [addedSplit]
        exact List.mem_append_right _ List.mem_cons_self
      exact absurd member (once q w)

/-- Other events change nothing about whether it arrived. -/
theorem AlwaysArrives.event (arrives : AlwaysArrives H) {e : ParaEvent}
    (other : ∀ q w, e ≠ .leaving q w) : AlwaysArrives (e :: H) := by
  intro later q w before split small
  cases later with
  | nil => exact absurd (List.cons.inj split).1 (other q w)
  | cons e' later =>
    obtain ⟨rfl, older⟩ := List.cons.inj split
    exact (arrives later q w before older small).more [e]

theorem leaving_notMem_signed (signed : List RDataPara) (q : PID) (w : View) :
    ParaEvent.leaving q w ∉ signed.map (.signed p) := by
  intro member
  obtain ⟨r, -, same⟩ := List.mem_map.1 member
  cases same

end Traces

section Signing

/-- A node and its component are in the same view, which they can leave, if it is not the last. -/
def Level (h : HandlerPara) : Prop :=
  h.view + 1 < wordSize → h.tpara.view = h.view
    ∧ (h.tpara.phase = PH1_NEWVIEW ∨ h.started = true ∧ h.tpara.phase = PH1_PARALLEL)

/-- A node whose component signed a number of statements, the newest one first. -/
def signedBy (l : State) (tpara : TrustedPara) (signed : List RDataPara) : State where
  node := { l.node with tpara := tpara }
  sent := l.sent
  history := signed.map (.signed l.node.myid) ++ l.history

/-- Each round of the loop signs one statement, and is the last one if that is of a later view. -/
theorem signUntil_succ {rounds : Nat} {view : View} {post : Just → State → Prop}
    {stop : State → Prop}
    (again : l.node.tpara.view ≤ view → (signUntil rounds view).Gives post stop
      (signedBy l l.node.tpara.increment_node_phase [l.node.tpara.nodeStatement]))
    (enough : view < l.node.tpara.view → post
      (Just.ofRDataPara l.node.tpara.nodeStatement
        [l.node.tpara.signature l.node.tpara.nodeStatement])
      (signedBy l l.node.tpara.increment_node_phase [l.node.tpara.nodeStatement])) :
    (signUntil (rounds + 1) view).Gives post stop l := by
  unfold signUntil
  rw [gives_bind, gives_callTEEsignPara, Just.getRDataPara_ofRDataPara, gives_bind,
    gives_ofOption_some]
  exact gives_ite (fun early => again early) fun late => enough (Nat.lt_of_not_le late)

/-- The component signs a last statement of the view, and one of the next view. -/
theorem signUntil_parallel {rounds : Nat} (here : l.node.tpara.view = v)
    (phase : l.node.tpara.phase = PH1_PARALLEL) (small : v + 1 < wordSize)
    {post : Just → State → Prop} {stop : State → Prop}
    (rest : ∀ r s tpara older, r.propv = v + 1 → r.phase = PH1_NEWVIEW →
      post (Just.ofRDataPara r [s]) (signedBy l tpara [r, older])) :
    (signUntil (rounds + 2) v).Gives post stop l := by
  -- The first statement takes the component to the next view.
  have next : l.node.tpara.increment_node_phase.view = v + 1
      ∧ l.node.tpara.increment_node_phase.phase = PH1_NEWVIEW := by
    unfold TrustedPara.increment_node_phase
    rw [phase]
    have view : (v + 1) % wordSize = v + 1 := Nat.mod_eq_of_lt small
    refine ⟨?_, rfl⟩
    rw [← view, ← here]
    rfl
  refine signUntil_succ (fun _ => ?_) fun late => absurd late (by rw [here]; exact Nat.lt_irrefl v)
  refine signUntil_succ (fun early => ?_) fun _ => ?_
  · have same : l.node.tpara.increment_node_phase.view ≤ v := early
    rw [next.1] at same
    exact absurd same (Nat.not_succ_le_self v)
  · exact rest _ _ _ _ next.1 next.2

/-- Before that it signs a report for the view, if it has not done so yet. -/
theorem signUntil_newview {rounds : Nat} (here : l.node.tpara.view = v)
    (phase : l.node.tpara.phase = PH1_NEWVIEW) (small : v + 1 < wordSize)
    {post : Just → State → Prop} {stop : State → Prop}
    (rest : ∀ r s tpara older oldest, r.propv = v + 1 → r.phase = PH1_NEWVIEW →
      post (Just.ofRDataPara r [s]) (signedBy l tpara [r, older, oldest])) :
    (signUntil (rounds + 3) v).Gives post stop l := by
  have next : l.node.tpara.increment_node_phase.view = v
      ∧ l.node.tpara.increment_node_phase.phase = PH1_PARALLEL := by
    unfold TrustedPara.increment_node_phase
    rw [phase]
    exact ⟨here, rfl⟩
  refine signUntil_succ (fun _ => ?_) fun late => absurd late (by rw [here]; exact Nat.lt_irrefl v)
  exact signUntil_parallel (l := signedBy l l.node.tpara.increment_node_phase
    [l.node.tpara.nodeStatement]) next.1 next.2 small
    fun r s tpara older ahead phase => rest r s tpara older _ ahead phase

/-- Where the component keeps up, the loop ends after at most three statements. -/
theorem signUntil_level (level : Level l.node) (small : l.node.view + 1 < wordSize) (rounds : Nat)
    {post : Just → State → Prop} {stop : State → Prop}
    (rest : ∀ r s tpara signed, signed.length ≤ 3 → signed.head? = some r →
      r.propv = l.node.view + 1 → r.phase = PH1_NEWVIEW →
      post (Just.ofRDataPara r [s]) (signedBy l tpara signed)) :
    (signUntil (rounds + 3) l.node.view).Gives post stop l := by
  obtain ⟨here, newview | ⟨-, parallel⟩⟩ := level small
  · exact signUntil_newview here newview small fun r s tpara older oldest next phase =>
      rest r s tpara _ (Nat.le_refl 3) rfl next phase
  · exact signUntil_parallel here parallel small fun r s tpara older next phase =>
      rest r s tpara _ (Nat.le_succ 2) rfl next phase

/-- No counter is later than the last one, so from there the loop goes on forever. -/
theorem signUntil_last (trusted : l.node.tpara.view < wordSize) (last : wordSize ≤ v + 1)
    (rounds : Nat) :
    (signUntil rounds v).Gives (fun _ _ => False)
      (fun l' => ∃ tpara signed, l' = signedBy l tpara signed) l := by
  -- Induction on the rounds; the counter of the component stays a counter.
  induction rounds generalizing l with
  | zero => exact ⟨l.node.tpara, [], rfl⟩
  | succ rounds ih =>
    refine signUntil_succ (fun _ => ?_) fun late => by lia
    refine (ih (TrustedPara.view_increment_node_phase trusted)).mono (fun _ _ none' => none') ?_
    rintro l' ⟨tpara, signed, rfl⟩
    refine ⟨tpara, signed ++ [l.node.tpara.nodeStatement], ?_⟩
    simp [signedBy]

/-- The loop ends if and only if there is a later counter. -/
theorem signUntil_returns_iff (trusted : l.node.tpara.view < wordSize) (level : Level l.node) :
    (∃ rounds just l', signUntil rounds l.node.view l = .done just l')
      ↔ l.node.view + 1 < wordSize := by
  constructor
  · rintro ⟨rounds, just, l', ended⟩
    by_contra last
    have never := signUntil_last trusted (Nat.le_of_not_lt last) rounds
    unfold Gives at never
    rw [ended] at never
    exact never
  · intro small
    -- Three rounds are enough.
    have ends : (signUntil (0 + 3) l.node.view).Gives (fun _ _ => True) (fun _ => False) l :=
      signUntil_level level small 0 fun _ _ _ _ _ _ _ _ => trivial
    unfold Gives at ends
    cases ended : signUntil (0 + 3) l.node.view l with
    | done just l' => exact ⟨_, just, l', ended⟩
    | halted l' =>
      rw [ended] at ends
      exact ends.elim

end Signing

/-- A node that went on from a view, level with its component, and arrived whenever it set out. -/
structure InStep (first : View) (h : HandlerPara) (H : List ParaEvent) : Prop where
  level : Level h
  arrives : AlwaysArrives H
  since : first ≤ h.view

theorem inStep_init (choices : PID → List Nat) (p : PID) : InStep 0 (init cfg choices p) [] where
  level := fun _ => ⟨rfl, .inl rfl⟩
  arrives := fun later q w before split => by simp at split
  since := Nat.le_refl 0

theorem level_entered (h : HandlerPara) (v : View) : Level (h.entered cfg v) :=
  fun _ => ⟨rfl, .inl rfl⟩

/-- A node that leaves a view arrives in the next one, or never. -/
theorem InStep.leaves (sound : Sound l) (inStep : InStep first l.node l.history) :
    (leave cfg).Gives (fun _ l' => InStep first l'.node l'.history)
      (fun l' => InStep first l'.node l'.history) l := by
  unfold leave
  rw [gives_bind, gives_this, gives_bind, gives_note, gives_bind]
  by_cases small : l.node.view + 1 < wordSize
  · have rounds : signRounds = 2 * wordSize - 2 + 3 := by decide
    rw [rounds]
    refine signUntil_level
      (l := { l with history := .leaving l.node.myid l.node.view :: l.history })
      inStep.level small _ fun r s tpara signed length last next phase => ?_
    rw [gives_bind, gives_changeView, Just.getRDataPara_ofRDataPara, gives_bind,
      gives_ofOption_some, gives_bind, gives_this]
    -- It has the report for the view it entered.
    have reached : (l.node.view + 1) % wordSize = l.node.view + 1 := Nat.mod_eq_of_lt small
    rw [reached]
    have fits : (r.propv == l.node.view + 1 && r.phase == PH1_NEWVIEW) = true := by
      rw [next, phase]
      simp
    refine gives_ite (fun _ => ?_) fun misfit => absurd fits misfit
    rw [gives_bind, gives_note]
    have arrived : Arrives l.node.myid l.node.view
        (.newview l.node.myid r :: signed.map (.signed l.node.myid)) :=
      ⟨[], signed, r, rfl, length, last, next, phase⟩
    refine ⟨level_entered _ _, ?_, Nat.le_succ_of_le inStep.since⟩
    refine @AlwaysArrives.leaves l.node.myid l.node.view l.history inStep.arrives
      (.newview l.node.myid r :: signed.map (.signed l.node.myid)) (fun q w member => ?_)
      fun _ => arrived
    rcases List.mem_cons.1 member with same | older
    · cases same
    · exact leaving_notMem_signed signed q w older
  · refine (signUntil_last (l := { l with
      history := .leaving l.node.myid l.node.view :: l.history }) sound.trusted
      (Nat.le_of_not_lt small) _).mono (fun _ _ none' => none'.elim) ?_
    rintro l' ⟨tpara, signed, rfl⟩
    refine ⟨fun later => absurd later small, ?_, inStep.since⟩
    exact inStep.arrives.leaves (leaving_notMem_signed signed) fun later => absurd later small

variable [Hashing]

theorem InStep.watch : Watch cfg (InStep first) where
  place := fun inStep same =>
    { inStep with
      level := by
        unfold Level
        rw [same.view, same.trustedView, same.phase, same.started]
        exact inStep.level
      since := by rw [same.view]; exact inStep.since }
  event := fun inStep other =>
    { inStep with
      arrives := inStep.arrives.event fun q w same => by rw [same] at other; cases other }
  executes := fun inStep _ _ =>
    { inStep with arrives := inStep.arrives.event fun q w same => by cases same }
  leaves := InStep.leaves
  starts := fun {h H} inStep fresh =>
    { inStep with
      level := fun small => by
        -- A node that has not started is in the phase in which it entered its view.
        obtain ⟨here, newview | ⟨started, -⟩⟩ := inStep.level small
        · unfold TrustedPara.increment_node_phase
          rw [newview]
          exact ⟨here, .inr ⟨rfl, rfl⟩⟩
        · rw [fresh] at started
          cases started }
  change := fun v inStep later _ =>
    { inStep with
      level := level_entered _ _
      since := inStep.since.trans later.le }

variable (choices : PID → List Nat) (depth : Nat) (stimuli more : List (Stimulus MsgPara Input))

/-- Wherever a node is led, it stays in step with its component. -/
theorem inStep_serve (p : PID)
    (counters : ∀ msg, Stimulus.message msg ∈ stimuli → msg.wordSized = true) :
    Sound ((protocol cfg depth).serve stimuli ⟨init cfg choices p, [], []⟩).state
      ∧ InStep 0 ((protocol cfg depth).serve stimuli ⟨init cfg choices p, [], []⟩).state.node
        ((protocol cfg depth).serve stimuli ⟨init cfg choices p, [], []⟩).state.history :=
  ((@InStep.watch cfg 0 _).serve depth counters).state
    ⟨sound_init choices p, inStep_init choices p⟩

/-- However it is led on, it does not go back to an earlier view. -/
theorem view_le_serve (p : PID)
    (counters : ∀ msg, Stimulus.message msg ∈ stimuli ++ more → msg.wordSized = true) :
    ((protocol cfg depth).serve stimuli ⟨init cfg choices p, [], []⟩).state.node.view
      ≤ ((protocol cfg depth).serve (stimuli ++ more) ⟨init cfg choices p, [], []⟩).state.node.view
    := by
  have reached := @inStep_serve cfg _ choices depth stimuli p fun msg member =>
    counters msg (List.mem_append_left _ member)
  rw [Protocol.serve_append]
  cases served : (protocol cfg depth).serve stimuli ⟨init cfg choices p, [], []⟩ with
  | halted l => exact Nat.le_refl _
  | done result l =>
    rw [served] at reached
    -- From there on it stays at or after the view it is in.
    have here : InStep l.node.view l.node l.history := { reached.2 with since := Nat.le_refl _ }
    have later := ((@InStep.watch cfg l.node.view _).serve depth fun msg member =>
      counters msg (List.mem_append_right stimuli member)).state ⟨reached.1, here⟩
    exact later.2.since

/--
Whatever a node receives and whenever it starts, it is in the view of its component, while there
is a later view; it never goes back to an earlier view; and whenever it set out from a view, the
component signed at most three times, the last time a report for the next view.
-/
theorem in_step_with_component (p : PID)
    (counters : ∀ msg, Stimulus.message msg ∈ stimuli ++ more → msg.wordSized = true) :
    let l := ((protocol cfg depth).serve stimuli ⟨init cfg choices p, [], []⟩).state
    let l' := ((protocol cfg depth).serve (stimuli ++ more) ⟨init cfg choices p, [], []⟩).state
    (l.node.view + 1 < wordSize → l.node.tpara.view = l.node.view)
      ∧ l.node.view ≤ l'.node.view
      ∧ ∀ later q v before, l.history = later ++ .leaving q v :: before → v + 1 < wordSize →
        Arrives q v later := by
  have reached := @inStep_serve cfg _ choices depth stimuli p fun msg member =>
    counters msg (List.mem_append_left _ member)
  exact ⟨fun small => (reached.2.level small).1,
    view_le_serve choices depth stimuli more p counters, reached.2.arrives⟩

omit [Hashing] in
/-- A node that is told of view 3 before it starts, and then waits in vain. -/
def lateStart : List (Stimulus MsgPara Input) :=
  [.message (.verify ⟨⟨Hash.ofBool false, 3, Hash.default, 0, PH1_NEWVIEW, 0⟩, [], []⟩),
    .input (.start 0), .input .timeout]

omit [Hashing] in
/-- It leaves view 3 with its component. -/
theorem in_step_with_component_lateStart :
    let _ := Checksum.hashing
    let l := ((protocol Schedule.fourNodes 1).serve lateStart
      ⟨init Schedule.fourNodes (fun _ => []) 1, [], []⟩).state
    let l' := ((protocol Schedule.fourNodes 1).serve (lateStart ++ lateStart)
      ⟨init Schedule.fourNodes (fun _ => []) 1, [], []⟩).state
    (l.node.view + 1 < wordSize → l.node.tpara.view = l.node.view)
      ∧ l.node.view ≤ l'.node.view
      ∧ ∀ later q v before, l.history = later ++ .leaving q v :: before → v + 1 < wordSize →
        Arrives q v later := by
  intro hashing
  refine in_step_with_component (fun _ => []) 1 lateStart lateStart 1 fun msg member => ?_
  simp only [lateStart, List.cons_append, List.nil_append, List.mem_cons, Stimulus.message.injEq,
    List.not_mem_nil, or_false, reduceCtorEq, false_or] at member
  rcases member with rfl | rfl <;> rfl

/--
Wherever a node is led, the loop that leaves its view ends if and only if there is a later view.

Every time it set out from such a view before, it went on with a report.
-/
theorem startNewViewPara_returns_iff (p : PID)
    (counters : ∀ msg, Stimulus.message msg ∈ stimuli → msg.wordSized = true) :
    let l := ((protocol cfg depth).serve stimuli ⟨init cfg choices p, [], []⟩).state
    ((∃ rounds just l', signUntil rounds l.node.view l = .done just l')
        ↔ l.node.view + 1 < wordSize)
      ∧ ∀ later q v before, l.history = later ++ .leaving q v :: before → v + 1 < wordSize →
        ∃ r, .newview q r ∈ later := by
  intro l
  have reached := @inStep_serve cfg _ choices depth stimuli p counters
  refine ⟨signUntil_returns_iff reached.1.trusted reached.2.level, ?_⟩
  intro later q v before split small
  obtain ⟨rest, signed, r, rfl, -⟩ := reached.2.arrives later q v before split small
  exact ⟨r, List.mem_append_right _ List.mem_cons_self⟩

omit [Hashing] in
/-- From view 3 the loop ends. -/
theorem startNewViewPara_returns_lateStart :
    let _ := Checksum.hashing
    let l := ((protocol Schedule.fourNodes 1).serve lateStart
      ⟨init Schedule.fourNodes (fun _ => []) 1, [], []⟩).state
    ((∃ rounds just l', signUntil rounds l.node.view l = .done just l')
        ↔ l.node.view + 1 < wordSize)
      ∧ ∀ later q v before, l.history = later ++ .leaving q v :: before → v + 1 < wordSize →
        ∃ r, .newview q r ∈ later := by
  intro hashing
  refine startNewViewPara_returns_iff (fun _ => []) 1 lateStart 1 fun msg member => ?_
  simp only [lateStart, List.mem_cons, Stimulus.message.injEq, List.not_mem_nil, or_false,
    reduceCtorEq] at member
  subst member
  rfl

omit [Hashing] in
/-- An announcement of the last view there is, without any signature. -/
def lastView : MsgPara :=
  .verify ⟨⟨Hash.ofBool false, wordSize - 1, Hash.default, 0, PH1_NEWVIEW, 0⟩, [], []⟩

omit [Hashing] in
/-- It takes a node to the last view, and the loop that leaves that view never ends. -/
theorem startNewViewPara_loops :
    let _ := Checksum.hashing
    let l := ((protocol Schedule.fourNodes 1).serve [.input (.start 0), .message lastView]
      ⟨init Schedule.fourNodes (fun _ => []) 1, [], []⟩).state
    lastView.wordSized = true
      ∧ ¬ ∃ rounds just l', signUntil rounds l.node.view l = .done just l' := by
  intro hashing l
  refine ⟨rfl, ?_⟩
  rintro ⟨rounds, just, l', ended⟩
  have view : l.node.view = wordSize - 1 := by decide +kernel
  have trusted : l.node.tpara.view < wordSize := by decide +kernel
  have never := signUntil_last trusted (show wordSize ≤ l.node.view + 1 by rw [view]; decide) rounds
  unfold Gives at never
  rw [ended] at never
  exact never

end HandlerPara

end ParaHotstuff
