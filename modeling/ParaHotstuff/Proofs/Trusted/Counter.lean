import ParaHotstuff.Trusted.Calls
import ParaHotstuff.Data.Checksum
import ParaHotstuff.Handler.Schedule
import Mathlib.Data.Prod.Lex

/-! Components sign at strictly increasing views and phases, whatever they are called with. -/

namespace ParaHotstuff

/--
What a signing counter guarantees of the statements signed, in order.

Within a view the phases come in the order given.
-/
structure MonotoneCounter (order : List Phase1) (statements : List RData) : Prop where
  /-- Views do not decrease, and within a view the phase moves on. -/
  increasing : statements.Pairwise fun r r' =>
    r.propv < r'.propv ∨ (r.propv = r'.propv ∧ order.idxOf r.phase < order.idxOf r'.phase)
  /-- One view and phase has one statement. -/
  unique : ∀ r ∈ statements, ∀ r' ∈ statements, r.propv = r'.propv → r.phase = r'.phase → r = r'
  /-- A new-view statement comes after all statements of earlier views. -/
  newviewLast : ∀ before r after, statements = before ++ r :: after → r.phase = PH1_NEWVIEW →
    ∀ r' ∈ statements, r'.propv < r.propv → r' ∈ before

/-- Strictly increasing statements are unique, and none of an earlier view comes late. -/
theorem MonotoneCounter.of_increasing {order : List Phase1} {statements : List RData}
    (increasing : statements.Pairwise fun r r' =>
      r.propv < r'.propv ∨ (r.propv = r'.propv ∧ order.idxOf r.phase < order.idxOf r'.phase)) :
    MonotoneCounter order statements where
  increasing := increasing
  unique := by
    intro r member r' member' view phase
    by_contra different
    -- Of two different statements one comes first, and then its view or phase is lower.
    obtain ⟨before, after, rfl⟩ := List.append_of_mem member
    obtain ⟨-, tail, across⟩ := List.pairwise_append.1 increasing
    rcases List.mem_append.1 member' with earlier | later
    · rcases across r' earlier r List.mem_cons_self with lower | ⟨-, lower⟩
      · rw [view] at lower
        exact Nat.lt_irrefl _ lower
      · rw [phase] at lower
        exact Nat.lt_irrefl _ lower
    · rcases List.mem_cons.1 later with same | later
      · exact different same.symm
      · rcases (List.pairwise_cons.1 tail).1 r' later with lower | ⟨-, lower⟩
        · rw [view] at lower
          exact Nat.lt_irrefl _ lower
        · rw [phase] at lower
          exact Nat.lt_irrefl _ lower
  newviewLast := by
    intro before r after split _ r' member lower
    rw [split] at increasing member
    obtain ⟨-, tail, -⟩ := List.pairwise_append.1 increasing
    rcases List.mem_append.1 member with earlier | later
    · exact earlier
    · exfalso
      rcases List.mem_cons.1 later with rfl | later
      · exact Nat.lt_irrefl _ lower
      · -- What comes after the new-view statement has at least its view.
        rcases (List.pairwise_cons.1 tail).1 r' later with higher | ⟨same, -⟩ <;> lia

/-- One tick of a counter: the next phase of the same view, or some phase of the next view. -/
def Ticks (order : List Phase1) (v : View) (ph : Phase1) (v' : View) (ph' : Phase1) : Prop :=
  ph' ∈ order
    ∧ (v' = v ∧ order.idxOf ph < order.idxOf ph' ∨ v' = (v + 1) % wordSize)

section Counting

variable {State Call : Type} (c : Component State Call Just) (view : State → View)

/-- No call of a sequence takes the view from the last 32-bit number back to zero. -/
def NeverWraps (s : State) (calls : List Call) : Prop :=
  ∀ step ∈ c.steps s calls, view step.1 + 1 = wordSize → view (c.next step.1 step.2) ≠ 0

variable {c view} {phase : State → Phase1} {order : List Phase1}

/--
A component whose calls either sign at its view and phase and tick, or sign nothing and keep both,
signs as a monotone counter does.
-/
theorem monotoneCounter_of_ticks
    (call_cases : ∀ s call, phase s ∈ order →
      (∃ r, c.statement s call = some r ∧ r.propv = view s ∧ r.phase = phase s
        ∧ Ticks order (view s) (phase s) (view (c.next s call)) (phase (c.next s call)))
      ∨ (c.statement s call = none ∧ view (c.next s call) = view s
        ∧ phase (c.next s call) = phase s))
    {s : State} (known : phase s ∈ order) (small : view s < wordSize) {calls : List Call}
    (unwrapped : NeverWraps c view s calls) : MonotoneCounter order (c.signed s calls) := by
  -- Every state on the way is in a known phase of a 32-bit view.
  have inside : ∀ s call, (phase s ∈ order ∧ view s < wordSize) →
      phase (c.next s call) ∈ order ∧ view (c.next s call) < wordSize := by
    intro s call state
    rcases call_cases s call state.1 with ⟨_, _, _, _, after, same | next⟩ | ⟨_, v, ph⟩
    · exact ⟨after, same.1 ▸ state.2⟩
    · exact ⟨after, next ▸ Nat.mod_lt _ (by decide)⟩
    · rw [v, ph]
      exact state
  let clock : State → Lex (Nat × Nat) := fun s => toLex (view s, order.idxOf (phase s))
  let time : RData → Lex (Nat × Nat) := fun r => toLex (r.propv, order.idxOf r.phase)
  have ticks : ∀ step ∈ c.steps s calls,
      (∃ r, c.statement step.1 step.2 = some r ∧ time r = clock step.1
        ∧ clock step.1 < clock (c.next step.1 step.2))
      ∨ (c.statement step.1 step.2 = none ∧ clock (c.next step.1 step.2) = clock step.1) := by
    intro step member
    have state := Component.invariant_steps inside ⟨known, small⟩ member
    rcases call_cases step.1 step.2 state.1 with ⟨r, made, v, ph, -, moved⟩ | ⟨silent, v, ph⟩
    · refine .inl ⟨r, made, by simp only [time, clock, v, ph], ?_⟩
      rw [Prod.Lex.toLex_lt_toLex]
      rcases moved with ⟨same, later⟩ | next
      · exact .inr ⟨same.symm, later⟩
      · -- The next view is higher because the counter does not start over.
        have unwrapped := unwrapped step member
        have below := state.2
        rw [next] at unwrapped
        refine .inl ?_
        rw [next]
        by_cases last : view step.1 + 1 = wordSize
        · exact absurd (by rw [last, Nat.mod_self]) (unwrapped last)
        · rw [Nat.mod_eq_of_lt (by lia)]
          exact Nat.lt_succ_self _
    · exact .inr ⟨silent, by simp only [clock, v, ph]⟩
  have keeps : ∀ step ∈ c.steps s calls, clock step.1 ≤ clock (c.next step.1 step.2) := by
    intro step member
    rcases ticks step member with ⟨_, _, _, forward⟩ | ⟨_, same⟩
    · exact le_of_lt forward
    · exact le_of_eq same.symm
  have moves : ∀ step ∈ c.steps s calls, ∀ o, c.statement step.1 step.2 = some o →
      time o = clock step.1 ∧ clock step.1 < clock (c.next step.1 step.2) := by
    intro step member o made
    rcases ticks step member with ⟨r, made', now, forward⟩ | ⟨silent, _⟩
    · obtain rfl := Option.some.inj (made.symm.trans made')
      exact ⟨now, forward⟩
    · rw [silent] at made
      cases made
  have ordered := (Component.pairwise_of_clock keeps moves).1
  exact MonotoneCounter.of_increasing (ordered.imp fun lower => Prod.Lex.toLex_lt_toLex.1 lower)

end Counting

namespace TrustedFun

/-- The phases in the order the component goes through them in a view. -/
def phases : List Phase1 := [PH1_NEWVIEW, PH1_PREPARE, PH1_PRECOMMIT, PH1_COMMIT]

/-- Moving to the next phase is a tick. -/
theorem increment_ticks {tf : TrustedFun} (known : tf.phase ∈ phases) :
    Ticks phases tf.view tf.phase tf.increment.view tf.increment.phase := by
  -- One case for each phase the component can be in.
  simp only [phases, List.mem_cons, List.not_mem_nil, or_false] at known
  rcases known with phase | phase | phase | phase
  · rw [show tf.increment = { tf with phase := PH1_PREPARE } by simp only [increment, phase]; rfl]
    have later : phases.idxOf PH1_NEWVIEW < phases.idxOf PH1_PREPARE := by decide
    exact ⟨show PH1_PREPARE ∈ phases by decide, .inl ⟨rfl, phase ▸ later⟩⟩
  · rw [show tf.increment = { tf with phase := PH1_PRECOMMIT } by
      simp only [increment, phase]; rfl]
    have later : phases.idxOf PH1_PREPARE < phases.idxOf PH1_PRECOMMIT := by decide
    exact ⟨show PH1_PRECOMMIT ∈ phases by decide, .inl ⟨rfl, phase ▸ later⟩⟩
  · rw [show tf.increment = { tf with phase := PH1_COMMIT } by simp only [increment, phase]; rfl]
    have later : phases.idxOf PH1_PRECOMMIT < phases.idxOf PH1_COMMIT := by decide
    exact ⟨show PH1_COMMIT ∈ phases by decide, .inl ⟨rfl, phase ▸ later⟩⟩
  · rw [show tf.increment = { tf with phase := PH1_NEWVIEW, view := (tf.view + 1) % wordSize } by
      simp only [increment, phase]; rfl]
    exact ⟨show PH1_NEWVIEW ∈ phases by decide, .inr rfl⟩

/-- Each call signs and ticks, or leaves the component as it was. -/
theorem call_ticks (tf : TrustedFun) (call : Call) (known : tf.phase ∈ phases) :
    (∃ r, component.statement tf call = some r ∧ r.propv = tf.view ∧ r.phase = tf.phase
      ∧ Ticks phases tf.view tf.phase (component.next tf call).view
        (component.next tf call).phase)
    ∨ (component.statement tf call = none ∧ (component.next tf call).view = tf.view
      ∧ (component.next tf call).phase = tf.phase) := by
  rcases call_cases tf call with ⟨tf₁, h1, h2, v2, view, phase, made, next⟩ | ⟨silent, same⟩
  · have tick := increment_ticks (phase.symm ▸ known : tf₁.phase ∈ phases)
    rw [next]
    rw [view, phase] at tick
    exact .inl ⟨_, made, view, phase, tick⟩
  · exact .inr ⟨silent, by rw [same], by rw [same]⟩

end TrustedFun

namespace TrustedCh

variable [Hashing] [SignatureBytes]

omit [Hashing] [SignatureBytes] in
/-- The phases in the order the component goes through them in a view. -/
def phases : List Phase1 := [PH1_PREPARE, PH1_NEWVIEW]

omit [Hashing] [SignatureBytes] in
/-- Moving to the next phase is a tick. -/
theorem increment_ticks {tp : TrustedCh} (known : tp.phase ∈ phases) :
    Ticks phases tp.view tp.phase tp.increment.view tp.increment.phase := by
  simp only [phases, List.mem_cons, List.not_mem_nil, or_false] at known
  rcases known with phase | phase
  · rw [show tp.increment = { tp with phase := PH1_NEWVIEW } by simp only [increment, phase]; rfl]
    have later : phases.idxOf PH1_PREPARE < phases.idxOf PH1_NEWVIEW := by decide
    exact ⟨show PH1_NEWVIEW ∈ phases by decide, .inl ⟨rfl, phase ▸ later⟩⟩
  · rw [show tp.increment = { tp with phase := PH1_PREPARE, view := (tp.view + 1) % wordSize } by
      simp only [increment, phase]; rfl]
    exact ⟨show PH1_PREPARE ∈ phases by decide, .inr rfl⟩

/-- Each call signs and ticks, or keeps the view and the phase. -/
theorem call_ticks (tp : TrustedCh) (call : Call) (known : tp.phase ∈ phases) :
    (∃ r, component.statement tp call = some r ∧ r.propv = tp.view ∧ r.phase = tp.phase
      ∧ Ticks phases tp.view tp.phase (component.next tp call).view
        (component.next tp call).phase)
    ∨ (component.statement tp call = none ∧ (component.next tp call).view = tp.view
      ∧ (component.next tp call).phase = tp.phase) := by
  cases call with
  | sign => exact .inl ⟨_, rfl, rfl, rfl, increment_ticks known⟩
  | prepare nodes block block0 block1 =>
    obtain ⟨view, phase⟩ := tp.storeChain_frame block.just block0.just block0 block1
    rcases prepare_cases tp nodes block block0 block1 with
      ⟨-, silent, next⟩ | ⟨-, -, silent, next⟩ | ⟨-, -, made, next⟩
    · exact .inr ⟨silent, by rw [next], by rw [next]⟩
    · -- A block that fails the last test has moved the lock, but signs nothing.
      exact .inr ⟨silent, by rw [next, view], by rw [next, phase]⟩
    · have tick := increment_ticks (phase.symm ▸ known :
        (tp.storeChain block.just block0.just block0 block1).phase ∈ phases)
      rw [view, phase] at tick
      rw [next]
      exact .inl ⟨_, made, view, phase, tick⟩

end TrustedCh

/-- The components of both protocols sign as monotone counters as long as the view does not wrap. -/
theorem signing_counter [Hashing] [SignatureBytes] (id : PID) (priv : KEY) (q : Nat) :
    (∀ calls, NeverWraps TrustedFun.component TrustedFun.view (TrustedFun.init id priv q) calls →
      MonotoneCounter TrustedFun.phases
        (TrustedFun.component.signed (TrustedFun.init id priv q) calls))
    ∧ ∀ calls, NeverWraps TrustedCh.component TrustedCh.view (TrustedCh.init id priv q) calls →
      MonotoneCounter TrustedCh.phases
        (TrustedCh.component.signed (TrustedCh.init id priv q) calls) := by
  constructor
  · intro calls unwrapped
    exact monotoneCounter_of_ticks TrustedFun.call_ticks
      (show PH1_NEWVIEW ∈ TrustedFun.phases by decide) (show 0 < wordSize by decide) unwrapped
  · intro calls unwrapped
    exact monotoneCounter_of_ticks TrustedCh.call_ticks
      (show PH1_NEWVIEW ∈ TrustedCh.phases by decide) (show 0 < wordSize by decide) unwrapped

/-- Signing five times in a row moves the counters of both components to a later view. -/
theorem signing_counter_fiveSigns :
    let _ := Checksum.hashing
    let _ := Checksum.signatureBytes
    (NeverWraps TrustedFun.component TrustedFun.view (TrustedFun.init 0 0 3)
        (List.replicate 5 .sign)
      ∧ MonotoneCounter TrustedFun.phases
        (TrustedFun.component.signed (TrustedFun.init 0 0 3) (List.replicate 5 .sign)))
    ∧ NeverWraps TrustedCh.component TrustedCh.view (TrustedCh.init 0 0 3)
        (List.replicate 5 .sign)
      ∧ MonotoneCounter TrustedCh.phases
        (TrustedCh.component.signed (TrustedCh.init 0 0 3) (List.replicate 5 .sign)) := by
  intro _ _
  have unwrappedFun : NeverWraps TrustedFun.component TrustedFun.view (TrustedFun.init 0 0 3)
      (List.replicate 5 .sign) := by
    unfold NeverWraps
    decide +kernel
  have unwrappedCh : NeverWraps TrustedCh.component TrustedCh.view (TrustedCh.init 0 0 3)
      (List.replicate 5 .sign) := by
    unfold NeverWraps
    decide +kernel
  exact ⟨⟨unwrappedFun, (signing_counter 0 0 3).1 _ unwrappedFun⟩,
    unwrappedCh, (signing_counter 0 0 3).2 _ unwrappedCh⟩

end ParaHotstuff
