import ParaHotstuff.Proofs.Chained.Knowledge

/-! How the history of a chained run grows: votes, entries into views, and executed blocks. -/

namespace ParaHotstuff

namespace HandlerCh

variable {cfg : Config} {H : List ChEvent} {p q : PID} {u v c : View} {r : RData} {b : JBlock}

/-- Votes that count come first in their view. -/
@[simp] theorem slot_prepare (v : View) : slot v PH1_PREPARE = 2 * v := by
  simp [slot]

theorem slot_newview (v : View) : slot v PH1_NEWVIEW = 2 * v + 1 := by
  simp [slot, show PH1_NEWVIEW ≠ PH1_PREPARE by decide]

theorem le_slot (v : View) (phase : Phase1) : 2 * v ≤ slot v phase := Nat.le_add_right _ _

theorem slot_le (v : View) (phase : Phase1) : slot v phase ≤ 2 * v + 1 := by
  unfold slot
  split <;> omega

section Order

/-- A node signs one vote at each place of its component's order. -/
theorem Ordered.unique (ordered : Ordered H) {r' : RData} {b' : JBlock}
    (first : ChEvent.voted p r b ∈ H) (second : ChEvent.voted p r' b' ∈ H)
    (same : slot r.propv r.phase = slot r'.propv r'.phase) : r = r' ∧ b = b' := by
  -- Induction on the history; of two votes at one place the newer one would come too late.
  induction H with
  | nil => cases first
  | cons e H ih =>
    obtain ⟨ordered, latest⟩ := ordered
    rcases List.mem_cons.1 first with rfl | older
    · rcases List.mem_cons.1 second with new | older'
      · cases new
        exact ⟨rfl, rfl⟩
      · have bound := latest p r b rfl _ older' rfl
        simp only [reach] at bound
        omega
    · rcases List.mem_cons.1 second with rfl | older'
      · have bound := latest p r' b' rfl _ older rfl
        simp only [reach] at bound
        omega
      · exact ih ordered older older'

/-- A node that has passed a view never votes there. -/
theorem Ordered.absent (ordered : Ordered H) (passed : Passed H p v) : ¬ PrepVoted H p v b := by
  obtain ⟨older, ⟨added, rfl⟩, ⟨e, member, mine, beyond⟩, silent⟩ := passed
  -- Induction on what was added since; a vote there would be below what was reached.
  induction added with
  | nil => exact silent b
  | cons e' added ih =>
    obtain ⟨ordered, latest⟩ := ordered
    rintro ⟨r, voted, view, phase⟩
    rcases List.mem_cons.1 voted with new | before
    · have bound := latest p r b new.symm e (List.mem_append_right _ member) mine
      rw [view, phase, slot_prepare] at bound
      exact absurd beyond (Nat.not_lt.2 bound)
    · exact ih ordered ⟨r, before, view, phase⟩

end Order

section Reading

@[simp] theorem executedBy_voted : executedBy (.voted q r b :: H) p = executedBy H p := rfl

@[simp] theorem executedBy_entered {started : Bool} {trusted : View} {phase : Phase1} :
    executedBy (.entered q started v trusted phase :: H) p = executedBy H p := rfl

/-- Blocks that a node executes are those it has executed then, and none of another node. -/
theorem executedBy_executed (walk : List JBlock) :
    executedBy (walk.map (.executed q) ++ H) p
      = (if q = p then walk else []) ++ executedBy H p := by
  have own : executedBy (walk.map (.executed q)) p = if q = p then walk else [] := by
    by_cases same : q = p
    · simp only [executedBy, List.filterMap_map, same, if_true, Function.comp_def]
      exact List.filterMap_some
    · simp [executedBy, List.filterMap_map, same]
  rw [executedBy, List.filterMap_append]
  exact congrArg (· ++ _) own

theorem lastVote_voted : lastVote (.voted p r b :: H) p = some b := by
  simp [lastVote]

/-- Executing blocks changes neither the last votes nor the proposals. -/
theorem votedOnNext_executed (walk : List JBlock) :
    votedOnNext cfg (walk.map (.executed q) ++ H) p = votedOnNext cfg H p := by
  induction walk with
  | nil => rfl
  | cons block walk ih =>
    rw [← ih]
    rfl

/-- Where blocks were executed on certificates of two views in a row, the last vote says so. -/
theorem Direct.of_executed {walk : List JBlock}
    (direct : Direct cfg (walk.map (.executed p) ++ H)) :
    Direct cfg H ∧ (walk ≠ [] → votedOnNext cfg H p = true) := by
  cases walk with
  | nil => exact ⟨direct, fun some_block => absurd rfl some_block⟩
  | cons block walk =>
    obtain ⟨older, here⟩ := direct
    refine ⟨?_, fun _ => ?_⟩
    · -- The other executions have the same history below them.
      clear here
      induction walk with
      | nil => exact older
      | cons block walk ih => exact ih older.1
    · rw [← votedOnNext_executed walk]
      exact here

end Reading

section Fair

variable [Hashing] [SignatureBytes]

/-- A counted vote is for a block of its view. -/
theorem Facts.view_eq (facts : Facts cfg H) (voted : PrepVoted H p v b) : b.view = v := by
  obtain ⟨r, member, view, -⟩ := voted
  rw [← view, (facts.votes member).statement]

theorem Facts.fresh (facts : Facts cfg H) (voted : PrepVoted H p v b) : b.executed = false := by
  obtain ⟨r, member, -, -⟩ := voted
  exact (facts.votes member).fresh

/-- The block of a counted vote could be built on its parent. -/
theorem Facts.buildable (facts : Facts cfg H) (voted : PrepVoted H p v b) :
    Buildable cfg H v b.just.getCView b.just.getCHash := by
  have view := facts.view_eq voted
  obtain ⟨r, member, -, -⟩ := voted
  exact view ▸ (facts.votes member).built

/-- All counted votes of a view are for the block of its leader. -/
theorem Facts.single (facts : Facts cfg H) {p' : PID} {b' : JBlock} (first : PrepVoted H p v b)
    (second : PrepVoted H p' v b') : b = b' := by
  obtain ⟨r, member, view, phase⟩ := facts.leader first
  obtain ⟨r', member', view', phase'⟩ := facts.leader second
  -- The leader's component signs one vote in the view.
  refine (facts.ordered.unique member member' ?_).2
  rw [view, view', phase, phase']

/-- The votes of a history follow the rules under which what is committed stays. -/
theorem Facts.fair (facts : Facts cfg H) : (ballots H).Fair cfg.total cfg.qsize where
  single := facts.single
  absent := facts.ordered.absent
  below := fun voted => (facts.buildable voted).below
  sound := fun voted => (facts.buildable voted).sound
  certified := fun voted => by
    obtain ⟨b', -, ⟨first, -⟩ | certified⟩ := (facts.buildable voted).certified
    · exact .inl first
    · exact .inr ⟨b', certified⟩

/-- A counted vote shows the block its leader proposed. -/
theorem Facts.proposedIn (facts : Facts cfg H) (voted : PrepVoted H p v b) :
    proposedIn cfg H v = some b := by
  have leads := facts.leader voted
  cases found : HandlerCh.proposedIn cfg H v with
  | some b' =>
    -- Whatever is found is a counted vote of the leader.
    obtain ⟨e, member, same⟩ := List.exists_of_findSome?_eq_some found
    cases e with
    | voted q r b'' =>
      simp only [Option.ite_none_right_eq_some, Option.some.injEq] at same
      obtain ⟨⟨rfl, view, phase⟩, rfl⟩ := same
      rw [facts.single leads ⟨r, member, view, phase⟩]
    | executed | entered => cases same
  | none =>
    obtain ⟨r, member, view, phase⟩ := leads
    have none_found := List.findSome?_eq_none_iff.1 found _ member
    simp [view, phase] at none_found

end Fair

section Grow

variable [Hashing] [SignatureBytes]

omit [Hashing] [SignatureBytes] in
/-- What a node has executed is as before when it executes nothing. -/
theorem ExecutedLine.mono (line : ExecutedLine cfg H p) (added : List ChEvent)
    (same : executedBy (added ++ H) p = executedBy H p) : ExecutedLine cfg (added ++ H) p := by
  unfold ExecutedLine
  rw [same]
  rcases line with nothing | ⟨v, c, commits, line⟩
  · exact .inl nothing
  · exact .inr ⟨v, c, commits.extend (ballots_extends added),
      line.extend (ballots_extends added)⟩

/-- So is what is known of it. -/
theorem Executions.mono (executions : Executions cfg H p) (added : List ChEvent)
    (same : executedBy (added ++ H) p = executedBy H p) : Executions cfg (added ++ H) p where
  once := by rw [same]; exact executions.once
  certified := fun b member => by
    rw [same] at member
    exact (executions.certified b member).imp_right fun quorum =>
      quorum.extend (ballots_extends added)
  ancestors := by rw [same]; exact executions.ancestors

omit [Hashing] [SignatureBytes] in
/-- Of a longer history a counted vote is the new one or an old one. -/
theorem prepVoted_cons {e : ChEvent} (voted : PrepVoted (e :: H) p v b) :
    (∃ r, e = .voted p r b ∧ r.propv = v ∧ r.phase = PH1_PREPARE) ∨ PrepVoted H p v b := by
  obtain ⟨r, member, rest⟩ := voted
  rcases List.mem_cons.1 member with new | old
  · exact .inl ⟨r, new.symm, rest⟩
  · exact .inr ⟨r, old, rest⟩

/-- A node may enter a view. -/
theorem Facts.enter (facts : Facts cfg H) {started : Bool} {trusted : View} {phase : Phase1} :
    Facts cfg (.entered q started v trusted phase :: H) where
  ordered := ⟨facts.ordered, fun p r b same => by cases same⟩
  votes := fun member => by
    have old := (List.mem_cons.1 member).resolve_left fun new => by cases new
    exact (facts.votes old).mono [_]
  leader := fun voted => by
    rcases prepVoted_cons voted with ⟨r, new, -⟩ | old
    · cases new
    · exact (facts.leader old).mono [_]
  executed := fun direct p => (facts.executed direct.1 p).mono [_] rfl
  executions := fun p => (facts.executions p).mono [_] rfl

/-- A node may vote for a block that can be built on its parent, after all it signed before. -/
theorem Facts.vote (facts : Facts cfg H) (vote : VoteFacts cfg H p r b)
    (latest : ∀ e ∈ H, e.actor = p → reach e ≤ slot r.propv r.phase)
    (leader : r.phase = PH1_PREPARE → cfg.getLeaderOf r.propv = p
      ∨ PrepVoted H (cfg.getLeaderOf r.propv) r.propv b) :
    Facts cfg (.voted p r b :: H) where
  ordered := ⟨facts.ordered, fun p' r' b' same => by
    cases same
    exact latest⟩
  votes := fun member => by
    rcases List.mem_cons.1 member with new | old
    · cases new
      exact vote.mono [_]
    · exact (facts.votes old).mono [_]
  leader := fun voted => by
    rcases prepVoted_cons voted with ⟨r', new, rfl, phase⟩ | old
    · cases new
      rcases leader phase with leads | proposed
      · exact leads ▸ ⟨r, List.mem_cons_self, rfl, phase⟩
      · exact proposed.mono [_]
    · exact (facts.leader old).mono [_]
  executed := fun direct p => (facts.executed direct.1 p).mono [_] rfl
  executions := fun p => (facts.executions p).mono [_] rfl

/-- A node may execute blocks that continue the line of what it has executed. -/
theorem Facts.execute (facts : Facts cfg H) (walk : List JBlock)
    (line : Direct cfg H → (walk ≠ [] → votedOnNext cfg H p = true) →
      ExecutedLine cfg (walk.map (.executed p) ++ H) p)
    (executions : Executions cfg (walk.map (.executed p) ++ H) p) :
    Facts cfg (walk.map (.executed p) ++ H) where
  ordered := by
    clear line executions
    induction walk with
    | nil => exact facts.ordered
    | cons block walk ih => exact ⟨ih, fun p' r b same => by cases same⟩
  votes := fun member => by
    have old := (List.mem_append.1 member).resolve_left fun new => by
      obtain ⟨block, -, same⟩ := List.mem_map.1 new
      cases same
    exact (facts.votes old).mono _
  leader := fun voted => by
    obtain ⟨r, member, rest⟩ := voted
    have old := (List.mem_append.1 member).resolve_left fun new => by
      obtain ⟨block, -, same⟩ := List.mem_map.1 new
      cases same
    exact (facts.leader ⟨r, old, rest⟩).mono _
  executed := fun direct p' => by
    obtain ⟨older, here⟩ := direct.of_executed
    by_cases same : p = p'
    · exact same ▸ line older here
    · refine (facts.executed older p').mono _ ?_
      rw [executedBy_executed, if_neg same, List.nil_append]
  executions := fun p' => by
    by_cases same : p = p'
    · exact same ▸ executions
    · refine (facts.executions p').mono _ ?_
      rw [executedBy_executed, if_neg same, List.nil_append]

/-- The history starts empty. -/
theorem Facts.nil : Facts cfg [] where
  ordered := trivial
  votes := fun member => by cases member
  leader := fun voted => by
    obtain ⟨r, member, -⟩ := voted
    cases member
  executed := fun _ p => .inl rfl
  executions := fun p => ⟨List.nodup_nil, fun b member => absurd member List.not_mem_nil, trivial⟩

end Grow

end HandlerCh

end ParaHotstuff
