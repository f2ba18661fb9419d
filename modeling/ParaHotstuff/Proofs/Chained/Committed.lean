import ParaHotstuff.Proofs.Chained.Facts
import ParaHotstuff.Proofs.Chained.Marks

/-! What a node of the chained protocol executes continues the line of what it has executed. -/

namespace ParaHotstuff

namespace HandlerCh

variable {cfg : Config} {H : List ChEvent} {p : PID} {v w c : View} {h : HandlerCh}

section Lines

variable [Hashing] [SignatureBytes] {blocks : List JBlock}

/-- The blocks of a line lie in the view it begins with and in earlier ones. -/
theorem Facts.line_le (facts : Facts cfg H) (line : (ballots H).Line v blocks) {b : JBlock}
    (member : b ∈ blocks) : b.view ≤ v := by
  induction line with
  | origin =>
    rw [List.mem_singleton.1 member]
    exact Nat.zero_le _
  | @step q v b' older vote line ih =>
    rcases List.mem_cons.1 member with rfl | deeper
    · exact Nat.le_of_eq (facts.view_eq vote)
    · exact Nat.le_of_lt (Nat.lt_of_le_of_lt (ih deeper) (facts.buildable vote).below)

/-- The blocks of a line lie in different views. -/
theorem Facts.line_nodup (facts : Facts cfg H) (line : (ballots H).Line v blocks) :
    (blocks.map (·.view)).Nodup := by
  induction line with
  | origin => exact List.nodup_singleton _
  | @step q v b older vote line ih =>
    refine List.nodup_cons.2 ⟨fun again => ?_, ih⟩
    -- The older blocks lie in earlier views.
    obtain ⟨b', member, same⟩ := List.mem_map.1 again
    have below := facts.line_le line member
    rw [same.trans (facts.view_eq vote)] at below
    exact absurd (facts.buildable vote).below (Nat.not_lt.2 below)

/-- A line begins with a block of its view, and ends with genesis. -/
theorem Facts.line_ends (facts : Facts cfg H) (line : (ballots H).Line v blocks) :
    (∃ b older, blocks = b :: older ∧ b.view = v) ∧ JBlock.default ∈ blocks := by
  induction line with
  | origin => exact ⟨⟨_, [], rfl, rfl⟩, List.mem_singleton_self _⟩
  | @step q v b older vote line ih =>
    exact ⟨⟨b, older, rfl, facts.view_eq vote⟩, List.mem_cons_of_mem _ ih.2⟩

/-- What a node holds in the place of a proposal is the proposal, if it is not marked. -/
theorem OwnBlocks.eq_of_voted (own : OwnBlocks cfg H p h) (facts : Facts cfg H) {q : PID}
    {b b' : JBlock} (vote : PrepVoted H q v b') (found : h.jblocks.lookup v = some b) :
    ∃ done, b = { b' with executed := done } := by
  have later : v ≠ 0 := Nat.ne_of_gt (Nat.zero_lt_of_lt (facts.buildable vote).below)
  rcases own.held later found with ⟨-, b'', vote', same⟩ | ⟨leads, mine⟩
  · rwa [facts.single vote vote']
  · obtain ⟨r, member, view, phase⟩ := facts.leader vote
    rw [leads] at member
    exact mine r b' member (facts.view_eq vote)

/-- A walk over a node's blocks follows the line of its view, until a block that was executed. -/
theorem OwnBlocks.walk_line (own : OwnBlocks cfg H p h) (facts : Facts cfg H) {walk : List JBlock}
    (walked : Walk h.jblocks v walk) (line : (ballots H).Line v blocks) :
    ∃ rest, blocks = walk ++ rest ∧ (rest = [] ∨ ∃ w, (ballots H).Line w rest
      ∧ w ∈ (executedBy H p).map (·.view)) := by
  -- Induction on the walk; each block it passes is the one of the line.
  induction walked generalizing blocks with
  | executed found done =>
    exact ⟨blocks, rfl, .inr ⟨_, line, (own.marks found).1 done⟩⟩
  | @genesis block found fresh =>
    obtain rfl := facts.fair.line_unique line .origin
    obtain ⟨done, rfl⟩ := own.genesis found
    obtain rfl : done = false := fresh
    exact ⟨[], rfl, .inl rfl⟩
  | @step v block older later found fresh below ih =>
    obtain ⟨q, b', older', rfl, vote, rest_line⟩ := Ballots.Fair.line_cases line later
    obtain ⟨done, rfl⟩ := own.eq_of_voted facts vote found
    obtain rfl : done = false := fresh
    obtain ⟨rest, rfl, ended⟩ := ih rest_line
    have same : { b' with executed := false } = b' := by
      have unmarked := facts.fresh vote
      cases b'
      simp_all
    rw [same]
    exact ⟨rest, rfl, ended⟩

omit [Hashing] [SignatureBytes] in
/-- The blocks of a walk were not executed. -/
theorem OwnBlocks.walk_fresh (own : OwnBlocks cfg H p h) {walk : List JBlock}
    (walked : Walk h.jblocks v walk) {b : JBlock} (member : b ∈ walk) :
    b.executed = false ∧ h.jblocks.lookup b.view = some b
      ∧ b.view ∉ (executedBy H p).map (·.view) := by
  obtain ⟨fresh, w, -, found, -, -⟩ := walked.restart member
  have here := own.place found
  subst here
  refine ⟨fresh, found, fun executed => ?_⟩
  rw [(own.marks found).2 executed] at fresh
  cases fresh

/--
Executing the walk down from a committed block gives the line of that block.

What was executed before is the end of that line, since the lines of committed blocks are
comparable and the walk stops exactly where the executed blocks begin.
-/
theorem OwnBlocks.executed_line (own : OwnBlocks cfg H p h) (facts : Facts cfg H)
    (majority : cfg.total < 2 * cfg.qsize) (line : ExecutedLine cfg H p)
    (commits : (ballots H).Commits cfg.total cfg.qsize w c) {walk : List JBlock}
    (walked : Walk h.jblocks c walk) (some_block : walk ≠ []) :
    (ballots H).Line c (walk ++ executedBy H p) := by
  obtain ⟨blocks, whole⟩ := facts.fair.line_of_commits (by omega) commits
  obtain ⟨rest, rfl, ended⟩ := own.walk_line facts walked whole
  have distinct := facts.line_nodup whole
  -- No block of the walk was executed before.
  have apart : ∀ b ∈ walk, b ∉ executedBy H p := fun b member executed =>
    (own.walk_fresh walked member).2.2 (List.mem_map_of_mem executed)
  suffices same : executedBy H p = rest by
    rw [same]
    exact whole
  rcases line with nothing | ⟨w', c', commits', line'⟩
  · -- Nothing was executed, so the walk came down to genesis.
    rcases ended with rfl | ⟨w', -, executed⟩
    · exact nothing
    · rw [nothing] at executed
      cases executed
  have genesis := (facts.line_ends line').2
  rcases facts.fair.lines_comparable majority commits commits' whole line' with shorter | longer
  · -- The newest block of the walk would have been executed before.
    obtain ⟨b, member⟩ := List.exists_mem_of_ne_nil _ some_block
    exact absurd (shorter.subset (List.mem_append_left _ member)) (apart b member)
  rcases List.suffix_or_suffix_of_suffix longer (List.suffix_append walk rest) with inner | outer
  · obtain ⟨front, rfl⟩ := inner
    -- The walk stopped at an executed view, which is that of the newest block executed.
    cases front with
    | nil => rfl
    | cons b front =>
      exfalso
      rcases ended with none_left | ⟨w', rest_line, executed⟩
      · cases none_left
      obtain ⟨⟨b', older, split, view⟩, -⟩ := facts.line_ends rest_line
      obtain ⟨rfl, -⟩ := List.cons.inj split
      obtain ⟨b'', member, again⟩ := List.mem_map.1 executed
      have tail := (List.nodup_append.1 (List.map_append ▸ distinct)).2.1
      refine (List.nodup_cons.1 tail).1 (List.mem_map.2 ⟨b'', ?_, again.trans view.symm⟩)
      exact List.mem_append_right _ member
  · obtain ⟨front, split⟩ := outer
    -- What was executed before the rest would lie on the walk.
    cases front with
    | nil => exact split.symm
    | cons b front =>
      exfalso
      obtain ⟨more, back⟩ := longer
      have whole_walk : more ++ (b :: front) = walk := by
        rw [← split, ← List.append_assoc] at back
        exact List.append_cancel_right back
      refine apart b ?_ ?_
      · rw [← whole_walk]
        exact List.mem_append_right _ List.mem_cons_self
      · rw [← split]
        exact List.mem_cons_self

/-- A block that a certificate names by view and hash is the certified one of that view. -/
theorem Facts.same_of_certified (facts : Facts cfg H) (positive : 0 < cfg.qsize) {hash : Hash}
    {b : JBlock} (certified : CertifiedHash cfg H c hash) (view : b.view = c)
    (known : b = JBlock.default ∨ (∃ q, PrepVoted H q c b)) : (hash == b.hash) = true := by
  have later : ∀ {q b'}, PrepVoted H q 0 b' → False := fun vote =>
    absurd (facts.buildable vote).below (Nat.not_lt_zero _)
  obtain ⟨b', same, ⟨rfl, rfl⟩ | ⟨Q, quorum, votes⟩⟩ := certified
  · rcases known with rfl | ⟨q, vote⟩
    · rw [Hash.beq_iff, ← same]
    · exact absurd vote later
  · obtain ⟨r, member⟩ := quorum.nonempty positive
    rcases known with rfl | ⟨q, vote⟩
    · obtain rfl : c = 0 := view.symm
      exact absurd (votes r member) later
    · rw [Hash.beq_iff, ← same, facts.single (votes r member) vote]

/-- A walk along a line to what was executed puts every block after its parent. -/
theorem Facts.ancestorsFirst (facts : Facts cfg H) (positive : 0 < cfg.qsize) {rest : List JBlock}
    (walk : List JBlock) {v : View} (line : (ballots H).Line v (walk ++ rest))
    (ended : rest = [] ∨ ∃ w, (ballots H).Line w rest ∧ w ∈ (executedBy H p).map (·.view)) :
    AncestorsFirst (walk ++ executedBy H p) := by
  -- Induction on the walk; below its last block begins what was executed before.
  induction walk generalizing v with
  | nil => exact (facts.executions p).ancestors
  | cons b walk ih =>
    rcases Nat.eq_zero_or_pos v with rfl | later
    · -- Only genesis lies in view 0, and nothing is below it.
      have origin : b :: (walk ++ rest) = [JBlock.default] :=
        facts.fair.line_unique line .origin
      obtain ⟨rfl, none_left⟩ := List.cons.inj origin
      obtain ⟨rfl, -⟩ := List.append_eq_nil_iff.1 none_left
      exact ⟨(facts.executions p).ancestors, fun other => absurd rfl other⟩
    obtain ⟨q, b', older, split, vote, below⟩ :=
      Ballots.Fair.line_cases line (Nat.ne_of_gt later)
    obtain ⟨rfl, rfl⟩ := List.cons.inj split
    change (ballots H).Line b.just.getCView (walk ++ rest) at below
    refine ⟨ih below, fun _ => ?_⟩
    have certified := (facts.buildable vote).certified
    cases walk with
    | cons parent walk =>
      obtain ⟨⟨b', older, split, view⟩, -⟩ := facts.line_ends below
      obtain ⟨rfl, -⟩ := List.cons.inj split
      refine ⟨parent, by simp, view, facts.same_of_certified positive certified view ?_⟩
      rcases Nat.eq_zero_or_pos b.just.getCView with first | second
      · rw [first] at below
        exact .inl (List.cons.inj (facts.fair.line_unique below .origin)).1
      · obtain ⟨q', b', older', split, vote', -⟩ :=
          Ballots.Fair.line_cases below (Nat.ne_of_gt second)
        obtain ⟨rfl, -⟩ := List.cons.inj split
        exact .inr ⟨q', vote'⟩
    | nil =>
      obtain ⟨⟨b', older', split, view⟩, -⟩ := facts.line_ends below
      rcases ended with rfl | ⟨w, tail, executed⟩
      · cases split
      obtain ⟨⟨b'', older'', split', view'⟩, -⟩ := facts.line_ends tail
      rw [List.nil_append] at split
      obtain ⟨rfl, -⟩ := List.cons.inj (split.symm.trans split')
      -- The block executed in that view is the one that is certified there.
      obtain ⟨parent, member, there⟩ := List.mem_map.1 executed
      have here : parent.view = b.just.getCView := there.trans (view'.symm.trans view)
      refine ⟨parent, member, here, facts.same_of_certified positive certified here ?_⟩
      refine ((facts.executions p).certified parent member).imp_right fun quorum => ?_
      obtain ⟨Q, quorum, votes⟩ := quorum
      obtain ⟨r, voter⟩ := quorum.nonempty positive
      exact ⟨r, here ▸ votes r voter⟩

/-- What is known of the blocks executed stays known when those of a walk are executed as well. -/
theorem OwnBlocks.executions (own : OwnBlocks cfg H p h) (facts : Facts cfg H)
    (positive : 0 < cfg.qsize) {walk : List JBlock} (walked : Walk h.jblocks c walk)
    (line : (ballots H).Line c blocks)
    (top : c = 0 ∨ ∃ b, (ballots H).Certified cfg.total cfg.qsize c b) :
    Executions cfg (walk.map (.executed p) ++ H) p := by
  obtain ⟨rest, rfl, ended⟩ := own.walk_line facts walked line
  have all : executedBy (walk.map (.executed p) ++ H) p = walk ++ executedBy H p := by
    rw [executedBy_executed, if_pos rfl]
  have distinct := facts.line_nodup line
  rw [List.map_append] at distinct
  refine ⟨?_, fun b member => ?_, ?_⟩
  · rw [all, List.map_append]
    refine List.nodup_append.2 ⟨(List.nodup_append.1 distinct).1, (facts.executions p).once, ?_⟩
    -- What is on the walk was not executed before.
    intro v here w before same
    obtain ⟨b, member, rfl⟩ := List.mem_map.1 here
    exact (own.walk_fresh walked member).2.2 (same ▸ before)
  · rw [all] at member
    have extends' := ballots_extends (H := H) (walk.map (.executed p))
    rcases List.mem_append.1 member with here | before
    · rcases facts.fair.line_certified positive line top b (List.mem_append_left _ here) with
        first | ⟨v, Q, quorum, votes⟩
      · exact .inl first
      · obtain ⟨r, voter⟩ := quorum.nonempty positive
        rw [facts.view_eq (votes r voter)]
        exact .inr (Ballots.Certified.extend ⟨Q, quorum, votes⟩ extends')
    · exact ((facts.executions p).certified b before).imp_right fun quorum => quorum.extend extends'
  · rw [all]
    exact facts.ancestorsFirst positive walk line ended

end Lines

section Executing

/-- A marked block is another one's copy as before. -/
theorem Marks.executed {b b' : JBlock} (same : Marks b b') : Marks b.markExecuted b' := by
  obtain ⟨done, rfl⟩ := same
  exact ⟨true, rfl⟩

/-- An unmarked block of an earlier view may be executed. -/
theorem OwnBlocks.execute (own : OwnBlocks cfg H p h) {block : JBlock}
    (found : h.jblocks.lookup block.view = some block) (before : block.view < h.view) :
    OwnBlocks cfg (.executed p block :: H) p (h.executing block) := by
  have executed : executedBy (.executed p block :: H) p = block :: executedBy H p := by
    simp [executedBy]
  -- Apart from the block that is marked, everything is held as before.
  have held : ∀ {v b}, (h.executing block).jblocks.lookup v = some b →
      (v = block.view ∧ b = block.markExecuted)
        ∨ (v ≠ block.view ∧ h.jblocks.lookup v = some b) := by
    intro v b found'
    by_cases same : v = block.view
    · subst same
      exact .inl ⟨rfl, by simpa [executing] using found'.symm⟩
    · exact .inr ⟨same, by simpa [executing, same] using found'⟩
  have votes : ∀ {r b}, ChEvent.voted p r b ∈ ChEvent.executed p block :: H →
      ChEvent.voted p r b ∈ H := fun member => by simpa using member
  refine {
    place := fun found' => ?_
    early := fun found' => ?_
    held := fun {v b} later found' => ?_
    genesis := fun found' => ?_
    taken := fun {r b} member => ?_
    marks := fun {v b} found' => ?_
    before := fun {v} member => ?_ }
  · rcases held found' with ⟨rfl, rfl⟩ | ⟨-, old⟩
    · rfl
    · exact own.place old
  · rcases held found' with ⟨rfl, rfl⟩ | ⟨-, old⟩
    · exact Nat.le_of_lt before
    · exact own.early old
  · have same : ∃ b', h.jblocks.lookup v = some b' ∧ ∀ b'', Marks b' b'' → Marks b b'' := by
      rcases held found' with ⟨rfl, rfl⟩ | ⟨-, old⟩
      · exact ⟨block, found, fun b'' same => same.executed⟩
      · exact ⟨_, old, fun b'' same => same⟩
    obtain ⟨b', old, marked⟩ := same
    rcases own.held later old with ⟨backup, b'', vote, same⟩ | ⟨leads, mine⟩
    · exact .inl ⟨backup, b'', vote.mono [_], marked b'' same⟩
    · exact .inr ⟨leads, fun r b'' member view => marked b'' (mine r b'' (votes member) view)⟩
  · rcases held found' with ⟨first, rfl⟩ | ⟨-, old⟩
    · exact (own.genesis (first ▸ found)).executed
    · exact own.genesis old
  · change ((h.jblocks.insert block.view block.markExecuted).lookup b.view).isSome = true
    by_cases same : b.view = block.view
    · rw [same, AList.lookup_insert]
      rfl
    · rw [AList.lookup_insert_ne same]
      exact own.taken (votes member)
  · rw [executed]
    rcases held found' with ⟨rfl, rfl⟩ | ⟨other, old⟩
    · simp [JBlock.markExecuted]
    · rw [own.marks old]
      simp [other]
  · rw [executed] at member
    rcases List.mem_cons.1 member with rfl | old
    · exact before
    · exact own.before old

/-- So may blocks of different earlier views, one after the other. -/
theorem OwnBlocks.executeAll (blocks : List JBlock) (own : OwnBlocks cfg H p h)
    (found : ∀ b ∈ blocks, h.jblocks.lookup b.view = some b) (before : ∀ b ∈ blocks, b.view < h.view)
    (distinct : (blocks.map (·.view)).Nodup) :
    OwnBlocks cfg (blocks.reverse.map (.executed p) ++ H) p (blocks.foldl executing h) := by
  induction blocks generalizing h H with
  | nil => exact own
  | cons block blocks ih =>
    obtain ⟨new, distinct⟩ := List.nodup_cons.1 distinct
    have first := own.execute (found block List.mem_cons_self) (before block List.mem_cons_self)
    -- The other blocks are still where they were.
    have rest := ih first (fun b member => by
      have other : b.view ≠ block.view := fun same =>
        new (List.mem_map.2 ⟨b, member, same⟩)
      simpa [executing, other] using found b (List.mem_cons_of_mem _ member))
      (fun b member => before b (List.mem_cons_of_mem _ member)) distinct
    simpa using rest

end Executing

end HandlerCh

end ParaHotstuff
