import ParaHotstuff.Handler.Chained
import ParaHotstuff.Data.Checksum
import ParaHotstuff.Handler.Schedule

/-! Which blocks a node of the chained protocol executes, and when they form a three-chain. -/

namespace ParaHotstuff

namespace HandlerCh

open Local

/--
A walk down the blocks of a map through the views of their certificates, from the newest.

It ends before the first executed block, or with the block of view 0.
-/
inductive Walk (jblocks : AList fun _ : View => JBlock) : View → List JBlock → Prop where
  | executed {v : View} {block : JBlock} : jblocks.lookup v = some block →
      block.executed = true → Walk jblocks v []
  | genesis {block : JBlock} : jblocks.lookup 0 = some block → block.executed = false →
      Walk jblocks 0 [block]
  | step {v : View} {block : JBlock} {older : List JBlock} : v ≠ 0 →
      jblocks.lookup v = some block → block.executed = false →
      Walk jblocks block.just.getCView older → Walk jblocks v (block :: older)

section Walks

variable {jblocks : AList fun _ : View => JBlock} {v : View} {walk : List JBlock}

/-- There is at most one walk from a view. -/
theorem Walk.unique {walk' : List JBlock} (first : Walk jblocks v walk)
    (second : Walk jblocks v walk') : walk = walk' := by
  -- Induction on the first walk; the block of the view decides how the second one goes on.
  induction first generalizing walk' with
  | executed found done =>
    cases second with
    | executed => rfl
    | genesis found' fresh =>
      obtain rfl := Option.some.inj (found.symm.trans found')
      rw [done] at fresh
      cases fresh
    | step _ found' fresh =>
      obtain rfl := Option.some.inj (found.symm.trans found')
      rw [done] at fresh
      cases fresh
  | genesis found fresh =>
    cases second with
    | executed found' done =>
      obtain rfl := Option.some.inj (found.symm.trans found')
      rw [done] at fresh
      cases fresh
    | genesis found' => rw [Option.some.inj (found.symm.trans found')]
    | step later => exact absurd rfl later
  | step later found fresh _ ih =>
    cases second with
    | executed found' done =>
      obtain rfl := Option.some.inj (found.symm.trans found')
      rw [done] at fresh
      cases fresh
    | genesis => exact absurd rfl later
    | step _ found' _ below =>
      obtain rfl := Option.some.inj (found.symm.trans found')
      rw [ih below]

/-- A walk passes each view once, and each has a block; from each a walk of no greater length starts. -/
theorem Walk.views (walked : Walk jblocks v walk) :
    ∃ views : List View, views.length = walk.length ∧ views.Nodup
      ∧ ∀ w ∈ views, w ∈ jblocks.keys ∧ ∃ rest, Walk jblocks w rest ∧ rest.length ≤ walk.length := by
  have known : ∀ {w : View} {block : JBlock}, jblocks.lookup w = some block → w ∈ jblocks.keys :=
    fun found => AList.mem_keys.1 (AList.lookup_isSome.1 (by rw [found]; rfl))
  induction walked with
  | executed found done => exact ⟨[], rfl, List.nodup_nil, fun w member => by cases member⟩
  | genesis found fresh =>
    refine ⟨[0], rfl, List.nodup_singleton 0, fun w member => ?_⟩
    rw [List.mem_singleton.1 member]
    exact ⟨known found, _, .genesis found fresh, Nat.le_refl _⟩
  | @step v block older later found fresh below ih =>
    obtain ⟨views, size, distinct, each⟩ := ih
    have whole : Walk jblocks v (block :: older) := .step later found fresh below
    refine ⟨v :: views, by simp [size], List.nodup_cons.2 ⟨fun again => ?_, distinct⟩, ?_⟩
    · -- A view passed again would start the same walk, which is longer.
      obtain ⟨-, rest, restarted, short⟩ := each v again
      rw [restarted.unique whole, List.length_cons] at short
      omega
    · intro w member
      rcases List.mem_cons.1 member with rfl | deeper
      · exact ⟨known found, _, whole, Nat.le_refl _⟩
      · obtain ⟨held, rest, walked, short⟩ := each w deeper
        exact ⟨held, rest, walked, by rw [List.length_cons]; omega⟩

/-- A walk is no longer than the map has entries. -/
theorem Walk.length_le (walked : Walk jblocks v walk) : walk.length ≤ jblocks.keys.length := by
  obtain ⟨views, size, distinct, each⟩ := walked.views
  rw [← size]
  exact (List.subperm_of_subset distinct fun w member => (each w member).1).length_le

/-- Enough rounds collect the blocks of a walk. -/
theorem blocksToExec_of_walk (walked : Walk jblocks v walk) :
    ∀ rounds blocks, walk.length < rounds →
      blocksToExec jblocks rounds v blocks = some (walk.reverse ++ blocks) := by
  induction walked with
  | executed found done =>
    intro rounds blocks enough
    obtain ⟨rounds, rfl⟩ := Nat.exists_eq_succ_of_ne_zero (Nat.ne_of_gt enough)
    simp [blocksToExec, found, done]
  | genesis found fresh =>
    intro rounds blocks enough
    obtain ⟨rounds, rfl⟩ := Nat.exists_eq_succ_of_ne_zero (Nat.ne_of_gt (Nat.zero_lt_of_lt enough))
    simp [blocksToExec, found, fresh]
  | @step v block older later found fresh _ ih =>
    intro rounds blocks enough
    obtain ⟨rounds, rfl⟩ := Nat.exists_eq_succ_of_ne_zero (Nat.ne_of_gt (Nat.zero_lt_of_lt enough))
    have rest := ih rounds (block :: blocks) (by simpa using enough)
    simp [blocksToExec, found, fresh, later, rest]

/-- Whatever is collected are the blocks of a walk, unless a block is missing. -/
theorem walk_of_blocksToExec {rounds : Nat} {blocks result : List JBlock}
    (collected : blocksToExec jblocks rounds v blocks = some result) :
    result = [] ∨ ∃ walk, Walk jblocks v walk ∧ result = walk.reverse ++ blocks := by
  -- Induction on the rounds.
  induction rounds generalizing v blocks with
  | zero => cases collected
  | succ rounds ih =>
    cases found : jblocks.lookup v with
    | none =>
      simp only [blocksToExec, found, Option.some.injEq] at collected
      exact .inl collected.symm
    | some block =>
      cases done : block.executed with
      | true =>
        simp only [blocksToExec, found, done, Bool.not_true, Bool.false_eq_true, if_false,
          Option.some.injEq] at collected
        exact .inr ⟨[], .executed found done, collected.symm⟩
      | false =>
        by_cases bottom : v = 0
        · subst bottom
          simp only [blocksToExec, found, done, Bool.not_false, if_true, beq_self_eq_true,
            Option.some.injEq] at collected
          exact .inr ⟨[block], .genesis found done, collected.symm⟩
        · have further : (v == 0) = false := by simpa using bottom
          simp only [blocksToExec, found, done, Bool.not_false, if_true, further,
            Bool.false_eq_true, if_false] at collected
          rcases ih collected with none_left | ⟨walk, below, split⟩
          · exact .inl none_left
          · exact .inr ⟨block :: walk, .step bottom found done below, by simp [split]⟩

end Walks

variable [Hashing] [SignatureBytes]

/-- The justification of a block certifies another one by its hash. -/
def Certifies (block parent : JBlock) : Prop := (block.just.getCHash == parent.hash) = true

/-- The rule for executing a block and its ancestors because of three certificates above it. -/
structure ThreeChain (block block0 block1 block2 : JBlock) (ancestors : List JBlock) : Prop where
  first : Certifies block block0
  second : Certifies block0 block1
  third : Certifies block1 block2
  /-- The three certified blocks lie in consecutive views. -/
  consecutive : block0.view = block1.view + 1 ∧ block1.view = block2.view + 1
  /-- Every ancestor is the block that its child's justification names. -/
  ancestors : List.IsChain Certifies (block2 :: ancestors)

omit [Hashing] [SignatureBytes] in
/-- The blocks executed between two states, the newest first. -/
def newlyExecuted (before after : State) : List JBlock :=
  (after.history.take (after.history.length - before.history.length)).filterMap fun
    | .executed _ block => some block
    | .voted _ _ _ | .entered _ _ _ _ _ => none

omit [Hashing] [SignatureBytes] in
/-- Executing blocks one after the other notes each of them. -/
theorem executeAllCh_gives (blocks : List JBlock) (l : State) :
    (executeAllCh blocks).Gives
      (fun _ l' => l'.history = blocks.reverse.map (ChEvent.executed l.node.myid) ++ l.history)
      (fun _ => False) l := by
  induction blocks generalizing l with
  | nil => rfl
  | cons block blocks ih =>
    simp only [executeAllCh, executeCh, Program.gives_bind, gives_this, gives_note, gives_modify]
    refine (ih _).mono (fun _ l' noted => ?_) fun _ never => never
    rw [noted]
    simp

omit [Hashing] [SignatureBytes] in
/-- Noted executions on top of a history are the newly executed blocks. -/
theorem newlyExecuted_of_history {before after : State} {p : PID} {blocks : List JBlock}
    (noted : after.history = blocks.map (ChEvent.executed p) ++ before.history) :
    newlyExecuted before after = blocks := by
  have size : after.history.length - before.history.length
      = (blocks.map (ChEvent.executed p)).length := by
    rw [noted, List.length_append]
    omega
  rw [newlyExecuted, size, noted, List.take_left, List.filterMap_map]
  exact List.filterMap_some

omit [Hashing] [SignatureBytes] in
/-- A call executes what it collects, from the view of the third certificate on. -/
theorem newlyExecuted_tryExecuteCh (l : State) (block block0 block1 : JBlock) :
    newlyExecuted l (tryExecuteCh block block0 block1 l).state
      = if block0.view = 0 then []
        else ((blocksToExec l.node.jblocks (l.node.jblocks.keys.length + 1)
          block1.just.getCView []).getD []).reverse := by
  have nothing : newlyExecuted l l = [] :=
    @newlyExecuted_of_history l l l.node.myid [] rfl
  by_cases first : block0.view = 0
  · rw [if_pos first]
    have skipped : (tryExecuteCh block block0 block1 l).state = l := by
      have quiet : (tryExecuteCh block block0 block1).Gives (fun _ => (· = l)) (· = l) l := by
        simp [tryExecuteCh, first, -bind_pure_comp]
      exact quiet.state
    rw [skipped, nothing]
  · rw [if_neg first]
    have later : (block0.view != 0) = true := by simpa using first
    cases collected : blocksToExec l.node.jblocks (l.node.jblocks.keys.length + 1)
        block1.just.getCView [] with
    | none =>
      have stuck : (tryExecuteCh block block0 block1 l).state = l := by
        have quiet : (tryExecuteCh block block0 block1).Gives (fun _ => (· = l)) (· = l) l := by
          simp [tryExecuteCh, later, collected]
        exact quiet.state
      rw [stuck, nothing]
      rfl
    | some blocks =>
      apply newlyExecuted_of_history (p := l.node.myid)
      have noted : (tryExecuteCh block block0 block1).Gives
          (fun _ l' => l'.history = blocks.reverse.map (ChEvent.executed l.node.myid) ++ l.history)
          (fun l' => l'.history = blocks.reverse.map (ChEvent.executed l.node.myid) ++ l.history)
          l := by
        simp only [tryExecuteCh, Program.gives_bind, gives_this, later, if_true, collected,
          Program.gives_ofOption_some]
        exact (executeAllCh_gives blocks l).mono (fun _ _ held => held) fun _ never => never.elim
      exact noted.state

/--
A call executes by the three-chain rule exactly when the blocks it finds follow the rule.

It finds them by the views of certificates alone: the block given as the second one is not
genesis, and a walk from the view of the third certificate is complete.
-/
theorem threeChain_iff (l : State) (block block0 block1 : JBlock) :
    (∀ block2 ancestors,
      newlyExecuted l (tryExecuteCh block block0 block1 l).state = block2 :: ancestors →
        ThreeChain block block0 block1 block2 ancestors)
    ↔ (block0.view ≠ 0 → ∀ block2 ancestors,
      Walk l.node.jblocks block1.just.getCView (block2 :: ancestors) →
        ThreeChain block block0 block1 block2 ancestors) := by
  rw [newlyExecuted_tryExecuteCh]
  constructor
  · intro rule first block2 ancestors walked
    rw [if_neg first, blocksToExec_of_walk walked _ _ (Nat.lt_succ_of_le walked.length_le)] at rule
    exact rule block2 ancestors (by simp)
  · intro rule block2 ancestors executed
    by_cases first : block0.view = 0
    · rw [if_pos first] at executed
      cases executed
    · rw [if_neg first] at executed
      cases collected : blocksToExec l.node.jblocks (l.node.jblocks.keys.length + 1)
          block1.just.getCView [] with
      | none =>
        rw [collected] at executed
        cases executed
      | some blocks =>
        rw [collected, Option.getD_some] at executed
        rcases walk_of_blocksToExec collected with missing | ⟨walk, walked, split⟩
        · rw [missing] at executed
          cases executed
        · rw [split, List.append_nil, List.reverse_reverse] at executed
          exact rule first block2 ancestors (executed ▸ walked)

section Gap

/-- A certificate of three nodes for a block. -/
def certificate (block : JBlock) : Just :=
  let rdata : RData := ⟨block.hash, block.view, Hash.default, 0, PH1_PREPARE⟩
  Just.ofRData rdata ([0, 1, 2].map fun p => Sign.ofText p p rdata.toString)

/-- Blocks of the views 1, 2, 4 and 5, each on a certificate of the one before. -/
def gapBlock2 : JBlock := JBlock.ofTransactions 1 (certificate JBlock.default) 0 []
def gapBlock1 : JBlock := JBlock.ofTransactions 2 (certificate gapBlock2) 0 []
def gapBlock0 : JBlock := JBlock.ofTransactions 4 (certificate gapBlock1) 0 []
def gapBlock : JBlock := JBlock.ofTransactions 5 (certificate gapBlock0) 0 []

/-- A node that holds these blocks and genesis. -/
def gapNode : HandlerCh :=
  let blocks := [(0, JBlock.default), (1, gapBlock2), (2, gapBlock1), (4, gapBlock0), (5, gapBlock)]
  { init Schedule.fourNodes 0 with
    view := 5
    jblocks := blocks.foldl (fun held b => AList.insert b.1 b.2 held) ∅ }

omit [Hashing] [SignatureBytes] in
/-- Although no view 3 was certified, the block of view 1 is executed because of that of view 5. -/
theorem threeChain_gap :
    let _ := Checksum.hashing
    let _ := Checksum.signatureBytes
    let l : State := ⟨gapNode, [], []⟩
    ¬ ∀ block2 ancestors,
      newlyExecuted l (tryExecuteCh gapBlock gapBlock0 gapBlock1 l).state = block2 :: ancestors →
        ThreeChain gapBlock gapBlock0 gapBlock1 block2 ancestors := by
  intro _ _ l rule
  have executed : newlyExecuted l (tryExecuteCh gapBlock gapBlock0 gapBlock1 l).state
      = [gapBlock2, JBlock.default] := by decide +kernel
  exact absurd (rule _ _ executed).consecutive.1 (by decide +kernel)

end Gap

end HandlerCh

end ParaHotstuff
