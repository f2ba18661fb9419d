import ParaHotstuff.Proofs.Trusted.Certificates
import ParaHotstuff.Proofs.Trusted.Phases
import Mathlib.Data.List.Pairwise

/-! When the component of the parallel protocol signs different blocks for one slot and phase. -/

namespace ParaHotstuff

namespace TrustedPara

/-- A call to the component. -/
inductive Call where
  | sign
  | prepare (nodes : Nodes) (block : PBlock) (just : Just)
  | verifyLeaderQC (nodes : Nodes) (just : Just) (blockHashes : List Hash) (checkHashes : Bool)
  | store (nodes : Nodes) (just : Just) (getBlockFunc : Nat → PBlock)
  | changeView (v : View)

/-- The views a sequence of calls changes to grow strictly. -/
def Increasing (calls : List Call) : Prop :=
  -- Only calls that change the view have a view argument.
  (calls.filterMap fun | .changeView v => some v | _ => none).Pairwise (· < ·)

variable [Hashing]

/-- What a call answers and leaves; checking a justification and changing the view sign nothing. -/
def answer (tp : TrustedPara) : Call → Option (Just × TrustedPara)
  | .sign => some tp.TEEsign
  | .prepare nodes block just => tp.TEEprepare nodes block just
  | .verifyLeaderQC nodes just blockHashes checkHashes =>
    (tp.TEEverifyLeaderQC nodes just blockHashes checkHashes).map fun _ => (Just.defaultPara, tp)
  | .store nodes just getBlockFunc => tp.TEEstore nodes just getBlockFunc
  | .changeView v => some (Just.defaultPara, tp.changeView v)

/-- The component after a call; a call that throws leaves it as it was. -/
def next (tp : TrustedPara) (call : Call) : TrustedPara :=
  match tp.answer call with
  | some (_, tp') => tp'
  | none => tp

/-- The statement a call signs, if it signs one. -/
def statement (tp : TrustedPara) (call : Call) : Option RDataPara :=
  match tp.answer call with
  | some (out, _) => if out.set then out.getRDataPara else none
  | none => none

/-- The statements a sequence of calls signs, in order. -/
def signed (tp : TrustedPara) : List Call → List RDataPara
  | [] => []
  | call :: calls => (tp.statement call).toList ++ (tp.next call).signed calls

/-- Whether a phase is one of those in which blocks are voted for. -/
def blockPhase (ph : Phase1) : Bool := ph == PH1_PREPARE || ph == PH1_PRECOMMIT || ph == PH1_COMMIT

/-- No two statements of one view, slot and voting phase are about different blocks. -/
def NoEquivocation (statements : List RDataPara) : Prop :=
  statements.Pairwise fun r r' => blockPhase r.phase = true → r.propv = r'.propv →
    r.seqNumber = r'.seqNumber → r.phase = r'.phase → r.proph.hash = r'.proph.hash

/-- An accepted call for a block, with the number of earlier ones for it since the view began. -/
structure BlockCall where
  view : View
  seq : Nat
  block : Digest
  rank : Nat
deriving DecidableEq, Repr

/-- The block and the slot of a call for a block that the component accepts. -/
def blockOf (tp : TrustedPara) : Call → Option (Digest × Nat)
  | .prepare nodes block just =>
    if accepts (tp.TEEprepare nodes block just) then some (block.hash.hash, block.seqNumber)
    else none
  | .store nodes just getBlockFunc =>
    if accepts (tp.TEEstore nodes just getBlockFunc) then
      just.getRDataPara.map fun rd => (rd.proph.hash, rd.seqNumber)
    else none
  | _ => none

omit [Hashing] in
/-- Whether a call begins a view, where the component forgets the phases of blocks. -/
def begins (tp : TrustedPara) : Call → Bool
  | .sign => tp.phase == PH1_PARALLEL
  | .changeView _ => true
  | _ => false

/-- The accepted calls for blocks in order, counted for each block from the beginning of a view. -/
def blockCalls (tp : TrustedPara) (count : Digest → Nat) : List Call → List BlockCall
  | [] => []
  | call :: calls =>
    match tp.blockOf call with
    | some (block, seq) =>
      ⟨tp.view, seq, block, count block⟩
        :: (tp.next call).blockCalls (Function.update count block (count block + 1)) calls
    | none => (tp.next call).blockCalls (if tp.begins call then fun _ => 0 else count) calls

/-- Calls for different blocks of one slot differ in how often their block was called for, modulo 3. -/
def OutOfStep (calls : List BlockCall) : Prop :=
  calls.Pairwise fun c c' => c.view = c'.view → c.seq = c'.seq → c.block ≠ c'.block →
    c.rank % 3 ≠ c'.rank % 3

omit [Hashing] in
/-- Blocks are signed in voting phases. -/
theorem blockPhase_phaseAt (rank : Nat) : blockPhase (phaseAt rank) = true := by
  unfold phaseAt
  split
  · rfl
  split <;> rfl

/-- An accepted call to prepare signs the block. -/
theorem prepare_call {tp : TrustedPara} {nodes : Nodes} {block : PBlock} {just : Just}
    (accepted : accepts (tp.TEEprepare nodes block just) = true) :
    ∃ rd : RDataPara,
      tp.statement (.prepare nodes block just)
        = some (tp.blockStatement block.hash rd.justh rd.justv block.seqNumber)
      ∧ tp.next (.prepare nodes block just)
        = (tp.signBlock block.hash rd.justh rd.justv block.seqNumber).2 := by
  obtain ⟨out, tp', answered, set⟩ := of_accepts accepted
  obtain ⟨rd, -, -, -, -, signed⟩ := TEEprepare_set answered set
  have made : out = (tp.signBlock block.hash rd.justh rd.justv block.seqNumber).1 := by
    rw [signed]
  refine ⟨rd, ?_, by simp [next, answer, answered, signed]⟩
  simp only [statement, answer, answered, made]
  rfl

/-- An accepted call to store signs the certified block, after recording the certificate. -/
theorem store_call {tp : TrustedPara} {nodes : Nodes} {just : Just} {getBlockFunc : Nat → PBlock}
    (accepted : accepts (tp.TEEstore nodes just getBlockFunc) = true) :
    ∃ rd, just.getRDataPara = some rd ∧ tp.view = rd.propv
      ∧ tp.statement (.store nodes just getBlockFunc)
        = some ((tp.record rd getBlockFunc).blockStatement rd.proph rd.justh rd.justv
          rd.seqNumber)
      ∧ tp.next (.store nodes just getBlockFunc)
        = ((tp.record rd getBlockFunc).signBlock rd.proph rd.justh rd.justv rd.seqNumber).2 := by
  obtain ⟨out, tp', answered, set⟩ := of_accepts accepted
  obtain ⟨rd, tagged, -, -, view, -, signed⟩ := TEEstore_set answered set
  have made : out = ((tp.record rd getBlockFunc).signBlock rd.proph rd.justh rd.justv
      rd.seqNumber).1 := by
    rw [signed]
  refine ⟨rd, tagged, view, ?_, by simp [next, answer, answered, signed]⟩
  simp only [statement, answer, answered, made]
  rfl

/-- An accepted call for a block signs it; recording a certificate first changes no phase. -/
theorem block_call {tp : TrustedPara} {call : Call} {block : Digest} {seq : Nat}
    (called : tp.blockOf call = some (block, seq)) :
    ∃ (tp₁ : TrustedPara) (h1 h2 : Hash) (v2 : View), tp₁.blockPhases = tp.blockPhases
      ∧ tp₁.view = tp.view ∧ tp₁.phase = tp.phase ∧ h1.hash = block
      ∧ tp.statement call = some (tp₁.blockStatement h1 h2 v2 seq)
      ∧ tp.next call = (tp₁.signBlock h1 h2 v2 seq).2 := by
  cases call with
  | prepare nodes b just =>
    simp only [blockOf] at called
    split at called
    · rename_i accepted
      obtain ⟨rd, made, next⟩ := prepare_call accepted
      simp only [Option.some.injEq, Prod.mk.injEq] at called
      obtain ⟨rfl, rfl⟩ := called
      exact ⟨tp, b.hash, rd.justh, rd.justv, rfl, rfl, rfl, rfl, made, next⟩
    · cases called
  | store nodes just getBlockFunc =>
    simp only [blockOf] at called
    split at called
    · rename_i accepted
      obtain ⟨rd, tagged, -, made, next⟩ := store_call accepted
      simp only [tagged, Option.map_some, Option.some.injEq, Prod.mk.injEq] at called
      obtain ⟨rfl, rfl⟩ := called
      exact ⟨tp.record rd getBlockFunc, rd.proph, rd.justh, rd.justv,
        tp.blockPhases_record rd getBlockFunc, tp.view_record rd getBlockFunc,
        tp.phase_record rd getBlockFunc, rfl, made, next⟩
    · cases called
  | sign => cases called
  | verifyLeaderQC nodes just blockHashes checkHashes => cases called
  | changeView v => cases called

/-- Any other call signs a new-view statement, changes the view, or does nothing at all. -/
theorem other_call {tp : TrustedPara} {call : Call} (called : tp.blockOf call = none) :
    call = .sign ∨ (∃ v, call = .changeView v)
      ∨ (tp.statement call = none ∧ tp.next call = tp ∧ tp.begins call = false) := by
  cases call with
  | sign => exact .inl rfl
  | changeView v => exact .inr (.inl ⟨v, rfl⟩)
  | prepare nodes b just =>
    have refused : accepts (tp.TEEprepare nodes b just) = false := by
      simpa [blockOf] using called
    refine .inr (.inr ?_)
    cases answered : tp.TEEprepare nodes b just with
    | none => simp [statement, next, answer, answered, begins]
    | some result =>
      have unset : result.1.set = false := by simpa [accepts, answered] using refused
      obtain ⟨-, same⟩ := TEEprepare_unset answered unset
      simp [statement, next, answer, answered, begins, unset, same]
  | verifyLeaderQC nodes just blockHashes checkHashes =>
    refine .inr (.inr ?_)
    cases answered : tp.TEEverifyLeaderQC nodes just blockHashes checkHashes with
    | none => simp [statement, next, answer, answered, begins]
    | some out => simp [statement, next, answer, answered, begins, Just.defaultPara]
  | store nodes just getBlockFunc =>
    refine .inr (.inr ?_)
    cases answered : tp.TEEstore nodes just getBlockFunc with
    | none => simp [statement, next, answer, answered, begins]
    | some result =>
      cases set : result.1.set with
      | true =>
        -- An accepted certificate is a call for its block.
        obtain ⟨rd, tagged, -⟩ := TEEstore_set answered set
        simp [blockOf, accepts, answered, set, tagged] at called
      | false =>
        obtain ⟨-, same⟩ := TEEstore_unset answered set
        simp [statement, next, answer, answered, begins, set, same]

/-- What an accepted call for a block signs, and how the counts go on. -/
theorem Ranked.block {tp : TrustedPara} {count : Digest → Nat} (ranked : Ranked tp count)
    {call : Call} {block : Digest} {seq : Nat} (called : tp.blockOf call = some (block, seq)) :
    (∃ r, tp.statement call = some r ∧ r.propv = tp.view ∧ r.seqNumber = seq
      ∧ r.proph.hash = block ∧ r.phase = phaseAt (count block))
    ∧ Ranked (tp.next call) (Function.update count block (count block + 1)) := by
  obtain ⟨tp₁, h1, h2, v2, phases, view, phase, rfl, made, next⟩ := block_call called
  have ranked₁ : Ranked tp₁ count := by
    refine ⟨fun h => ?_, phase ▸ ranked.node⟩
    have same := ranked.blocks h
    simpa only [phaseOf, phases] using same
  rw [next]
  exact ⟨⟨_, made, view, rfl, rfl, ranked₁.blocks h1⟩, ranked₁.signBlock h1 h2 v2 seq⟩

/-- What any other call signs is no vote for a block, and the counts go on or begin anew. -/
theorem Ranked.other {tp : TrustedPara} {count : Digest → Nat} (ranked : Ranked tp count)
    {call : Call} (called : tp.blockOf call = none) :
    (∀ r, tp.statement call = some r → blockPhase r.phase = false)
    ∧ Ranked (tp.next call) (if tp.begins call then fun _ => 0 else count) := by
  rcases other_call called with rfl | ⟨v, rfl⟩ | ⟨silent, same, on⟩
  · have step : ∀ r, tp.statement .sign = some r → r.phase = tp.phase := by
      intro r made
      simp only [statement, answer, TEEsign, TrustedPara.sign, Just.set_ofRDataPara, if_true,
        Just.getRDataPara_ofRDataPara, Option.some.injEq] at made
      rw [← made]
    rcases ranked.node with phase | phase
    · refine ⟨fun r made => by rw [step r made, phase]; rfl, ?_⟩
      have moved : tp.next .sign = { tp with phase := PH1_PARALLEL } := by
        simp only [next, answer, TEEsign, TrustedPara.sign, increment_node_phase, phase]
        rfl
      rw [moved]
      simp only [begins, phase]
      exact ⟨ranked.blocks, .inr rfl⟩
    · refine ⟨fun r made => by rw [step r made, phase]; rfl, ?_⟩
      have moved : tp.next .sign = increment_view { tp with phase := PH1_NEWVIEW } := by
        simp only [next, answer, TEEsign, TrustedPara.sign, increment_node_phase, phase]
        rfl
      rw [moved]
      simp only [begins, phase]
      exact Ranked.begin rfl (.inl rfl)
  · refine ⟨by simp [statement, answer, Just.defaultPara], ?_⟩
    exact Ranked.begin rfl (.inl rfl)
  · rw [silent, same, on]
    exact ⟨fun r made => (by cases made), ranked⟩

/-- What a statement about a block votes for. -/
def voteOf (r : RDataPara) : Option (View × Nat × Phase1 × Digest) :=
  if blockPhase r.phase then some (r.propv, r.seqNumber, r.phase, r.proph.hash) else none

omit [Hashing] in
/-- A statement in a voting phase votes for its block. -/
theorem voteOf_eq {r : RDataPara} (voting : blockPhase r.phase = true) :
    voteOf r = some (r.propv, r.seqNumber, r.phase, r.proph.hash) := by
  simp [voteOf, voting]

/-- The vote an accepted call for a block gives. -/
def BlockCall.vote (c : BlockCall) : View × Nat × Phase1 × Digest :=
  (c.view, c.seq, phaseAt c.rank, c.block)

/-- The votes signed are those of the accepted calls for blocks, in the same order. -/
theorem Ranked.votes {tp : TrustedPara} {count : Digest → Nat} (ranked : Ranked tp count)
    (calls : List Call) :
    (tp.signed calls).filterMap voteOf = (tp.blockCalls count calls).map BlockCall.vote := by
  -- Induction on the calls; each one either is for a block or signs no vote.
  induction calls generalizing tp count with
  | nil => rfl
  | cons call calls ih =>
    rw [signed, List.filterMap_append]
    cases called : tp.blockOf call with
    | some result =>
      obtain ⟨block, seq⟩ := result
      obtain ⟨⟨r, made, view, slot, hash, phase⟩, after⟩ := ranked.block called
      have vote : voteOf r = some (tp.view, seq, phaseAt (count block), block) := by
        simp [voteOf, phase, blockPhase_phaseAt, view, slot, hash]
      simp [blockCalls, called, made, vote, ih after, BlockCall.vote]
    | none =>
      obtain ⟨silent, after⟩ := ranked.other called
      have none_made : (tp.statement call).toList.filterMap voteOf = [] := by
        cases made : tp.statement call with
        | none => rfl
        | some r => simp [voteOf, silent r made]
      simp [blockCalls, called, none_made, ih after]

/--
A component that starts afresh equivocates on no slot exactly when its accepted calls for
different blocks of one slot are always out of step.
-/
theorem noEquivocation_iff (id : PID) (priv : KEY) (q : Nat) (calls : List Call) :
    NoEquivocation ((init id priv q).signed calls)
      ↔ OutOfStep ((init id priv q).blockCalls (fun _ => 0) calls) := by
  have fresh : Ranked (init id priv q) fun _ => 0 := Ranked.begin rfl (.inl rfl)
  have votes := fresh.votes calls
  let Agree : View × Nat × Phase1 × Digest → View × Nat × Phase1 × Digest → Prop :=
    fun k k' => k.1 = k'.1 → k.2.1 = k'.2.1 → k.2.2.1 = k'.2.2.1 → k.2.2.2 = k'.2.2.2
  calc NoEquivocation ((init id priv q).signed calls)
      ↔ (((init id priv q).signed calls).filterMap voteOf).Pairwise Agree := by
        rw [List.pairwise_filterMap]
        refine List.Pairwise.iff fun r r' => ?_
        constructor
        · intro same k vote k' vote' view slot phase
          simp only [voteOf, Option.ite_none_right_eq_some, Option.some.injEq] at vote vote'
          obtain ⟨voting, rfl⟩ := vote
          obtain ⟨-, rfl⟩ := vote'
          exact same voting view slot phase
        · intro same voting view slot phase
          have voting' : blockPhase r'.phase = true := phase ▸ voting
          exact same _ (voteOf_eq voting) _ (voteOf_eq voting') view slot phase
    _ ↔ (((init id priv q).blockCalls (fun _ => 0) calls).map BlockCall.vote).Pairwise Agree := by
        rw [votes]
    _ ↔ OutOfStep ((init id priv q).blockCalls (fun _ => 0) calls) := by
        rw [List.pairwise_map]
        refine List.Pairwise.iff fun c c' => ?_
        constructor
        · intro same view slot other rank
          exact other (same view slot (phaseAt_eq_iff.2 rank))
        · intro apart view slot phase
          by_contra other
          exact apart view slot other (phaseAt_eq_iff.1 phase)

/-- Two votes of the first slot of view 0, for blocks that differ in their transactions. -/
def twoBlocks : List Call :=
  let just := Just.ofRDataPara RDataPara.default [Sign.ofText 1 1 RDataPara.default.toString]
  [.prepare Schedule.fourNodes.nodes (PBlock.ofTransactions Hash.default 0 1 []) just,
    .prepare Schedule.fourNodes.nodes (PBlock.ofTransactions Hash.default 1 1 [⟨0, 0, []⟩]) just]

omit [Hashing] in
/-- Asked to vote for two blocks of one slot, the component signs both in the prepare phase. -/
theorem equivocates_twoBlocks :
    let _ := Checksum.hashing
    Increasing twoBlocks
      ∧ ¬ NoEquivocation ((init 0 0 Schedule.fourNodes.qsize).signed twoBlocks) := by
  refine ⟨List.Pairwise.nil, ?_⟩
  unfold NoEquivocation
  decide +kernel

end TrustedPara

end ParaHotstuff
