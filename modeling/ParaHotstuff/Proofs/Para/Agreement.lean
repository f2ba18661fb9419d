import ParaHotstuff.Data.Checksum
import ParaHotstuff.Handler.Schedule
import ParaHotstuff.Proofs.Para.SignedRuns

/-! Nodes of the parallel protocol that agree on every slot although others are faulty. -/

namespace ParaHotstuff

namespace HandlerPara

namespace Signed

variable (cfg : Config) (correct : PID → Bool)

section Careful

variable (H : List ParaEvent)

/-- Whether two votes of one node are for different blocks of a slot. -/
def votesTwice : ParaEvent → ParaEvent → Bool
  | .voted p r _, .voted q r' _ =>
    p == q && r.propv == r'.propv && r.seqNumber == r'.seqNumber && r.proph != r'.proph
  | _, _ => false

/-- Whether whatever correct nodes have signed under the text of a statement is that statement. -/
def apart (r : RDataPara) : Bool :=
  H.all fun e => match e.statement with
    | some (q, r') => !correct q || r'.toString != r.toString || r' == r
    | none => true

/-- The nodes whose signatures on a statement are among commit messages. -/
def committers (r : RDataPara) (commits : List MsgCommitPara) : List PID :=
  (List.range cfg.total).filter fun q =>
    commits.any fun m => m.signs.contains (Sign.ofText q q r.toString)

/--
Whether a correct node looks at what its handlers leave out.

It votes for one block of a slot, accepts certificates of distinct signers, and executes a
slot on a quorum of signed commits that it holds.
-/
def careful : ParaEvent → Bool
  | .voted p r block => !correct p || !H.any (votesTwice (.voted p r block))
  | .stored p cert signs _ =>
    !correct p || (decide signs.getSigners.Nodup && apart correct H cert)
  | .executed p _ r commits =>
    !correct p || (r.phase == PH1_COMMIT && cfg.qsize ≤ (committers cfg r commits).length
      && apart correct H r)
  | _ => true

/-- Whether every event of a history was a careful one, given those before it. -/
def allCareful : List ParaEvent → Bool
  | [] => true
  | e :: H => careful cfg correct H e && allCareful H

/-- Correct nodes execute slots of their view, and in a slot of a view the same block. -/
structure Agreement : Prop where
  ownView : ∀ {p v r commits}, ParaEvent.executed p v r commits ∈ H → r.propv = v
  agree : ∀ {p v r commits p' v' r' commits'}, correct p = true → correct p' = true →
    ParaEvent.executed p v r commits ∈ H → ParaEvent.executed p' v' r' commits' ∈ H →
    r.propv = r'.propv → r.seqNumber = r'.seqNumber → r.proph.hash = r'.proph.hash

end Careful

section Backed

/-- Two statements are about one block in one slot. -/
structure SameSlot (r r' : RDataPara) : Prop where
  hash : r.proph.hash = r'.proph.hash
  view : r.propv = r'.propv
  slot : r.seqNumber = r'.seqNumber

theorem SameSlot.symm {r r' : RDataPara} (same : SameSlot r r') : SameSlot r' r :=
  ⟨same.hash.symm, same.view.symm, same.slot.symm⟩

theorem SameSlot.trans {r r' r'' : RDataPara} (first : SameSlot r r') (second : SameSlot r' r'') :
    SameSlot r r'' :=
  ⟨first.hash.trans second.hash, first.view.trans second.view, first.slot.trans second.slot⟩

/-- The correct nodes of a quorum have voted for the block of a statement in its slot. -/
def Backed (H : List ParaEvent) (r : RDataPara) : Prop :=
  ∃ Q, IsQuorum cfg.total cfg.qsize Q ∧ ∀ q ∈ Q, correct q = true →
    ∃ r' block, ParaEvent.voted q r' block ∈ H ∧ SameSlot r' r

variable {cfg correct} {H : List ParaEvent} {r r' : RDataPara}

theorem Backed.mono (backed : Backed cfg correct H r) (e : ParaEvent) :
    Backed cfg correct (e :: H) r := by
  obtain ⟨Q, quorum, votes⟩ := backed
  refine ⟨Q, quorum, fun q member honest => ?_⟩
  obtain ⟨r', block, voted, same⟩ := votes q member honest
  exact ⟨r', block, List.mem_cons_of_mem _ voted, same⟩

theorem Backed.of_sameSlot (backed : Backed cfg correct H r) (same : SameSlot r r') :
    Backed cfg correct H r' := by
  obtain ⟨Q, quorum, votes⟩ := backed
  refine ⟨Q, quorum, fun q member honest => ?_⟩
  obtain ⟨r₁, block, voted, same₁⟩ := votes q member honest
  exact ⟨r₁, block, voted, same₁.trans same⟩

/-- Statements of the phase of a node are in one of its two phases. -/
theorem Sound.signed (sound : Sound cfg correct H) {p : PID}
    (member : ParaEvent.signed p r ∈ H) : r.phase = PH1_NEWVIEW ∨ r.phase = PH1_PARALLEL := by
  induction H with
  | nil => cases member
  | cons e H ih =>
    rcases List.mem_cons.1 member with rfl | old
    · exact sound.1
    · exact ih sound.2 old

/-- Whoever has accepted a certificate signed a statement about its block. -/
theorem Sound.stored (sound : Sound cfg correct H) {p : PID} {cert : RDataPara} {signs : Signs}
    (member : ParaEvent.stored p cert signs r ∈ H) : SameSlot cert r := by
  induction H with
  | nil => cases member
  | cons e H ih =>
    rcases List.mem_cons.1 member with rfl | old
    · obtain ⟨-, -, -, -, hash, view, slot⟩ := sound.1
      exact ⟨by rw [hash], view.symm, slot.symm⟩
    · exact ih sound.2 old

/-- What a correct node has signed under the text of a statement set apart is that statement. -/
theorem statement_of_made {q : PID} (distinct : apart correct H r = true)
    (honest : correct q = true) (made : Made H q r.toString) :
    ∃ e ∈ H, ∃ r', e.statement = some (q, r') ∧ SameSlot r' r ∧ r'.phase = r.phase := by
  obtain ⟨e, member, r', signed, same⟩ := made
  have equal := List.all_eq_true.1 distinct e member
  simp only [signed, honest, same, Bool.not_true, bne_self_eq_false, Bool.false_or] at equal
  change (r'.proph == r.proph && r'.propv == r.propv && r'.justh == r.justh
    && r'.justv == r.justv && r'.phase == r.phase && r'.seqNumber == r.seqNumber) = true at equal
  simp only [Bool.and_eq_true, beq_iff_eq, Hash.beq_iff] at equal
  obtain ⟨⟨⟨⟨⟨hash, view⟩, -⟩, -⟩, phase⟩, slot⟩ := equal
  exact ⟨e, member, r', signed, ⟨hash, view, slot⟩, phase⟩

/-- A statement that the correct nodes of a quorum have signed is backed, if what they accepted is. -/
theorem backed_of_made (sound : Sound cfg correct H)
    (stored : ∀ {p cert signs r}, ParaEvent.stored p cert signs r ∈ H → correct p = true →
      Backed cfg correct H cert)
    {Q : Finset PID} (quorum : IsQuorum cfg.total cfg.qsize Q)
    (made : ∀ q ∈ Q, correct q = true → Made H q r.toString)
    (distinct : apart correct H r = true)
    (phase : r.phase ≠ PH1_NEWVIEW ∧ r.phase ≠ PH1_PARALLEL) : Backed cfg correct H r := by
  by_cases accepted : ∃ q cert signs r', correct q = true
      ∧ ParaEvent.stored q cert signs r' ∈ H ∧ SameSlot r' r
  · -- One of them has accepted a certificate for the block, which is backed itself.
    obtain ⟨q, cert, signs, r', honest, member, same⟩ := accepted
    exact (stored member honest).of_sameSlot ((sound.stored member).trans same)
  · -- Otherwise all of them have voted.
    refine ⟨Q, quorum, fun q member honest => ?_⟩
    obtain ⟨e, held, r', signed, same, samePhase⟩ :=
      statement_of_made distinct honest (made q member honest)
    cases e with
    | signed p r₁ =>
      obtain ⟨rfl, rfl⟩ := Prod.mk.inj (Option.some.inj signed)
      rcases sound.signed held with new | parallel
      · exact absurd (samePhase.symm.trans new) phase.1
      · exact absurd (samePhase.symm.trans parallel) phase.2
    | voted p r₁ block =>
      obtain ⟨rfl, rfl⟩ := Prod.mk.inj (Option.some.inj signed)
      exact ⟨r₁, block, held, same⟩
    | stored p cert signs r₁ =>
      obtain ⟨rfl, rfl⟩ := Prod.mk.inj (Option.some.inj signed)
      exact absurd ⟨p, cert, signs, r₁, honest, held, same⟩ accepted
    | _ => cases signed

/-- Every certificate a correct node accepts is backed. -/
theorem stored_backed (sound : Sound cfg correct H) (all : allCareful cfg correct H = true)
    {p : PID} {cert : RDataPara} {signs : Signs}
    (member : ParaEvent.stored p cert signs r ∈ H) (honest : correct p = true) :
    Backed cfg correct H cert := by
  -- Induction on the history; the signers of a certificate signed before it was accepted.
  induction H generalizing p cert signs r with
  | nil => cases member
  | cons e H ih =>
    simp only [allCareful, Bool.and_eq_true] at all
    have before : ∀ {p cert signs r}, ParaEvent.stored p cert signs r ∈ H → correct p = true →
        Backed cfg correct H cert := fun member honest => ih sound.2 all.2 member honest
    rcases List.mem_cons.1 member with rfl | old
    · obtain ⟨full, verified, known, phase, -⟩ := sound.1
      simp only [careful, honest, Bool.not_true, Bool.false_or, Bool.and_eq_true,
        decide_eq_true_eq] at all
      obtain ⟨⟨distinct, apart⟩, -⟩ := all
      have quorum := quorum_of_signs distinct
        (fun s held => known_of_verify verified held) full
      refine (backed_of_made sound.2 before quorum (fun q signer correctly => ?_) apart ?_).mono _
      · obtain ⟨s, held, rfl⟩ := mem_signers signer
        exact known s held s.signer cert.toString (made_of_verify verified held) correctly
      · rcases phase with prepare | precommit
        · rw [prepare]; decide
        · rw [precommit]; decide
    · exact (before old honest).mono e

/-- Every statement a correct node executes is backed. -/
theorem executed_backed (sound : Sound cfg correct H) (all : allCareful cfg correct H = true)
    {p : PID} {v : View} {commits : List MsgCommitPara}
    (member : ParaEvent.executed p v r commits ∈ H) (honest : correct p = true) :
    Backed cfg correct H r := by
  induction H with
  | nil => cases member
  | cons e H ih =>
    simp only [allCareful, Bool.and_eq_true] at all
    rcases List.mem_cons.1 member with rfl | old
    · obtain ⟨-, known⟩ := sound.1
      simp only [careful, honest, Bool.not_true, Bool.false_or, Bool.and_eq_true, beq_iff_eq,
        decide_eq_true_eq] at all
      obtain ⟨⟨⟨phase, enough⟩, apart⟩, before⟩ := all
      have quorum : IsQuorum cfg.total cfg.qsize (committers cfg r commits).toFinset :=
        IsQuorum.of_nodup (List.nodup_range.filter _)
          (fun q signer => List.mem_range.1 (List.mem_filter.1 signer).1) enough
      refine (backed_of_made sound.2 (fun member honest => stored_backed sound.2 before member
        honest) quorum (fun q signer correctly => ?_) apart ?_).mono _
      · have committed := (List.mem_filter.1 (List.mem_toFinset.1 signer)).2
        simp only [List.any_eq_true, List.contains_iff_mem] at committed
        obtain ⟨m, held, signature⟩ := committed
        exact known m held _ signature q r.toString rfl correctly
      · rw [phase]; decide
    · exact (ih sound.2 all.2 old).mono e

/-- A correct node votes for one block of a slot. -/
theorem vote_unique (all : allCareful cfg correct H = true) {p : PID} {b b' : PBlock}
    (honest : correct p = true) (first : ParaEvent.voted p r b ∈ H)
    (second : ParaEvent.voted p r' b' ∈ H) (view : r.propv = r'.propv)
    (slot : r.seqNumber = r'.seqNumber) : r.proph.hash = r'.proph.hash := by
  -- Of two votes the later one finds the earlier one in the history.
  have later : ∀ {H : List ParaEvent} {r r' : RDataPara} {b b' : PBlock},
      careful cfg correct H (.voted p r b) = true → ParaEvent.voted p r' b' ∈ H →
      r.propv = r'.propv → r.seqNumber = r'.seqNumber → r.proph.hash = r'.proph.hash := by
    intro H r r' b b' once held view slot
    simp only [careful, honest, Bool.not_true, Bool.false_or, Bool.not_eq_true',
      List.any_eq_false] at once
    have different := once _ held
    simp only [votesTwice, view, slot, beq_self_eq_true, Bool.true_and, bne, Bool.not_eq_true',
      Bool.not_eq_false, Hash.beq_iff] at different
    exact different
  induction H with
  | nil => cases first
  | cons e H ih =>
    simp only [allCareful, Bool.and_eq_true] at all
    rcases List.mem_cons.1 first with rfl | before
    · rcases List.mem_cons.1 second with same | before'
      · cases same
        rfl
      · exact later all.1 before' view slot
    · rcases List.mem_cons.1 second with rfl | before'
      · exact (later all.1 before view.symm slot.symm).symm
      · exact ih all.2 before before'

end Backed

section Runs

variable {cfg correct} [Hashing]

/-- The nodes that are not correct. -/
def faulty (cfg : Config) (correct : PID → Bool) : List PID :=
  (List.range cfg.total).filter fun p => !correct p

omit [Hashing] in
/-- A careful history has correct nodes agree on every slot. -/
theorem Sound.agrees {H : List ParaEvent} (three : cfg.constFactor = 3)
    (few : (faulty cfg correct).length ≤ cfg.numFaults) (sound : Sound cfg correct H)
    (all : allCareful cfg correct H = true) : Agreement correct H where
  ownView := fun {p v r commits} member => by
    induction H with
    | nil => cases member
    | cons e H ih =>
      simp only [allCareful, Bool.and_eq_true] at all
      rcases List.mem_cons.1 member with rfl | old
      · exact sound.1.1
      · exact ih sound.2 all.2 old
  agree := fun {p v r commits p' v' r' commits'} honest honest' first second view slot => by
    -- Both blocks are backed by quorums, and these share a correct node, which voted once.
    obtain ⟨Q, quorum, votes⟩ := executed_backed sound all first honest
    obtain ⟨Q', quorum', votes'⟩ := executed_backed sound all second honest'
    have overlap : cfg.total + cfg.numFaults < 2 * cfg.qsize := by
      simp only [Config.qsize, Config.total, three]
      omega
    have bound : (faulty cfg correct).toFinset.card ≤ cfg.numFaults :=
      (List.toFinset_card_le _).trans few
    obtain ⟨q, member, member', outside⟩ :=
      IsQuorum.intersect_outside bound overlap quorum quorum'
    have correctly : correct q = true := by
      by_contra other
      have known := Finset.mem_range.1 (quorum.within member)
      exact outside (by simpa [faulty] using ⟨known, by simpa using other⟩)
    obtain ⟨r₁, block, voted, same⟩ := votes q member correctly
    obtain ⟨r₂, block', voted', same'⟩ := votes' q member' correctly
    have unique := vote_unique all correctly voted voted'
      (same.view.trans (view.trans same'.view.symm))
      (same.slot.trans (slot.trans same'.slot.symm))
    exact same.hash.symm.trans (unique.trans same'.hash)

end Runs

section Examples

/-- The environment of the nodes themselves. -/
def ownAction : Action Input → Action FaultyInput
  | .deliver index => .deliver index
  | .input p i => .input p (.own i)

/-- Every packet arrives in order until all slots of a view are executed. -/
def ordered : List (Action FaultyInput) :=
  (Schedule.startAll 4 ++ Schedule.deliverFrom 0 48).map ownAction

end Examples

end Signed

end HandlerPara

end ParaHotstuff
