import ParaHotstuff.Proofs.Para.Announcements
import ParaHotstuff.Proofs.Para.LockRuns
import ParaHotstuff.Proofs.Para.OneVote
import ParaHotstuff.Proofs.Trusted.PrefixLock

/-! What a node adopts and votes on, and the block that its component has locked. -/

namespace ParaHotstuff

/--
Whether a justification with the hashes announced along with it respects a lock.

Genesis is no lock; any other locked block is listed, or older than what the justification is on.
-/
def RDataPara.respects (rd : RDataPara) (blockHashes : List Hash) (lockh : Hash) (lockv : View) :
    Bool :=
  decide (lockh = Hash.ofBool true) || blockHashes.any (·.hash == lockh.hash) || lockv < rd.justv

/--
Whether an event leaves a lock in force.

A justification is adopted without a look at the hashes only if it respects the lock anyway, and
a vote is only cast where the justifications compare.
-/
def ParaEvent.heeds : ParaEvent → Bool
  | adopted _ rd blockHashes verified lockh lockv =>
    verified < rd.justv || rd.respects blockHashes lockh lockv
  | answered _ _ just verified _ _ => (just.eq? verified).isSome
  | _ => true

/-- Whether a justification is judged: adopted, or compared with that of a proposal. -/
def ParaEvent.judges : ParaEvent → Bool
  | adopted .. => true
  | answered .. => true
  | _ => false

/-- Whether equal round data were adopted together with hashes that respect a lock. -/
def ParaEvent.clears (rd : RDataPara) (lockh : Hash) (lockv : View) : ParaEvent → Bool
  | adopted _ rd' blockHashes _ _ _ => rd == rd' && rd'.respects blockHashes lockh lockv
  | _ => false

namespace TrustedPara

variable {tp : TrustedPara}

/-- What is recorded of certificates is of one view. -/
def Records (tp : TrustedPara) (v : View) : Prop :=
  ∀ i d, tp.precommitData.lookup i = some d → d.view = v

theorem Records.changeView (v w : View) : (tp.changeView v).Records w := by
  intro i d found
  simp [TrustedPara.changeView] at found

/-- Signing in the phase of the node leaves the lock, and may forget the certificates. -/
theorem Records.increment_node_phase {v : View} (records : tp.Records v) :
    tp.increment_node_phase.Records v := by
  unfold TrustedPara.increment_node_phase increment_view
  intro i d found
  split at found
  · exact records i d found
  · split at found
    · exact records i d found
    · split at found
      · exact records i d found
      · split at found
        · simp at found
        · exact records i d found

theorem lock_increment_node_phase (tp : TrustedPara) :
    tp.increment_node_phase.prefixLockedHash = tp.prefixLockedHash
      ∧ tp.increment_node_phase.prefixLockedView = tp.prefixLockedView := by
  unfold TrustedPara.increment_node_phase increment_view
  repeat' split
  all_goals exact ⟨rfl, rfl⟩

variable [Hashing]

/-- A certificate of the view is recorded, and the lock stays or moves to a block of the view. -/
theorem Records.record {rd : RDataPara} {getBlockFunc : Nat → PBlock}
    (records : tp.Records rd.propv) :
    (tp.record rd getBlockFunc).Records rd.propv
      ∧ (((tp.record rd getBlockFunc).prefixLockedHash = tp.prefixLockedHash
          ∧ (tp.record rd getBlockFunc).prefixLockedView = tp.prefixLockedView)
        ∨ (tp.record rd getBlockFunc).prefixLockedView = rd.propv) := by
  -- What is prepared is kept apart from the certificates and from the lock.
  obtain ⟨lockh, lockv, -, -, data⟩ := storePrepared_frame tp rd.proph rd.propv rd.seqNumber
  simp only [TrustedPara.record]
  generalize tp.storePrepared rd.proph rd.propv rd.seqNumber = tp₁ at lockh lockv data
  have kept : tp₁.Records rd.propv := fun i d found => records i d (by rw [← data]; exact found)
  split
  · have recorded : TrustedPara.Records { tp₁ with
        precommitData := tp₁.precommitData.insert rd.seqNumber ⟨rd.proph, rd.propv⟩ }
        rd.propv := by
      intro i d found
      by_cases same : i = rd.seqNumber
      · subst same
        rw [AList.lookup_insert] at found
        obtain rfl := Option.some.inj found
        rfl
      · rw [AList.lookup_insert_ne same] at found
        exact kept i d found
    rcases lockPrefix_cases { tp₁ with
        precommitData := tp₁.precommitData.insert rd.seqNumber ⟨rd.proph, rd.propv⟩ }
      getBlockFunc with stays | ⟨seq, locked, found, _, moved⟩
    · rw [stays]
      exact ⟨recorded, .inl ⟨lockh, lockv⟩⟩
    · rw [moved]
      exact ⟨recorded, .inr (recorded seq locked found)⟩
  · exact ⟨kept, .inl ⟨lockh, lockv⟩⟩

end TrustedPara

/-- Justifications that compare as equal carry round data that do. -/
theorem Just.getRDataPara_of_eq {a b : Just} {rd rd' : RDataPara} (same : a.eq? b = some true)
    (tagged : a.getRDataPara = some rd) (tagged' : b.getRDataPara = some rd') :
    (rd == rd') = true := by
  unfold Just.eq? at same
  unfold Just.getRDataPara at tagged tagged'
  split at same
  · cases same
  · -- Both carry round data of the parallel protocol.
    cases first : a.data with
    | RData r =>
      rw [first] at tagged
      cases tagged
    | RDataPara r =>
      cases second : b.data with
      | RData r' =>
        rw [second] at tagged'
        cases tagged'
      | RDataPara r' =>
        rw [first] at tagged same
        rw [second] at tagged' same
        obtain rfl := Option.some.inj tagged
        obtain rfl := Option.some.inj tagged'
        dsimp only at same
        split at same
        · exact Option.some.inj same
        · cases same

/-- Round data that compare as equal are of one view, on a justification of one view. -/
theorem RDataPara.views_of_beq {a b : RDataPara} (same : (a == b) = true) :
    a.propv = b.propv ∧ a.justv = b.justv := by
  change (a.proph == b.proph && a.propv == b.propv && a.justh == b.justh && a.justv == b.justv
    && a.phase == b.phase && a.seqNumber == b.seqNumber) = true at same
  simp only [Bool.and_eq_true, beq_iff_eq] at same
  exact ⟨same.1.1.1.1.2, same.1.1.2⟩

namespace HandlerPara

open Program Local

variable [Hashing] {cfg : Config} {p : PID} {l : State} {H : List ParaEvent}

/--
Whether nothing speaks against a vote on round data while a block is locked.

Either nothing is locked, or the locked block is of the view voted in, or the round data were
adopted together with hashes that respect the lock.
-/
def Unopposed (H : List ParaEvent) (rd : RDataPara) (lockh : Hash) (lockv : View) : Prop :=
  lockh = Hash.ofBool true ∨ lockv = rd.propv ∨ ∃ e ∈ H, e.clears rd lockh lockv = true

/-- What keeps the lock in force: what is adopted and voted on, as long as all events heed it. -/
structure Guarded (l : State) : Prop where
  trusted : l.node.tpara.view < wordSize
  verifies : ∀ {v m}, l.node.log.verifiesPara.lookup v = some m → m.rdata.propv < wordSize
  sorted : l.node.log.Sorted
  records : l.node.tpara.Records l.node.view
  /-- The justification verified last is of no later view, and unopposed in its own. -/
  verified : ∃ rd, l.node.verifiedJust.getRDataPara = some rd ∧ rd.propv ≤ l.node.view
    ∧ (rd.propv = l.node.view → (∀ e ∈ l.history, e.heeds = true) → ∀ rd', (rd' == rd) = true →
      Unopposed l.history rd' l.node.tpara.prefixLockedHash l.node.tpara.prefixLockedView)
  adopted : (∀ e ∈ l.history, e.heeds = true) → ∀ {q rd blockHashes verified lockh lockv},
    ParaEvent.adopted q rd blockHashes verified lockh lockv ∈ l.history →
    rd.respects blockHashes lockh lockv = true
  answered : (∀ e ∈ l.history, e.heeds = true) → ∀ {q r just verified lockh lockv},
    ParaEvent.answered q r just verified lockh lockv ∈ l.history →
    ∃ rd, just.getRDataPara = some rd ∧ rd.propv = r.propv ∧ Unopposed l.history rd lockh lockv

section Steps

omit [Hashing]

/-- What is unopposed stays so. -/
theorem Unopposed.mono {rd : RDataPara} {lockh : Hash} {lockv : View} {e : ParaEvent}
    (unopposed : Unopposed H rd lockh lockv) : Unopposed (e :: H) rd lockh lockv := by
  rcases unopposed with nothing | here | ⟨adopted, member, clears⟩
  · exact .inl nothing
  · exact .inr (.inl here)
  · exact .inr (.inr ⟨adopted, List.mem_cons_of_mem _ member, clears⟩)

/-- A change of the node in its view, whose lock stays or moves to a block of the view. -/
theorem Guarded.node (guarded : Guarded l) {h : HandlerPara} (view : h.view = l.node.view)
    (verifiedJust : h.verifiedJust = l.node.verifiedJust)
    (verifies : h.log.verifiesPara = l.node.log.verifiesPara) (sorted : h.log.Sorted)
    (trusted : h.tpara.view < wordSize) (records : h.tpara.Records l.node.view)
    (lock : (h.tpara.prefixLockedHash = l.node.tpara.prefixLockedHash
        ∧ h.tpara.prefixLockedView = l.node.tpara.prefixLockedView)
      ∨ h.tpara.prefixLockedView = l.node.view) : Guarded { l with node := h } where
  trusted := trusted
  verifies := by rw [verifies]; exact guarded.verifies
  sorted := sorted
  records := by rw [view]; exact records
  verified := by
    obtain ⟨rd, tagged, before, unopposed⟩ := guarded.verified
    refine ⟨rd, by rw [verifiedJust]; exact tagged, view ▸ before, fun here heeded rd' same => ?_⟩
    rw [view] at here
    rcases lock with ⟨lockh, lockv⟩ | moved
    · rw [lockh, lockv]
      exact unopposed here heeded rd' same
    · -- A block of the view is locked.
      right
      left
      exact moved.trans (here.symm.trans (RDataPara.views_of_beq same).1.symm)
  adopted := guarded.adopted
  answered := guarded.answered

/-- Changes elsewhere in the node do not matter. -/
theorem Guarded.same (guarded : Guarded l) {h : HandlerPara} (view : h.view = l.node.view)
    (verifiedJust : h.verifiedJust = l.node.verifiedJust) (tpara : h.tpara = l.node.tpara)
    (verifies : h.log.verifiesPara = l.node.log.verifiesPara) (sorted : h.log.Sorted) :
    Guarded { l with node := h } :=
  guarded.node view verifiedJust verifies sorted (by rw [tpara]; exact guarded.trusted)
    (by rw [tpara]; exact guarded.records) (.inl ⟨by rw [tpara], by rw [tpara]⟩)

/-- Events that judge no justification may be noted. -/
theorem Guarded.event (guarded : Guarded l) {e : ParaEvent} (silent : e.judges = false) :
    Guarded { l with history := e :: l.history } :=
  { guarded with
    verified := by
      obtain ⟨rd, tagged, before, unopposed⟩ := guarded.verified
      refine ⟨rd, tagged, before, fun here heeded rd' same => ?_⟩
      exact (unopposed here (fun e member => heeded e (List.mem_cons_of_mem _ member)) rd' same).mono
    adopted := fun heeded _ _ _ _ _ _ member => by
      rcases List.mem_cons.1 member with new | old
      · rw [← new] at silent
        cases silent
      · exact guarded.adopted (fun e member => heeded e (List.mem_cons_of_mem _ member)) old
    answered := fun heeded _ _ _ _ _ _ member => by
      rcases List.mem_cons.1 member with new | old
      · rw [← new] at silent
        cases silent
      · obtain ⟨rd, tagged, view, unopposed⟩ :=
          guarded.answered (fun e member => heeded e (List.mem_cons_of_mem _ member)) old
        exact ⟨rd, tagged, view, unopposed.mono⟩ }

/-- A justification that is adopted unchecked respects the lock anyway, and a checked one does. -/
theorem Guarded.adopts (guarded : Guarded l) {q : PID} {rd old : RDataPara} {signs : Signs}
    {blockHashes : List Hash} (here : rd.propv = l.node.view)
    (checked : old.propv < rd.justv →
      (∃ h ∈ blockHashes, h.hash = l.node.tpara.prefixLockedHash.hash)
        ∨ l.node.tpara.prefixLockedView < rd.justv) :
    Guarded { l with
      node := { l.node with verifiedJust := Just.ofRDataPara rd signs }
      history := .adopted q rd blockHashes old.propv l.node.tpara.prefixLockedHash
        l.node.tpara.prefixLockedView :: l.history } := by
  -- If all events heed the lock, so does this one.
  have respects : ∀ {rest : List ParaEvent}, (∀ e ∈ ParaEvent.adopted q rd blockHashes old.propv
      l.node.tpara.prefixLockedHash l.node.tpara.prefixLockedView :: rest, e.heeds = true) →
      rd.respects blockHashes l.node.tpara.prefixLockedHash l.node.tpara.prefixLockedView
        = true := by
    intro rest heeded
    have heeds := heeded _ List.mem_cons_self
    simp only [ParaEvent.heeds, Bool.or_eq_true, decide_eq_true_eq] at heeds
    rcases heeds with newer | respects
    · simp only [RDataPara.respects, Bool.or_eq_true, decide_eq_true_eq, List.any_eq_true,
        beq_iff_eq]
      rcases checked newer with listed | above
      · exact .inl (.inr listed)
      · exact .inr above
    · exact respects
  exact
    { guarded with
      verified := ⟨rd, Just.getRDataPara_ofRDataPara _ _, Nat.le_of_eq here,
        fun _ heeded rd' same => .inr (.inr ⟨_, List.mem_cons_self, by
          rw [ParaEvent.clears, same, respects heeded]
          rfl⟩)⟩
      adopted := fun heeded _ _ _ _ _ _ member => by
        rcases List.mem_cons.1 member with new | old
        · cases new
          exact respects heeded
        · exact guarded.adopted (fun e member => heeded e (List.mem_cons_of_mem _ member)) old
      answered := fun heeded _ _ _ _ _ _ member => by
        rcases List.mem_cons.1 member with new | old
        · cases new
        · obtain ⟨rd, tagged, view, unopposed⟩ :=
            guarded.answered (fun e member => heeded e (List.mem_cons_of_mem _ member)) old
          exact ⟨rd, tagged, view, unopposed.mono⟩ }

/-- A node that enters a later view has verified nothing for it yet. -/
theorem Guarded.entered (guarded : Guarded l) {v : View} (later : l.node.view < v)
    (small : v < wordSize) : Guarded { l with node := l.node.entered cfg v } where
  trusted := small
  verifies := guarded.verifies
  sorted := guarded.sorted
  records := TrustedPara.Records.changeView v v
  verified := by
    obtain ⟨rd, tagged, before, -⟩ := guarded.verified
    refine ⟨rd, tagged, Nat.le_of_lt (Nat.lt_of_le_of_lt before later), fun here => ?_⟩
    change rd.propv = v at here
    exact absurd (here ▸ before) (Nat.not_le_of_lt later)
  adopted := guarded.adopted
  answered := guarded.answered

end Steps

/-- A vote is for the justification verified for the view, if the two compare. -/
theorem Guarded.respond (guarded : Guarded l) {just : Just} {block : PBlock} {rd r : RDataPara}
    (tagged : just.getRDataPara = some rd) (view : rd.propv = l.node.view)
    (passes : just.eq? l.node.verifiedJust ≠ some false) (here : l.node.tpara.view = rd.propv)
    (signed : r = l.node.tpara.blockStatement block.hash rd.justh rd.justv block.seqNumber) :
    Guarded (answering cfg l just block r) := by
  have ofView : rd.propv = r.propv := by
    rw [signed]
    exact here.symm
  -- The vote itself changes neither the lock nor what is verified.
  have voted : Guarded { l with
      node := (answering cfg l just block r).node
      history := .voted l.node.myid r block :: l.history } :=
    (guarded.event (e := .voted l.node.myid r block) rfl).node rfl rfl rfl guarded.sorted
      guarded.trusted guarded.records (.inl ⟨rfl, rfl⟩)
  obtain ⟨rd', tagged', -, unopposed⟩ := guarded.verified
  exact
    { voted with
      verified := by
        obtain ⟨old, tagged, before, unopposed⟩ := voted.verified
        refine ⟨old, tagged, before, fun here heeded rd' same => ?_⟩
        exact (unopposed here (fun e member => heeded e (List.mem_cons_of_mem _ member)) rd'
          same).mono
      adopted := fun heeded _ _ _ _ _ _ member => by
        rcases List.mem_cons.1 member with new | old
        · cases new
        · exact voted.adopted (fun e member => heeded e (List.mem_cons_of_mem _ member)) old
      answered := fun heeded _ _ just' verified lockh lockv member => by
        have earlier : ∀ e ∈ ParaEvent.voted l.node.myid r block :: l.history, e.heeds = true :=
          fun e member => heeded e (List.mem_cons_of_mem _ member)
        rcases List.mem_cons.1 member with new | old
        · cases new
          -- The justifications compare, and not as different.
          have compares : (just.eq? l.node.verifiedJust).isSome = true :=
            heeded _ List.mem_cons_self
          obtain ⟨same, compared⟩ := Option.isSome_iff_exists.1 compares
          rw [compared] at passes
          have equal : just.eq? l.node.verifiedJust = some true := by
            rw [compared]
            cases same with
            | true => rfl
            | false => exact absurd rfl passes
          have alike := Just.getRDataPara_of_eq equal tagged tagged'
          have current : rd'.propv = l.node.view :=
            (RDataPara.views_of_beq alike).1.symm.trans view
          have clear := unopposed current (fun e member => earlier e (List.mem_cons_of_mem _ member))
            rd alike
          exact ⟨rd, tagged, ofView, clear.mono.mono⟩
        · obtain ⟨rd, tagged, view, unopposed⟩ := voted.answered earlier old
          exact ⟨rd, tagged, view, unopposed.mono⟩ }

omit [Hashing] in
/-- Signing reports and entering views leave the lock in force. -/
theorem Guarded.signing : Signing cfg Guarded WordSized True where
  note := fun {l e} guarded progress _ => by
    refine guarded.event ?_
    cases e <;> first | rfl | cases progress
  begin := fun guarded => guarded.same rfl rfl rfl rfl guarded.sorted
  sign := fun {l} guarded =>
    (guarded.node (h := { l.node with tpara := l.node.tpara.increment_node_phase }) rfl rfl rfl
      guarded.sorted (TrustedPara.view_increment_node_phase guarded.trusted)
      guarded.records.increment_node_phase
      (.inl l.node.tpara.lock_increment_node_phase)).event rfl
  signed := fun {l} guarded => decide_eq_true guarded.trusted
  counted := fun _ guarded => guarded.trusted
  change := fun v guarded later => guarded.entered (later trivial).1 (later trivial).2

/-- So does executing a slot. -/
theorem Guarded.mark (guarded : Guarded l) (rdata : RDataPara) : Guarded (marking l rdata) := by
  have executed := (guarded.same (h := l.node.executing rdata) rfl rfl rfl rfl guarded.sorted).event
    (e := .executed l.node.myid l.node.view rdata
      (l.node.log.commitsPara.held (l.node.view, rdata.seqNumber))) rfl
  exact executed.event
    (e := .marked l.node.myid l.node.view rdata (l.node.blockAt rdata.seqNumber)
      l.node.clients.keys (l.node.executing rdata).rep_queue) rfl

/-- Every effect of a handler keeps the lock in force. -/
theorem Guarded.closed : Closed cfg Guarded WordSized (fun _ _ => True) True True where
  still := fun guarded still => guarded.same still.view still.verifiedJust still.tpara
    (by rw [still.log]) (by rw [still.log]; exact guarded.sorted)
  looks := fun {l} v guarded => by
    have frame := frame_enterView l.node v
    exact guarded.same frame.view frame.verifiedJust frame.tpara (by rw [frame.log])
      (by rw [frame.log]; exact guarded.sorted)
  visits := fun guarded _ => guarded.same rfl rfl rfl rfl guarded.sorted
  blocks := fun guarded _ filed => by
    obtain ⟨pblocks, rfl⟩ := filed.blocks_only
    exact guarded.same rfl rfl rfl rfl guarded.sorted
  votes := fun guarded voted =>
    guarded.same rfl rfl rfl voted.same.verifiesPara (guarded.sorted.voted voted)
  commits := fun guarded _ => guarded.same rfl rfl rfl rfl (guarded.sorted.committed _)
  storeNv := fun guarded _ => guarded.same rfl rfl rfl rfl { guarded.sorted with }
  storeProp := fun guarded _ stored => by
    unfold LogPara.storePropPara at stored
    split at stored
    · cases stored
    · obtain ⟨-, rfl⟩ := Prod.mk.inj (Option.some.inj stored)
      exact guarded.same rfl rfl rfl rfl { guarded.sorted with }
  storeVerify := fun {l msg} guarded known =>
    { guarded with
      sorted := { guarded.sorted with }
      verifies := fun {v m} found => by
        by_cases same : v = msg.rdata.propv
        · subst same
          obtain rfl : msg = m := by simpa [LogPara.storeVerifyPara] using found
          simpa [WordSized, MsgPara.wordSized] using known
        · exact guarded.verifies (by simpa [LogPara.storeVerifyPara, same] using found) }
  proposals := fun _ _ _ _ => rfl
  verifies := fun guarded found => by
    simpa [WordSized, MsgPara.wordSized] using guarded.verifies found
  reports := fun _ _ => trivial
  noReports := fun _ _ => trivial
  sorted := fun _ guarded => guarded.sorted
  small := fun _ known => by simpa [WordSized, MsgPara.wordSized] using known
  smallVerify := fun _ known => by simpa [WordSized, MsgPara.wordSized] using known
  sendVote := fun _ guarded _ => { guarded with }
  sendCommit := fun guarded _ => { guarded with }
  sendReport := fun _ guarded _ => { guarded with }
  sendBlocks := fun _ _ guarded _ => { guarded with }
  request := fun {l _ rdata} _ _ guarded _ _ _ =>
    { guarded.event (e := .recovering l.node.myid rdata) rfl with }
  announce := fun {l _ rdata} _ _ guarded _ _ _ =>
    { guarded.event (e := .prepared l.node.myid l.node.view rdata) rfl with }
  note := (@Guarded.signing cfg).notes
  execute := fun guarded _ _ _ _ => guarded.mark _
  leaves := Guarded.signing.leaves
  catches := Guarded.signing.catches
  starts := fun held _ => (@Guarded.signing cfg).starts held
  propose := fun {l block} _ _ _ guarded _ _ _ _ _ _ =>
    (guarded.node (h := { l.node with tpara := l.node.tpara.increment_block_phase block.hash }) rfl
      rfl rfl guarded.sorted guarded.trusted guarded.records (.inl ⟨rfl, rfl⟩)).event rfl
  store := fun {l just cert out tpara r} guarded called set tagged _ view => by
    obtain ⟨rd, tagged', -, -, here, -, signed⟩ := TrustedPara.TEEstore_set called set
    obtain ⟨-, rfl⟩ := Prod.mk.inj signed
    obtain rfl := Option.some.inj (tagged.symm.trans tagged')
    -- The certificate is of the view of the node, and so are those recorded before.
    have ofView := view trivial
    have before : l.node.tpara.Records cert.propv := by
      rw [ofView]
      exact guarded.records
    obtain ⟨records, lock⟩ := @TrustedPara.Records.record l.node.tpara _ cert l.node.blockAt before
    rw [ofView] at records lock
    refine (guarded.node (h := { l.node with
      tpara := (l.node.tpara.record cert l.node.blockAt).increment_block_phase cert.proph }) rfl rfl
      rfl guarded.sorted ?_ records lock).event rfl
    simpa [TrustedPara.increment_block_phase] using guarded.trusted
  respond := fun guarded _ tagged view _ _ _ passes _ here _ signed =>
    guarded.respond tagged view passes here signed
  adopts := fun guarded _ _ _ here _ checked => guarded.adopts here checked
  change := fun v guarded later small =>
    Guarded.signing.change v guarded fun bounded => ⟨later, small bounded⟩

/--
As long as no justification is adopted unchecked against the lock, and none is voted on that does
not compare, whatever a node adopts respects its lock, and so does whatever it votes on.
-/
theorem lock_respected (choices : PID → List Nat) (depth : Nat) (p : PID)
    (stimuli : List (Stimulus MsgPara Input))
    (counters : ∀ msg, Stimulus.message msg ∈ stimuli → msg.wordSized = true) :
    let history := ((protocol cfg depth).serve stimuli ⟨init cfg choices p, [], []⟩).state.history
    (∀ e ∈ history, e.heeds = true) →
      (∀ {q rd blockHashes verified lockh lockv},
        ParaEvent.adopted q rd blockHashes verified lockh lockv ∈ history →
        rd.respects blockHashes lockh lockv = true)
      ∧ ∀ {q r just verified lockh lockv},
        ParaEvent.answered q r just verified lockh lockv ∈ history →
        ∃ rd, just.getRDataPara = some rd ∧ rd.propv = r.propv
          ∧ Unopposed history rd lockh lockv := by
  intro history heeded
  have start : Guarded ⟨init cfg choices p, [], []⟩ :=
    { trusted := by simp [init, TrustedPara.init, wordSize]
      verifies := by simp [init, LogPara.empty]
      sorted := LogPara.sorted_empty
      records := fun i d found => by simp [init, TrustedPara.init] at found
      verified := ⟨.default, rfl, Nat.le_refl 0, fun _ _ _ _ => .inl rfl⟩
      adopted := fun _ _ _ _ _ _ _ member => by cases member
      answered := fun _ _ _ _ _ _ _ member => by cases member }
  have kept : Keeps Guarded ((protocol cfg depth).serve stimuli) := by
    refine Protocol.keeps_serve fun stimulus member => ?_
    cases stimulus with
    | message msg =>
      exact Guarded.closed.handle_kept depth (counters msg member) fun m _ =>
        Guarded.closed.handleRecoverPara_kept (fun _ _ => trivial)
          (fun _ _ guarded => guarded.same rfl rfl rfl rfl guarded.sorted) m
    | input i => exact Guarded.closed.react_kept depth i
  have reached : Guarded _ := kept.state start
  exact ⟨reached.adopted heeded, reached.answered heeded⟩

section Example

/-- A node locks a block of view 1, and then hears of a view that is built beside it. -/
def announcedBeside : List (Stimulus MsgPara Input) :=
  let first := Just.ofRDataPara (reportOn 0 1 Hash.default 0 0).rdata
    (reportOn 0 1 Hash.default 0 0).signs
  let other := emptyBlock (Hash.ofBool false) 1
  let beside := Just.ofRDataPara (reportOn 0 2 other.hash 1 1).rdata
    (reportOn 0 2 other.hash 1 1).signs
  [verifyArrives first [], proposalArrives first blockOne,
    precommitArrives (precommitOf 1 blockOne.hash Hash.default 1), verifyArrives beside [],
    proposalArrives beside (emptyBlock other.hash 1)]

/-- What a node notes to which some things happen. -/
def historyAfter (stimuli : List (Stimulus MsgPara Input)) : List ParaEvent :=
  ((protocol Schedule.fourNodes 4).serve stimuli
    ⟨init Schedule.fourNodes (fun _ => []) 3, [], []⟩).state.history

/-- Whether the counters of what happens fit into 32 bits. -/
def fitsWord : Stimulus MsgPara Input → Bool
  | .message msg => msg.wordSized
  | .input _ => true

omit [Hashing] in
/-- Two slots are certified and locked, and the next view is announced with both of their hashes. -/
theorem lock_respected_announcedEarly :
    let _ := Checksum.hashing
    (∀ e ∈ historyAfter announcedEarly, e.heeds = true)
      ∧ ∀ {q rd blockHashes verified lockh lockv},
        ParaEvent.adopted q rd blockHashes verified lockh lockv ∈ historyAfter announcedEarly →
        rd.respects blockHashes lockh lockv = true := by
  intro hashing
  have heeded : ∀ e ∈ historyAfter announcedEarly, e.heeds = true := by decide +kernel
  have counters : ∀ msg, Stimulus.message msg ∈ announcedEarly → msg.wordSized = true := by
    have all : ∀ stimulus ∈ announcedEarly, fitsWord stimulus = true := by decide +kernel
    exact fun msg member => all (.message msg) member
  exact ⟨heeded, (lock_respected (fun _ => []) 4 3 announcedEarly counters heeded).1⟩

/-- Whether an event respects the lock if it adopts a justification. -/
def respected : ParaEvent → Bool
  | .adopted _ rd blockHashes _ lockh lockv => rd.respects blockHashes lockh lockv
  | _ => true

/-- Whether nothing in the history opposes the justification if an event is a vote on it. -/
def cleared (H : List ParaEvent) : ParaEvent → Bool
  | .answered _ _ just _ lockh lockv => just.getRDataPara.all fun rd =>
    decide (lockh = Hash.ofBool true) || lockv == rd.propv
      || H.any (ParaEvent.clears rd lockh lockv)
  | _ => true

omit [Hashing] in
/-- The node adopts the justification that leaves its locked block out, and votes on it. -/
theorem lock_not_respected :
    let _ := Checksum.hashing
    (∃ e ∈ historyAfter announcedBeside, ∃ q rd blockHashes verified lockh lockv,
        e = .adopted q rd blockHashes verified lockh lockv
          ∧ rd.respects blockHashes lockh lockv = false)
      ∧ ∃ e ∈ historyAfter announcedBeside, ∃ q r just verified lockh lockv rd,
        e = .answered q r just verified lockh lockv ∧ just.getRDataPara = some rd
          ∧ ¬ Unopposed (historyAfter announcedBeside) rd lockh lockv := by
  intro hashing
  constructor
  · have unchecked : ∃ e ∈ historyAfter announcedBeside, respected e = false := by decide +kernel
    obtain ⟨e, member, fails⟩ := unchecked
    cases e with
    | adopted q rd blockHashes verified lockh lockv => exact ⟨_, member, _, _, _, _, _, _, rfl, fails⟩
    | _ => cases fails
  · have opposed : ∃ e ∈ historyAfter announcedBeside,
        cleared (historyAfter announcedBeside) e = false := by decide +kernel
    obtain ⟨e, member, fails⟩ := opposed
    cases e with
    | answered q r just verified lockh lockv =>
      simp only [cleared] at fails
      cases tagged : just.getRDataPara with
      | none =>
        rw [tagged] at fails
        cases fails
      | some rd =>
        refine ⟨_, member, _, _, _, _, _, _, rd, rfl, tagged, ?_⟩
        rw [tagged, Option.all_some] at fails
        simp only [Bool.or_eq_false_iff, decide_eq_false_iff_not, beq_eq_false_iff_ne,
          List.any_eq_false, Bool.not_eq_true] at fails
        obtain ⟨⟨locked, elsewhere⟩, beside⟩ := fails
        rintro (nothing | here | ⟨e, member, clears⟩)
        · exact locked nothing
        · exact elsewhere here
        · rw [beside e member] at clears
          cases clears
    | _ => cases fails

end Example

end HandlerPara

end ParaHotstuff
