import ParaHotstuff.Proofs.Para.OneVote

/-! Where a parallel node is, and what it noted on its way there, whatever messages it receives. -/

namespace ParaHotstuff

/-- Events that take a node further: it executes a slot, or leaves its view. -/
def ParaEvent.isMilestone : ParaEvent → Bool
  | executed _ _ _ _ | leaving _ _ => true
  | _ => false

/-- Whether an event notes what a node held when it marked a slot as executed. -/
def ParaEvent.isMarked : ParaEvent → Bool
  | marked _ _ _ _ _ _ => true
  | _ => false

namespace HandlerPara

open Program Local

variable {cfg : Config} {l : State}

/-- Two states of a node at the same place: in the same view, slot and phase. -/
structure SamePlace (h h' : HandlerPara) : Prop where
  view : h'.view = h.view
  started : h'.started = h.started
  lastExecutedSeq : h'.lastExecutedSeq = h.lastExecutedSeq
  trustedView : h'.tpara.view = h.tpara.view
  phase : h'.tpara.phase = h.tpara.phase

/-- A node in a view that is a counter, with votes and announcements where they belong. -/
structure Sound (l : State) : Prop where
  trusted : l.node.tpara.view < wordSize
  verifies : ∀ {v m}, l.node.log.verifiesPara.lookup v = some m → m.rdata.propv < wordSize
  sorted : l.node.log.Sorted

theorem sound_init (choices : PID → List Nat) (p : PID) : Sound ⟨init cfg choices p, [], []⟩ where
  trusted := by simp [init, TrustedPara.init, wordSize]
  verifies := by simp [init, LogPara.empty]
  sorted := LogPara.sorted_empty

/-- A change of the node that leaves its announcements and sorts its votes leaves it sound. -/
theorem Sound.node (sound : Sound l) {h : HandlerPara} (trusted : h.tpara.view < wordSize)
    (verifies : h.log.verifiesPara = l.node.log.verifiesPara) (sorted : h.log.Sorted) :
    Sound { l with node := h } where
  trusted := trusted
  verifies := by rw [verifies]; exact sound.verifies
  sorted := sorted

theorem Sound.signing : Signing cfg Sound WordSized True where
  note := fun sound _ _ => { sound with }
  begin := fun sound => sound.node sound.trusted rfl sound.sorted
  sign := fun sound =>
    { sound with trusted := TrustedPara.view_increment_node_phase sound.trusted }
  signed := fun sound => decide_eq_true sound.trusted
  counted := fun _ sound => sound.trusted
  change := fun _ sound later => sound.node (later trivial).2 rfl sound.sorted

/-- A property of what was noted and sent outlives signing reports if it outlives each event. -/
theorem signing_trace {P : List ParaEvent → List (Packet MsgPara) → Prop}
    (event : ∀ {H S e}, P H S → e.isMarked = false → P (e :: H) S) :
    Signing cfg (fun l => P l.history l.sent) (fun _ => True) False where
  note := fun {l e} held progress _ => event held (by cases e <;> first | rfl | cases progress)
  begin := fun held => held
  sign := fun held => event held rfl
  signed := fun _ => trivial
  counted := fun impossible _ => impossible.elim
  change := fun _ held _ => held

variable [Hashing]

/--
A property of what was noted and sent outlives every effect of a handler if it outlives each event,
whatever is sent, and each slot that is executed.
-/
theorem closed_trace (P : List ParaEvent → List (Packet MsgPara) → Prop)
    (event : ∀ {H S e}, P H S → e.isMarked = false → P (e :: H) S)
    (sends : ∀ {H S} packets, P H S → P H (S ++ packets))
    (executes : ∀ {l : State} rdata, P l.history l.sent → P (marking l rdata).history l.sent) :
    Closed cfg (fun l => P l.history l.sent) (fun _ => True) (fun _ _ => True) False False where
  still := fun held _ => held
  looks := fun _ held => held
  visits := fun held _ => held
  blocks := fun held _ _ => held
  votes := fun held _ => held
  commits := fun held _ => held
  storeNv := fun held _ => held
  storeProp := fun held _ _ => held
  storeVerify := fun held _ => held
  proposals := fun _ _ _ _ => trivial
  verifies := fun _ _ => trivial
  reports := fun _ _ => trivial
  noReports := fun _ _ => trivial
  sorted := fun impossible _ => impossible.elim
  small := fun impossible _ => impossible.elim
  smallVerify := fun impossible _ => impossible.elim
  sendVote := fun _ held _ => sends _ held
  sendCommit := fun held _ => sends _ held
  sendReport := fun _ held _ => sends _ held
  sendBlocks := fun _ _ held _ => sends _ held
  request := fun _ _ held _ _ _ => sends _ (event held rfl)
  announce := fun _ _ held _ _ _ => sends _ (event held rfl)
  note := (@signing_trace cfg _ event).notes
  execute := fun held _ _ _ _ => executes _ held
  leaves := (@signing_trace cfg _ event).leaves
  catches := (@signing_trace cfg _ event).catches
  starts := fun held _ => (@signing_trace cfg _ event).starts held
  propose := fun held _ _ _ _ _ _ => event held rfl
  store := fun held _ _ _ _ _ => event held rfl
  respond := fun held _ _ _ _ _ _ _ _ _ _ _ => sends _ (event (event held rfl) rfl)
  adopts := fun held _ _ _ _ _ _ => event held rfl
  change := fun _ held _ _ => held

/-- What holds of a node and its history, whatever the node is told, by what takes it further. -/
structure Watch (cfg : Config) (W : HandlerPara → List ParaEvent → Prop) : Prop where
  place : ∀ {h h' H}, W h H → SamePlace h h' → W h' H
  event : ∀ {h H} {e : ParaEvent}, W h H → e.isMilestone = false → W h (e :: H)
  /-- The slot after the last one is executed. -/
  executes : ∀ {h H p rdata commits}, W h H → rdata.propv = h.view →
    rdata.seqNumber = h.lastExecutedSeq + 1 →
    W (h.executing rdata) (.executed p h.view rdata commits :: H)
  leaves : ∀ {l : State}, Sound l → W l.node l.history → (leave cfg).Gives
    (fun _ l' => W l'.node l'.history) (fun l' => W l'.node l'.history) l
  starts : ∀ {h H}, W h H → h.started = false →
    W { h with started := true, tpara := h.tpara.increment_node_phase } H
  change : ∀ {h H} (v : View), W h H → h.view < v → v < wordSize → W (h.entered cfg v) H

namespace Watch

variable {W : HandlerPara → List ParaEvent → Prop} (watch : Watch cfg W)
include watch

/-- A node whose view a leader enters late is where any node is that enters it. -/
theorem catches {h : HandlerPara} {H : List ParaEvent} (v : View) (held : W h H)
    (later : h.view < v) (small : v < wordSize) :
    W ({ h with tpara := h.tpara.increment_node_phase }.entered cfg v) H :=
  watch.place (watch.change v held later small) ⟨rfl, rfl, rfl, rfl, rfl⟩

/-- No effect of a handler but those named takes a node anywhere. -/
theorem closed : Closed cfg (fun l => Sound l ∧ W l.node l.history) WordSized (fun _ _ => True)
    True True where
  still := fun ⟨sound, held⟩ still =>
    ⟨sound.node (by rw [still.tpara]; exact sound.trusted) (by rw [still.log])
        (by rw [still.log]; exact sound.sorted),
      watch.place held ⟨still.view, still.started, still.lastExecutedSeq, by rw [still.tpara],
        by rw [still.tpara]⟩⟩
  looks := fun {l} v ⟨sound, held⟩ => by
    have frame := frame_enterView l.node v
    have executed : (l.node.enterView v).lastExecutedSeq = l.node.lastExecutedSeq := by
      unfold enterView
      split <;> rfl
    exact ⟨sound.node (by rw [frame.tpara]; exact sound.trusted) (by rw [frame.log])
        (by rw [frame.log]; exact sound.sorted),
      watch.place held ⟨frame.view, frame.started, executed, by rw [frame.tpara],
        by rw [frame.tpara]⟩⟩
  visits := fun ⟨sound, held⟩ _ => ⟨{ sound with }, watch.place held ⟨rfl, rfl, rfl, rfl, rfl⟩⟩
  blocks := fun {l h} ⟨sound, held⟩ _ filed => by
    obtain ⟨pblocks, rfl⟩ := filed.blocks_only
    exact ⟨{ sound with }, watch.place held ⟨rfl, rfl, rfl, rfl, rfl⟩⟩
  votes := fun ⟨sound, held⟩ voted =>
    ⟨sound.node sound.trusted voted.same.verifiesPara (sound.sorted.voted voted),
      watch.place held ⟨rfl, rfl, rfl, rfl, rfl⟩⟩
  commits := fun {l m} ⟨sound, held⟩ _ =>
    ⟨sound.node sound.trusted rfl (sound.sorted.committed m),
      watch.place held ⟨rfl, rfl, rfl, rfl, rfl⟩⟩
  storeNv := fun ⟨sound, held⟩ _ =>
    ⟨sound.node sound.trusted rfl { sound.sorted with }, watch.place held ⟨rfl, rfl, rfl, rfl, rfl⟩⟩
  storeProp := fun ⟨sound, held⟩ _ stored => by
    unfold LogPara.storePropPara at stored
    split at stored
    · cases stored
    · obtain ⟨-, rfl⟩ := Prod.mk.inj (Option.some.inj stored)
      exact ⟨sound.node sound.trusted rfl { sound.sorted with },
        watch.place held ⟨rfl, rfl, rfl, rfl, rfl⟩⟩
  storeVerify := fun {l msg} ⟨sound, held⟩ known =>
    ⟨{ sound with
        verifies := fun {v m} found => by
          by_cases same : v = msg.rdata.propv
          · subst same
            obtain rfl : msg = m := by simpa [LogPara.storeVerifyPara] using found
            simpa [WordSized, MsgPara.wordSized] using known
          · exact sound.verifies (by simpa [LogPara.storeVerifyPara, same] using found)
        sorted := { sound.sorted with } },
      watch.place held ⟨rfl, rfl, rfl, rfl, rfl⟩⟩
  proposals := fun _ _ _ _ => rfl
  verifies := fun ⟨sound, _⟩ found => by
    simpa [WordSized, MsgPara.wordSized] using sound.verifies found
  reports := fun _ _ => trivial
  noReports := fun _ _ => trivial
  sorted := fun _ ⟨sound, _⟩ => sound.sorted
  small := fun _ known => by simpa [WordSized, MsgPara.wordSized] using known
  smallVerify := fun _ known => by simpa [WordSized, MsgPara.wordSized] using known
  sendVote := fun _ ⟨sound, held⟩ _ => ⟨{ sound with }, held⟩
  sendCommit := fun ⟨sound, held⟩ _ => ⟨{ sound with }, held⟩
  sendReport := fun _ ⟨sound, held⟩ _ => ⟨{ sound with }, held⟩
  sendBlocks := fun _ _ ⟨sound, held⟩ _ => ⟨{ sound with }, held⟩
  request := fun _ _ ⟨sound, held⟩ _ _ _ => ⟨{ sound with }, watch.event held rfl⟩
  announce := fun _ _ ⟨sound, held⟩ _ _ _ => ⟨{ sound with }, watch.event held rfl⟩
  note := fun {l e} ⟨sound, held⟩ notice _ => by
    refine ⟨{ sound with }, watch.event held ?_⟩
    cases e <;> first | rfl | cases notice
  execute := fun {l seq} ⟨sound, held⟩ positive _ next first => by
    -- The commit the slot is executed on is held for it, since the empty one is for no slot.
    have place := sound.sorted.getCommitForSeq_place (v := l.node.view) positive first
    exact ⟨{ sound with },
      watch.event (watch.executes held place (first.trans (next trivial))) rfl⟩
  leaves := fun ⟨sound, held⟩ => by
    refine ((Sound.signing.leaves sound).and (watch.leaves sound held)).mono ?_ ?_
    · exact fun _ l' left => ⟨⟨left.1.1, left.2⟩, left.1.2⟩
    · exact fun l' left => left
  catches := fun {l} v ⟨sound, held⟩ later small =>
    ⟨Sound.signing.catches v sound later small,
      watch.event (watch.catches v held later (small trivial)) rfl⟩
  starts := fun {l} ⟨sound, held⟩ fresh => by
    obtain ⟨sound', known⟩ := (@Sound.signing cfg).starts sound
    exact ⟨⟨sound', watch.event (watch.starts held fresh) rfl⟩, known⟩
  propose := fun {l block} just rd r ⟨sound, held⟩ _ _ _ _ _ _ =>
    ⟨{ sound with }, watch.event (watch.place held ⟨rfl, rfl, rfl, rfl, rfl⟩) rfl⟩
  store := fun {l just cert out tpara r} ⟨sound, held⟩ called set _ _ _ => by
    obtain ⟨rd, -, -, -, -, -, signed⟩ := TrustedPara.TEEstore_set called set
    obtain ⟨-, rfl⟩ := Prod.mk.inj signed
    have view : (l.node.tpara.record rd l.node.blockAt).view = l.node.tpara.view := by simp
    have phase : (l.node.tpara.record rd l.node.blockAt).phase = l.node.tpara.phase := by simp
    have trusted : (l.node.tpara.record rd l.node.blockAt).view < wordSize :=
      view ▸ sound.trusted
    exact ⟨{ sound with trusted := trusted },
      watch.event (watch.place held ⟨rfl, rfl, rfl, view, phase⟩) rfl⟩
  respond := fun {l msg rd r} ⟨sound, held⟩ _ _ _ _ _ _ _ _ _ _ _ => by
    have voted := watch.event (e := .voted l.node.myid r msg.prop.block) held rfl
    have answered := watch.event (e := .answered l.node.myid r msg.prop.just l.node.verifiedJust
      l.node.tpara.prefixLockedHash l.node.tpara.prefixLockedView) voted rfl
    exact ⟨{ sound with }, watch.place answered ⟨rfl, rfl, rfl, rfl, rfl⟩⟩
  adopts := fun {l m _} ⟨sound, held⟩ _ _ _ _ _ _ =>
    ⟨{ sound with }, watch.event (watch.place held ⟨rfl, rfl, rfl, rfl, rfl⟩) rfl⟩
  change := fun v ⟨sound, held⟩ later small =>
    ⟨Sound.signing.change v sound fun bounded => ⟨later, small bounded⟩,
      watch.change v held later (small trivial)⟩

/-- What holds of a node and its history holds after whatever happens to the node. -/
theorem serve (depth : Nat) {stimuli : List (Stimulus MsgPara Input)}
    (counters : ∀ msg, Stimulus.message msg ∈ stimuli → msg.wordSized = true) :
    Keeps (fun l => Sound l ∧ W l.node l.history) ((protocol cfg depth).serve stimuli) := by
  refine Protocol.keeps_serve fun stimulus member => ?_
  cases stimulus with
  | message msg =>
    exact watch.closed.handle_kept depth (counters msg member) fun m _ =>
      watch.closed.handleRecoverPara_kept (fun _ _ => trivial)
        (fun _ _ ⟨sound, held⟩ => ⟨{ sound with }, watch.place held ⟨rfl, rfl, rfl, rfl, rfl⟩⟩) m
  | input i => exact watch.closed.react_kept depth i

end Watch

end HandlerPara

end ParaHotstuff
