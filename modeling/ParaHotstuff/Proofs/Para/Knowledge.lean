import ParaHotstuff.Proofs.Para.Proposals

/-! Who has made the signatures in a run of the parallel protocol, whatever faulty nodes send. -/

namespace ParaHotstuff

namespace HandlerPara

namespace Signed

open Program Local

variable (cfg : Config) (correct : PID → Bool)

section History

variable (H : List ParaEvent)

/-- The component of a node has signed a statement with the given text. -/
def Made (p : PID) (text : Text) : Prop :=
  ∃ e ∈ H, ∃ r, e.statement = some (p, r) ∧ r.toString = text

/-- Signatures of correct nodes' keys are on statements these nodes have signed. -/
def Known (signs : Signs) : Prop :=
  ∀ s ∈ signs, ∀ key text, s.sign = .made key text → correct key = true → Made H key text

/-- What holds of an event, given the events before it. -/
def Justified : ParaEvent → Prop
  | .signed _ r => r.phase = PH1_NEWVIEW ∨ r.phase = PH1_PARALLEL
  | .stored _ cert signs r => signs.length = cfg.qsize
    ∧ signs.verify cfg.nodes cert.toString = true ∧ Known correct H signs
    ∧ (cert.phase = PH1_PREPARE ∨ cert.phase = PH1_PRECOMMIT)
    ∧ r.proph = cert.proph ∧ r.propv = cert.propv ∧ r.seqNumber = cert.seqNumber
  | .executed _ v r commits => r.propv = v ∧ ∀ m ∈ commits, Known correct H m.signs
  | _ => True

/-- Every event of a history holds given the events before it. -/
def Sound : List ParaEvent → Prop
  | [] => True
  | e :: H => Justified cfg correct H e ∧ Sound H

/-- All signatures in a log are known, and commits are kept under their view and slot. -/
structure KnownLog (log : LogPara) : Prop where
  newviews : ∀ {v m}, m ∈ log.newviewsPara.held v → Known correct H m.signs
  prepares : ∀ {k m}, m ∈ log.preparesPara.held k → Known correct H m.signs
  precommits : ∀ {k m}, m ∈ log.precommitsPara.held k → Known correct H m.signs
  commits : ∀ {k m}, m ∈ log.commitsPara.held k →
    (m.rdata.propv, m.rdata.seqNumber) = k ∧ Known correct H m.signs
  proposals : ∀ {k m}, m ∈ log.proposalsPara.held k →
    Known correct H (m.signs ++ m.prop.just.signs)
  verifies : ∀ {v m}, log.verifiesPara.lookup v = some m → Known correct H m.signs

/-- What is known of a component, which signs with the key of its node. -/
structure OwnTrusted (p : PID) (tp : TrustedPara) : Prop where
  id : tp.id = p
  priv : tp.priv = p
  qsize : tp.qsize = cfg.qsize
  phase : tp.phase = PH1_NEWVIEW ∨ tp.phase = PH1_PARALLEL

/-- What is known of a node that runs. -/
structure Own (p : PID) (h : HandlerPara) : Prop where
  myid : h.myid = p
  trusted : OwnTrusted cfg p h.tpara
  log : KnownLog correct H h.log
  verified : Known correct H h.verifiedJust.signs

end History

/-- The knowledge of runs with faulty nodes. -/
def knowledge : Knowledge HandlerPara MsgPara ParaEvent where
  actor := ParaEvent.actor
  own := fun p h H => Own cfg correct H p h
  facts := Sound cfg correct
  good := fun packet H => Known correct H packet.msg.signs

variable {cfg correct} {H start : List ParaEvent} {p : PID} {h h' : HandlerPara} {signs : Signs}
variable {l : State}

section Mono

theorem Made.mono {text : Text} (made : Made H p text) (added : List ParaEvent) :
    Made (added ++ H) p text := by
  obtain ⟨e, member, r, signed, same⟩ := made
  exact ⟨e, List.mem_append_right _ member, r, signed, same⟩

theorem Known.mono (known : Known correct H signs) (added : List ParaEvent) :
    Known correct (added ++ H) signs :=
  fun s member key text made honest => (known s member key text made honest).mono added

@[simp] theorem known_nil : Known correct H [] := by simp [Known]

theorem known_append {others : Signs} :
    Known correct H (signs ++ others) ↔ Known correct H signs ∧ Known correct H others := by
  constructor
  · intro known
    exact ⟨fun s member => known s (List.mem_append_left _ member),
      fun s member => known s (List.mem_append_right _ member)⟩
  · rintro ⟨first, second⟩ s member
    rcases List.mem_append.1 member with left | right
    · exact first s left
    · exact second s right

/-- A signature the component has just made is known. -/
theorem known_made {e : ParaEvent} {r : RDataPara} (signed : e.statement = some (p, r)) :
    Known correct (e :: H) [Sign.ofText p p r.toString] := by
  intro s member key text made _
  rw [List.mem_singleton] at member
  subst member
  simp only [Sign.ofText, SigVal.made.injEq] at made
  obtain ⟨rfl, rfl⟩ := made
  exact ⟨e, by simp, r, signed, rfl⟩

/-- Signatures collected from known messages are known. -/
theorem known_collected {K T : Type} [DecidableEq K] {signsOf : T → Signs} {log : Messages K T}
    {k : K} {n : Nat} (held : ∀ m ∈ log.held k, Known correct H (signsOf m)) :
    Known correct H (log.getSigns signsOf k n) := by
  intro s member
  obtain ⟨m, within, signed⟩ := Messages.mem_of_collected member
  exact held m within s signed

theorem KnownLog.mono {log : LogPara} (known : KnownLog correct H log)
    (added : List ParaEvent) : KnownLog correct (added ++ H) log where
  newviews := fun member => (known.newviews member).mono added
  prepares := fun member => (known.prepares member).mono added
  precommits := fun member => (known.precommits member).mono added
  commits := fun member => (known.commits member).imp_right fun held => held.mono added
  proposals := fun member => (known.proposals member).mono added
  verifies := fun found => (known.verifies found).mono added

/-- What is known of a node stays known, whoever does something. -/
theorem Own.mono (own : Own cfg correct H p h) (added : List ParaEvent) :
    Own cfg correct (added ++ H) p h :=
  { own with
    log := own.log.mono added
    verified := own.verified.mono added }

theorem stable : (knowledge cfg correct).Stable where
  own := fun own _ _ => Own.mono own _
  good := fun known added => Known.mono known added

theorem framed : Framed (knowledge cfg correct) := by
  intro p h h' H frame own
  have own : Own cfg correct H p h := own
  exact {
    myid := frame.myid.trans own.myid
    trusted := by rw [frame.tpara]; exact own.trusted
    log := by rw [frame.log]; exact own.log
    verified := by rw [frame.verifiedJust]; exact own.verified }

/-- What was known when the node began to work is known now. -/
theorem Known.now (known : Known correct start signs)
    (inside : (knowledge cfg correct).Inside p start l) : Known correct l.history signs := by
  obtain ⟨added, grown, -⟩ := inside.grown
  rw [grown]
  exact known.mono added

end Mono

section Steps

/-- A justified event of the node may be noted, and its component may move on. -/
theorem event_inside (inside : (knowledge cfg correct).Inside p start l) {e : ParaEvent}
    (justified : Justified cfg correct l.history e) (mine : e.actor = p) (tpara : TrustedPara)
    (trusted : OwnTrusted cfg p tpara) :
    (knowledge cfg correct).Inside p start
      { l with node := { l.node with tpara := tpara }, history := e :: l.history } := by
  have own : Own cfg correct l.history p l.node := inside.own
  have later : Own cfg correct ([e] ++ l.history) p { l.node with tpara := tpara } :=
    { own.mono [e] with trusted := trusted }
  exact inside.event stable mine ⟨justified, inside.facts⟩ later

/-- A program that keeps the knowledge from now on keeps it from the start. -/
theorem restart {α : Type} {program : M α} (inside : (knowledge cfg correct).Inside p start l)
    (given : program.Gives (fun _ => (knowledge cfg correct).Inside p l.history)
      ((knowledge cfg correct).Inside p l.history) l) :
    program.Gives (fun _ => (knowledge cfg correct).Inside p start)
      ((knowledge cfg correct).Inside p start) l :=
  given.mono (fun _ _ after => inside.trans after) fun _ after => inside.trans after

/-- A quiet program keeps the knowledge. -/
theorem quiet_kept {α : Type} {program : M α} (quiet : Quiet program) :
    Keeps ((knowledge cfg correct).Inside p start) program := by
  intro l inside
  refine (quiet l).mono (fun _ _ ⟨h, frame, same⟩ => ?_) fun _ ⟨h, frame, same⟩ => ?_
  all_goals
    rw [same]
    exact inside.node (framed frame inside.own)

/-- Messages with known signatures may be sent. -/
theorem send_inside (inside : (knowledge cfg correct).Inside p start l) (msg : MsgPara)
    (known : Known correct l.history msg.signs) (recipients : List PID) :
    (knowledge cfg correct).Inside p start
      { l with sent := l.sent ++ recipients.map (⟨·, msg⟩) } :=
  inside.send msg recipients fun _ _ => known

/-- The log may change to one whose signatures are known. -/
theorem log_inside (inside : (knowledge cfg correct).Inside p start l) {log : LogPara}
    (known : KnownLog correct l.history log) :
    (knowledge cfg correct).Inside p start { l with node := { l.node with log := log } } := by
  have own : Own cfg correct l.history p l.node := inside.own
  exact inside.node { own with log := known }

section Stores

variable {log : LogPara} {m : MsgRDataPara}

theorem KnownLog.storeNvPara (known : KnownLog correct H log) (signed : Known correct H m.signs) :
    KnownLog correct H (log.storeNvPara m).2 :=
  { known with
    newviews := fun member => by
      rcases Messages.mem_store member with old | ⟨rfl, _⟩
      · exact known.newviews old
      · exact signed }

theorem KnownLog.storePrepPara (known : KnownLog correct H log)
    (signed : Known correct H m.signs) : KnownLog correct H (log.storePrepPara m).2 :=
  { known with
    prepares := fun member => by
      rcases Messages.mem_storeAndCount member with old | ⟨rfl, _⟩
      · exact known.prepares old
      · exact signed }

theorem KnownLog.storePcPara (known : KnownLog correct H log) (signed : Known correct H m.signs) :
    KnownLog correct H (log.storePcPara m).2 :=
  { known with
    precommits := fun member => by
      rcases Messages.mem_storeAndCount member with old | ⟨rfl, _⟩
      · exact known.precommits old
      · exact signed }

theorem KnownLog.storeComPara (known : KnownLog correct H log)
    (signed : Known correct H m.signs) : KnownLog correct H (log.storeComPara m).2 :=
  { known with
    commits := fun member => by
      rcases Messages.mem_storeAndCount member with old | ⟨rfl, rfl⟩
      · exact known.commits old
      · exact ⟨rfl, signed⟩ }

end Stores

end Steps

end Signed

end HandlerPara

end ParaHotstuff
