import ParaHotstuff.Lib.Reports
import ParaHotstuff.Proofs.Chained.Effects
import ParaHotstuff.Proofs.Votes

/-! What is known of every run of the chained protocol in which all nodes follow the code. -/

namespace ParaHotstuff

/-- The node that did what an event notes. -/
def ChEvent.actor : ChEvent → PID
  | .voted p _ _ | .executed p _ | .entered p _ _ _ _ => p

namespace HandlerCh

open Messages (Singles)

/-- The place of a view and phase in the order in which a component signs. -/
def slot (v : View) (phase : Phase1) : Nat :=
  -- A view begins with the vote and ends with the new-view statement.
  2 * v + if phase = PH1_PREPARE then 0 else 1

/-- Where the component of a node was at least, once an event had been noted. -/
def reach : ChEvent → Nat
  -- A vote is always followed by a further statement.
  | .voted _ r _ => slot r.propv r.phase + 2
  | .entered _ _ _ trusted phase => slot trusted phase
  | .executed _ _ => 0

section History

variable (cfg : Config) (H : List ChEvent)

/-- A node voted for a block, in the phase in which votes count. -/
def PrepVoted (p : PID) (v : View) (b : JBlock) : Prop :=
  ∃ r, ChEvent.voted p r b ∈ H ∧ r.propv = v ∧ r.phase = PH1_PREPARE

/-- An event is such a vote. -/
def countsFor (p : PID) (v : View) (b : JBlock) : ChEvent → Bool
  | .voted q r b' => decide (q = p ∧ b' = b ∧ r.propv = v ∧ r.phase = PH1_PREPARE)
  | .executed _ _ | .entered _ _ _ _ _ => false

/-- Whether a node voted for a block is read off the events. -/
theorem any_countsFor {p : PID} {v : View} {b : JBlock} :
    H.any (countsFor p v b) = true ↔ PrepVoted H p v b := by
  rw [List.any_eq_true]
  constructor
  · rintro ⟨e, member, same⟩
    cases e with
    | voted q r b' =>
      obtain ⟨rfl, rfl, view, phase⟩ := of_decide_eq_true same
      exact ⟨r, member, view, phase⟩
    | executed | entered => cases same
  · rintro ⟨r, member, view, phase⟩
    exact ⟨_, member, decide_eq_true ⟨rfl, rfl, view, phase⟩⟩

instance decidablePrepVoted (p : PID) (v : View) (b : JBlock) : Decidable (PrepVoted H p v b) :=
  decidable_of_iff _ (any_countsFor H)

/-- The component of a node came past a view at a time when the node had not voted there. -/
def Passed (p : PID) (v : View) : Prop :=
  ∃ older, older <:+ H ∧ (∃ e ∈ older, e.actor = p ∧ 2 * v < reach e)
    ∧ ∀ b, ¬ PrepVoted older p v b

/-- The votes of a history, where blocks name their parents by the views of certificates. -/
def ballots : Ballots JBlock where
  voted := PrepVoted H
  passed := Passed H
  parent := fun b => b.just.getCView
  origin := JBlock.default

instance (p : PID) (v : View) (b : JBlock) : Decidable ((ballots H).voted p v b) :=
  decidablePrepVoted H p v b

/-- A view and a hash are those of genesis, or of a block that a quorum voted for. -/
def CertifiedHash [Hashing] [SignatureBytes] (c : View) (h : Hash) : Prop :=
  ∃ b : JBlock, b.hash.hash = h.hash ∧ ((c = 0 ∧ b = JBlock.default)
    ∨ (ballots H).Certified cfg.total cfg.qsize c b)

/-- A certified block of an earlier view may be built on in view u. -/
structure Buildable [Hashing] [SignatureBytes] (u : View) (c : View) (h : Hash) : Prop where
  below : c < u
  certified : CertifiedHash cfg H c h
  sound : (ballots H).Sound cfg.total cfg.qsize u c

/-- What a component would accept as the justification of a block of view u may be built on there. -/
def SoundJust [Hashing] [SignatureBytes] (u : View) (just : Just) : Prop :=
  ∀ r, just.getRData = some r → just.signs.verify cfg.nodes r.toString = true →
    just.wellFormed cfg.qsize = true →
      r.propv + 1 = u ∧ Buildable cfg H u just.getCView just.getCHash

/-- A new-view statement reports the block prepared last, and the signer has passed its view. -/
structure Report [Hashing] [SignatureBytes] (m : MsgNewViewCh) : Prop where
  known : m.sign.signer < cfg.total
  later : m.data.propv + 1 < wordSize
  below : m.data.justv ≤ m.data.propv
  certified : CertifiedHash cfg H m.data.justv m.data.justh
  reports : (ballots H).Reports cfg.total cfg.qsize m.sign.signer m.data.propv m.data.justv

/-- A prepare message carries the vote of its signer. -/
structure VoteMsg (m : MsgPrepareCh) : Prop where
  known : m.sign.signer < cfg.total
  made : m.sign.sign = .made m.sign.signer m.data.toString
  voted : ∃ b, ChEvent.voted m.sign.signer m.data b ∈ H

/-- A proposal is the block that the leader of its view voted for, with that signature. -/
def PropMsg (m : MsgLdrPrepareCh) : Prop :=
  ∃ r, ChEvent.voted (cfg.getLeaderOf m.block.view) r m.block ∈ H
    ∧ m.sign = Sign.ofText (cfg.getLeaderOf m.block.view) (cfg.getLeaderOf m.block.view) r.toString

/-- What a node signed before an event of its history comes earlier in the order of its component. -/
def Ordered : List ChEvent → Prop
  | [] => True
  | e :: H => Ordered H ∧ ∀ p r b, e = .voted p r b →
      ∀ e' ∈ H, e'.actor = p → reach e' ≤ slot r.propv r.phase

/-- What is known of a vote: the statement signed, and that the block could be built on its parent. -/
structure VoteFacts [Hashing] [SignatureBytes] (p : PID) (r : RData) (b : JBlock) : Prop where
  known : p < cfg.total
  statement : r = ⟨b.hash, b.view, Hash.default, 0, r.phase⟩
  fresh : b.executed = false
  later : b.view + 1 < wordSize
  /-- The justification is a statement of the view before. -/
  previous : ∀ r', b.just.getRData = some r' → r'.propv + 1 = b.view
  built : Buildable cfg H b.view b.just.getCView b.just.getCHash

/-- The blocks a node has executed, the last one first. -/
def executedBy (p : PID) : List JBlock :=
  H.filterMap fun
    | .executed q b => if q = p then some b else none
    | _ => none

/-- The block a node voted for last. -/
def lastVote (p : PID) : Option JBlock :=
  H.findSome? fun
    | .voted q _ b => if q = p then some b else none
    | _ => none

/-- The block that the leader of a view proposed. -/
def proposedIn (v : View) : Option JBlock :=
  H.findSome? fun
    | .voted q r b =>
      if q = cfg.getLeaderOf v ∧ r.propv = v ∧ r.phase = PH1_PREPARE then some b else none
    | _ => none

/-- The last vote of a node was for a block on a certified block that rests on the view before it. -/
def votedOnNext (p : PID) : Bool :=
  match lastVote H p with
  | some block =>
    match proposedIn cfg H block.just.getCView with
    | some block0 => block.just.getCView == block0.just.getCView + 1
    | none => false
  | none => false

/-- Blocks were executed only because of certificates of two views in a row. -/
def Direct : List ChEvent → Prop
  | [] => True
  | e :: H => Direct H ∧ match e with
    | .executed p _ => votedOnNext cfg H p = true
    | _ => True

instance decidableDirect : (H : List ChEvent) → Decidable (Direct cfg H)
  | [] => isTrue trivial
  | e :: H =>
    have := decidableDirect H
    have : Decidable (match e with
        | .executed p _ => votedOnNext cfg H p = true
        | _ => True) :=
      match e with
      | .executed p _ => inferInstanceAs (Decidable (votedOnNext cfg H p = true))
      | .voted _ _ _ | .entered _ _ _ _ _ => isTrue trivial
    inferInstanceAs (Decidable (_ ∧ _))

/-- What a node has executed is nothing, or the whole line of a committed block. -/
def ExecutedLine (p : PID) : Prop :=
  executedBy H p = [] ∨ ∃ v c, (ballots H).Commits cfg.total cfg.qsize v c
    ∧ (ballots H).Line c (executedBy H p)

/-- Each block that was executed rests on genesis, or on a certified block that was executed before. -/
def AncestorsFirst [Hashing] [SignatureBytes] : List JBlock → Prop
  | [] => True
  | b :: older => AncestorsFirst older
    ∧ (b.view ≠ 0 → ∃ parent ∈ older, parent.view = b.just.getCView
      ∧ (b.just.getCHash == parent.hash) = true)

/-- What is known of the blocks a node has executed, whatever made it execute them. -/
structure Executions [Hashing] [SignatureBytes] (p : PID) : Prop where
  once : ((executedBy H p).map (·.view)).Nodup
  certified : ∀ b ∈ executedBy H p,
    b = JBlock.default ∨ (ballots H).Certified cfg.total cfg.qsize b.view b
  ancestors : AncestorsFirst (executedBy H p)

/-- What is known of the history of a run. -/
structure Facts [Hashing] [SignatureBytes] : Prop where
  ordered : Ordered H
  votes : ∀ {p r b}, ChEvent.voted p r b ∈ H → VoteFacts cfg H p r b
  /-- Votes that count go to the block the leader of the view voted for. -/
  leader : ∀ {p v b}, PrepVoted H p v b → PrepVoted H (cfg.getLeaderOf v) v b
  executed : Direct cfg H → ∀ p, ExecutedLine cfg H p
  executions : ∀ p, Executions cfg H p

/-- A block is another one up to the mark of execution. -/
def Marks (b b' : JBlock) : Prop := ∃ done, b = { b' with executed := done }

/-- What a node holds for a view is the leader's proposal; a leader holds nothing besides its own. -/
def Held (p : PID) (v : View) (b : JBlock) : Prop :=
  (cfg.getLeaderOf v ≠ p ∧ ∃ b', PrepVoted H (cfg.getLeaderOf v) v b' ∧ Marks b b')
    ∨ (cfg.getLeaderOf v = p ∧ ∀ r b', ChEvent.voted p r b' ∈ H → b'.view = v → Marks b b')

/-- What is known of the blocks of a node. -/
structure OwnBlocks (p : PID) (h : HandlerCh) : Prop where
  place : ∀ {v b}, h.jblocks.lookup v = some b → b.view = v
  early : ∀ {v b}, h.jblocks.lookup v = some b → v ≤ h.view
  held : ∀ {v b}, v ≠ 0 → h.jblocks.lookup v = some b → Held cfg H p v b
  genesis : ∀ {b}, h.jblocks.lookup 0 = some b → Marks b JBlock.default
  taken : ∀ {r b}, ChEvent.voted p r b ∈ H → (h.jblocks.lookup b.view).isSome = true
  marks : ∀ {v b}, h.jblocks.lookup v = some b →
    (b.executed = true ↔ v ∈ (executedBy H p).map (·.view))
  before : ∀ {v}, v ∈ (executedBy H p).map (·.view) → v < h.view

/-- What is known of the component of a node. -/
structure OwnTrusted [Hashing] [SignatureBytes] (p : PID) (tp : TrustedCh) : Prop where
  id : tp.id = p
  priv : tp.priv = p
  qsize : tp.qsize = cfg.qsize
  phase : tp.phase = PH1_PREPARE ∨ tp.phase = PH1_NEWVIEW
  reached : ∀ e ∈ H, e.actor = p → reach e ≤ slot tp.view tp.phase
  below : tp.prepv ≤ tp.view
  certified : CertifiedHash cfg H tp.prepv tp.preph
  /-- The node voted in no open view between the block prepared last and its component's view. -/
  reports : ∀ v, tp.prepv + 1 < v →
    (∀ b, ¬ PrepVoted H p v b) ∨ (ballots H).Closed cfg.total cfg.qsize v

/-- What is known of the log of a node. -/
structure OwnLog [Hashing] [SignatureBytes] (log : LogCh) : Prop where
  newviews : ∀ {v m}, m ∈ log.newviewsCh.held v → m.data.propv = v ∧ Report cfg H m
  votes : ∀ {v m}, m ∈ log.preparesCh.held v → m.data.propv = v ∧ VoteMsg cfg H m
  proposals : ∀ {v m}, m ∈ log.ldrpreparesCh.held v →
    m.block.view = v ∧ PrepVoted H (cfg.getLeaderOf v) v m.block
  singleNewviews : ∀ v, Singles (fun m : MsgNewViewCh => [m.sign]) (log.newviewsCh.held v)
  singleVotes : ∀ v, Singles (fun m : MsgPrepareCh => [m.sign]) (log.preparesCh.held v)

/-- What is known of a node that runs. -/
structure Own [Hashing] [SignatureBytes] (p : PID) (h : HandlerCh) : Prop where
  known : p < cfg.total
  myid : h.myid = p
  blocks : OwnBlocks cfg H p h
  trusted : OwnTrusted cfg H p h.tp
  log : OwnLog cfg H h.log
  /-- A justification that is held may be built on in the view after its own. -/
  just : h.justNV.set = true → ∀ r, h.justNV.getRData = some r →
    SoundJust cfg H (r.propv + 1) h.justNV
  /-- Before a client starts it, a node is as it was at its start. -/
  asleep : h.started = false → h.view = 0 ∧ h.tp.view = 0 ∧ h.tp.phase = PH1_NEWVIEW
    ∧ h.timer = false ∧ ∀ v, h.jblocks.lookup v = none

/-- What is known of a packet. -/
def Good [Hashing] [SignatureBytes] (packet : Packet MsgCh) : Prop :=
  match packet.msg with
  | .newView m => Report cfg H m
  | .ldrPrepare m => PropMsg cfg H m
  | .prepare m => VoteMsg cfg H m

end History

/-- The knowledge of the chained protocol. -/
def knowledge [Hashing] [SignatureBytes] (cfg : Config) :
    Knowledge HandlerCh MsgCh ChEvent where
  actor := ChEvent.actor
  own := fun p h H => Own cfg H p h
  facts := fun H => Facts cfg H
  good := fun packet H => Good cfg H packet

section Mono

variable {cfg : Config} {H : List ChEvent} {p q : PID} {u v c : View} {b : JBlock} {h : Hash}

theorem PrepVoted.mono (voted : PrepVoted H p v b) (added : List ChEvent) :
    PrepVoted (added ++ H) p v b := by
  obtain ⟨r, member, view, phase⟩ := voted
  exact ⟨r, List.mem_append_right _ member, view, phase⟩

/-- A longer history forgets no vote, and no view that was passed. -/
theorem ballots_extends (added : List ChEvent) :
    Ballots.Extends (ballots H) (ballots (added ++ H)) where
  voted := fun voted => PrepVoted.mono voted added
  passed := by
    rintro p v ⟨older, within, rest⟩
    exact ⟨older, within.trans (List.suffix_append added H), rest⟩
  parent := rfl
  origin := rfl

variable [Hashing] [SignatureBytes]

theorem CertifiedHash.mono (certified : CertifiedHash cfg H c h) (added : List ChEvent) :
    CertifiedHash cfg (added ++ H) c h := by
  obtain ⟨b, same, certified⟩ := certified
  exact ⟨b, same, certified.imp_right fun quorum => quorum.extend (ballots_extends added)⟩

theorem Buildable.mono (buildable : Buildable cfg H u c h) (added : List ChEvent) :
    Buildable cfg (added ++ H) u c h where
  below := buildable.below
  certified := buildable.certified.mono added
  sound := buildable.sound.extend (ballots_extends added)

theorem SoundJust.mono {just : Just} (sound : SoundJust cfg H u just) (added : List ChEvent) :
    SoundJust cfg (added ++ H) u just := fun r tagged verified formed =>
  (sound r tagged verified formed).imp_right fun buildable => buildable.mono added

theorem Report.mono {m : MsgNewViewCh} (report : Report cfg H m) (added : List ChEvent) :
    Report cfg (added ++ H) m :=
  { report with
    certified := report.certified.mono added
    reports := report.reports.extend (ballots_extends added) }

omit [Hashing] [SignatureBytes] in
theorem VoteMsg.mono {m : MsgPrepareCh} (vote : VoteMsg cfg H m) (added : List ChEvent) :
    VoteMsg cfg (added ++ H) m := by
  obtain ⟨b, member⟩ := vote.voted
  exact { vote with voted := ⟨b, List.mem_append_right _ member⟩ }

omit [Hashing] [SignatureBytes] in
theorem PropMsg.mono {m : MsgLdrPrepareCh} (known : PropMsg cfg H m) (added : List ChEvent) :
    PropMsg cfg (added ++ H) m := by
  obtain ⟨r, member, signed⟩ := known
  exact ⟨r, List.mem_append_right _ member, signed⟩

theorem VoteFacts.mono {r : RData} (facts : VoteFacts cfg H p r b) (added : List ChEvent) :
    VoteFacts cfg (added ++ H) p r b :=
  { facts with built := facts.built.mono added }

theorem OwnLog.mono {log : LogCh} (own : OwnLog cfg H log) (added : List ChEvent) :
    OwnLog cfg (added ++ H) log :=
  { own with
    newviews := fun member => (own.newviews member).imp_right fun report => report.mono added
    votes := fun member => (own.votes member).imp_right fun vote => vote.mono added
    proposals := fun member => (own.proposals member).imp_right fun vote => vote.mono added }

theorem Good.mono {packet : Packet MsgCh} (good : Good cfg H packet) (added : List ChEvent) :
    Good cfg (added ++ H) packet := by
  obtain ⟨dest, msg⟩ := packet
  -- Each kind of message carries something that outlasts further events.
  cases msg with
  | newView m => exact Report.mono good added
  | ldrPrepare m => exact PropMsg.mono good added
  | prepare m => exact VoteMsg.mono good added

/-- Events that a node did not take part in, as far as its own knowledge goes. -/
structure Foreign (p : PID) (added : List ChEvent) : Prop where
  none_voted : ∀ r b, ChEvent.voted p r b ∉ added
  none_executed : ∀ b, ChEvent.executed p b ∉ added

omit [Hashing] [SignatureBytes] in
/-- The blocks a node executed are not changed by what it took no part in. -/
theorem Foreign.executedBy {added : List ChEvent} (foreign : Foreign p added) :
    executedBy (added ++ H) p = executedBy H p := by
  have nothing : HandlerCh.executedBy added p = [] := by
    rw [HandlerCh.executedBy, List.filterMap_eq_nil_iff]
    intro e member
    cases e with
    | voted | entered => rfl
    | executed q b =>
      by_cases same : q = p
      · exact absurd (same ▸ member) (foreign.none_executed b)
      · simp [same]
  rw [HandlerCh.executedBy, List.filterMap_append]
  exact congrArg (· ++ _) nothing

omit [Hashing] [SignatureBytes] in
theorem Foreign.voted {added : List ChEvent} (foreign : Foreign p added) {r : RData}
    (member : ChEvent.voted p r b ∈ added ++ H) : ChEvent.voted p r b ∈ H :=
  (List.mem_append.1 member).resolve_left (foreign.none_voted r b)

omit [Hashing] [SignatureBytes] in
/-- What is known of a node's blocks stays known while it takes no part. -/
theorem OwnBlocks.mono {h : HandlerCh} (own : OwnBlocks cfg H p h) {added : List ChEvent}
    (foreign : Foreign p added) : OwnBlocks cfg (added ++ H) p h where
  place := own.place
  early := own.early
  held := by
    intro v b later found
    rcases own.held later found with ⟨backup, b', vote, same⟩ | ⟨leads, mine⟩
    · exact .inl ⟨backup, b', vote.mono added, same⟩
    · exact .inr ⟨leads, fun r b' member view => mine r b' (foreign.voted member) view⟩
  genesis := own.genesis
  taken := fun member => own.taken (foreign.voted member)
  marks := fun found => by rw [foreign.executedBy]; exact own.marks found
  before := fun member => own.before (by rwa [foreign.executedBy] at member)

/-- What is known of a component stays known while its node reaches no further and casts no vote. -/
theorem OwnTrusted.mono {tp : TrustedCh} (own : OwnTrusted cfg H p tp) {added : List ChEvent}
    (none_voted : ∀ r b, ChEvent.voted p r b ∉ added)
    (reached : ∀ e ∈ added, e.actor = p → reach e ≤ slot tp.view tp.phase) :
    OwnTrusted cfg (added ++ H) p tp :=
  { own with
    reached := fun e member mine => by
      rcases List.mem_append.1 member with new | old
      · exact reached e new mine
      · exact own.reached e old mine
    certified := own.certified.mono added
    reports := fun v above => by
      rcases own.reports v above with silent | closed
      · refine .inl fun b voted => ?_
        obtain ⟨r, member, rest⟩ := voted
        have old := (List.mem_append.1 member).resolve_left (none_voted r b)
        exact silent b ⟨r, old, rest⟩
      · exact .inr (closed.extend (ballots_extends added)) }

/-- What a node knows of itself stays known. -/
theorem Own.mono {h : HandlerCh} (own : Own cfg H p h) {added : List ChEvent}
    (foreign : Foreign p added)
    (reached : ∀ e ∈ added, e.actor = p → reach e ≤ slot h.tp.view h.tp.phase) :
    Own cfg (added ++ H) p h where
  known := own.known
  myid := own.myid
  blocks := own.blocks.mono foreign
  trusted := own.trusted.mono foreign.none_voted reached
  log := own.log.mono added
  just := fun set r tagged => (own.just set r tagged).mono added
  asleep := own.asleep

omit [Hashing] [SignatureBytes] in
/-- What other nodes do is foreign to a node. -/
theorem Foreign.of_others {added : List ChEvent} (others : ∀ e ∈ added, e.actor ≠ p) :
    Foreign p added :=
  ⟨fun _ _ member => others _ member rfl, fun _ member => others _ member rfl⟩

/-- Events of one node leave what is known of packets and of the other nodes. -/
theorem knowledge_stable : (knowledge cfg).Stable where
  own := by
    intro p q node history added own other mine
    have others : ∀ e ∈ added, e.actor ≠ q := fun e member => by
      rw [show e.actor = p from mine e member]
      exact other
    exact Own.mono own (.of_others others) fun e member same => absurd same (others e member)
  good := fun good added => Good.mono good added

end Mono

end HandlerCh

end ParaHotstuff
