import ParaHotstuff.Proofs.Para.Recovery

/-! What a node answers to a leader that asks for blocks. -/

namespace ParaHotstuff

namespace Config

variable {cfg : Config} {myid id : PID}

/-- The leader of a view is one of the nodes. -/
theorem getLeaderOf_lt (cfg : Config) (v : View) : cfg.getLeaderOf v < cfg.total :=
  Nat.mod_lt _ (Nat.succ_pos _)

/-- Of the peers, one is kept: the named one, unless a node names itself. -/
theorem keep_from_peers_eq (known : id < cfg.total) :
    cfg.keep_from_peers myid id = if id = myid then [] else [id] := by
  have distinct : (cfg.keep_from_peers myid id).Nodup := (List.nodup_range.filter _).filter _
  by_cases own : id = myid
  · rw [if_pos own]
    refine List.eq_nil_iff_forall_not_mem.2 fun dest member => ?_
    obtain ⟨-, other, same⟩ := mem_keep_from_peers.1 member
    exact other (same.trans own)
  · rw [if_neg own]
    -- The named node is among those kept, and there is no other.
    have kept : id ∈ cfg.keep_from_peers myid id := mem_keep_from_peers.2 ⟨known, own, rfl⟩
    refine (List.perm_singleton.1 ?_)
    refine (List.perm_ext_iff_of_nodup distinct (List.nodup_singleton id)).2 fun dest => ?_
    rw [List.mem_singleton]
    refine ⟨fun member => (mem_keep_from_peers.1 member).2.2, ?_⟩
    rintro rfl
    exact kept

end Config

namespace HandlerPara

open Program Local

variable {cfg : Config} {l : State} {msg : MsgLdrRecoverPara} {h : HandlerPara}

/-- The node holds a block in a slot of a view. -/
def Holds (h : HandlerPara) (w : View) (seq : Nat) (block : PBlock) : Prop :=
  0 < seq ∧ (h.blocksOf w)[seq - 1]? = some block ∧ block.isBlock = true

/-- A request is answered: the leader of its view gets the requested blocks held, and no others. -/
def AnswersRequest (cfg : Config) (msg : MsgLdrRecoverPara) (l l' : State) : Prop :=
  ∃ blocks, l'.sent = l.sent ++ [⟨cfg.getLeaderOf msg.rdata.propv,
      .recover ⟨msg.rdata, msg.signs, blocks⟩⟩]
    ∧ ∀ block, block ∈ blocks ↔ ∃ seq ∈ msg.missingSeqNumbers, l.node.Holds msg.rdata.justv seq block

/-- The number of views ever looked up bounds the views a node answers for. -/
def answersFor (h : HandlerPara) (w : View) : Prop := w < h.pblocks.keys.length

instance (h : HandlerPara) (w : View) : Decidable (h.answersFor w) :=
  inferInstanceAs (Decidable (_ < _))

/-- The blocks a node answers a request from. -/
def answeringBlocks (h : HandlerPara) (w : View) : List PBlock :=
  if h.answersFor w then h.blocksOf w else []

/-- All slots asked for are there, unless the view has no slots at all. -/
def InsideOf (blocks : List PBlock) (missing : List Nat) : Prop :=
  blocks ≠ [] → ∀ seq ∈ missing, 0 < seq ∧ seq ≤ blocks.length

/-- When a node answers a request completely and to the right node. -/
structure Answerable (cfg : Config) (msg : MsgLdrRecoverPara) (h : HandlerPara) : Prop where
  running : maxViewsReached cfg h = false
  /-- The request is from the leader of the view the node is in, which is another node. -/
  leader : cfg.getLeaderOf h.view = cfg.getLeaderOf msg.rdata.propv
  other : cfg.getLeaderOf msg.rdata.propv ≠ h.myid
  /-- The view of the blocks is below the number of views looked up, or none of them is held. -/
  known : h.answersFor msg.rdata.justv
    ∨ ∀ seq ∈ msg.missingSeqNumbers, ∀ block, ¬ h.Holds msg.rdata.justv seq block
  /-- No slot outside the view is asked for. -/
  inside : InsideOf (h.answeringBlocks msg.rdata.justv) msg.missingSeqNumbers

/-- The blocks that are sent are those requested of the ones answered from. -/
theorem mem_requested {blocks : List PBlock} {missing : List Nat} {block : PBlock}
    (inside : InsideOf blocks missing) :
    block ∈ (missing.map fun seq => blocks.getD (seq - 1) PBlock.default).filter PBlock.isBlock
      ↔ ∃ seq ∈ missing, 0 < seq ∧ blocks[seq - 1]? = some block ∧ block.isBlock = true := by
  rw [List.mem_filter, List.mem_map]
  constructor
  · rintro ⟨⟨seq, member, rfl⟩, isBlock⟩
    -- What is no default is in the list, which is not empty then.
    cases found : blocks[seq - 1]? with
    | none =>
      rw [List.getD_eq_getElem?_getD, found] at isBlock
      cases isBlock
    | some block =>
      have some_held : blocks ≠ [] := by
        rintro rfl
        cases found
      rw [List.getD_eq_getElem?_getD, found] at isBlock ⊢
      exact ⟨seq, member, (inside some_held seq member).1, found, isBlock⟩
  · rintro ⟨seq, member, -, found, isBlock⟩
    refine ⟨⟨seq, member, ?_⟩, isBlock⟩
    rw [List.getD_eq_getElem?_getD, found, Option.getD_some]

/-- Asking for slots of a view that are there, or of one without slots, is no access outside. -/
theorem outside_iff {blocks : List PBlock} {missing : List Nat} :
    (!blocks.isEmpty && missing.any (fun seq => seq == 0 || blocks.length < seq)) = false
      ↔ InsideOf blocks missing := by
  cases blocks with
  | nil => simp [InsideOf]
  | cons block rest => simp [InsideOf, Nat.pos_iff_ne_zero]

/-- The blocks asked for, of those a node answers from. -/
def requestedBlocks (msg : MsgLdrRecoverPara) (h : HandlerPara) : List PBlock :=
  (msg.missingSeqNumbers.map fun seq =>
    (h.answeringBlocks msg.rdata.justv).getD (seq - 1) PBlock.default).filter PBlock.isBlock

/-- They are the requested blocks that are held, of a view the node answers for. -/
theorem mem_requestedBlocks
    (inside : InsideOf (h.answeringBlocks msg.rdata.justv) msg.missingSeqNumbers) (block : PBlock) :
    block ∈ requestedBlocks msg h ↔ h.answersFor msg.rdata.justv
      ∧ ∃ seq ∈ msg.missingSeqNumbers, h.Holds msg.rdata.justv seq block := by
  unfold requestedBlocks
  rw [mem_requested inside]
  by_cases answers : h.answersFor msg.rdata.justv
  · simp only [answeringBlocks, answers, if_true, true_and, Holds]
  · simp [answeringBlocks, answers]

/-- At the last view, or asked for a slot outside the view, a node answers nothing. -/
theorem handleLdrRecoverPara_silent
    (silent : maxViewsReached cfg l.node = true
      ∨ ¬ InsideOf (l.node.answeringBlocks msg.rdata.justv) msg.missingSeqNumbers) :
    (handleLdrRecoverPara cfg msg l).state.sent = l.sent := by
  have given : (handleLdrRecoverPara cfg msg).Gives (fun _ l' => l'.sent = l.sent)
      (fun l' => l'.sent = l.sent) l := by
    unfold handleLdrRecoverPara
    rw [gives_bind, gives_this]
    refine gives_ite (fun _ => rfl) fun running => ?_
    rw [gives_bind, gives_modify]
    refine gives_ite (fun _ => rfl) fun none_outside => ?_
    -- All slots are there, so the node is not silent.
    rw [Bool.not_eq_true] at none_outside
    exact absurd (outside_iff.1 none_outside) (silent.resolve_left running)
  exact given.state

/-- Otherwise the leader of its own view gets what it answers, if that is another node. -/
theorem handleLdrRecoverPara_answers (running : maxViewsReached cfg l.node = false)
    (inside : InsideOf (l.node.answeringBlocks msg.rdata.justv) msg.missingSeqNumbers) :
    (handleLdrRecoverPara cfg msg l).state.sent = l.sent ++
      if cfg.getLeaderOf l.node.view = l.node.myid then []
      else [⟨cfg.getLeaderOf l.node.view,
        .recover ⟨msg.rdata, msg.signs, requestedBlocks msg l.node⟩⟩] := by
  generalize expected : (if cfg.getLeaderOf l.node.view = l.node.myid then []
    else [(⟨cfg.getLeaderOf l.node.view,
      .recover ⟨msg.rdata, msg.signs, requestedBlocks msg l.node⟩⟩ : Packet MsgPara)]) = packets
  have given : (handleLdrRecoverPara cfg msg).Gives (fun _ l' => l'.sent = l.sent ++ packets)
      (fun l' => l'.sent = l.sent ++ packets) l := by
    unfold handleLdrRecoverPara
    rw [gives_bind, gives_this, if_neg (by rw [running]; decide), gives_bind, gives_modify]
    have none_outside := outside_iff.2 inside
    refine gives_ite (fun outside => ?_) fun _ => ?_
    · exact absurd (outside.symm.trans none_outside) (by decide)
    · rw [gives_multicast, Config.keep_from_peers_eq (cfg.getLeaderOf_lt _)]
      rw [← expected]
      by_cases own : cfg.getLeaderOf l.node.view = l.node.myid
      · rw [if_pos own, if_pos own]
        rfl
      · rw [if_neg own, if_neg own]
        rfl
  exact given.state

/--
A node answers a request completely and to the leader of its view exactly if it is in a view of
that leader itself, the view of the blocks asked for is below the number of views it has looked up
or it holds none of them, and no slot outside is asked for.
-/
theorem request_answered_iff (cfg : Config) (msg : MsgLdrRecoverPara) (l : State) :
    AnswersRequest cfg msg l (handleLdrRecoverPara cfg msg l).state
      ↔ Answerable cfg msg l.node := by
  constructor
  · rintro ⟨blocks, sent, complete⟩
    -- An answer is sent, so the node is not silent.
    have speaks : ¬ (maxViewsReached cfg l.node = true
        ∨ ¬ InsideOf (l.node.answeringBlocks msg.rdata.justv) msg.missingSeqNumbers) := by
      intro silent
      rw [handleLdrRecoverPara_silent silent] at sent
      simpa using congrArg List.length sent
    rw [not_or, Bool.not_eq_true, not_not] at speaks
    obtain ⟨running, inside⟩ := speaks
    rw [handleLdrRecoverPara_answers running inside, List.append_cancel_left_eq] at sent
    split at sent
    · cases sent
    rename_i other
    -- It is the one packet of the answer.
    simp only [List.cons.injEq, Packet.mk.injEq, MsgPara.recover.injEq,
      MsgRecoverPara.mk.injEq, true_and, and_true] at sent
    obtain ⟨leader, rfl⟩ := sent
    refine ⟨running, leader, by rw [← leader]; exact other, ?_, inside⟩
    by_cases answers : l.node.answersFor msg.rdata.justv
    · exact .inl answers
    · refine .inr fun seq member block holds => answers ?_
      exact ((mem_requestedBlocks inside block).1 ((complete block).2 ⟨seq, member, holds⟩)).1
  · intro answerable
    refine ⟨requestedBlocks msg l.node, ?_, fun block => ?_⟩
    · rw [handleLdrRecoverPara_answers answerable.running answerable.inside, answerable.leader,
        if_neg answerable.other]
    · rw [mem_requestedBlocks answerable.inside]
      constructor
      · exact fun ⟨_, held⟩ => held
      · rintro ⟨seq, member, holds⟩
        refine ⟨answerable.known.resolve_right fun none_held => ?_, seq, member, holds⟩
        exact none_held seq member block holds

section Example

variable [Hashing]

/-- A node that votes for the first block of a view, whatever it did before. -/
def votedIn (p : PID) (view : View) : State :=
  ((protocol Schedule.fourNodes 2).serve
    (followsThenLeads (reportOn 1 view Hash.default 0 0) [slotOne] [])
    ⟨init Schedule.fourNodes (fun _ => []) p, [], []⟩).state

/-- The leader of a view asks for the first block of another view. -/
def asksForFirst (view justv : View) : MsgLdrRecoverPara :=
  let report := reportOn 1 view slotOne.hash justv 1
  ⟨report.rdata, report.signs, [1]⟩

end Example

/--
A node that is still in view 0 sends what the leader of view 1 asks for to the leader of view 0;
and a node that skipped views answers without the block that it holds.
-/
theorem request_not_answered :
    let _ := Checksum.hashing
    (¬ AnswersRequest Schedule.fourNodes (asksForFirst 1 0) (votedIn 2 0)
        (handleLdrRecoverPara Schedule.fourNodes (asksForFirst 1 0) (votedIn 2 0)).state)
      ∧ ¬ AnswersRequest Schedule.fourNodes (asksForFirst 9 5) (votedIn 3 5)
        (handleLdrRecoverPara Schedule.fourNodes (asksForFirst 9 5) (votedIn 3 5)).state := by
  intro hashing
  constructor
  · rintro ⟨blocks, sent, -⟩
    have elsewhere : ((handleLdrRecoverPara Schedule.fourNodes (asksForFirst 1 0)
        (votedIn 2 0)).state.sent.getLast?).map (·.dest) = some 0 := by decide +kernel
    rw [sent, List.getLast?_concat] at elsewhere
    have leader : Schedule.fourNodes.getLeaderOf (asksForFirst 1 0).rdata.propv = 1 := by decide
    rw [Option.map_some, leader] at elsewhere
    cases elsewhere
  · rintro ⟨blocks, sent, complete⟩
    have answer : (handleLdrRecoverPara Schedule.fourNodes (asksForFirst 9 5)
        (votedIn 3 5)).state.sent.getLast? = some ⟨1, .recover
          ⟨(asksForFirst 9 5).rdata, (asksForFirst 9 5).signs, []⟩⟩ := by decide +kernel
    rw [sent, List.getLast?_concat] at answer
    simp only [Option.some.injEq, Packet.mk.injEq, MsgPara.recover.injEq, MsgRecoverPara.mk.injEq,
      true_and] at answer
    obtain ⟨-, rfl⟩ := answer
    -- The block is held, but not among those sent.
    have held : (votedIn 3 5).node.Holds 5 1 slotOne :=
      ⟨Nat.one_pos, by decide +kernel, by decide +kernel⟩
    exact absurd ((complete slotOne).2 ⟨1, List.mem_singleton_self 1, held⟩) List.not_mem_nil

end HandlerPara

end ParaHotstuff
