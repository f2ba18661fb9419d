import ParaHotstuff.Lib.Program
import Mathlib.Logic.Function.Basic
import Mathlib.Data.List.Infix

/-! Parties that exchange messages over a network which may lose, delay, reorder and repeat. -/

namespace ParaHotstuff

/-- A message on its way to a party. -/
structure Packet (Msg : Type) where
  dest : Nat
  msg : Msg
deriving DecidableEq, Repr

/-- What one party works on: its own state, the packets sent, and the events so far. -/
structure Local (Node Msg Event : Type) where
  node : Node
  sent : List (Packet Msg)
  history : List Event

namespace Local

variable {Node Msg Event : Type}

/-- The party's own state. -/
def this : Program (Local Node Msg Event) Node := do return (← Program.read).node

/-- Change the party's own state. -/
def modify (f : Node → Node) : Program (Local Node Msg Event) Unit :=
  Program.update fun s => { s with node := f s.node }

/-- Hand a message to the network, once for each recipient. -/
def multicast_msg (msg : Msg) (recipients : List Nat) : Program (Local Node Msg Event) Unit :=
  Program.update fun s => { s with sent := s.sent ++ recipients.map (⟨·, msg⟩) }

/-- Note an event, for the properties of runs. -/
def note (event : Event) : Program (Local Node Msg Event) Unit :=
  Program.update fun s => { s with history := event :: s.history }

/-- Note an event if a condition holds. -/
def noteIf (condition : Bool) (event : Event) : Program (Local Node Msg Event) Unit :=
  if condition then note event else return ()

section Rules

variable {post : Unit → Local Node Msg Event → Prop} {stop : Local Node Msg Event → Prop}
variable {l : Local Node Msg Event}

/-- Reading the own state hands it to the postcondition. -/
@[simp] theorem gives_this {post : Node → Local Node Msg Event → Prop} :
    Program.Gives this post stop l ↔ post l.node l := Iff.rfl

/-- A change of the own state leaves the network and the history as they are. -/
@[simp] theorem gives_modify {f : Node → Node} :
    Program.Gives (modify f) post stop l ↔ post () { l with node := f l.node } := Iff.rfl

/-- Sending adds packets at the end of those sent. -/
@[simp] theorem gives_multicast {msg : Msg} {recipients : List Nat} :
    Program.Gives (multicast_msg msg recipients) post stop l ↔
      post () { l with sent := l.sent ++ recipients.map (⟨·, msg⟩) } := Iff.rfl

/-- Noting puts the event in front of the history. -/
@[simp] theorem gives_note {e : Event} :
    Program.Gives (note e) post stop l ↔ post () { l with history := e :: l.history } := Iff.rfl

/-- A conditional event is noted or not. -/
@[simp] theorem gives_noteIf {condition : Bool} {e : Event} :
    Program.Gives (noteIf condition e) post stop l ↔
      post () (if condition then { l with history := e :: l.history } else l) := by
  cases condition <;> rfl

end Rules

section Keeping

variable {keep : Local Node Msg Event → Prop}

theorem keeps_this : Program.Keeps keep (this : Program (Local Node Msg Event) Node) :=
  fun _ held => held

/-- A change of the own state keeps what holds of the changed state as well. -/
theorem keeps_modify {f : Node → Node} (kept : ∀ l, keep l → keep { l with node := f l.node }) :
    Program.Keeps keep (modify f : Program (Local Node Msg Event) Unit) := kept

/-- Sending keeps what does not depend on the packets sent. -/
theorem keeps_multicast {msg : Msg} {recipients : List Nat}
    (kept : ∀ l sent, keep l → keep { l with sent := sent }) :
    Program.Keeps keep (multicast_msg msg recipients : Program (Local Node Msg Event) Unit) :=
  fun l held => kept l _ held

/-- Noting keeps what holds with the event as well. -/
theorem keeps_note {e : Event} (kept : ∀ l, keep l → keep { l with history := e :: l.history }) :
    Program.Keeps keep (note e : Program (Local Node Msg Event) Unit) := kept

end Keeping

end Local

/-- The state of all parties and of the network; a stopped party takes no further step. -/
structure Net (Node Msg Event : Type) where
  nodes : Nat → Node
  stopped : Nat → Bool
  sent : List (Packet Msg)
  history : List Event

/-- How a party reacts to messages and to its environment. -/
structure Protocol (Node Msg Event Input : Type) where
  receive : Msg → Program (Local Node Msg Event) Unit
  input : Input → Program (Local Node Msg Event) Unit

/--
One action of a run.

A packet is named by its place among all packets ever sent, so packets may arrive in any
order, several times, or never.
-/
inductive Action (Input : Type) where
  | deliver (index : Nat)
  | input (party : Nat) (i : Input)
deriving DecidableEq, Repr

/-- What happens to a party: it receives a message, whoever sent it, or something else. -/
inductive Stimulus (Msg Input : Type) where
  | message (msg : Msg)
  | input (i : Input)
deriving DecidableEq, Repr

namespace Protocol

variable {Node Msg Event Input : Type} (protocol : Protocol Node Msg Event Input)

/-- How a party reacts to whatever happens to it. -/
def answer : Stimulus Msg Input → Program (Local Node Msg Event) Unit
  | .message msg => protocol.receive msg
  | .input i => protocol.input i

/-- One party by itself, to which one thing after the other happens, until it stops. -/
def serve : List (Stimulus Msg Input) → Program (Local Node Msg Event) Unit
  | [] => return ()
  | stimulus :: rest => do
    protocol.answer stimulus
    serve rest

variable {protocol}

/-- What happens to a party later starts from where it was left, unless it stopped there. -/
theorem serve_append (stimuli more : List (Stimulus Msg Input)) (l : Local Node Msg Event) :
    protocol.serve (stimuli ++ more) l = match protocol.serve stimuli l with
      | .done _ l' => protocol.serve more l'
      | .halted l' => .halted l' := by
  induction stimuli generalizing l with
  | nil => rfl
  | cons stimulus rest ih =>
    -- Either the party stopped over the first stimulus, or it goes on with the others.
    change Program.andThen (protocol.answer stimulus) (fun _ => protocol.serve (rest ++ more)) l
      = match Program.andThen (protocol.answer stimulus) (fun _ => protocol.serve rest) l with
        | .done _ l' => protocol.serve more l'
        | .halted l' => .halted l'
    unfold Program.andThen
    cases protocol.answer stimulus l with
    | done result l' => exact ih l'
    | halted l' => rfl

/-- What all reactions of a party keep is kept however often something happens to it. -/
theorem keeps_serve {keep : Local Node Msg Event → Prop} {stimuli : List (Stimulus Msg Input)}
    (each : ∀ stimulus ∈ stimuli, Program.Keeps keep (protocol.answer stimulus)) :
    Program.Keeps keep (protocol.serve stimuli) := by
  induction stimuli with
  | nil => exact Program.keeps_pure ()
  | cons stimulus rest ih =>
    have later := ih fun other member => each other (List.mem_cons_of_mem _ member)
    exact (each stimulus List.mem_cons_self).bind fun _ => later

variable (protocol) in
/-- Whatever happens to a party finds it in a state that meets a condition. -/
def Meets (condition : Node → Stimulus Msg Input → Prop) :
    Local Node Msg Event → List (Stimulus Msg Input) → Prop
  | _, [] => True
  | l, stimulus :: rest => condition l.node stimulus ∧
      match protocol.answer stimulus l with
      | .done _ l' => Meets condition l' rest
      | .halted _ => True

instance decidableMeets {condition : Node → Stimulus Msg Input → Prop}
    [∀ node stimulus, Decidable (condition node stimulus)] :
    (l : Local Node Msg Event) → (stimuli : List (Stimulus Msg Input)) →
      Decidable (protocol.Meets condition l stimuli)
  | _, [] => isTrue trivial
  | l, stimulus :: rest =>
    have : Decidable (match protocol.answer stimulus l with
        | .done _ l' => protocol.Meets condition l' rest
        | .halted _ => True) :=
      match protocol.answer stimulus l with
      | .done _ l' => decidableMeets l' rest
      | .halted _ => isTrue trivial
    inferInstanceAs (Decidable (_ ∧ _))

/-- What each reaction keeps where it meets a condition is kept by meeting it all along. -/
theorem gives_serve_meeting {condition : Node → Stimulus Msg Input → Prop}
    {keep stop : Local Node Msg Event → Prop}
    (each : ∀ l stimulus, keep l → condition l.node stimulus →
      (protocol.answer stimulus).Gives (fun _ => keep) stop l)
    {stimuli : List (Stimulus Msg Input)} {l : Local Node Msg Event} (start : keep l)
    (meets : protocol.Meets condition l stimuli) :
    (protocol.serve stimuli).Gives (fun _ => keep) stop l := by
  induction stimuli generalizing l with
  | nil => exact start
  | cons stimulus rest ih =>
    obtain ⟨here, later⟩ := meets
    have first := each l stimulus start here
    unfold serve
    rw [Program.gives_bind]
    unfold Program.Gives at first ⊢
    -- Either the party stopped over the first stimulus, or it goes on with the others.
    cases answered : protocol.answer stimulus l with
    | done result l' =>
      simp only [answered] at first later ⊢
      exact ih first later
    | halted l' =>
      simp only [answered] at first ⊢
      exact first

end Protocol

namespace Net

variable {Node Msg Event Input : Type}

/-- Let one party run a program. -/
def act (net : Net Node Msg Event) (p : Nat) (program : Program (Local Node Msg Event) Unit) :
    Net Node Msg Event :=
  if net.stopped p then net
  else
    let outcome := program ⟨net.nodes p, net.sent, net.history⟩
    { nodes := Function.update net.nodes p outcome.state.node
      stopped := Function.update net.stopped p outcome.stopped
      sent := outcome.state.sent
      history := outcome.state.history }

/-- A party that only changes its own state leaves everything else as it is. -/
theorem act_modify {net : Net Node Msg Event} {p : Nat} {f : Node → Node}
    (running : net.stopped p = false) :
    net.act p (Local.modify f)
      = { net with nodes := Function.update net.nodes p (f (net.nodes p)) } := by
  have still : Function.update net.stopped p false = net.stopped := by
    rw [← running, Function.update_eq_self]
  simp only [act, running, Bool.false_eq_true, if_false]
  exact congrArg (fun stopped => Net.mk _ stopped _ _) still

/-- One action of a run; a packet that was never sent cannot arrive. -/
def step (protocol : Protocol Node Msg Event Input) (net : Net Node Msg Event) :
    Action Input → Net Node Msg Event
  | .deliver index =>
    match net.sent[index]? with
    | some packet => net.act packet.dest (protocol.receive packet.msg)
    | none => net
  | .input p i => net.act p (protocol.input i)

/-- A run is a list of actions. -/
def run (protocol : Protocol Node Msg Event Input) (net : Net Node Msg Event)
    (actions : List (Action Input)) : Net Node Msg Event :=
  actions.foldl (step protocol) net

/-- Every action of a run meets a condition on the network it finds. -/
def Meets (protocol : Protocol Node Msg Event Input)
    (condition : Net Node Msg Event → Action Input → Prop) :
    Net Node Msg Event → List (Action Input) → Prop
  | _, [] => True
  | net, action :: rest => condition net action ∧ Meets protocol condition (net.step protocol action) rest

instance {protocol : Protocol Node Msg Event Input}
    {condition : Net Node Msg Event → Action Input → Prop}
    [∀ net action, Decidable (condition net action)] (net : Net Node Msg Event)
    (actions : List (Action Input)) : Decidable (Meets protocol condition net actions) := by
  induction actions generalizing net with
  | nil => exact isTrue trivial
  | cons action rest ih => exact @instDecidableAnd _ _ _ (ih (net.step protocol action))

/-- A property kept by every action that meets a condition is kept by runs of such actions. -/
theorem run_meeting {protocol : Protocol Node Msg Event Input}
    {condition : Net Node Msg Event → Action Input → Prop} {keep : Net Node Msg Event → Prop}
    (stepped : ∀ net action, condition net action → keep net → keep (net.step protocol action))
    {net : Net Node Msg Event} (start : keep net) {actions : List (Action Input)}
    (meets : Meets protocol condition net actions) : keep (net.run protocol actions) := by
  induction actions generalizing net with
  | nil => exact start
  | cons action rest ih => exact ih (stepped net action meets.1 start) meets.2

/-- A property kept by every action is kept by every run. -/
theorem run_invariant {protocol : Protocol Node Msg Event Input} {keep : Net Node Msg Event → Prop}
    (stepped : ∀ net action, keep net → keep (net.step protocol action))
    {net : Net Node Msg Event} (start : keep net) (actions : List (Action Input)) :
    keep (net.run protocol actions) := by
  induction actions generalizing net with
  | nil => exact start
  | cons action rest ih => exact ih (stepped net action start)

/-- An action finds the party it reaches, if that one runs, in a state that meets a condition. -/
def Finds (condition : Node → Stimulus Msg Input → Prop) (net : Net Node Msg Event) :
    Action Input → Prop
  | .deliver index => ∀ packet ∈ net.sent[index]?, net.stopped packet.dest = false →
      condition (net.nodes packet.dest) (.message packet.msg)
  | .input p i => net.stopped p = false → condition (net.nodes p) (.input i)

instance {condition : Node → Stimulus Msg Input → Prop}
    [∀ node stimulus, Decidable (condition node stimulus)] (net : Net Node Msg Event) :
    (action : Action Input) → Decidable (Finds condition net action)
  | .deliver index => inferInstanceAs (Decidable (∀ packet ∈ net.sent[index]?, _ → _))
  | .input _ _ => inferInstanceAs (Decidable (_ → _))

/-- What is known of the parties that run and of those that have stopped, and of the history. -/
structure Known (keep stop : Nat → Node → Prop) (facts : List Event → Prop)
    (net : Net Node Msg Event) : Prop where
  running : ∀ p, net.stopped p = false → keep p (net.nodes p)
  halted : ∀ p, net.stopped p = true → stop p (net.nodes p)
  facts : facts net.history

/-- What each party's reactions keep where they meet a condition is known after runs that meet it. -/
theorem known_run {protocol : Protocol Node Msg Event Input}
    {condition : Node → Stimulus Msg Input → Prop} {keep stop : Nat → Node → Prop}
    {facts : List Event → Prop}
    (each : ∀ p (l : Local Node Msg Event) stimulus, keep p l.node → facts l.history →
      condition l.node stimulus → (protocol.answer stimulus).Gives
        (fun _ l' => keep p l'.node ∧ facts l'.history)
        (fun l' => stop p l'.node ∧ facts l'.history) l)
    {net : Net Node Msg Event} (start : net.Known keep stop facts)
    {actions : List (Action Input)} (meets : Meets protocol (Finds condition) net actions) :
    (net.run protocol actions).Known keep stop facts := by
  -- A party that acts is where its reaction leads; the others are where they were.
  have acted : ∀ (net : Net Node Msg Event) q stimulus, net.Known keep stop facts →
      (net.stopped q = false → condition (net.nodes q) stimulus) →
      (net.act q (protocol.answer stimulus)).Known keep stop facts := by
    intro net q stimulus known meets
    unfold act
    split
    · exact known
    rename_i running
    rw [Bool.not_eq_true] at running
    have given := each q ⟨net.nodes q, net.sent, net.history⟩ stimulus (known.running q running)
      known.facts (meets running)
    unfold Program.Gives at given
    cases ended : protocol.answer stimulus ⟨net.nodes q, net.sent, net.history⟩ with
    | done result l =>
      simp only [ended] at given
      refine ⟨fun p => ?_, fun p => ?_, given.2⟩
      · by_cases same : p = q
        · subst same
          simpa [Outcome.stopped, Outcome.state] using given.1
        · simpa [same] using known.running p
      · by_cases same : p = q
        · subst same
          simp [Outcome.stopped]
        · simpa [same] using known.halted p
    | halted l =>
      simp only [ended] at given
      refine ⟨fun p => ?_, fun p => ?_, given.2⟩
      · by_cases same : p = q
        · subst same
          simp [Outcome.stopped]
        · simpa [same] using known.running p
      · by_cases same : p = q
        · subst same
          simpa [Outcome.stopped, Outcome.state] using given.1
        · simpa [same] using known.halted p
  refine @run_meeting _ _ _ _ _ _ (fun net => net.Known keep stop facts)
    (fun net action meets known => ?_) _ start _ meets
  cases action with
  | deliver index =>
    simp only [Finds] at meets
    simp only [step]
    cases sent : net.sent[index]? with
    | none => exact known
    | some packet =>
      exact acted net packet.dest (.message packet.msg) known (meets packet (by rw [sent]; rfl))
  | input q i => exact acted net q (.input i) known meets

end Net

/--
What is known of a network: of each running party with respect to the history, of the history,
and of each packet.
-/
structure Knowledge (Node Msg Event : Type) where
  actor : Event → Nat
  own : Nat → Node → List Event → Prop
  facts : List Event → Prop
  good : Packet Msg → List Event → Prop

namespace Knowledge

variable {Node Msg Event Input : Type} (K : Knowledge Node Msg Event)

/-- The knowledge holds of a whole network. -/
structure Holds (net : Net Node Msg Event) : Prop where
  own : ∀ p, net.stopped p = false → K.own p (net.nodes p) net.history
  facts : K.facts net.history
  good : ∀ packet ∈ net.sent, K.good packet net.history

/-- What a party leaves behind after it added only events of its own. -/
structure Left (p : Nat) (start : List Event) (l : Local Node Msg Event) : Prop where
  grown : ∃ added, l.history = added ++ start ∧ ∀ e ∈ added, K.actor e = p
  facts : K.facts l.history
  good : ∀ packet ∈ l.sent, K.good packet l.history

/-- The knowledge holds while party p works. -/
structure Inside (p : Nat) (start : List Event) (l : Local Node Msg Event) : Prop
    extends K.Left p start l where
  own : K.own p l.node l.history

/-- Knowledge of packets and of other parties survives the events a party adds. -/
structure Stable : Prop where
  own : ∀ {p q node history added}, K.own q node history → p ≠ q →
    (∀ e ∈ added, K.actor e = p) → K.own q node (added ++ history)
  good : ∀ {packet history}, K.good packet history → ∀ added, K.good packet (added ++ history)

/-- A program of party p keeps the knowledge from a state on. -/
def Safe (p : Nat) (start : List Event) (program : Program (Local Node Msg Event) Unit)
    (l : Local Node Msg Event) : Prop :=
  program.Gives (fun _ => K.Inside p start) (K.Left p start) l

variable {K} {p : Nat} {start : List Event} {l l' : Local Node Msg Event}

/-- A party that goes on working starts afresh from where it is. -/
theorem Inside.refl (inside : K.Inside p start l) : K.Inside p l.history l :=
  { grown := ⟨[], rfl, by simp⟩, facts := inside.facts, good := inside.good, own := inside.own }

/-- What is left behind from a later point of the history is left behind from an earlier one. -/
theorem Left.trans (first : K.Left p start l) (second : K.Left p l.history l') :
    K.Left p start l' := by
  obtain ⟨added, grown, mine⟩ := first.grown
  obtain ⟨later, grown', mine'⟩ := second.grown
  refine ⟨⟨later ++ added, by rw [grown', grown, List.append_assoc], ?_⟩,
    second.facts, second.good⟩
  intro e member
  rcases List.mem_append.1 member with new | old
  · exact mine' e new
  · exact mine e old

/-- Working on from a later point of the history is working on from an earlier one. -/
theorem Inside.trans (first : K.Inside p start l) (second : K.Inside p l.history l') :
    K.Inside p start l' :=
  { first.toLeft.trans second.toLeft with own := second.own }

/-- A program safe from the current point of the history is safe from an earlier one. -/
theorem Inside.safe {program : Program (Local Node Msg Event) Unit} (inside : K.Inside p start l)
    (safe : K.Safe p l.history program l) : K.Safe p start program l :=
  safe.mono (fun _ _ after => inside.trans after) (fun _ after => inside.toLeft.trans after)

/-- The own state may change to one of which the same is known. -/
theorem Inside.node (inside : K.Inside p start l) {h : Node} (own : K.own p h l.history) :
    K.Inside p start { l with node := h } :=
  { grown := inside.grown, facts := inside.facts, good := inside.good, own := own }

/-- Good packets may be sent. -/
theorem Inside.send (inside : K.Inside p start l) (msg : Msg) (recipients : List Nat)
    (good : ∀ d ∈ recipients, K.good ⟨d, msg⟩ l.history) :
    K.Inside p start { l with sent := l.sent ++ recipients.map (⟨·, msg⟩) } where
  grown := inside.grown
  facts := inside.facts
  own := inside.own
  good := fun packet member => by
    rcases List.mem_append.1 member with old | new
    · exact inside.good packet old
    · obtain ⟨d, recipient, rfl⟩ := List.mem_map.1 new
      exact good d recipient

/-- An event of the party itself may be noted, together with a change of its state. -/
theorem Inside.event (stable : K.Stable) (inside : K.Inside p start l) {e : Event} {node : Node}
    (mine : K.actor e = p) (facts : K.facts (e :: l.history))
    (own : K.own p node (e :: l.history)) :
    K.Inside p start { l with node := node, history := e :: l.history } where
  grown := by
    obtain ⟨added, grown, others⟩ := inside.grown
    refine ⟨e :: added, by rw [grown]; rfl, fun e' member => ?_⟩
    rcases List.mem_cons.1 member with rfl | old
    · exact mine
    · exact others e' old
  facts := facts
  good := fun packet member => stable.good (inside.good packet member) [e]
  own := own

/-- So may several events at once. -/
theorem Inside.events (stable : K.Stable) (inside : K.Inside p start l) {added : List Event}
    {node : Node} (mine : ∀ e ∈ added, K.actor e = p) (facts : K.facts (added ++ l.history))
    (own : K.own p node (added ++ l.history)) :
    K.Inside p start { l with node := node, history := added ++ l.history } where
  grown := by
    obtain ⟨before, grown, others⟩ := inside.grown
    refine ⟨added ++ before, by rw [grown, List.append_assoc], fun e member => ?_⟩
    rcases List.mem_append.1 member with new | old
    · exact mine e new
    · exact others e old
  facts := facts
  good := fun packet member => stable.good (inside.good packet member) added
  own := own

/-- A party's program that keeps the knowledge inside keeps it of the whole network. -/
theorem Holds.act {net : Net Node Msg Event} (stable : K.Stable) (known : K.Holds net)
    {program : Program (Local Node Msg Event) Unit}
    (kept : net.stopped p = false → K.Inside p net.history ⟨net.nodes p, net.sent, net.history⟩ →
      K.Safe p net.history program ⟨net.nodes p, net.sent, net.history⟩) :
    K.Holds (net.act p program) := by
  unfold Net.act
  split
  · exact known
  rename_i running
  -- The party starts from what is known of its state.
  have begin : K.Inside p net.history ⟨net.nodes p, net.sent, net.history⟩ :=
    { grown := ⟨[], rfl, by simp⟩, facts := known.facts, good := known.good,
      own := known.own p (by simpa using running) }
  have given := kept (by simpa using running) begin
  unfold Safe Program.Gives at given
  -- Every other party sees only new events of the party that worked.
  have others : ∀ {l : Local Node Msg Event}, K.Left p net.history l → ∀ q, q ≠ p →
      net.stopped q = false → K.own q (net.nodes q) l.history := by
    intro l left q other active
    obtain ⟨added, grown, mine⟩ := left.grown
    rw [grown]
    exact stable.own (known.own q active) (Ne.symm other) mine
  cases ended : program ⟨net.nodes p, net.sent, net.history⟩ with
  | done result l =>
    simp only [ended] at given
    refine ⟨fun q active => ?_, given.facts, given.good⟩
    by_cases same : q = p
    · subst same
      simpa [Outcome.state] using given.own
    · simp only [Function.update_of_ne same] at active ⊢
      exact others given.toLeft q same active
  | halted l =>
    simp only [ended] at given
    refine ⟨fun q active => ?_, given.facts, given.good⟩
    by_cases same : q = p
    · subst same
      simp [Outcome.stopped] at active
    · simp only [Function.update_of_ne same] at active ⊢
      exact others given q same active

/--
Knowledge kept by the reactions to all actions that meet a condition holds after runs of such.

A reaction to a message may use that the message was sent; no action reaches a stopped party.
-/
theorem Holds.run_meeting {protocol : Protocol Node Msg Event Input} (stable : K.Stable)
    {condition : Net Node Msg Event → Action Input → Prop}
    (receive : ∀ net index p msg, condition net (.deliver index) →
      net.sent[index]? = some ⟨p, msg⟩ → net.stopped p = false →
      K.good ⟨p, msg⟩ net.history → K.Inside p net.history ⟨net.nodes p, net.sent, net.history⟩ →
      K.Safe p net.history (protocol.receive msg) ⟨net.nodes p, net.sent, net.history⟩)
    (input : ∀ net p i, condition net (.input p i) → net.stopped p = false →
      K.Inside p net.history ⟨net.nodes p, net.sent, net.history⟩ →
      K.Safe p net.history (protocol.input i) ⟨net.nodes p, net.sent, net.history⟩)
    {net : Net Node Msg Event} (begin : K.Holds net) {actions : List (Action Input)}
    (meets : Net.Meets protocol condition net actions) : K.Holds (net.run protocol actions) := by
  refine Net.run_meeting (fun net action meets known => ?_) begin meets
  cases action with
  | deliver index =>
    simp only [Net.step]
    cases sent : net.sent[index]? with
    | none => exact known
    | some packet =>
      have good := known.good packet (List.mem_of_getElem? sent)
      exact known.act stable fun running inside =>
        receive net index packet.dest packet.msg meets sent running good inside
  | input p i => exact known.act stable fun running inside => input net p i meets running inside

/--
Knowledge kept by every reaction of every party holds after every run.

A reaction to a message may use that the message was sent.
-/
theorem Holds.run {protocol : Protocol Node Msg Event Input} (stable : K.Stable)
    (receive : ∀ p msg l, K.good ⟨p, msg⟩ l.history → K.Inside p l.history l →
      K.Safe p l.history (protocol.receive msg) l)
    (input : ∀ p i l, K.Inside p l.history l → K.Safe p l.history (protocol.input i) l)
    {net : Net Node Msg Event} (begin : K.Holds net) (actions : List (Action Input)) :
    K.Holds (net.run protocol actions) := by
  refine Net.run_invariant (fun net action known => ?_) begin actions
  cases action with
  | deliver index =>
    simp only [Net.step]
    cases sent : net.sent[index]? with
    | none => exact known
    | some packet =>
      have good := known.good packet (List.mem_of_getElem? sent)
      exact known.act stable fun _ inside => receive _ _ _ good inside
  | input p i => exact known.act stable fun _ inside => input p i _ inside

end Knowledge

end ParaHotstuff
