import ParaHotstuff.Lib.Numbering
import ParaHotstuff.Proofs.Para.Watching

/-! A parallel node executes slots in order, each once. -/

namespace ParaHotstuff

open GroupNumbering

/-- The view and the slot number of what was executed, if the event notes that. -/
def ParaEvent.slot? : ParaEvent → Option (View × Nat)
  | executed _ _ rdata _ => some (rdata.propv, rdata.seqNumber)
  | _ => none

namespace HandlerPara

open Program Local

variable {cfg : Config} {l : State}

/-- The slots a node executed, in the order in which it did. -/
def executedSlots (history : List ParaEvent) : List (View × Nat) :=
  history.reverse.filterMap ParaEvent.slot?

theorem executedSlots_cons (e : ParaEvent) (history : List ParaEvent) :
    executedSlots (e :: history) = executedSlots history ++ (ParaEvent.slot? e).toList := by
  unfold executedSlots
  rw [List.reverse_cons, List.filterMap_append]
  cases found : e.slot? with
  | none => simp [found]
  | some slot => simp [found]

/-- The slots executed are numbered view by view, up to the last one of the view of the node. -/
def InOrder (h : HandlerPara) (history : List ParaEvent) : Prop :=
  Numbered (executedSlots history) h.view h.lastExecutedSeq

/-- Other events leave the slots executed. -/
theorem InOrder.event {h : HandlerPara} {history : List ParaEvent} {e : ParaEvent}
    (ordered : InOrder h history) (other : e.slot? = none) : InOrder h (e :: history) := by
  unfold InOrder at ordered ⊢
  rw [executedSlots_cons, other]
  simpa using ordered

/-- A node that signs reports and enters later views executes nothing. -/
theorem InOrder.signing :
    Signing cfg (fun l => Sound l ∧ InOrder l.node l.history) WordSized True where
  note := fun {l e} ⟨sound, ordered⟩ progress _ => by
    refine ⟨{ sound with }, ordered.event ?_⟩
    cases e <;> first | rfl | cases progress
  begin := fun ⟨sound, ordered⟩ => ⟨{ sound with }, ordered⟩
  sign := fun ⟨sound, ordered⟩ => ⟨(@Sound.signing cfg).sign sound, ordered.event rfl⟩
  signed := fun ⟨sound, _⟩ => decide_eq_true sound.trusted
  counted := fun _ ⟨sound, _⟩ => sound.trusted
  change := fun _ ⟨sound, ordered⟩ later =>
    ⟨sound.node (later trivial).2 rfl sound.sorted, Numbered.enter ordered (later trivial).1⟩

variable [Hashing]

/-- Wherever a node goes, the slots it executed are numbered. -/
theorem InOrder.watch : Watch cfg InOrder where
  place := fun ordered same => by
    unfold InOrder at ordered ⊢
    rw [same.view, same.lastExecutedSeq]
    exact ordered
  event := fun {h H e} ordered other => ordered.event (by cases e <;> first | rfl | cases other)
  executes := fun {h H p rdata commits} ordered here next => by
    unfold InOrder at ordered ⊢
    -- The slot is the next one of the view of the node.
    have slot : (rdata.propv, rdata.seqNumber) = (h.view, h.lastExecutedSeq + 1) := by
      rw [here, next]
    rw [executedSlots_cons]
    change Numbered (executedSlots H ++ [(rdata.propv, rdata.seqNumber)]) h.view rdata.seqNumber
    rw [slot, next]
    exact ordered.next
  leaves := fun sound ordered => by
    refine ((@InOrder.signing cfg).leaves ⟨sound, ordered⟩).mono ?_ ?_
    · exact fun _ _ left => left.1.2
    · exact fun _ left => left.2
  starts := fun ordered _ => ordered
  change := fun _ ordered later _ => Numbered.enter ordered later

/--
Whatever a node receives, it executes slots in order and each once.

In every view it executes the slots from the first one on, without leaving any out.
-/
theorem executes_in_order (choices : PID → List Nat) (depth : Nat) (p : PID)
    (stimuli : List (Stimulus MsgPara Input))
    (counters : ∀ msg, Stimulus.message msg ∈ stimuli → msg.wordSized = true) :
    let executed := executedSlots
      ((protocol cfg depth).serve stimuli ⟨init cfg choices p, [], []⟩).state.history
    executed.Pairwise (Prod.Lex (· < ·) (· < ·))
      ∧ ∀ v, ∃ k, (executed.filter fun slot => decide (slot.1 = v)).map Prod.snd
        = List.range' 1 k := by
  have start : InOrder (init cfg choices p) [] := numbered_nil 0
  have served := ((@InOrder.watch cfg _).serve depth counters).state
    ⟨sound_init choices p, start⟩
  exact ⟨served.2.sorted, served.2.whole⟩

omit [Hashing] in
/-- Certificates for both slots of the first view; the one for the second slot comes early. -/
def lateCertificate : List (Stimulus MsgPara Input) :=
  [2, 1, 2].map fun seq =>
    let rdata : RDataPara := ⟨Hash.ofBool true, 0, Hash.default, 0, PH1_COMMIT, seq⟩
    .message (.commit ⟨rdata, [0, 1, 2].map fun p => Sign.ofText p p rdata.toString⟩)

omit [Hashing] in
/-- The slot whose certificate comes early waits for the one before it. -/
theorem executes_in_order_lateCertificate :
    let _ := Checksum.hashing
    let executed := executedSlots ((protocol Schedule.fourNodes 1).serve lateCertificate
      ⟨init Schedule.fourNodes (fun _ => []) 1, [], []⟩).state.history
    executed.Pairwise (Prod.Lex (· < ·) (· < ·))
      ∧ ∀ v, ∃ k, (executed.filter fun slot => decide (slot.1 = v)).map Prod.snd
        = List.range' 1 k := by
  intro hashing
  refine executes_in_order (fun _ => []) 1 1 lateCertificate fun msg member => ?_
  simp only [lateCertificate, List.map_cons, List.map_nil, List.mem_cons, Stimulus.message.injEq,
    List.not_mem_nil, or_false] at member
  rcases member with rfl | rfl | rfl <;> rfl

end HandlerPara

end ParaHotstuff
