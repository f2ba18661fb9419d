import ParaHotstuff.Proofs.Trusted.PrefixSearch

/-! When the prefix lock keeps up with the certificates of a view, and when it is left behind. -/

namespace ParaHotstuff

namespace TrustedPara

variable [Hashing]

/-- The pre-commit certificates accepted since the view was entered, after one more call. -/
def gather (certs : List RDataPara) (step : TrustedPara × PublicCall) : List RDataPara :=
  if step.1.enters step.2 then []
  else match step.1.certificate step.2 with
    | some rd => if rd.phase == PH1_PRECOMMIT then certs ++ [rd] else certs
    | none => certs

/-- The pre-commit certificates a component accepted since it entered its view last. -/
def sinceEntering (tp : TrustedPara) (calls : List PublicCall) : List RDataPara :=
  (component.steps tp calls).foldl gather []

/-- A slot has a certificate. -/
def Certified (certs : List RDataPara) (i : Nat) : Prop := ∃ rd ∈ certs, rd.seqNumber = i

/--
The first slots of a view are certified, and their blocks are held.

Each block extends the one before it, and has the hash that every certificate for its slot says.
-/
structure HeldPrefix (getBlockFunc : Nat → PBlock) (since accepted : List RDataPara) (v : View)
    (k : Nat) : Prop where
  certified : ∀ i, 0 < i → i ≤ k → Certified since i
  held : ∀ i, 0 < i → i ≤ k → (getBlockFunc i).isBlock = true
  follows : ∀ i, 0 < i → i < k → (getBlockFunc (i + 1)).extends' (getBlockFunc i).hash = true
  hash : ∀ i, 0 < i → i ≤ k → ∀ h, Precommitted accepted v i h →
    (getBlockFunc i).hash.hash = h.hash

/-- After some calls the lock is of the view, and reaches as far as a prefix that is held. -/
def KeepsUp (tp : TrustedPara) (calls : List PublicCall) (getBlockFunc : Nat → PBlock) : Prop :=
  ∀ k, 0 < k → HeldPrefix getBlockFunc (tp.sinceEntering calls) (tp.certificates calls)
      (component.after tp calls).view k →
    (component.after tp calls).prefixLockedView = (component.after tp calls).view
      ∧ k ≤ (component.after tp calls).prefixLockedSeqNumber

/--
The slot number that the lock had before does not stand in the way.

The lock was of the view already, or the first slot is not certified and held, or the certified
slots go beyond that number, and no block there fails to extend the one before it.
-/
def NotHeldBack (tp before : TrustedPara) (calls : List PublicCall) (getBlockFunc : Nat → PBlock) :
    Prop :=
  before.prefixLockedView = before.view
    ∨ ¬ HeldPrefix getBlockFunc (tp.sinceEntering calls) (tp.certificates calls) before.view 1
    ∨ Reaches (Certified (tp.sinceEntering calls)) (fun i => i = 0 ∨ FollowsBlock getBlockFunc i)
      0 (before.prefixLockedSeqNumber + 1)

section Since

variable {tp : TrustedPara} {getBlockFunc : Nat → PBlock} {rd : RDataPara}

/-- What a call does to the pre-commit certificates recorded. -/
theorem precommitData_next (tp : TrustedPara) (call : PublicCall) :
    (component.next tp call).precommitData
      = if tp.enters call then ∅
        else match tp.certificate call with
          | some rd => if rd.phase == PH1_PRECOMMIT
            then tp.precommitData.insert rd.seqNumber ⟨rd.proph, rd.propv⟩ else tp.precommitData
          | none => tp.precommitData := by
  rcases next_cases tp call with ⟨nodes, just, getBlockFunc, rd, rfl, accepted⟩ | ⟨none', moved⟩
  · obtain ⟨-, -, -, -, -, next⟩ := store_accepted accepted
    rw [next, accepted]
    simp only [enters, Bool.false_eq_true, if_false]
    change (tp.record rd getBlockFunc).precommitData = _
    by_cases precommit : rd.phase = PH1_PRECOMMIT
    · obtain ⟨tp₁, moved, -, -, -, -, data⟩ := tp.record_precommit precommit getBlockFunc
      rw [moved, (lockPrefix_frame tp₁ getBlockFunc).2.2.2.2, data, if_pos (beq_iff_eq.2 precommit)]
    · have other : (rd.phase == PH1_PRECOMMIT) = false := by simpa using precommit
      obtain ⟨-, -, -, -, data⟩ := storePrepared_frame tp rd.proph rd.propv rd.seqNumber
      simp only [record, other, Bool.false_eq_true, if_false]
      exact data
  · rw [none']
    -- Only a view that is entered clears the record.
    cases moved with
    | stays same memory => rw [same, memory.precommitData]; rfl
    | enters on v memory => rw [on, memory.precommitData]; rfl
    | resets on v memory => rw [on, memory.precommitData]; rfl

/-- One more call adds its certificate, or begins anew. -/
theorem sinceEntering_concat (tp : TrustedPara) (calls : List PublicCall) (call : PublicCall) :
    tp.sinceEntering (calls ++ [call])
      = gather (tp.sinceEntering calls) (component.after tp calls, call) := by
  rw [sinceEntering, Component.steps_concat, List.foldl_append]
  rfl

/-- A slot is recorded exactly if a certificate for it was accepted since the view was entered. -/
theorem recorded_iff (id : PID) (priv : KEY) (q : Nat) (calls : List PublicCall) (i : Nat) :
    ((component.after (init id priv q) calls).precommitData.lookup i).isSome = true
      ↔ Certified ((init id priv q).sinceEntering calls) i := by
  -- Induction on the calls made, from the last one.
  induction calls using List.reverseRecOn with
  | nil => simp [Component.after, init, sinceEntering, Component.steps, Certified]
  | append_singleton calls call ih =>
    rw [sinceEntering_concat, Component.after_concat, precommitData_next, gather]
    dsimp only
    split
    · simp [Certified]
    cases accepted : certificate (component.after (init id priv q) calls) call with
    | none => exact ih
    | some rd =>
      dsimp only
      split
      · by_cases same : i = rd.seqNumber
        · subst same
          simp [Certified]
        · rw [AList.lookup_insert_ne same, ih]
          have other : rd.seqNumber ≠ i := fun same' => same same'.symm
          simp [Certified, or_and_right, exists_or, other]
      · exact ih

/-- A shorter prefix of one that is held is held as well. -/
theorem HeldPrefix.mono {since accepted : List RDataPara} {v : View} {k m : Nat}
    (prefix' : HeldPrefix getBlockFunc since accepted v k) (shorter : m ≤ k) :
    HeldPrefix getBlockFunc since accepted v m where
  certified := fun i after within => prefix'.certified i after (Nat.le_trans within shorter)
  held := fun i after within => prefix'.held i after (Nat.le_trans within shorter)
  follows := fun i after within => prefix'.follows i after (Nat.lt_of_lt_of_le within shorter)
  hash := fun i after within => prefix'.hash i after (Nat.le_trans within shorter)

omit [Hashing] in
/-- Blocks with the same digest as a hash are extended as blocks with that hash are. -/
theorem extends_congr {block : PBlock} {h h' : Hash} (same : h.hash = h'.hash) :
    block.extends' h = block.extends' h' := by
  rw [Bool.eq_iff_iff, PBlock.extends', PBlock.extends', Hash.beq_iff, Hash.beq_iff, same]

end Since

section Keeping

variable {id : PID} {priv : KEY} {q : Nat} {calls : List PublicCall} {nodes : Nodes} {just : Just}
variable {getBlockFunc : Nat → PBlock} {rd : RDataPara}

/--
After an accepted pre-commit certificate the lock keeps up with the prefix that is held,
exactly if the slot number it had before does not hold it back.
-/
theorem keepsUp_iff
    (accepted : certificate (component.after (init id priv q) calls)
      (.store nodes just getBlockFunc) = some rd)
    (precommit : rd.phase = PH1_PRECOMMIT)
    (counted : Counted (Certified
      ((init id priv q).sinceEntering (calls ++ [.store nodes just getBlockFunc])))) :
    (init id priv q).KeepsUp (calls ++ [.store nodes just getBlockFunc]) getBlockFunc
      ↔ (init id priv q).NotHeldBack (component.after (init id priv q) calls)
        (calls ++ [.store nodes just getBlockFunc]) getBlockFunc := by
  have backed := (after_backed id priv q calls).2
  have backed' := (after_backed id priv q (calls ++ [.store nodes just getBlockFunc])).2
  have recorded := recorded_iff id priv q (calls ++ [.store nodes just getBlockFunc])
  have all : (init id priv q).certificates (calls ++ [.store nodes just getBlockFunc])
      = (init id priv q).certificates calls ++ [rd] := by
    rw [certificates, Component.observed_concat, accepted]
    rfl
  unfold KeepsUp NotHeldBack
  rw [all] at backed' ⊢
  generalize (init id priv q).sinceEntering (calls ++ [.store nodes just getBlockFunc]) = since
    at counted recorded ⊢
  rw [Component.after_concat] at backed' recorded ⊢
  generalize component.after (init id priv q) calls = tp at accepted backed backed' recorded ⊢
  generalize (init id priv q).certificates calls = certs at backed backed' ⊢
  -- The certificate is recorded, and then the search may move the lock.
  obtain ⟨-, -, -, -, -, next⟩ := store_accepted accepted
  obtain ⟨tp₁, moved, lockHash, lockView, lockSeq, view, -⟩ :=
    tp.record_precommit precommit getBlockFunc
  have frame := lockPrefix_frame tp₁ getBlockFunc
  rw [next, moved] at backed' recorded ⊢
  have backed' := @Backed.of_memory _ _ (tp₁.lockPrefix getBlockFunc) backed'
    ⟨rfl, rfl, rfl, rfl, rfl, rfl, rfl, rfl⟩
  have there : (fun i => (tp₁.precommitData.lookup i).isSome = true) = Certified since := by
    funext i
    refine propext (Iff.trans ?_ (recorded i))
    rw [← frame.2.2.2.2]
    rfl
  have sameView : (tp₁.lockPrefix getBlockFunc).view = tp.view := frame.2.2.2.1.trans view
  change (∀ k, 0 < k → HeldPrefix getBlockFunc since (certs ++ [rd])
      (tp₁.lockPrefix getBlockFunc).view k →
    (tp₁.lockPrefix getBlockFunc).prefixLockedView = (tp₁.lockPrefix getBlockFunc).view
      ∧ k ≤ (tp₁.lockPrefix getBlockFunc).prefixLockedSeqNumber) ↔ _
  rw [sameView]
  obtain ⟨bound, bounded⟩ : ∃ bound, ∀ i, Certified since i → i < bound := by
    obtain ⟨bound, bounded⟩ := exists_bound (since.map (·.seqNumber))
    exact ⟨bound, fun i ⟨rd, member, same⟩ =>
      bounded i (List.mem_map.2 ⟨rd, member, same⟩)⟩
  obtain ⟨r, furthest⟩ :=
    Furthest.exists_of_bound bounded (tp₁.MayStep getBlockFunc) tp₁.lockedSlot
  -- If all slots up to the locked one are certified, the search does not pass the last number.
  have ends : (∀ i, 0 < i → i ≤ tp₁.lockedSlot → Certified since i) → r + 1 = wordSize →
      ¬ Certified since 0 := by
    intro below last zero
    obtain ⟨i, word, missing⟩ := counted.ends
    rcases Nat.eq_zero_or_pos i with rfl | positive
    · exact missing zero
    · by_cases low : i ≤ tp₁.lockedSlot
      · exact missing (below i positive low)
      · exact missing (furthest.filled i (by omega) (by omega))
  have result : (∀ i, 0 < i → i ≤ tp₁.lockedSlot → Certified since i) →
      (r ≤ tp.prefixLockedSeqNumber ∧ tp₁.lockPrefix getBlockFunc = tp₁)
        ∨ (tp.prefixLockedSeqNumber < r
          ∧ (tp₁.lockPrefix getBlockFunc).prefixLockedSeqNumber = r) := by
    intro below
    have found := @lockPrefix_eq _ tp₁ getBlockFunc r
      (fun i here => counted.word i (there ▸ here)) (by rw [there]; exact furthest)
      (fun _ last => Bool.eq_false_iff.2 fun zero => ends below last (there ▸ zero))
    rw [lockSeq] at found
    rcases found with stays | ⟨beyond, d, -, moves⟩
    · exact .inl stays
    · exact .inr ⟨beyond, by rw [moves]⟩
  -- Wherever the lock moves to, it is of this view.
  have lands : tp₁.lockPrefix getBlockFunc = tp₁
      ∨ ((tp₁.lockPrefix getBlockFunc).prefixLockedView = tp.view
        ∧ tp.prefixLockedSeqNumber < (tp₁.lockPrefix getBlockFunc).prefixLockedSeqNumber) := by
    rcases tp₁.lockPrefix_cases getBlockFunc with stays | ⟨seq, d, held, beyond, moves⟩
    · exact .inl stays
    · have ofView := (@Backed.data _ _ backed' seq d (by rw [frame.2.2.2.2]; exact held)).1
      rw [moves] at ofView ⊢
      exact .inr ⟨ofView.trans view, lockSeq ▸ beyond⟩
  by_cases here : tp.prefixLockedView = tp.view
  · refine iff_of_true (fun k positive prefix' => ?_) (.inl here)
    have slot : tp₁.lockedSlot = tp.prefixLockedSeqNumber := by
      unfold lockedSlot
      rw [lockView, view, lockSeq, if_pos here]
    by_cases within : k ≤ tp.prefixLockedSeqNumber
    · -- The lock has passed these slots before.
      rcases lands with stays | ⟨view', beyond⟩
      · rw [stays, lockView, lockSeq]
        exact ⟨here, within⟩
      · exact ⟨view', by omega⟩
    · -- The locked hash is certified, so it is that of the block held for the locked slot.
      have reaches : Reaches (Certified since) (tp₁.MayStep getBlockFunc) tp₁.lockedSlot k := by
        rw [slot]
        refine ⟨by omega, fun i after below => prefix'.certified i (by omega) below,
          fun i after below => ?_⟩
        unfold MayStep
        rw [slot]
        split
        · rename_i first
          rcases Nat.eq_zero_or_pos i with zero | positive'
          · exact .inl zero
          · refine .inr fun _ => ?_
            have locked := (backed.last (first ▸ positive')).mono [rd]
            rw [here, ← first] at locked
            have digest := prefix'.hash i positive' (by omega) _ locked
            rw [lockHash, ← extends_congr digest]
            exact prefix'.follows i positive' below
        · exact fun _ _ => prefix'.follows i (by omega) below
      have far := furthest.le_of_reaches reaches
      rcases result fun i after below => prefix'.certified i after (by omega) with
        ⟨low, -⟩ | ⟨beyond, seq'⟩
      · omega
      · rcases lands with stays | ⟨view', -⟩
        · rw [stays, lockSeq] at seq'
          omega
        · exact ⟨view', by omega⟩
  · -- The lock is of another view, so the search begins at the first slot.
    have slot : tp₁.lockedSlot = 0 := by
      unfold lockedSlot
      rw [lockView, view, if_neg here]
    have steps : ∀ i, tp₁.MayStep getBlockFunc i ↔ (i = 0 ∨ FollowsBlock getBlockFunc i) := by
      intro i
      unfold MayStep
      rw [slot]
      by_cases zero : i = 0
      · simp [zero]
      · simp [zero]
    have result := result fun i after below => by omega
    rw [slot] at furthest
    constructor
    · intro keeps
      by_cases first : HeldPrefix getBlockFunc since (certs ++ [rd]) tp.view 1
      · have ofView := (keeps 1 Nat.one_pos first).1
        rcases result with ⟨-, stays⟩ | ⟨beyond, -⟩
        · rw [stays, lockView] at ofView
          exact absurd ofView here
        · exact .inr (.inr ((furthest.toReaches.upTo (Nat.zero_le _) beyond).of_steps
            fun i _ _ => (steps i).1))
      · exact .inr (.inl first)
    · rintro (ofView | none' | far) k positive prefix'
      · exact absurd ofView here
      · exact absurd (prefix'.mono positive) none'
      · have beyond := furthest.le_of_reaches (far.of_steps fun i _ _ => (steps i).2)
        have reaches : Reaches (Certified since) (tp₁.MayStep getBlockFunc) 0 k :=
          ⟨Nat.zero_le k, fun i after below => prefix'.certified i after below,
            fun i _ below => (steps i).2 (by
              rcases Nat.eq_zero_or_pos i with zero | positive'
              · exact .inl zero
              · exact .inr fun _ _ => prefix'.follows i positive' below)⟩
        have up := furthest.le_of_reaches reaches
        rcases result with ⟨low, -⟩ | ⟨-, seq'⟩
        · omega
        · rcases lands with stays | ⟨view', -⟩
          · rw [stays, lockSeq] at seq'
            omega
          · exact ⟨view', by omega⟩

end Keeping

end TrustedPara

end ParaHotstuff
