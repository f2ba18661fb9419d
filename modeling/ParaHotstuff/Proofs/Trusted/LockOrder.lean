import ParaHotstuff.Data.Checksum
import ParaHotstuff.Handler.Schedule
import ParaHotstuff.Proofs.Trusted.PrefixSearch

/-! When the prefix lock depends on the order in which pre-commit certificates arrive. -/

namespace ParaHotstuff

namespace TrustedPara

variable [Hashing]

/-- The slot a certificate is for. -/
def slotOf (just : Just) : Nat := (just.getRDataPara.getD .default).seqNumber

/-- The hash certified for a slot. -/
def certifiedHash (justs : List Just) (i : Nat) : Hash :=
  match justs.find? fun just => slotOf just == i with
  | some just => (just.getRDataPara.getD .default).proph
  | none => Hash.default

/-- Pre-commit certificates for different slots, accepted in a view that was just entered. -/
structure Precommits (tp : TrustedPara) (nodes : Nodes) (getBlockFunc : Nat → PBlock)
    (justs : List Just) : Prop where
  entered : tp.precommitData = ∅
  accepted : ∀ just ∈ justs, ∃ rd, tp.certificate (.store nodes just getBlockFunc) = some rd
    ∧ rd.phase = PH1_PRECOMMIT
  distinct : (justs.map slotOf).Nodup
  counted : Counted (· ∈ justs.map slotOf)

/-- The hash, the view and the slot number of the lock. -/
def lock (tp : TrustedPara) : Hash × View × Nat :=
  (tp.prefixLockedHash, tp.prefixLockedView, tp.prefixLockedSeqNumber)

/-- The lock after certificates were stored one after the other. -/
def lockAfter (tp : TrustedPara) (nodes : Nodes) (getBlockFunc : Nat → PBlock)
    (order : List Just) : Hash × View × Nat :=
  (component.after tp (order.map fun just => .store nodes just getBlockFunc)).lock

/--
Wherever a scan of all certified slots gets beyond the lock, the next certified slot is judged
by the certified hash of the slot before it as it is judged by the block held there.

After the last 32-bit number, where a scan would go on with slot 0, that slot is not certified.
-/
def JudgedAlike (tp : TrustedPara) (getBlockFunc : Nat → PBlock) (justs : List Just) : Prop :=
  ∀ i, tp.prefixLockedSeqNumber < i →
    Reaches (· ∈ justs.map slotOf) (tp.MayStep getBlockFunc) tp.lockedSlot i →
    (i + 1 ∈ justs.map slotOf →
        (Follows getBlockFunc (certifiedHash justs i) i ↔ FollowsBlock getBlockFunc i))
      ∧ (i + 1 = wordSize → 0 ∉ justs.map slotOf)

section Storing

variable {tp tp' : TrustedPara} {nodes : Nodes} {getBlockFunc : Nat → PBlock} {just : Just}
variable {hashOf : Nat → Hash} {slots : List Nat} {x : Option Nat} {rd : RDataPara}

/-- The lock once the scans of the slots that arrived have got somewhere, or nowhere yet. -/
def lockAt (tp : TrustedPara) (hashOf : Nat → Hash) : Option Nat → Hash × View × Nat
  | none => tp.lock
  | some q => (hashOf q, tp.view, q)

/-- What a component remembers after some slots of its view arrived. -/
structure Stored (tp : TrustedPara) (hashOf : Nat → Hash) (slots : List Nat) (x : Option Nat)
    (tp' : TrustedPara) : Prop where
  view : tp'.view = tp.view
  qsize : tp'.qsize = tp.qsize
  recorded : ∀ i, tp'.precommitData.lookup i
    = if i ∈ slots then some ⟨hashOf i, tp.view⟩ else none
  locked : tp'.lock = tp.lockAt hashOf x
  beyond : ∀ q, x = some q → tp.prefixLockedSeqNumber < q

/-- Storing a certificate is one scan of the slots that arrived. -/
theorem Stored.store (stored : Stored tp hashOf slots x tp') (nodes : Nodes) (just : Just)
    (accepted : tp'.certificate (.store nodes just getBlockFunc) = some rd)
    (precommit : rd.phase = PH1_PRECOMMIT) (hash : hashOf rd.seqNumber = rd.proph)
    (counted : Counted (· ∈ rd.seqNumber :: slots)) :
    ∃ y, Scan tp.lockedSlot tp.prefixLockedSeqNumber (wordSize - 1) (tp.MayStep getBlockFunc)
        (fun i => Follows getBlockFunc (hashOf i) i) (· ∈ rd.seqNumber :: slots) x y
      ∧ Stored tp hashOf (rd.seqNumber :: slots) y
        (component.next tp' (.store nodes just getBlockFunc)) := by
  obtain ⟨here, -, -, -, -, next⟩ := store_accepted accepted
  obtain ⟨tp₁, moved, lockHash, lockView, lockSeq, view, data⟩ :=
    tp'.record_precommit precommit getBlockFunc
  -- Before the lock may move, the certificate is recorded.
  have recorded : ∀ i, tp₁.precommitData.lookup i
      = if i ∈ rd.seqNumber :: slots then some ⟨hashOf i, tp.view⟩ else none := by
    intro i
    rw [data]
    by_cases same : i = rd.seqNumber
    · subst same
      simp [hash, here, stored.view]
    · rw [AList.lookup_insert_ne same, stored.recorded i]
      simp [same]
  have isThere : ∀ i, (tp₁.precommitData.lookup i).isSome = true ↔ i ∈ rd.seqNumber :: slots := by
    intro i
    rw [recorded i]
    by_cases member : i ∈ rd.seqNumber :: slots <;> simp [member]
  have there : (fun i => (tp₁.precommitData.lookup i).isSome = true)
      = (· ∈ rd.seqNumber :: slots) := funext fun i => propext (isThere i)
  obtain ⟨bound, bounded⟩ := exists_bound (rd.seqNumber :: slots)
  obtain ⟨q, furthest⟩ :=
    Furthest.exists_of_bound bounded (tp₁.MayStep getBlockFunc) tp₁.lockedSlot
  -- Signing moves the phase of the block only.
  have keeps : ∀ {tp₂ : TrustedPara} {y : Option Nat},
      tp₁.lockPrefix getBlockFunc = tp₂ → tp₂.precommitData = tp₁.precommitData →
      tp₂.lock = tp.lockAt hashOf y → (∀ q, y = some q → tp.prefixLockedSeqNumber < q) →
      Stored tp hashOf (rd.seqNumber :: slots) y
        (component.next tp' (.store nodes just getBlockFunc)) := by
    intro tp₂ y same data' locked beyond
    have frame := tp'.record_frame rd getBlockFunc
    rw [next, moved, same]
    rw [moved, same] at frame
    exact
      { view := frame.1.trans stored.view
        qsize := frame.2.2.2.2.2.trans stored.qsize
        recorded := fun i => (congrArg (AList.lookup i) data').trans (recorded i)
        locked := locked
        beyond := beyond }
  have word : ∀ i, (tp₁.precommitData.lookup i).isSome = true → i < wordSize := fun i here =>
    counted.word i ((isThere i).1 here)
  -- If the search reaches the last number, and slot 0 is recorded too, the lock stays.
  have turned : q + 1 = wordSize → 0 ∈ rd.seqNumber :: slots →
      tp₁.lockPrefix getBlockFunc = tp₁ := by
    intro last zero
    obtain ⟨missing, fits, absent⟩ := counted.ends
    have positive : 0 < missing := Nat.pos_of_ne_zero fun same => absent (same ▸ zero)
    have within : missing ≤ tp₁.lockedSlot := by
      by_contra after
      exact absent (furthest.filled missing (by omega) (by omega))
    obtain rfl : q = wordSize - 1 := by omega
    exact lockPrefix_turns word (by rw [there]; exact furthest.toReaches) ((isThere 0).2 zero)
      positive within (Bool.eq_false_iff.2 fun here => absent ((isThere missing).1 here))
  -- Otherwise it moves to where the search ends.
  have result := fun ends : ¬ (q + 1 = wordSize ∧ 0 ∈ rd.seqNumber :: slots) =>
    @lockPrefix_eq _ tp₁ getBlockFunc q word (by rw [there]; exact furthest) fun _ last =>
      Bool.eq_false_iff.2 fun zero => ends ⟨last, (isThere 0).1 zero⟩
  have sameLock : tp₁.lock = tp.lockAt hashOf x := by
    rw [← stored.locked, lock, lock, lockHash, lockView, lockSeq]
  have sameView : tp₁.view = tp.view := view.trans stored.view
  cases x with
  | none =>
    -- The lock is still the first one, so the scan begins anew.
    obtain ⟨hash', view', seq'⟩ : tp₁.prefixLockedHash = tp.prefixLockedHash
        ∧ tp₁.prefixLockedView = tp.prefixLockedView
        ∧ tp₁.prefixLockedSeqNumber = tp.prefixLockedSeqNumber := by
      simpa [lock, lockAt] using sameLock
    have slot : tp₁.lockedSlot = tp.lockedSlot := by
      unfold lockedSlot
      rw [view', seq', sameView]
    have steps : tp₁.MayStep getBlockFunc = tp.MayStep getBlockFunc := by
      funext i
      unfold MayStep
      rw [slot, hash']
    rw [slot, steps] at furthest
    rw [seq'] at result
    have waits : tp₁.lockPrefix getBlockFunc = tp₁ → Stored tp hashOf (rd.seqNumber :: slots) none
        (component.next tp' (.store nodes just getBlockFunc)) := fun stays =>
      keeps stays rfl sameLock fun q none => by cases none
    by_cases back : q + 1 = wordSize ∧ 0 ∈ rd.seqNumber :: slots
    · have stored' := waits (turned back.1 back.2)
      obtain rfl : q = wordSize - 1 := by omega
      by_cases beyond : tp.prefixLockedSeqNumber < wordSize - 1
      · exact ⟨none, .turned furthest beyond back.2, stored'⟩
      · exact ⟨none, .short furthest (Nat.not_lt.1 beyond), stored'⟩
    · rcases result back with ⟨within, stays⟩ | ⟨beyond, d, held, moves⟩
      · exact ⟨none, .short furthest within, waits stays⟩
      · rw [recorded q] at held
        split at held
        · obtain rfl := Option.some.inj held
          exact ⟨some q, .anew furthest beyond fun last zero => back ⟨by omega, zero⟩,
            keeps moves rfl rfl fun q' same => Option.some.inj same ▸ beyond⟩
        · cases held
  | some p =>
    -- The lock is of this view, so the scan resumes at its slot, with the certified hash there.
    have after := stored.beyond p rfl
    obtain ⟨hash', view', seq'⟩ : tp₁.prefixLockedHash = hashOf p
        ∧ tp₁.prefixLockedView = tp.view ∧ tp₁.prefixLockedSeqNumber = p := by
      simpa [lock, lockAt] using sameLock
    have slot : tp₁.lockedSlot = p := by
      unfold lockedSlot
      rw [view', seq', sameView, if_pos rfl]
    have low := tp.lockedSlot_le
    have resumed : Furthest (· ∈ rd.seqNumber :: slots)
        (resume (fun i => Follows getBlockFunc (hashOf i) i) (tp.MayStep getBlockFunc) p) p q := by
      refine (slot ▸ furthest).of_steps fun i within => ?_
      by_cases same : i = p
      · have positive : p ≠ 0 := by omega
        subst same
        simp [MayStep, slot, hash', positive]
      · have notFirst : i ≠ tp.lockedSlot := by omega
        simp [MayStep, slot, same, notFirst]
    rw [seq'] at result
    by_cases back : q + 1 = wordSize ∧ 0 ∈ rd.seqNumber :: slots
    · have stays := turned back.1 back.2
      obtain rfl : q = wordSize - 1 := by omega
      exact ⟨some p, .returned resumed back.2, keeps stays rfl sameLock stored.beyond⟩
    · refine ⟨some q, .resumed resumed fun last zero => back ⟨by rw [last]; rfl, zero⟩, ?_⟩
      have beyond' : ∀ q', some q = some q' → tp.prefixLockedSeqNumber < q' := fun q' same =>
        Option.some.inj same ▸ Nat.lt_of_lt_of_le after resumed.le
      rcases result back with ⟨within, stays⟩ | ⟨beyond, d, held, moves⟩
      · obtain rfl : p = q := Nat.le_antisymm resumed.le within
        exact keeps stays rfl sameLock beyond'
      · rw [recorded q] at held
        split at held
        · obtain rfl := Option.some.inj held
          exact keeps moves rfl rfl beyond'
        · cases held

omit [Hashing] in
/-- Certificates for different slots are found by their slots. -/
theorem certifiedHash_of_mem {justs : List Just} (distinct : (justs.map slotOf).Nodup)
    (member : just ∈ justs) :
    certifiedHash justs (slotOf just) = (just.getRDataPara.getD .default).proph := by
  -- The first certificate for the slot is the only one.
  induction justs with
  | nil => cases member
  | cons first justs ih =>
    rw [List.map_cons, List.nodup_cons] at distinct
    rcases List.mem_cons.1 member with rfl | rest
    · simp [certifiedHash]
    · have other : slotOf first ≠ slotOf just := fun same =>
        distinct.1 (List.mem_map.2 ⟨just, rest, same.symm⟩)
      have found := ih distinct.2 rest
      simpa [certifiedHash, List.find?_cons, other] using found

/-- Storing certificates in an order is a scan after each of their slots. -/
theorem Precommits.arrives {justs : List Just} (pre : Precommits tp nodes getBlockFunc justs)
    (order : List Just) (within : ∀ just ∈ order, just ∈ justs) :
    ∃ x, Arrives tp.lockedSlot tp.prefixLockedSeqNumber (wordSize - 1) (tp.MayStep getBlockFunc)
        (fun i => Follows getBlockFunc (certifiedHash justs i) i) (order.reverse.map slotOf) x
      ∧ Stored tp (certifiedHash justs) (order.reverse.map slotOf) x
        (component.after tp (order.map fun just => .store nodes just getBlockFunc)) := by
  -- Induction on the certificates stored, from the last one.
  induction order using List.reverseRecOn with
  | nil =>
    refine ⟨none, .nil, rfl, rfl, fun i => ?_, rfl, fun q same => by cases same⟩
    simp [Component.after, pre.entered]
  | append_singleton order just ih =>
    obtain ⟨x, arrives, stored⟩ := ih fun just' member => within just' (List.mem_append_left _ member)
    have here : just ∈ justs := within just (List.mem_append_right _ (List.mem_singleton_self just))
    obtain ⟨rd, accepted, precommit⟩ := pre.accepted just here
    -- The component is still in the same view, so it accepts what it would have accepted first.
    obtain ⟨tagged, full, verified, view, phase⟩ := certificate_store_iff.1 accepted
    have slot : slotOf just = rd.seqNumber := by simp [slotOf, tagged]
    have hash : certifiedHash justs rd.seqNumber = rd.proph := by
      have found := certifiedHash_of_mem pre.distinct here
      simpa [slot, tagged] using found
    have listed : ∀ i, i ∈ rd.seqNumber :: order.reverse.map slotOf → i ∈ justs.map slotOf := by
      intro i member
      rcases List.mem_cons.1 member with rfl | earlier
      · exact List.mem_map.2 ⟨just, here, slot⟩
      · obtain ⟨just', member', rfl⟩ := List.mem_map.1 earlier
        exact List.mem_map.2 ⟨just', within just'
          (List.mem_append_left _ (List.mem_reverse.1 member')), rfl⟩
    obtain ⟨y, scan, stored'⟩ := stored.store nodes just
      (certificate_store_iff.2 ⟨tagged, full.trans stored.qsize.symm, verified,
        stored.view.trans view, phase⟩) precommit hash
      ⟨fun i member => pre.counted.word i (listed i member),
        pre.counted.ends.imp fun i missing => missing.imp_right fun absent member =>
          absent (listed i member)⟩
    refine ⟨y, ?_, ?_⟩
    · rw [List.reverse_append, List.reverse_singleton, List.singleton_append, List.map_cons, slot]
      exact .cons arrives scan
    · rw [List.reverse_append, List.reverse_singleton, List.singleton_append, List.map_cons, slot,
        List.map_append, List.map_singleton, Component.after_concat]
      exact stored'

end Storing

section Orders

variable {tp : TrustedPara} {nodes : Nodes} {getBlockFunc : Nat → PBlock} {justs : List Just}

omit [Hashing] in
/-- Locks of slots beyond the first lock are told apart by their slot numbers. -/
theorem lockAt_injective (hashOf : Nat → Hash) {x y : Option Nat}
    (beyond : ∀ q, x = some q → tp.prefixLockedSeqNumber < q)
    (beyond' : ∀ q, y = some q → tp.prefixLockedSeqNumber < q)
    (same : tp.lockAt hashOf x = tp.lockAt hashOf y) : x = y := by
  have numbers := congrArg (fun lock => lock.2.2) same
  cases x with
  | none =>
    cases y with
    | none => rfl
    | some q =>
      have seq : tp.prefixLockedSeqNumber = q := numbers
      have := beyond' q rfl
      omega
  | some p =>
    cases y with
    | none =>
      have seq : p = tp.prefixLockedSeqNumber := numbers
      have := beyond p rfl
      omega
    | some q => exact congrArg some numbers

/--
The lock is the same for every order of the certificates exactly if the slots that may be
locked are judged alike by certified hashes and by blocks.
-/
theorem lock_order_free_iff (pre : Precommits tp nodes getBlockFunc justs) :
    (∀ order order' : List Just, order.Perm justs → order'.Perm justs →
        tp.lockAfter nodes getBlockFunc order = tp.lockAfter nodes getBlockFunc order')
      ↔ tp.JudgedAlike getBlockFunc justs := by
  -- Beyond the locked slot no step is the first one of a scan.
  have steps : ∀ i, tp.prefixLockedSeqNumber < i →
      (tp.MayStep getBlockFunc i ↔ FollowsBlock getBlockFunc i) := by
    intro i beyond
    have low := tp.lockedSlot_le
    have other : i ≠ tp.lockedSlot := by omega
    simp [MayStep, other]
  have free := @order_free_iff tp.lockedSlot tp.prefixLockedSeqNumber (wordSize - 1)
    (tp.MayStep getBlockFunc) (fun i => Follows getBlockFunc (certifiedHash justs i) i) _
    tp.lockedSlot_le pre.distinct fun i member => Nat.le_pred_of_lt (pre.counted.word i member)
  constructor
  · intro same i beyond reaches
    have alike := free.1 (fun slots slots' perm perm' x y arrives arrives' => ?_) i beyond reaches
    · exact ⟨fun here => (alike.1 here).trans (steps i beyond),
        fun last => alike.2 (by omega)⟩
    -- An order of the slots is one of the certificates.
    have listed : ∀ {slots : List Nat}, slots.Perm (justs.map slotOf) →
        ∃ order : List Just, order.Perm justs ∧ order.reverse.map slotOf = slots := by
      intro slots perm
      have pairs : List.Forall₂ (fun i just => i = slotOf just) (justs.map slotOf) justs :=
        List.forall₂_map_left_iff.2 (List.forall₂_same.2 fun just _ => rfl)
      obtain ⟨order, matched, perm'⟩ := List.perm_comp_forall₂ perm pairs
      refine ⟨order.reverse, order.reverse_perm.trans perm', ?_⟩
      rw [List.reverse_reverse]
      exact (List.forall₂_eq_eq_eq ▸ List.forall₂_map_right_iff.2 matched : slots = order.map slotOf).symm
    obtain ⟨order, orders, rfl⟩ := listed perm
    obtain ⟨order', orders', rfl⟩ := listed perm'
    obtain ⟨x', found, stored⟩ := pre.arrives order fun just member => orders.mem_iff.1 member
    obtain ⟨y', found', stored'⟩ := pre.arrives order' fun just member => orders'.mem_iff.1 member
    obtain rfl := arrives.unique found
    obtain rfl := arrives'.unique found'
    refine lockAt_injective (certifiedHash justs) stored.beyond stored'.beyond ?_
    exact stored.locked.symm.trans ((same order order' orders orders').trans stored'.locked)
  · intro alike order order' orders orders'
    obtain ⟨x, found, stored⟩ := pre.arrives order fun just member => orders.mem_iff.1 member
    obtain ⟨y, found', stored'⟩ := pre.arrives order' fun just member => orders'.mem_iff.1 member
    have same := free.2 (fun i beyond reaches =>
        ⟨fun here => ((alike i beyond reaches).1 here).trans (steps i beyond).symm,
          fun last => (alike i beyond reaches).2 (by rw [last]; rfl)⟩)
      _ _ (((order.reverse_perm).trans orders).map slotOf)
      (((order'.reverse_perm).trans orders').map slotOf) x y found found'
    exact stored.locked.trans ((congrArg (tp.lockAt _) same).trans stored'.locked.symm)

end Orders

section Example

/-- A pre-commit certificate of view 1, signed by three nodes. -/
def viewOneCertificate (seq : Nat) (h : Hash) : Just :=
  let rd : RDataPara := ⟨h, 1, Hash.default, 0, PH1_PRECOMMIT, seq⟩
  Just.ofRDataPara rd ([1, 2, 3].map fun p => Sign.ofText p p rd.toString)

/-- The component of node 0 that has just entered view 1. -/
def enteredOne : TrustedPara := (init 0 0 Schedule.fourNodes.qsize).changeView 1

/-- The first block of a view on genesis. -/
def firstBlock : PBlock := PBlock.ofTransactions Hash.default 0 1 []

/-- A second block of a view, on the block with a given hash. -/
def secondBlock (h : Hash) : PBlock := PBlock.ofTransactions h 0 2 []

/-- The blocks held for two slots. -/
def twoSlots (first second : PBlock) (i : Nat) : PBlock :=
  if i = 1 then first else if i = 2 then second else PBlock.default

/-- Certificates for the first two slots of view 1. -/
def twoCertificates (second : PBlock) : List Just :=
  [viewOneCertificate 1 firstBlock.hash, viewOneCertificate 2 second.hash]

omit [Hashing] in
/-- A component accepts these certificates whatever blocks it holds. -/
theorem precommits_two (hashing : Hashing) (getBlockFunc : Nat → PBlock) (second : PBlock) :
    Precommits enteredOne Schedule.fourNodes.nodes getBlockFunc (twoCertificates second) where
  entered := rfl
  accepted := by
    -- Each of the three signatures is on the text of its certificate.
    have verified : ∀ (seq : Nat) (h : Hash), enteredOne.certificate
        (.store Schedule.fourNodes.nodes (viewOneCertificate seq h) getBlockFunc)
          = some ⟨h, 1, Hash.default, 0, PH1_PRECOMMIT, seq⟩ := by
      intro seq h
      refine certificate_store_iff.2 ⟨rfl, rfl, ?_, rfl, .inr rfl⟩
      rw [Signs.verify_iff]
      intro s member
      obtain ⟨p, listed, rfl⟩ := List.mem_map.1 member
      refine ⟨⟨p, p⟩, Nodes.find_upTo_of_lt ?_, rfl⟩
      change p < 4
      simp only [List.mem_cons, List.not_mem_nil, or_false] at listed
      rcases listed with rfl | rfl | rfl <;> decide
    intro just member
    rcases List.mem_cons.1 member with rfl | rest
    · exact ⟨_, verified 1 _, rfl⟩
    · obtain rfl := List.mem_singleton.1 rest
      exact ⟨_, verified 2 _, rfl⟩
  distinct := by simp [twoCertificates, slotOf, viewOneCertificate]
  counted := ⟨fun i member => by
    have low : i ≤ 2 := by
      simp only [twoCertificates, slotOf, viewOneCertificate, List.map_cons, List.map_nil,
        Just.getRDataPara_ofRDataPara, Option.getD_some, List.mem_cons, List.not_mem_nil,
        or_false] at member
      omega
    exact Nat.lt_of_le_of_lt low (by decide), 0, by decide, by
    simp [twoCertificates, slotOf, viewOneCertificate]⟩

omit [Hashing] in
/-- With the certified blocks held, each on the one before, the order does not matter. -/
theorem lock_order_free_held :
    let _ := Checksum.hashing
    let second := secondBlock firstBlock.hash
    ∀ order order' : List Just, order.Perm (twoCertificates second) →
      order'.Perm (twoCertificates second) →
      enteredOne.lockAfter Schedule.fourNodes.nodes (twoSlots firstBlock second) order
        = enteredOne.lockAfter Schedule.fourNodes.nodes (twoSlots firstBlock second) order' := by
  intro hashing second
  refine (lock_order_free_iff (precommits_two hashing _ second)).2 fun i beyond _ =>
    ⟨fun here => ?_, fun _ => by simp [twoCertificates, slotOf, viewOneCertificate]⟩
  have first : i = 1 := by
    have positive : 0 < i := beyond
    simp only [twoCertificates, slotOf, viewOneCertificate, List.map_cons, List.map_nil,
      Just.getRDataPara_ofRDataPara, Option.getD_some, List.mem_cons, List.not_mem_nil,
      or_false] at here
    omega
  subst first
  -- The hash certified for the first slot is that of the block held there.
  exact ⟨fun follows _ => follows, fun follows => follows rfl⟩

omit [Hashing] in
/--
A missing first block, and a second one that does not extend the certified hash of the first.

In order the lock stays at the first slot; the other way round it moves past both.
-/
theorem lock_order_matters :
    let _ := Checksum.hashing
    let second := secondBlock Hash.default
    let nodes := Schedule.fourNodes.nodes
    let getBlockFunc := twoSlots PBlock.default second
    Precommits enteredOne nodes getBlockFunc (twoCertificates second)
      ∧ ¬ ∀ order order' : List Just, order.Perm (twoCertificates second) →
        order'.Perm (twoCertificates second) →
        enteredOne.lockAfter nodes getBlockFunc order
          = enteredOne.lockAfter nodes getBlockFunc order' := by
  intro hashing second nodes getBlockFunc
  refine ⟨precommits_two hashing _ second, fun same => ?_⟩
  have inOrder : (enteredOne.lockAfter nodes getBlockFunc (twoCertificates second)).2
      = (1, 1) := by decide +kernel
  have reversed : (enteredOne.lockAfter nodes getBlockFunc (twoCertificates second).reverse).2
      = (1, 2) := by decide +kernel
  rw [same _ _ (List.Perm.refl _) (List.reverse_perm _), reversed] at inOrder
  exact absurd inOrder (by decide)

end Example

end TrustedPara

end ParaHotstuff
