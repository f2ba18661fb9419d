import ParaHotstuff.Trusted.ParaCalls
import Mathlib.Data.List.Induction
import Mathlib.Data.Prod.Lex
import Mathlib.Order.Bounds.Basic

/-! What the component of the parallel protocol remembers is backed by the certificates it accepted. -/

namespace ParaHotstuff

namespace TrustedPara

section Certificates

/-- Where a certificate stands among all: by view, then by slot. -/
def place (rd : RDataPara) : Nat ×ₗ Nat := toLex (rd.propv, rd.seqNumber)

variable (tp : TrustedPara)

/-- Where the prepared block stands. -/
def prepared : Nat ×ₗ Nat := toLex (tp.latestPreparedView, tp.latestPreparedSeqNumber)

/-- Where the locked block stands. -/
def locked : Nat ×ₗ Nat := toLex (tp.prefixLockedView, tp.prefixLockedSeqNumber)

/-- The prepared block is the first one certified of those that stand highest, or genesis. -/
structure ReportsHighest (certs : List RDataPara) : Prop where
  greatest : IsGreatest (insert (toLex (0, 0)) {k | ∃ rd ∈ certs, place rd = k}) tp.prepared
  genesis : tp.prepared = toLex (0, 0) → tp.latestPreparedHash = Hash.ofBool true
  first : tp.prepared ≠ toLex (0, 0) →
    ∃ rd, certs.find? (fun rd => decide (place rd = tp.prepared)) = some rd
      ∧ tp.latestPreparedHash = rd.proph

/-- A pre-commit certificate for a slot of a view is among those accepted. -/
def Precommitted (certs : List RDataPara) (v : View) (seq : Nat) (h : Hash) : Prop :=
  ∃ rd ∈ certs, rd.phase = PH1_PRECOMMIT ∧ rd.propv = v ∧ rd.seqNumber = seq ∧ rd.proph = h

/-- What is remembered of pre-commit certificates is backed by those accepted. -/
structure Backed (certs : List RDataPara) : Prop where
  data : ∀ {seq d}, tp.precommitData.lookup seq = some d →
    d.view = tp.view ∧ Precommitted certs tp.view seq d.blockHash
  slots : ∀ seq, 0 < seq → seq ≤ tp.prefixLockedSeqNumber →
    ∃ h, Precommitted certs tp.prefixLockedView seq h
  last : 0 < tp.prefixLockedSeqNumber →
    Precommitted certs tp.prefixLockedView tp.prefixLockedSeqNumber tp.prefixLockedHash
  hash : (tp.prefixLockedHash = Hash.ofBool true ∧ tp.prefixLockedView = 0)
    ∨ ∃ seq, Precommitted certs tp.prefixLockedView seq tp.prefixLockedHash

end Certificates

section Records

variable {tp : TrustedPara} {certs : List RDataPara} {rd : RDataPara}

theorem Precommitted.mono {v : View} {seq : Nat} {h : Hash}
    (precommitted : Precommitted certs v seq h) (more : List RDataPara) :
    Precommitted (certs ++ more) v seq h := by
  obtain ⟨rd, member, rest⟩ := precommitted
  exact ⟨rd, List.mem_append_left _ member, rest⟩

/-- Preparing a block touches neither the lock nor what is pre-committed. -/
theorem storePrepared_frame (tp : TrustedPara) (h : Hash) (v : View) (seq : Nat) :
    (tp.storePrepared h v seq).prefixLockedHash = tp.prefixLockedHash
      ∧ (tp.storePrepared h v seq).prefixLockedView = tp.prefixLockedView
      ∧ (tp.storePrepared h v seq).prefixLockedSeqNumber = tp.prefixLockedSeqNumber
      ∧ (tp.storePrepared h v seq).view = tp.view
      ∧ (tp.storePrepared h v seq).precommitData = tp.precommitData := by
  rcases tp.storePrepared_cases h v seq with ⟨same, -⟩ | ⟨moved, -⟩
  · rw [same]; exact ⟨rfl, rfl, rfl, rfl, rfl⟩
  · rw [moved]; exact ⟨rfl, rfl, rfl, rfl, rfl⟩

variable [Hashing]

/-- Locking touches neither what is prepared nor what is pre-committed. -/
theorem lockPrefix_frame (tp : TrustedPara) (getBlockFunc : Nat → PBlock) :
    (tp.lockPrefix getBlockFunc).latestPreparedHash = tp.latestPreparedHash
      ∧ (tp.lockPrefix getBlockFunc).latestPreparedView = tp.latestPreparedView
      ∧ (tp.lockPrefix getBlockFunc).latestPreparedSeqNumber = tp.latestPreparedSeqNumber
      ∧ (tp.lockPrefix getBlockFunc).view = tp.view
      ∧ (tp.lockPrefix getBlockFunc).precommitData = tp.precommitData := by
  rcases tp.lockPrefix_cases getBlockFunc with same | ⟨seq, d, -, -, moved⟩
  · rw [same]; exact ⟨rfl, rfl, rfl, rfl, rfl⟩
  · rw [moved]; exact ⟨rfl, rfl, rfl, rfl, rfl⟩

/-- Recording a certificate prepares its block if it stands higher than the prepared one. -/
theorem record_prepared (tp : TrustedPara) (rd : RDataPara) (getBlockFunc : Nat → PBlock) :
    (place rd ≤ tp.prepared ∧ (tp.record rd getBlockFunc).prepared = tp.prepared
        ∧ (tp.record rd getBlockFunc).latestPreparedHash = tp.latestPreparedHash)
      ∨ (tp.prepared < place rd ∧ (tp.record rd getBlockFunc).prepared = place rd
        ∧ (tp.record rd getBlockFunc).latestPreparedHash = rd.proph) := by
  -- The lock, which may move afterwards, is no part of this.
  obtain ⟨hash, view, slot⟩ :
      (tp.record rd getBlockFunc).latestPreparedHash
          = (tp.storePrepared rd.proph rd.propv rd.seqNumber).latestPreparedHash
        ∧ (tp.record rd getBlockFunc).latestPreparedView
          = (tp.storePrepared rd.proph rd.propv rd.seqNumber).latestPreparedView
        ∧ (tp.record rd getBlockFunc).latestPreparedSeqNumber
          = (tp.storePrepared rd.proph rd.propv rd.seqNumber).latestPreparedSeqNumber := by
    unfold record
    dsimp only
    split
    · obtain ⟨hash, view, slot, -⟩ := lockPrefix_frame
        { tp.storePrepared rd.proph rd.propv rd.seqNumber with
          precommitData := (tp.storePrepared rd.proph rd.propv rd.seqNumber).precommitData.insert
            rd.seqNumber ⟨rd.proph, rd.propv⟩ } getBlockFunc
      exact ⟨hash, view, slot⟩
    · exact ⟨rfl, rfl, rfl⟩
  unfold prepared place
  rw [hash, view, slot, Prod.Lex.toLex_le_toLex, Prod.Lex.toLex_lt_toLex]
  rcases tp.storePrepared_cases rd.proph rd.propv rd.seqNumber with ⟨same, low⟩ | ⟨moved, high⟩
  · rw [same]
    exact .inl ⟨low, rfl, rfl⟩
  · rw [moved]
    exact .inr ⟨high.imp_right fun ⟨view, slot⟩ => ⟨view.symm, slot⟩, rfl, rfl⟩

/-- All slots the search for the end of the prefix has passed are recorded. -/
theorem continuousSeq_filled {data : AList fun _ : Nat => PrecommitData}
    {getBlockFunc : Nat → PBlock} {last : Nat} {Q : Nat → Prop}
    (recorded : ∀ seq, (data.lookup seq).isSome = true → Q seq) (rounds i highest : Nat)
    (prevHash : Hash) (exists' : Bool) (before : ∀ seq, 0 < seq → seq < i → Q seq)
    (passed : ∀ seq, 0 < seq → seq ≤ highest → Q seq) {seq : Nat} (positive : 0 < seq)
    (within : seq ≤ continuousSeq data getBlockFunc last rounds i highest prevHash exists') :
    Q seq := by
  -- Induction on the rounds; the next slot is recorded, and so are all before it.
  induction rounds generalizing i highest prevHash exists' with
  | zero => exact passed seq positive within
  | succ rounds ih =>
    unfold continuousSeq at within
    split at within
    · rename_i found
      simp only [Bool.and_eq_true, decide_eq_true_eq] at found
      have upTo : ∀ seq, 0 < seq → seq ≤ i → Q seq := by
        intro seq positive low
        rcases Nat.lt_or_eq_of_le low with less | same
        · exact before seq positive less
        · exact same ▸ recorded i found.2
      have next : ∀ seq, 0 < seq → seq < (i + 1) % wordSize → Q seq := by
        intro seq positive less
        have bound := Nat.mod_le (i + 1) wordSize
        exact upTo seq positive (by omega)
      dsimp only at within
      split at within
      · split at within
        · exact passed seq positive within
        · exact ih _ _ _ _ next upTo within
      · exact ih _ _ _ _ next upTo within
    · exact passed seq positive within

/-- The lock stays, or moves up to a recorded slot below which every slot is recorded. -/
theorem lockPrefix_filled (tp : TrustedPara) {Q : Nat → Prop} (getBlockFunc : Nat → PBlock)
    (recorded : ∀ seq, (tp.precommitData.lookup seq).isSome = true → Q seq)
    (locked : tp.prefixLockedView = tp.view →
      ∀ seq, 0 < seq → seq ≤ tp.prefixLockedSeqNumber → Q seq) :
    tp.lockPrefix getBlockFunc = tp
      ∨ ∃ last d, tp.precommitData.lookup last = some d ∧ tp.prefixLockedSeqNumber < last
          ∧ (∀ seq, 0 < seq → seq ≤ last → Q seq)
          ∧ tp.lockPrefix getBlockFunc
            = { tp with
                prefixLockedHash := d.blockHash
                prefixLockedView := d.view
                prefixLockedSeqNumber := last } := by
  have filled : ∀ seq, 0 < seq → seq ≤ tp.highestContinuousSeq getBlockFunc → Q seq := by
    intro seq positive within
    unfold highestContinuousSeq at within
    refine continuousSeq_filled recorded _ _ _ _ _ ?_ (fun seq positive none => by omega)
      positive within
    -- The search begins after the locked slot, if the lock is of this view, or at slot 1.
    intro seq positive less
    split at less
    · rename_i here
      have bound := Nat.mod_le (tp.prefixLockedSeqNumber + 1) wordSize
      exact locked (beq_iff_eq.1 here) seq positive (by omega)
    · omega
  unfold lockPrefix
  cases held : tp.precommitData.lookup (tp.highestContinuousSeq getBlockFunc) with
  | none => exact .inl (by simp [held])
  | some d =>
    by_cases higher : tp.prefixLockedSeqNumber < tp.highestContinuousSeq getBlockFunc
    · exact .inr ⟨_, d, held, higher, filled, by simp [held, higher]⟩
    · exact .inl (by simp [held, higher])

omit [Hashing] in
/-- What is backed stays backed when more certificates are accepted. -/
theorem Backed.mono (backed : tp.Backed certs) (more : List RDataPara) :
    tp.Backed (certs ++ more) where
  data := fun held => (backed.data held).imp_right fun found => found.mono more
  slots := fun seq positive within => by
    obtain ⟨h, found⟩ := backed.slots seq positive within
    exact ⟨h, found.mono more⟩
  last := fun positive => (backed.last positive).mono more
  hash := backed.hash.imp_right fun ⟨seq, found⟩ => ⟨seq, found.mono more⟩

omit [Hashing] in
/-- What is backed depends on the memory of the component only. -/
theorem Backed.of_memory {tp' : TrustedPara} (backed : tp.Backed certs) (memory : Memory tp tp') :
    tp'.Backed certs where
  data := by
    rw [memory.precommitData, memory.view]
    exact backed.data
  slots := by
    rw [memory.prefixLockedSeqNumber, memory.prefixLockedView]
    exact backed.slots
  last := by
    rw [memory.prefixLockedSeqNumber, memory.prefixLockedView, memory.prefixLockedHash]
    exact backed.last
  hash := by
    rw [memory.prefixLockedView, memory.prefixLockedHash]
    exact backed.hash

omit [Hashing] in
/-- A call that accepts no certificate leaves the memory backed. -/
theorem Backed.moved {tp' : TrustedPara} {entering : Bool} (backed : tp.Backed certs)
    (moved : Moved entering tp tp') :
    tp'.Backed certs := by
  cases moved with
  | stays _ memory => exact backed.of_memory memory
  | enters _ v memory =>
    -- Nothing is pre-committed in the view entered, and the lock is the one of before.
    refine Backed.of_memory ?_ memory
    exact
      { data := fun held => by simp at held
        slots := backed.slots
        last := backed.last
        hash := backed.hash }
  | resets _ v memory =>
    refine Backed.of_memory ?_ memory
    exact
      { data := fun held => by simp at held
        slots := fun seq positive within => absurd positive (Nat.not_lt_of_le within)
        last := fun positive => absurd positive (Nat.lt_irrefl 0)
        hash := backed.hash }

/-- Recording an accepted certificate leaves the memory backed, with that certificate. -/
theorem Backed.record (backed : tp.Backed certs) (getBlockFunc : Nat → PBlock)
    (here : rd.propv = tp.view) : (tp.record rd getBlockFunc).Backed (certs ++ [rd]) := by
  have later := backed.mono [rd]
  obtain ⟨hash, view, slot, current, data⟩ :=
    storePrepared_frame tp rd.proph rd.propv rd.seqNumber
  have prepared : (tp.storePrepared rd.proph rd.propv rd.seqNumber).Backed (certs ++ [rd]) :=
    { data := by rw [data, current]; exact later.data
      slots := by rw [slot, view]; exact later.slots
      last := by rw [slot, view, hash]; exact later.last
      hash := by rw [view, hash]; exact later.hash }
  unfold TrustedPara.record
  generalize tp.storePrepared rd.proph rd.propv rd.seqNumber = tp₁ at current prepared
  dsimp only
  split
  · rename_i precommit
    rw [beq_iff_eq] at precommit
    -- The certificate itself is one of those accepted for its slot.
    have recorded : ∀ {seq d}, (tp₁.precommitData.insert rd.seqNumber ⟨rd.proph, rd.propv⟩).lookup
        seq = some d → d.view = tp₁.view
        ∧ Precommitted (certs ++ [rd]) tp₁.view seq d.blockHash := by
      intro seq d held
      by_cases same : seq = rd.seqNumber
      · subst same
        simp only [AList.lookup_insert, Option.some.injEq] at held
        subst held
        exact ⟨here.trans current.symm,
          rd, List.mem_append_right _ (List.mem_singleton_self rd), precommit,
          here.trans current.symm, rfl, rfl⟩
      · rw [AList.lookup_insert_ne same] at held
        exact prepared.data held
    rcases lockPrefix_filled
      { tp₁ with
        precommitData := tp₁.precommitData.insert rd.seqNumber ⟨rd.proph, rd.propv⟩ }
      (Q := fun seq => ∃ h, Precommitted (certs ++ [rd]) tp₁.view seq h) getBlockFunc
      (fun seq some => by
        obtain ⟨d, held⟩ := Option.isSome_iff_exists.1 some
        exact ⟨d.blockHash, (recorded held).2⟩)
      (fun same seq positive within => by
        obtain ⟨h, found⟩ := prepared.slots seq positive within
        exact ⟨h, same ▸ found⟩) with stays | ⟨last, d, held, -, filled, moved⟩
    · rw [stays]
      exact
        { data := recorded
          slots := prepared.slots
          last := prepared.last
          hash := prepared.hash }
    · obtain ⟨ofView, found⟩ := recorded held
      rw [moved]
      exact
        { data := recorded
          slots := fun seq positive within => by
            obtain ⟨h, slot⟩ := filled seq positive within
            exact ⟨h, ofView ▸ slot⟩
          last := fun _ => ofView ▸ found
          hash := .inr ⟨last, ofView ▸ found⟩ }
  · exact prepared

omit [Hashing] in
/-- What is reported depends on the memory of the component only. -/
theorem ReportsHighest.of_memory {tp' : TrustedPara} (reports : tp.ReportsHighest certs)
    (prepared : tp'.prepared = tp.prepared)
    (hash : tp'.latestPreparedHash = tp.latestPreparedHash) : tp'.ReportsHighest certs where
  greatest := prepared ▸ reports.greatest
  genesis := fun zero => hash.trans (reports.genesis (prepared ▸ zero))
  first := by
    rw [prepared, hash]
    exact reports.first

omit [Hashing] in
/-- A call that accepts no certificate leaves the prepared block. -/
theorem Moved.prepared {tp' : TrustedPara} {entering : Bool} (moved : Moved entering tp tp') :
    tp'.prepared = tp.prepared ∧ tp'.latestPreparedHash = tp.latestPreparedHash := by
  have same : ∀ {tp₁ : TrustedPara}, Memory tp₁ tp' → tp'.prepared = tp₁.prepared :=
    fun memory => by
      unfold TrustedPara.prepared
      rw [memory.latestPreparedView, memory.latestPreparedSeqNumber]
  cases moved with
  | stays _ memory => exact ⟨same memory, memory.latestPreparedHash⟩
  | enters _ v memory => exact ⟨(same memory).trans rfl, memory.latestPreparedHash⟩
  | resets _ v memory => exact ⟨(same memory).trans rfl, memory.latestPreparedHash⟩

/-- Recording an accepted certificate keeps the highest one prepared. -/
theorem ReportsHighest.record (reports : tp.ReportsHighest certs)
    (getBlockFunc : Nat → PBlock) :
    (tp.record rd getBlockFunc).ReportsHighest (certs ++ [rd]) := by
  rcases record_prepared tp rd getBlockFunc with ⟨low, same, hash⟩ | ⟨high, moved, hash⟩
  · -- What was highest before still is, and it was certified first.
    refine ReportsHighest.of_memory ⟨⟨?_, ?_⟩, reports.genesis, fun positive => ?_⟩ same hash
    · rcases reports.greatest.1 with zero | ⟨rd', member, place⟩
      · exact .inl zero
      · exact .inr ⟨rd', List.mem_append_left _ member, place⟩
    · rintro k (zero | ⟨rd', member, rfl⟩)
      · exact reports.greatest.2 (.inl zero)
      · rcases List.mem_append.1 member with old | new
        · exact reports.greatest.2 (.inr ⟨rd', old, rfl⟩)
        · rw [List.mem_singleton.1 new]
          exact low
    · obtain ⟨rd', found, same'⟩ := reports.first positive
      exact ⟨rd', by rw [List.find?_append, found, Option.some_or], same'⟩
  · -- The new certificate stands higher than all before it.
    have below : ∀ rd' ∈ certs, place rd' < place rd := fun rd' member =>
      lt_of_le_of_lt (reports.greatest.2 (.inr ⟨rd', member, rfl⟩)) high
    have zero : toLex (0, 0) < place rd := lt_of_le_of_lt (reports.greatest.2 (.inl rfl)) high
    refine ⟨⟨?_, ?_⟩, fun none => ?_, fun _ => ⟨rd, ?_, hash⟩⟩
    · rw [moved]
      exact .inr ⟨rd, List.mem_append_right _ (List.mem_singleton_self rd), rfl⟩
    · rw [moved]
      rintro k (rfl | ⟨rd', member, rfl⟩)
      · exact le_of_lt zero
      · rcases List.mem_append.1 member with old | new
        · exact le_of_lt (below rd' old)
        · rw [List.mem_singleton.1 new]
    · exact absurd (moved.symm.trans none) (ne_of_gt zero)
    · have absent : certs.find? (fun rd' => decide (place rd' = place rd)) = none :=
        List.find?_eq_none.2 fun rd' member same =>
          absurd (decide_eq_true_eq.mp same) (ne_of_lt (below rd' member))
      rw [moved, List.find?_append, absent]
      simp

end Records

section Runs

variable [Hashing]

/-- After any calls the component reports the highest certificate, and its memory is backed. -/
theorem after_backed (id : PID) (priv : KEY) (q : Nat) (calls : List PublicCall) :
    (component.after (init id priv q) calls).ReportsHighest ((init id priv q).certificates calls)
      ∧ (component.after (init id priv q) calls).Backed ((init id priv q).certificates calls) := by
  -- Induction on the calls made, from the last one.
  induction calls using List.reverseRecOn with
  | nil =>
    refine ⟨⟨⟨.inl rfl, ?_⟩, fun _ => rfl, fun other => absurd rfl other⟩, ?_⟩
    · rintro k (rfl | ⟨rd, member, -⟩)
      · exact le_refl _
      · cases member
    · exact
        { data := fun held => by simp [Component.after, init] at held
          slots := fun seq positive within => absurd positive (Nat.not_lt_of_le within)
          last := fun positive => absurd positive (Nat.lt_irrefl 0)
          hash := .inl ⟨rfl, rfl⟩ }
  | append_singleton calls call ih =>
    obtain ⟨reports, backed⟩ := ih
    have more : (init id priv q).certificates (calls ++ [call])
        = (init id priv q).certificates calls
          ++ (certificate (component.after (init id priv q) calls) call).toList :=
      Component.observed_concat _ _ _ _
    rw [more, Component.after_concat]
    generalize component.after (init id priv q) calls = tp at reports backed ⊢
    rcases next_cases tp call with ⟨nodes, just, getBlockFunc, rd, rfl, accepted⟩ | ⟨none, moved⟩
    · obtain ⟨here, -, -, -, -, next⟩ := store_accepted accepted
      rw [next, accepted, Option.toList_some]
      -- Signing moves the phase of the block, which is no part of the memory.
      exact ⟨(reports.record getBlockFunc).of_memory rfl rfl,
        (backed.record getBlockFunc here).of_memory ⟨rfl, rfl, rfl, rfl, rfl, rfl, rfl, rfl⟩⟩
    · rw [none, Option.toList_none, List.append_nil]
      exact ⟨reports.of_memory moved.prepared.1 moved.prepared.2, backed.moved moved⟩

/--
New-view statements never understate their signer.

Whatever is called, the component reports the first of the highest certificates it accepted,
and its lock stands no higher.
-/
theorem reports_highest (id : PID) (priv : KEY) (q : Nat) (calls : List PublicCall) :
    let tp := component.after (init id priv q) calls
    tp.ReportsHighest ((init id priv q).certificates calls) ∧ tp.locked ≤ tp.prepared := by
  obtain ⟨reports, backed⟩ := after_backed id priv q calls
  refine ⟨reports, ?_⟩
  generalize component.after (init id priv q) calls = tp at reports backed ⊢
  rcases Nat.eq_zero_or_pos tp.prefixLockedSeqNumber with zero | positive
  · rcases backed.hash with ⟨-, genesis⟩ | ⟨seq, rd, member, -, view, -, -⟩
    · have bottom : tp.locked = toLex (0, 0) := by rw [locked, zero, genesis]
      rw [bottom]
      exact reports.greatest.2 (.inl rfl)
    · -- The slots of the lock began anew, so it stands lower than the certificate it is from.
      have lower : tp.locked ≤ place rd := by
        rw [locked, place, zero, Prod.Lex.toLex_le_toLex]
        exact .inr ⟨view.symm, Nat.zero_le _⟩
      exact le_trans lower (reports.greatest.2 (.inr ⟨rd, member, rfl⟩))
  · obtain ⟨rd, member, -, view, slot, -⟩ := backed.last positive
    have same : place rd = tp.locked := by rw [place, locked, view, slot]
    exact same ▸ reports.greatest.2 (.inr ⟨rd, member, rfl⟩)

/-- The component accepted a pre-commit certificate for a slot while it was in a view. -/
def AcceptedIn (tp : TrustedPara) (calls : List PublicCall) (v : View) (seq : Nat) (h : Hash) :
    Prop :=
  ∃ step ∈ component.steps tp calls, step.1.view = v
    ∧ ∃ rd, certificate step.1 step.2 = some rd ∧ rd.phase = PH1_PRECOMMIT ∧ rd.propv = v
      ∧ rd.seqNumber = seq ∧ rd.proph = h

/-- The lock after some calls is backed by certificates accepted for every slot up to it. -/
structure PrefixBacked (tp : TrustedPara) (calls : List PublicCall) : Prop where
  slots : ∀ seq, 0 < seq → seq ≤ (component.after tp calls).prefixLockedSeqNumber →
    ∃ h, AcceptedIn tp calls (component.after tp calls).prefixLockedView seq h
  last : 0 < (component.after tp calls).prefixLockedSeqNumber →
    AcceptedIn tp calls (component.after tp calls).prefixLockedView
      (component.after tp calls).prefixLockedSeqNumber (component.after tp calls).prefixLockedHash
  hash : (component.after tp calls).prefixLockedHash = Hash.ofBool true
    ∨ ∃ seq, AcceptedIn tp calls (component.after tp calls).prefixLockedView seq
      (component.after tp calls).prefixLockedHash

/-- A certificate accepted by some call was accepted in its view. -/
theorem acceptedIn_of_precommitted {tp : TrustedPara} {calls : List PublicCall} {v : View}
    {seq : Nat} {h : Hash} (precommitted : Precommitted (tp.certificates calls) v seq h) :
    AcceptedIn tp calls v seq h := by
  obtain ⟨rd, member, phase, view, slot, hash⟩ := precommitted
  obtain ⟨step, made, accepted⟩ := List.mem_filterMap.1 member
  refine ⟨step, made, ?_, rd, accepted, phase, view, slot, hash⟩
  -- A component accepts certificates of its own view only.
  obtain ⟨tp', call⟩ := step
  rcases next_cases tp' call with ⟨nodes, just, getBlockFunc, rd', rfl, -⟩ | ⟨none, -⟩
  · exact (store_accepted accepted).1.symm.trans view
  · rw [none] at accepted
    cases accepted

/-- Whatever is called, the prefix lock is backed by a full prefix of certificates. -/
theorem prefix_backed (id : PID) (priv : KEY) (q : Nat) (calls : List PublicCall) :
    PrefixBacked (init id priv q) calls := by
  have backed := (after_backed id priv q calls).2
  refine ⟨fun seq positive within => ?_, fun positive => ?_, ?_⟩
  · obtain ⟨h, found⟩ := backed.slots seq positive within
    exact ⟨h, acceptedIn_of_precommitted found⟩
  · exact acceptedIn_of_precommitted (backed.last positive)
  · rcases backed.hash with ⟨genesis, -⟩ | ⟨seq, found⟩
    · exact .inl genesis
    · exact .inr ⟨seq, acceptedIn_of_precommitted found⟩

end Runs

end TrustedPara

end ParaHotstuff
