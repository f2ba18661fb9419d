import ParaHotstuff.Proofs.Wire

/-! When comparing justifications tells whether the same was signed and sent. -/

namespace ParaHotstuff

open Reader Sizes

namespace RData

/-- The statement without the marks of its hashes. -/
def unmarked (r : RData) : RData :=
  { r with proph := ⟨r.proph.hash, true⟩, justh := ⟨r.justh.hash, true⟩ }

/-- The comparison sees everything but the marks of the hashes. -/
theorem beq_iff_unmarked {r r' : RData} : (r == r') = true ↔ r.unmarked = r'.unmarked := by
  change (r.proph == r'.proph && r.propv == r'.propv && r.justh == r'.justh
    && r.justv == r'.justv && r.phase == r'.phase) = true ↔ _
  simp [unmarked, and_assoc]

end RData

namespace RDataPara

/-- The statement without the marks of its hashes. -/
def unmarked (r : RDataPara) : RDataPara :=
  { r with proph := ⟨r.proph.hash, true⟩, justh := ⟨r.justh.hash, true⟩ }

/-- The comparison sees everything but the marks of the hashes. -/
theorem beq_iff_unmarked {r r' : RDataPara} : (r == r') = true ↔ r.unmarked = r'.unmarked := by
  change (r.proph == r'.proph && r.propv == r'.propv && r.justh == r'.justh
    && r.justv == r'.justv && r.phase == r'.phase && r.seqNumber == r'.seqNumber) = true ↔ _
  simp [unmarked, and_assoc]

end RDataPara

namespace Wire

/-- The text that was signed; the marks of the hashes are part of it. -/
def Tagged.toString : Tagged → Text
  | .RData r => r.toString
  | .RDataPara r => r.toString
  | .other _ => []

/-- The data without the marks of its hashes. -/
def Tagged.unmarked : Tagged → Tagged
  | .RData r => .RData r.unmarked
  | .RDataPara r => .RDataPara r.unmarked
  | .other type => .other type

/-- The marks of the hashes. -/
def Tagged.marks : Tagged → List Bool
  | .RData r => [r.proph.set, r.justh.set]
  | .RDataPara r => [r.proph.set, r.justh.set]
  | .other _ => []

/-- The marks and the rest of it make up the data. -/
theorem Tagged.ext_marks {a b : Tagged} (rest : a.unmarked = b.unmarked)
    (marks : a.marks = b.marks) : a = b := by
  cases a with
  | RData r =>
    cases b with
    | RData r' =>
      obtain ⟨⟨_, _⟩, _, ⟨_, _⟩, _, _⟩ := r
      obtain ⟨⟨_, _⟩, _, ⟨_, _⟩, _, _⟩ := r'
      simp_all [unmarked, Tagged.marks, RData.unmarked]
    | RDataPara r' => cases rest
    | other type => cases rest
  | RDataPara r =>
    cases b with
    | RData r' => cases rest
    | RDataPara r' =>
      obtain ⟨⟨_, _⟩, _, ⟨_, _⟩, _, _, _⟩ := r
      obtain ⟨⟨_, _⟩, _, ⟨_, _⟩, _, _, _⟩ := r'
      simp_all [unmarked, Tagged.marks, RDataPara.unmarked]
    | other type => cases rest
  | other type =>
    cases b with
    | RData r' => cases rest
    | RDataPara r' => cases rest
    | other type' => exact rest

theorem Sign.eq_iff {a b : Sign} : a.eq b = true ↔ a = b := by
  cases a; cases b
  simp [Sign.eq, and_assoc]

/-- Signatures compared one by one are the same lists, if these are equally long. -/
theorem Sign.all_eq_iff {xs ys : List Sign} (size : xs.length = ys.length) :
    ((xs.zip ys).all fun pair => pair.1.eq pair.2) = true ↔ xs = ys := by
  induction xs generalizing ys with
  | nil => simp [List.eq_nil_of_length_eq_zero size.symm]
  | cons x xs ih =>
    cases ys with
    | nil => simp at size
    | cons y ys => simp [Sign.eq_iff, ih (by simpa using size)]

/-- In arrays of one size the comparison sees the signatures in use. -/
theorem Signs.eq_iff {a b : Signs} (full : a.signs.length = b.signs.length) :
    a.eq b = true ↔ a.size = b.size ∧ a.used = b.used := by
  simp only [Signs.eq, Bool.and_eq_true, beq_iff_eq]
  -- Where the sizes are equal, equally many signatures are in use.
  refine and_congr_right fun size => Sign.all_eq_iff ?_
  rw [used, used, List.length_take, List.length_take, size, full]

variable [Scalars] [Sizes]

/-- What is written of a justification, up to the signatures that are not in use. -/
def Just.sent (j : Just) : Text :=
  putBool j.set ++ (putUnsigned j.data.type ++ (j.data.serialize
    ++ (putUnsigned j.signs.size ++ j.signs.used.flatMap Sign.serialize)))

omit [Sizes] in
/-- The signatures that are not in use come last. -/
theorem Just.serialize_eq (j : Just) :
    j.serialize = j.sent ++ (j.signs.signs.drop j.signs.size).flatMap Sign.serialize := by
  -- The array is written in order: first the signatures in use, and then the rest of it.
  have parts : j.signs.signs.flatMap Sign.serialize
      = j.signs.used.flatMap Sign.serialize
        ++ (j.signs.signs.drop j.signs.size).flatMap Sign.serialize := by
    rw [← List.flatMap_append, Signs.used, List.take_append_drop]
  simp only [serialize, Signs.serialize, sent, parts, List.append_assoc]

/-- Read what is written of a justification before the signatures that are not in use. -/
def Just.unserializeSent : Reader (Bool × Tagged × Nat × List Sign) := do
  let set ← getBool
  let type ← getUnsigned
  let data ← Tagged.unserialize type
  let size ← getUnsigned
  let signs ← Reader.times Sign.unserialize (min size MAX_NUM_SIGNATURES)
  return (set, data, size, signs.1)

theorem Just.reads_sent {j : Just} (fits : j.Fits) :
    Reads unserializeSent j.sent (j.set, j.data, j.signs.size, j.signs.used) := by
  -- No more signatures are in use than the array holds.
  have count : j.signs.used.length = min j.signs.size MAX_NUM_SIGNATURES := by
    rw [Signs.used, List.length_take, fits.signs.full]
  have signs := Reads.times count fun sign member =>
    Sign.reads (fits.signs.each sign (List.mem_of_mem_take member))
  exact (reads_bool j.set).bind ((reads_unsigned (Tagged.type_lt fits.data)).bind
    ((Tagged.reads fits.data).bind ((reads_unsigned fits.signs.size).bind signs.last)))

/-- The bytes sent determine all but the signatures that are not in use. -/
theorem Just.sent_iff {a b : Just} (fits : a.Fits) (fits' : b.Fits) :
    a.sent = b.sent ↔ a.set = b.set ∧ a.data = b.data ∧ a.signs.size = b.signs.size
      ∧ a.signs.used = b.signs.used := by
  constructor
  · intro same
    -- Reading back what was sent gives the parts of the one and of the other.
    have first := Just.reads_sent fits []
    rw [same, Just.reads_sent fits' []] at first
    simp only [Option.some.injEq, Prod.mk.injEq, and_true] at first
    exact ⟨first.1.symm, first.2.1.symm, first.2.2.1.symm, first.2.2.2.symm⟩
  · rintro ⟨set, data, size, used⟩
    rw [sent, sent, set, data, size, used]

/--
What a comparison should tell of two justifications.

It has a result, which says whether the same was sent; so the same text was signed if they compare
equal, and they do not compare equal if the signatures differ.
-/
structure Just.Tells (a b : Just) : Prop where
  result : (a.eq? b).isSome = true
  sent : a.eq? b = some true ↔ a.sent = b.sent
  text : a.eq? b = some true → a.data.toString = b.data.toString
  signs : a.signs.size ≠ b.signs.size ∨ a.signs.used ≠ b.signs.used → a.eq? b = some false

omit [Scalars] [Sizes] in
/--
Justifications that the comparison can tell apart.

If they are set alike and have the same tag, then the same signatures are in use, and their data
does not differ in the marks of the hashes alone.
-/
def Just.Comparable (a b : Just) : Prop :=
  a.set = b.set → a.data.type = b.data.type →
    (a.signs.size = b.signs.size ∧ a.signs.used = b.signs.used)
      ∧ (a.data.unmarked = b.data.unmarked → a.data.marks = b.data.marks)

omit [Scalars] in
/-- What the comparison comes to: the flags, the tags, the signatures, and the data but for marks. -/
theorem Just.eq?_cases {a b : Just} (fits : a.Fits) (fits' : b.Fits) :
    ((a.set ≠ b.set ∨ a.data.type ≠ b.data.type) ∧ a.eq? b = some false)
      ∨ (a.set = b.set ∧ a.data.type = b.data.type
        ∧ ¬ (a.signs.size = b.signs.size ∧ a.signs.used = b.signs.used) ∧ a.eq? b = none)
      ∨ (a.set = b.set ∧ a.data.type = b.data.type
        ∧ (a.signs.size = b.signs.size ∧ a.signs.used = b.signs.used)
        ∧ a.eq? b = some (decide (a.data.unmarked = b.data.unmarked))) := by
  have full : a.signs.signs.length = b.signs.signs.length := by
    rw [fits.signs.full, fits'.signs.full]
  -- The checks are made one after the other, as in the source.
  by_cases set : a.set = b.set
  swap
  · exact .inl ⟨.inl set, by simp [eq?, set]⟩
  by_cases type : a.data.type = b.data.type
  swap
  · exact .inl ⟨.inr type, by simp [eq?, set, type]⟩
  by_cases signs : a.signs.size = b.signs.size ∧ a.signs.used = b.signs.used
  swap
  · have differ : a.signs.eq b.signs = false := by
      rw [Bool.eq_false_iff]
      exact fun same => signs ((Signs.eq_iff full).1 same)
    exact .inr (.inl ⟨set, type, signs, by simp [eq?, set, type, differ]⟩)
  · have same : a.signs.eq b.signs = true := (Signs.eq_iff full).2 signs
    refine .inr (.inr ⟨set, type, signs, ?_⟩)
    -- What is left to compare is the data, once the flags are the same.
    obtain ⟨mark, data, _⟩ := a
    obtain ⟨mark', data', _⟩ := b
    obtain rfl : mark = mark' := set
    -- Equal tags leave two members to compare.
    cases data with
    | RData r =>
      cases data' with
      | RData r' =>
        have alike : (r == r') = decide (r.unmarked = r'.unmarked) := by
          rw [Bool.eq_iff_iff, RData.beq_iff_unmarked, decide_eq_true_iff]
        simpa [eq?, same, Tagged.unmarked, Tagged.type] using alike
      | RDataPara r' => cases type
      | other type' => exact fits'.data.elim
    | RDataPara r =>
      cases data' with
      | RData r' => cases type
      | RDataPara r' =>
        have alike : (r == r') = decide (r.unmarked = r'.unmarked) := by
          rw [Bool.eq_iff_iff, RDataPara.beq_iff_unmarked, decide_eq_true_iff]
        simpa [eq?, same, Tagged.unmarked, Tagged.type] using alike
      | other type' => exact fits'.data.elim
    | other type' => exact fits.data.elim

/-- Comparing two justifications tells what it should exactly when they can be told apart. -/
theorem Just.tells_iff {a b : Just} (fits : a.Fits) (fits' : b.Fits) :
    Tells a b ↔ Comparable a b := by
  have bytes := sent_iff fits fits'
  rcases eq?_cases fits fits' with
    ⟨differ, result⟩ | ⟨set, type, signs, result⟩ | ⟨set, type, signs, result⟩
  · -- Flags and tags are sent, so different ones are told apart.
    have unequal : a.sent ≠ b.sent := by
      rw [Ne, bytes]
      rintro ⟨set, data, -⟩
      rcases differ with set' | type
      · exact set' set
      · exact type (congrArg Tagged.type data)
    refine iff_of_true ⟨by simp [result], by simp [result, unequal], by simp [result],
      fun _ => result⟩ fun set type => ?_
    rcases differ with set' | type'
    · exact absurd set set'
    · exact absurd type type'
  · -- Different signatures of the same kind of statement leave the comparison without a result.
    refine iff_of_false (fun tells => ?_) fun comparable => signs (comparable set type).1
    have some_result := tells.result
    rw [result] at some_result
    cases some_result
  -- The same signatures are in use, so it is the data that decides.
  · have same : a.sent = b.sent ↔ a.data = b.data := by
      rw [bytes]
      simp [set, signs]
    have marks : a.data = b.data ↔ a.data.unmarked = b.data.unmarked ∧ a.data.marks = b.data.marks :=
      ⟨fun data => by simp [data], fun ⟨rest, marks⟩ => Tagged.ext_marks rest marks⟩
    constructor
    · intro tells
      refine fun _ _ => ⟨signs, fun rest => ?_⟩
      -- Data that differs in marks alone would compare equal, and be sent as different bytes.
      have equal : a.eq? b = some true := by simp [result, rest]
      exact (marks.1 (same.1 (tells.sent.1 equal))).2
    · intro comparable
      -- Where the marks agree whenever the rest does, comparing is comparing what is sent.
      have told : a.eq? b = some true ↔ a.sent = b.sent := by
        rw [same, marks, result]
        simp only [Option.some.injEq, decide_eq_true_eq]
        exact ⟨fun rest => ⟨rest, (comparable set type).2 rest⟩, fun both => both.1⟩
      refine ⟨by simp [result], told, fun equal => ?_, fun differ => ?_⟩
      · rw [same.1 (told.1 equal)]
      · rcases differ with size | used
        · exact absurd signs.1 size
        · exact absurd signs.2 used

/-- A new-view statement of the parallel protocol with the signature of one node in use. -/
def oneSigned (signer : PID) : Just :=
  ⟨true, .RDataPara RDataPara.default, ⟨1, List.replicate 3 ⟨true, signer, [1, 2, 3, 4]⟩⟩⟩

omit [Scalars] [Sizes] in
theorem oneSigned_fits {signer : PID} (known : signer < wordSize) :
    let _ : Sizes := ⟨3, 2, 1, 4⟩
    (oneSigned signer).Fits := by
  intro _
  refine ⟨⟨by decide, by decide, by decide⟩, ⟨show 1 < wordSize by decide, rfl, fun s member => ?_⟩⟩
  -- The unused places of the array hold the same signature.
  rw [List.eq_of_mem_replicate member]
  exact ⟨known, rfl⟩

omit [Scalars] [Sizes] in
/-- A justification is told to be the same as itself. -/
theorem Just.tells_oneSigned :
    let _ := Scalars.littleEndian
    let _ : Sizes := ⟨3, 2, 1, 4⟩
    Tells (oneSigned 1) (oneSigned 1) := by
  intro _ _
  have fits := @oneSigned_fits 1 (by decide)
  exact (Just.tells_iff fits fits).2 fun _ _ => ⟨⟨rfl, rfl⟩, fun _ => rfl⟩

omit [Scalars] [Sizes] in
/-- The same statement with the signatures of two nodes: the comparison returns nothing. -/
theorem Just.tells_otherSigner :
    let _ := Scalars.littleEndian
    let _ : Sizes := ⟨3, 2, 1, 4⟩
    (oneSigned 1).eq? (oneSigned 2) = none ∧ ¬ Tells (oneSigned 1) (oneSigned 2) := by
  intro _ _
  -- The tags and flags agree, and the signatures do not: nothing is returned.
  have nothing : (oneSigned 1).eq? (oneSigned 2) = none := by decide
  refine ⟨nothing, fun tells => ?_⟩
  have some_result := tells.result
  rw [nothing] at some_result
  cases some_result

end Wire

end ParaHotstuff
