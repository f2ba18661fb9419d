import ParaHotstuff.Lib.Quorum
import Mathlib.Logic.Relation
import Mathlib.Data.List.Infix

/-! Why building on the highest report of a quorum keeps what an earlier quorum voted for. -/

namespace ParaHotstuff

/--
Votes for blocks, one view after the other.

A party has passed a view if it did not vote there and never will. Each block names the view of
its parent, and the block of view 0 is the one that everybody starts from.
-/
structure Ballots (Block : Type) where
  voted : Nat → Nat → Block → Prop
  passed : Nat → Nat → Prop
  parent : Block → Nat
  origin : Block

namespace Ballots

variable {Block : Type} (n q : Nat) (B : Ballots Block)

/-- A quorum voted for a block. -/
def Certified (v : Nat) (b : Block) : Prop :=
  ∃ Q, IsQuorum n q Q ∧ ∀ p ∈ Q, B.voted p v b

/-- A quorum has passed the view, so no block of it can be certified any more. -/
def Dead (v : Nat) : Prop :=
  ∃ Q, IsQuorum n q Q ∧ ∀ p ∈ Q, B.passed p v

/-- A block of the view leaves views out between its parent and itself. -/
def Skips (v : Nat) : Prop :=
  ∃ p b, B.voted p v b ∧ B.parent b + 1 ≠ v

/-- No block of the view is ever certified on a parent of the view right before. -/
def Closed (v : Nat) : Prop :=
  B.Dead n q v ∨ B.Skips v

/-- A parent of view c may be built on in view u: what lies between them is closed. -/
def Sound (u c : Nat) : Prop :=
  ∀ v, c + 1 < v → v < u → B.Closed n q v

/-- A party that has come past view w reports view c: it took no part in what lies between. -/
def Reports (p w c : Nat) : Prop :=
  ∀ v, v ≤ w → c + 1 < v → B.passed p v ∨ B.Closed n q v

/-- From the block of one view to the view of its parent. -/
def Link (u c : Nat) : Prop :=
  ∃ p b, B.voted p u b ∧ B.parent b = c

/-- The blocks from a view down to the first one, the newest in front. -/
inductive Line : Nat → List Block → Prop where
  | origin : Line 0 [B.origin]
  | step {p v : Nat} {b : Block} {older : List Block} : B.voted p v b →
      Line (B.parent b) older → Line v (b :: older)

/-- A certified block on a parent of the view before commits the parent of that parent. -/
def Commits (v c : Nat) : Prop :=
  ∃ b, B.Certified n q v b ∧ B.parent b + 1 = v
    ∧ ((B.parent b = 0 ∧ c = 0) ∨ B.Link (B.parent b) c)

/-- The rules under which what is committed stays. -/
structure Fair : Prop where
  /-- All votes of a view are for one block. -/
  single : ∀ {p p' v b b'}, B.voted p v b → B.voted p' v b' → b = b'
  absent : ∀ {p v b}, B.passed p v → ¬ B.voted p v b
  below : ∀ {p v b}, B.voted p v b → B.parent b < v
  sound : ∀ {p v b}, B.voted p v b → B.Sound n q v (B.parent b)
  /-- Parents after the first block are certified. -/
  certified : ∀ {p v b}, B.voted p v b → B.parent b = 0
    ∨ ∃ b', B.Certified n q (B.parent b) b'

/-- One history extends another one: nothing is forgotten. -/
structure Extends (B B' : Ballots Block) : Prop where
  voted : ∀ {p v b}, B.voted p v b → B'.voted p v b
  passed : ∀ {p v}, B.passed p v → B'.passed p v
  parent : B'.parent = B.parent
  origin : B'.origin = B.origin

/-- A block is certified exactly when enough of the parties voted for it. -/
theorem certified_iff {v : Nat} {b : Block} [DecidablePred fun p => B.voted p v b] :
    B.Certified n q v b ↔ q ≤ ((Finset.range n).filter fun p => B.voted p v b).card := by
  constructor
  · rintro ⟨Q, quorum, votes⟩
    refine quorum.large.trans (Finset.card_le_card fun p member => ?_)
    exact Finset.mem_filter.2 ⟨quorum.within member, votes p member⟩
  · -- All who voted for the block are a quorum themselves.
    intro enough
    exact ⟨_, ⟨Finset.filter_subset _ _, enough⟩, fun p member => (Finset.mem_filter.1 member).2⟩

section Extending

variable {n q B} {B' : Ballots Block} {p u v w c : Nat} {b : Block}

theorem Certified.extend (certified : B.Certified n q v b) (longer : Extends B B') :
    B'.Certified n q v b := by
  obtain ⟨Q, quorum, votes⟩ := certified
  exact ⟨Q, quorum, fun p member => longer.voted (votes p member)⟩

theorem Closed.extend (closed : B.Closed n q v) (longer : Extends B B') : B'.Closed n q v := by
  -- Both reasons for a view to be closed outlast further votes.
  rcases closed with ⟨Q, quorum, gone⟩ | ⟨p, b, vote, skips⟩
  · exact .inl ⟨Q, quorum, fun p member => longer.passed (gone p member)⟩
  · exact .inr ⟨p, b, longer.voted vote, by rw [longer.parent]; exact skips⟩

theorem Sound.extend (sound : B.Sound n q u c) (longer : Extends B B') : B'.Sound n q u c :=
  fun v above before => (sound v above before).extend longer

theorem Reports.extend (reports : B.Reports n q p w c) (longer : Extends B B') :
    B'.Reports n q p w c := fun v within above =>
  (reports v within above).imp longer.passed fun closed => closed.extend longer

theorem Link.extend (link : B.Link u c) (longer : Extends B B') : B'.Link u c := by
  obtain ⟨p, b, vote, same⟩ := link
  exact ⟨p, b, longer.voted vote, by rw [longer.parent, same]⟩

theorem Line.extend {blocks : List Block} (line : B.Line v blocks) (longer : Extends B B') :
    B'.Line v blocks := by
  -- Induction along the line; each block is still voted for.
  induction line with
  | origin =>
    rw [← longer.origin]
    exact .origin
  | step vote _ ih => exact .step (longer.voted vote) (by rw [longer.parent]; exact ih)

theorem Commits.extend (commits : B.Commits n q v c) (longer : Extends B B') :
    B'.Commits n q v c := by
  obtain ⟨b, certified, next, below⟩ := commits
  refine ⟨b, certified.extend longer, ?_, ?_⟩
  · rw [longer.parent, next]
  · rw [longer.parent]
    exact below.imp_right fun link => link.extend longer

end Extending

section Reporting

variable {n q B} {p u w c : Nat}

/-- The highest report of a quorum may be built on in the next view. -/
theorem sound_of_reports {Q : Finset Nat} (quorum : IsQuorum n q Q)
    (reports : ∀ p ∈ Q, ∃ c', c' ≤ c ∧ B.Reports n q p w c') : B.Sound n q (w + 1) c := by
  intro v above before
  -- Either some report shows that the view is closed, or all reporters have passed it.
  by_cases closed : B.Closed n q v
  · exact closed
  refine .inl ⟨Q, quorum, fun p member => ?_⟩
  obtain ⟨c', lower, reported⟩ := reports p member
  exact (reported v (by omega) (by omega)).resolve_right closed

/-- A parent of the view right before may always be built on. -/
theorem sound_of_previous : B.Sound n q (c + 1) c := fun v above before => by omega

end Reporting

namespace Fair

variable {n q B} (fair : B.Fair n q) (majority : n < 2 * q)
include fair

/-- A view has one parent view. -/
theorem link_unique {u c c' : Nat} (first : B.Link u c) (second : B.Link u c') : c = c' := by
  obtain ⟨p, b, vote, rfl⟩ := first
  obtain ⟨p', b', vote', rfl⟩ := second
  rw [fair.single vote vote']

/-- From a view there is one line of blocks. -/
theorem line_unique {v : Nat} {blocks blocks' : List Block} (first : B.Line v blocks)
    (second : B.Line v blocks') : blocks = blocks' := by
  -- Induction along the first line; nobody votes in the view of the first block.
  induction first generalizing blocks' with
  | origin =>
    cases second with
    | origin => rfl
    | step vote => exact absurd (fair.below vote) (Nat.not_lt_zero _)
  | @step p v b older vote _ ih =>
    cases second with
    | origin => exact absurd (fair.below vote) (Nat.not_lt_zero _)
    | @step p' _ b' older' vote' line' =>
      obtain rfl := fair.single vote vote'
      rw [ih line']

omit fair in
/-- A line that is not the first block's begins with a block voted for in its view. -/
theorem line_cases {v : Nat} {blocks : List Block} (line : B.Line v blocks) (later : v ≠ 0) :
    ∃ p b older, blocks = b :: older ∧ B.voted p v b ∧ B.Line (B.parent b) older := by
  cases line with
  | origin => exact absurd rfl later
  | step vote older => exact ⟨_, _, _, rfl, vote, older⟩

/-- From each view with votes a line leads down to the first block. -/
theorem line_exists (positive : 0 < q) {p v : Nat} {b : Block} (vote : B.voted p v b) :
    ∃ blocks, B.Line v blocks := by
  -- Strong induction on the view; the parent is the first block or was voted for as well.
  induction v using Nat.strong_induction_on generalizing p b with
  | _ v ih =>
    rcases fair.certified vote with first | ⟨b', Q, quorum, votes⟩
    · have first_line : B.Line (B.parent b) [B.origin] := by
        rw [first]
        exact .origin
      exact ⟨_, .step vote first_line⟩
    · obtain ⟨r, member⟩ := quorum.nonempty positive
      obtain ⟨older, line⟩ := ih _ (fair.below vote) (votes r member)
      exact ⟨_, .step vote line⟩

/-- From each committed view, too. -/
theorem line_of_commits (positive : 0 < q) {v c : Nat} (commits : B.Commits n q v c) :
    ∃ blocks, B.Line c blocks := by
  obtain ⟨b, certified, -, ⟨-, rfl⟩ | ⟨p, b', vote, rfl⟩⟩ := commits
  · exact ⟨_, .origin⟩
  · rcases fair.certified vote with first | ⟨b'', Q, quorum, votes⟩
    · rw [first]
      exact ⟨_, .origin⟩
    · obtain ⟨r, member⟩ := quorum.nonempty positive
      exact fair.line_exists positive (votes r member)

/-- Below a certified block of a line all blocks are certified, down to the first one. -/
theorem line_certified (positive : 0 < q) {v : Nat} {blocks : List Block} (line : B.Line v blocks)
    (top : v = 0 ∨ ∃ b, B.Certified n q v b) :
    ∀ b ∈ blocks, b = B.origin ∨ ∃ v', B.Certified n q v' b := by
  -- Induction along the line; each block names a certified parent.
  induction line with
  | origin => exact fun b member => .inl (List.mem_singleton.1 member)
  | @step p v b older vote _ ih =>
    intro b' member
    rcases List.mem_cons.1 member with rfl | deeper
    · rcases top with rfl | ⟨b'', Q, quorum, votes⟩
      · exact absurd (fair.below vote) (Nat.not_lt_zero _)
      · obtain ⟨r, voter⟩ := quorum.nonempty positive
        rw [fair.single vote (votes r voter)]
        exact .inr ⟨v, Q, quorum, votes⟩
    · exact ih (fair.certified vote) b' deeper

/-- The line of a view ends with the line of each view below it on the way. -/
theorem suffix_of_reaches {u v : Nat} {above below : List Block} (upper : B.Line u above)
    (lower : B.Line v below) (reaches : Relation.ReflTransGen B.Link u v) : below <:+ above := by
  induction upper generalizing below with
  | origin =>
    -- No link leads down from the first block.
    rcases Relation.ReflTransGen.cases_head reaches with rfl | ⟨c, ⟨p, b, vote, -⟩, -⟩
    · exact (fair.line_unique lower .origin) ▸ List.suffix_refl _
    · exact absurd (fair.below vote) (Nat.not_lt_zero _)
  | @step p u b older vote line ih =>
    rcases Relation.ReflTransGen.cases_head reaches with rfl | ⟨c, link, rest⟩
    · exact (fair.line_unique lower (.step vote line)) ▸ List.suffix_refl _
    · have same : c = B.parent b := fair.link_unique link ⟨p, b, vote, rfl⟩
      exact (ih lower (same ▸ rest)).trans (List.suffix_cons b older)

include majority

/-- Where a block was certified on the view before, its view is not closed. -/
theorem not_closed {v : Nat} {b : Block} (certified : B.Certified n q v b)
    (next : B.parent b + 1 = v) : ¬ B.Closed n q v := by
  obtain ⟨Q, quorum, votes⟩ := certified
  rintro (⟨Q', quorum', gone⟩ | ⟨p, b', vote, skips⟩)
  · -- Some party of both quorums would have voted in a view that it passed.
    obtain ⟨p, member, member'⟩ := quorum.intersect majority quorum'
    exact fair.absent (gone p member') (votes p member)
  · obtain ⟨p', member, -⟩ := quorum.intersect majority quorum
    rw [fair.single vote (votes p' member)] at skips
    exact skips next

/-- Every later block descends from the parent of a block that was certified on the view before. -/
theorem descends {v : Nat} {b : Block} (certified : B.Certified n q v b)
    (next : B.parent b + 1 = v) {p u : Nat} {c : Block} (vote : B.voted p u c) (later : v ≤ u) :
    Relation.ReflTransGen B.Link u (B.parent b) := by
  -- Strong induction on the later view; its parent is at least as new as the one of the block.
  induction u using Nat.strong_induction_on generalizing p c with
  | _ u ih =>
    have link : B.Link u (B.parent c) := ⟨p, c, vote, rfl⟩
    rcases Nat.eq_or_lt_of_le later with rfl | after
    · obtain ⟨Q, quorum, votes⟩ := certified
      obtain ⟨r, member, -⟩ := quorum.intersect majority quorum
      rw [fair.single (votes r member) vote]
      exact .single link
    have high : v ≤ B.parent c + 1 := by
      by_contra low
      exact fair.not_closed majority certified next
        (fair.sound vote v (Nat.not_le.1 low) after)
    by_cases here : B.parent c = B.parent b
    · exact here ▸ .single link
    -- No view lies between the block and its parent, so the later parent is not older than it.
    have newer : v ≤ B.parent c := by omega
    rcases fair.certified vote with first | ⟨b', Q, quorum, votes⟩
    · omega
    · obtain ⟨r, member, -⟩ := quorum.intersect majority quorum
      exact .head link (ih _ (fair.below vote) (votes r member) newer)

/-- What is committed later descends from what was committed before. -/
theorem commits_reach {v c v' c' : Nat} (first : B.Commits n q v c)
    (second : B.Commits n q v' c') (order : v ≤ v') : Relation.ReflTransGen B.Link c' c := by
  obtain ⟨b, certified, next, below⟩ := first
  obtain ⟨b', certified', next', below'⟩ := second
  have voter : ∃ p, B.voted p v' b' := by
    obtain ⟨Q, quorum, votes⟩ := certified'
    obtain ⟨r, member, -⟩ := quorum.intersect majority quorum
    exact ⟨r, votes r member⟩
  obtain ⟨p', vote'⟩ := voter
  have link' : B.Link v' (B.parent b') := ⟨p', b', vote', rfl⟩
  rcases Nat.eq_or_lt_of_le order with rfl | after
  · -- The same view commits the same block.
    have same : B.parent b = B.parent b' := by omega
    rcases below with ⟨first, rfl⟩ | link <;> rcases below' with ⟨first', rfl⟩ | link'
    · exact .refl
    · obtain ⟨r, d, vote, -⟩ := link'
      have positive := fair.below vote
      omega
    · obtain ⟨r, d, vote, -⟩ := link
      have positive := fair.below vote
      omega
    · rw [same] at link
      rw [fair.link_unique link link']
  -- The later block comes down to the parent of the earlier one, by way of its own parent.
  have reaches := fair.descends majority certified next vote' order
  have through : ∀ {u x y}, B.Link u x → Relation.ReflTransGen B.Link u y → u ≠ y →
      Relation.ReflTransGen B.Link x y := by
    intro u x y link path other
    rcases Relation.ReflTransGen.cases_head path with same | ⟨z, link', rest⟩
    · exact absurd same other
    · exact fair.link_unique link link' ▸ rest
  have parent := through link' reaches (by omega)
  rcases below' with ⟨first', -⟩ | grand
  · omega
  have grandparent := through grand parent (by omega)
  rcases below with ⟨first, rfl⟩ | link
  · exact first ▸ grandparent
  · exact grandparent.tail link

/-- So of the lines of two committed blocks one is the end of the other. -/
theorem lines_comparable {v c v' c' : Nat} {blocks blocks' : List Block}
    (first : B.Commits n q v c) (second : B.Commits n q v' c') (line : B.Line c blocks)
    (line' : B.Line c' blocks') : blocks <:+ blocks' ∨ blocks' <:+ blocks := by
  rcases Nat.le_total v v' with before | after
  · exact .inl (fair.suffix_of_reaches line' line (fair.commits_reach majority first second before))
  · exact .inr (fair.suffix_of_reaches line line' (fair.commits_reach majority second first after))

end Fair

end Ballots

end ParaHotstuff
