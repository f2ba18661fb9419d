import ParaHotstuff.Lib.Stream

/-!
Where on a stream the sizes of arrays are, which are written apart from the arrays themselves.

A reader that reads arrays at their full length trusts no size; what later goes through an array by
its size does. So the sizes are to be found before the stream is read.
-/

namespace ParaHotstuff

/-- Reading a scalar takes exactly as many bytes off the stream as its width. -/
class FixedWidth [Scalars] : Prop where
  takes : ∀ {width n : Nat} {stream rest : List UInt8},
    (Scalars.get width).run stream = some (n, rest) → rest = stream.drop width

/-- Scalars with the lowest byte first have fixed widths. -/
theorem fixedWidth_littleEndian :
    let _ := Scalars.littleEndian
    FixedWidth := by
  intro _
  constructor
  intro width n stream rest read
  -- Reading succeeds only where there are as many bytes, and takes these.
  by_cases enough : width ≤ stream.length
  · have taken := (if_pos enough).symm.trans read
    exact (Prod.mk.inj (Option.some.inj taken)).2.symm
  · have short := (if_neg enough).symm.trans read
    cases short

/-- The number at a place of a stream, if there are enough bytes. -/
def Scalars.at [Scalars] (stream : List UInt8) (width place : Nat) : Option Nat :=
  ((Scalars.get width).run (stream.drop place)).map Prod.fst

/-- A place on a stream where the size of an array is, and how long that array is. -/
structure SizeField where
  place : Nat
  bound : Nat
deriving DecidableEq, Repr

/-- How many bytes of a stream a value takes, and where the sizes in it are. -/
structure Layout where
  width : List UInt8 → Nat
  fields : List UInt8 → List SizeField

namespace Layout

/-- Bytes without a size among them. -/
def skip (count : Nat) : Layout := ⟨fun _ => count, fun _ => []⟩

/-- The size of an array, which takes four bytes. -/
def size (bound : Nat) : Layout := ⟨fun _ => 4, fun _ => [⟨0, bound⟩]⟩

/-- One value after the other. -/
def seq (first second : Layout) : Layout where
  width stream := first.width stream + second.width (stream.drop (first.width stream))
  fields stream := first.fields stream ++
    (second.fields (stream.drop (first.width stream))).map fun field =>
      { field with place := first.width stream + field.place }

/-- A number that says what comes after it. -/
def number [Scalars] (width : Nat) (rest : Nat → Layout) : Layout where
  width stream := ((skip width).seq (rest ((Scalars.at stream width 0).getD 0))).width stream
  fields stream := ((skip width).seq (rest ((Scalars.at stream width 0).getD 0))).fields stream

/-- A number of values of the same kind. -/
def times (layout : Layout) : Nat → Layout
  | 0 => skip 0
  | count + 1 => layout.seq (times layout count)

/-- Bytes to be skipped come one after the other. -/
theorem skip_seq (count more : Nat) : (skip count).seq (skip more) = skip (count + more) := rfl

theorem skip_times (count n : Nat) : (skip count).times n = skip (n * count) := by
  induction n with
  | zero => rw [Nat.zero_mul, times]
  | succ n ih => rw [times, ih, skip_seq, Nat.succ_mul, Nat.add_comm]

/-- No size on the stream is larger than its array is long. -/
def Within [Scalars] (layout : Layout) (stream : List UInt8) : Prop :=
  ∀ field ∈ layout.fields stream, ∀ n ∈ Scalars.at stream 4 field.place, n ≤ field.bound

end Layout

namespace Reader

variable {α β : Type} [Scalars]

/-- The sizes that a layout finds on a stream, each with the length of its array. -/
def sizesOf (layout : Layout) (stream : List UInt8) : List (Option Nat × Nat) :=
  (layout.fields stream).map fun field => (Scalars.at stream 4 field.place, field.bound)

/-- A reader takes the bytes of a layout, and something holds of its value and the sizes there. -/
def Lays (r : Reader α) (layout : Layout) (holds : α → List (Option Nat × Nat) → Prop) : Prop :=
  ∀ stream a rest, r.run stream = some (a, rest) →
    rest = stream.drop (layout.width stream) ∧ holds a (sizesOf layout stream)

variable {holds : α → List (Option Nat × Nat) → Prop} {holds' : β → List (Option Nat × Nat) → Prop}
variable {r : Reader α} {layout layout' : Layout}

/-- The sizes of two values in a row are those of the first and then those of the second. -/
theorem sizesOf_seq (stream : List UInt8) : sizesOf (layout.seq layout') stream
    = sizesOf layout stream ++ sizesOf layout' (stream.drop (layout.width stream)) := by
  unfold sizesOf Layout.seq
  rw [List.map_append, List.map_map]
  refine congrArg₂ _ rfl (List.map_congr_left fun field _ => ?_)
  -- A place in the second value is behind all of the first.
  simp only [Function.comp_apply, Scalars.at, List.drop_drop]

theorem Lays.mono {holds' : α → List (Option Nat × Nat) → Prop} (lays : Lays r layout holds)
    (weaker : ∀ a sizes, holds a sizes → holds' a sizes) : Lays r layout holds' :=
  fun stream a rest read => (lays stream a rest read).imp_right (weaker a _)

/-- A reader of one value after another takes the bytes of both. -/
theorem Lays.bind {f : α → Reader β} (first : Lays r layout holds)
    (second : ∀ a sizes, holds a sizes →
      Lays (f a) layout' fun b more => holds' b (sizes ++ more)) :
    Lays (r >>= f) (layout.seq layout') holds' := by
  intro stream b rest read
  rw [StateT.run_bind, Option.bind_eq_bind, Option.bind_eq_some_iff] at read
  obtain ⟨⟨a, middle⟩, readFirst, readSecond⟩ := read
  obtain ⟨rfl, held⟩ := first stream a middle readFirst
  obtain ⟨rfl, held'⟩ := second a _ held _ b rest readSecond
  -- The second reader goes on where the first one stopped.
  refine ⟨List.drop_drop, ?_⟩
  rw [sizesOf_seq]
  exact held'

/-- The last reader of a row leaves the layout as it is. -/
theorem Lays.last {f : α → β} (first : Lays r layout holds)
    (made : ∀ a sizes, holds a sizes → holds' (f a) sizes) :
    Lays (do return f (← r)) layout holds' := by
  intro stream b rest read
  rw [StateT.run_bind, Option.bind_eq_bind, Option.bind_eq_some_iff] at read
  obtain ⟨⟨a, middle⟩, readFirst, ended⟩ := read
  -- Making the value takes nothing more off the stream.
  obtain ⟨rfl, rfl⟩ : f a = b ∧ middle = rest := by
    cases ended
    exact ⟨rfl, rfl⟩
  exact (first stream a middle readFirst).imp_right (made a _)

/-- Values of the same kind are read one after the other. -/
theorem Lays.times {P : List α → List (Option Nat × Nat) → Prop} (n : Nat)
    (each : Lays r layout holds) (none : P [] [])
    (more : ∀ a sizes as rest, holds a sizes → P as rest → P (a :: as) (sizes ++ rest)) :
    Lays (Reader.times r n) (layout.times n) fun as sizes => P as.1 sizes := by
  -- Induction on the number of values; the first one comes first.
  induction n with
  | zero =>
    intro stream as rest read
    cases read
    exact ⟨rfl, none⟩
  | succ n ih =>
    exact each.bind fun a sizes first => ih.last fun as rest others =>
      more a sizes as.1 rest first others

theorem Lays.ite {c : Prop} [Decidable c] {r' : Reader α} (yes : Lays r layout holds)
    (no : Lays r' layout' holds) :
    Lays (if c then r else r') (if c then layout else layout') holds := by
  split
  · exact yes
  · exact no

/-- A reader takes a fixed number of bytes, none of which are a size. -/
def Takes (r : Reader α) (count : Nat) : Prop := Lays r (.skip count) fun _ sizes => sizes = []

/-- What takes a fixed number of bytes moves the sizes after it. -/
theorem Takes.before {f : α → Reader β} {count : Nat} (first : Takes r count)
    (second : ∀ a, Lays (f a) layout' holds') :
    Lays (r >>= f) ((Layout.skip count).seq layout') holds' :=
  Lays.bind first fun a sizes none => by rw [none]; exact second a

theorem Takes.bind {f : α → Reader β} {count more : Nat} (first : Takes r count)
    (second : ∀ a, Takes (f a) more) : Takes (r >>= f) (count + more) := first.before second

theorem Takes.last {f : α → β} {count : Nat} (first : Takes r count) :
    Takes (do return f (← r)) count :=
  Lays.last first fun _ _ none => none

theorem Takes.times {count : Nat} (n : Nat) (each : Takes r count) :
    Takes (Reader.times r n) (n * count) := by
  have row := Lays.times (P := fun _ sizes => sizes = []) n each rfl
    fun _ sizes _ rest none more => by rw [none, more]; rfl
  -- The layout of a row of skipped bytes is that of all of them.
  rw [Layout.skip_times] at row
  exact row

section Scalar

variable [FixedWidth]

theorem Takes.scalar (width : Nat) : Takes (Scalars.get width) width :=
  fun _ _ _ read => ⟨FixedWidth.takes read, rfl⟩

/-- A size is read where it is. -/
theorem Lays.size (bound : Nat) :
    Lays (Scalars.get 4) (.size bound) fun n sizes => sizes = [(some n, bound)] := by
  intro stream n rest read
  refine ⟨FixedWidth.takes read, ?_⟩
  have found : Scalars.at stream 4 0 = some n := by
    unfold Scalars.at
    rw [List.drop_zero, read]
    rfl
  exact congrArg (fun size => [(size, bound)]) found

/-- What is read after a number may depend on it. -/
theorem Lays.number {width : Nat} {f : Nat → Reader β} {after : Nat → Layout}
    (second : ∀ n, Lays (f n) (after n) holds') :
    Lays (Scalars.get width >>= f) (.number width after) holds' := by
  intro stream b rest read
  rw [StateT.run_bind, Option.bind_eq_bind, Option.bind_eq_some_iff] at read
  obtain ⟨⟨n, middle⟩, readFirst, readSecond⟩ := read
  -- The number that the layout looks up is the one that is read.
  have found : (Scalars.at stream width 0).getD 0 = n := by
    unfold Scalars.at
    rw [List.drop_zero, readFirst]
    rfl
  obtain rfl := FixedWidth.takes readFirst
  obtain ⟨rfl, held⟩ := second n _ b rest readSecond
  have sizes : sizesOf (.number width after) stream
      = sizesOf ((Layout.skip width).seq (after n)) stream := by
    rw [← found]
    rfl
  constructor
  · rw [List.drop_drop, ← found]
    rfl
  · rw [sizes, sizesOf_seq]
    exact held

end Scalar

end Reader

end ParaHotstuff
