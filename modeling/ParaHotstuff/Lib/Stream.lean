import Mathlib.Algebra.Group.Nat.Defs
import Mathlib.Tactic.Common

/-! Byte streams: readers that take a value off the front, and how they undo writers. -/

namespace ParaHotstuff

/-- A reader takes a value off the front of a stream of bytes, unless the stream is too short. -/
abbrev Reader (α : Type) : Type := StateT (List UInt8) Option α

/--
Fixed-width scalars on a stream.

Writing one appends as many bytes as its width, and reading takes the same bytes off the
front and gives the scalar back.
-/
class Scalars where
  put : Nat → Nat → List UInt8
  get : Nat → Reader Nat
  get_put : ∀ width n rest, n < 256 ^ width →
    (get width).run (put width n ++ rest) = some (n, rest)

namespace Reader

variable {α β : Type}

/-- Read as many values as asked for. -/
def times (r : Reader α) : (n : Nat) → Reader {xs : List α // xs.length = n}
  | 0 => return ⟨[], rfl⟩
  | n + 1 => do
    let x ← r
    let xs ← times r n
    return ⟨x :: xs.1, by rw [List.length_cons, xs.2]⟩

/-- A reader reads a value from its bytes, exactly, whatever comes after them. -/
def Reads (r : Reader α) (bytes : List UInt8) (a : α) : Prop :=
  ∀ rest, r.run (bytes ++ rest) = some (a, rest)

/-- A reader that takes nothing reads its value from no bytes. -/
theorem Reads.pure (a : α) : Reads (return a) [] a := fun _ => rfl

/-- Two readers in a row read what was written in a row. -/
theorem Reads.bind {r : Reader α} {f : α → Reader β} {bytes more : List UInt8} {a : α} {b : β}
    (first : Reads r bytes a) (second : Reads (f a) more b) :
    Reads (r >>= f) (bytes ++ more) b := by
  intro rest
  rw [StateT.run_bind, List.append_assoc, first]
  exact second rest

/-- The last reader of a row leaves nothing more to read. -/
theorem Reads.last {r : Reader α} {f : α → β} {bytes : List UInt8} {a : α}
    (first : Reads r bytes a) : Reads (do return f (← r)) bytes (f a) := by
  have row := first.bind (f := fun x => Pure.pure (f x)) (Reads.pure (f a))
  rwa [List.append_nil] at row

/-- Values written one after the other are read back by reading as many. -/
theorem Reads.times {r : Reader α} {write : α → List UInt8} {xs : List α} {n : Nat}
    (size : xs.length = n) (each : ∀ x ∈ xs, Reads r (write x) x) :
    Reads (times r n) (xs.flatMap write) ⟨xs, size⟩ := by
  -- Induction on the values; the first one is read first.
  subst size
  induction xs with
  | nil => exact Reads.pure _
  | cons x xs ih =>
    have rest := ih fun y member => each y (List.mem_cons_of_mem _ member)
    exact Reads.bind (each x List.mem_cons_self) rest.last

/-- A scalar is read back if it fits its width. -/
theorem Reads.scalar [Scalars] {width n : Nat} (fits : n < 256 ^ width) :
    Reads (Scalars.get width) (Scalars.put width n) n := fun rest =>
  Scalars.get_put width n rest fits

end Reader

namespace Scalars

/-- The bytes of a number, the lowest first. -/
def littleBytes : Nat → Nat → List UInt8
  | 0, _ => []
  | width + 1, n => UInt8.ofNat (n % 256) :: littleBytes width (n / 256)

/-- The number whose lowest byte comes first. -/
def littleNumber : List UInt8 → Nat
  | [] => 0
  | byte :: bytes => byte.toNat + 256 * littleNumber bytes

theorem length_littleBytes (width n : Nat) : (littleBytes width n).length = width := by
  induction width generalizing n with
  | zero => rfl
  | succ width ih => rw [littleBytes, List.length_cons, ih]

/-- The bytes of a number that fits their width make up that number. -/
theorem littleNumber_littleBytes (width n : Nat) (fits : n < 256 ^ width) :
    littleNumber (littleBytes width n) = n := by
  -- Each byte takes the remainder modulo 256 and leaves the quotient.
  induction width generalizing n with
  | zero =>
    have zero : n = 0 := by simpa using fits
    rw [zero]
    rfl
  | succ width ih =>
    have quotient : n / 256 < 256 ^ width := by
      rw [Nat.pow_succ] at fits
      omega
    have remainder : (UInt8.ofNat (n % 256)).toNat = n % 256 := by
      rw [UInt8.toNat_ofNat']
      omega
    rw [littleBytes, littleNumber, ih _ quotient, remainder]
    omega

/-- Scalars as most machines lay them out, the lowest byte first. -/
@[reducible] def littleEndian : Scalars where
  put := littleBytes
  get width := fun stream =>
    if width ≤ stream.length then some (littleNumber (stream.take width), stream.drop width)
    else none
  get_put := by
    intro width n rest fits
    have size := length_littleBytes width n
    have enough : width ≤ (littleBytes width n ++ rest).length := by
      rw [List.length_append, size]
      omega
    have front : (littleBytes width n ++ rest).take width = littleBytes width n := by
      rw [List.take_append_of_le_length (by omega), List.take_of_length_le (by omega)]
    have back : (littleBytes width n ++ rest).drop width = rest := by
      rw [List.drop_append_of_le_length (by omega), List.drop_of_length_le (by omega)]
      rfl
    simp only [StateT.run, if_pos enough, front, back, littleNumber_littleBytes width n fits]

end Scalars

end ParaHotstuff
