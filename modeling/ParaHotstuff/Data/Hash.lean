import Mathlib.Algebra.Group.Nat.Defs
import Mathlib.Data.List.Basic
import Mathlib.Tactic.Common

/-! Identifiers, phases, texts, and the hashes that name blocks. -/

namespace ParaHotstuff

/-- Process ids, client ids, transaction ids and views are 32-bit counters. -/
abbrev PID := Nat
abbrev CID := Nat
abbrev TID := Nat
abbrev View := Nat

/-- The number of values a 32-bit unsigned counter takes. -/
def wordSize : Nat := 2 ^ 32

/-- Phases travel as one byte; these are the codes the protocols use. -/
abbrev Phase1 := UInt8

def PH1_NEWVIEW : Phase1 := 0x0
def PH1_PREPARE : Phase1 := 0x1
def PH1_PRECOMMIT : Phase1 := 0x2
def PH1_COMMIT : Phase1 := 0x3
def PH1_RECOVER : Phase1 := 0x4
def PH1_VERIFY : Phase1 := 0x5
def PH1_PARALLEL : Phase1 := 0x6

/-- A text is the string of bytes that is hashed or signed. -/
abbrev Text := List UInt8

/-- The character '0', which fills every hash and signature that was never set. -/
def zeroChar : UInt8 := 48

/-- The decimal digits of a number, as std::to_string writes them. -/
def toText (n : Nat) : Text :=
  (Nat.toDigits 10 n).map fun digit => UInt8.ofNat digit.toNat

/-- A flag prints as the digit 0 or 1. -/
def flagText (b : Bool) : Text := [if b then 49 else 48]

/-- Reading the digits of a number gives that number back. -/
theorem toText_injective {n m : Nat} (same : toText n = toText m) : n = m := by
  -- Every digit is a character below 256, so its byte determines it.
  have digits : ∀ k, (toText k).map (fun byte => Char.ofNat byte.toNat) = Nat.toDigits 10 k := by
    intro k
    rw [toText, List.map_map]
    refine Eq.trans (List.map_congr_left fun c member => ?_) (List.map_id _)
    have digit := Nat.isDigit_of_mem_toDigits (by omega) (by omega) member
    have bounds : 48 ≤ c.toNat ∧ c.toNat ≤ 57 := by
      simpa [Char.isDigit, UInt32.le_iff_toNat_le] using digit
    have small : c.toNat % 2 ^ 8 = c.toNat := Nat.mod_eq_of_lt (by omega)
    change Char.ofNat (UInt8.ofNat c.toNat).toNat = c
    rw [UInt8.toNat_ofNat', small, Char.ofNat_toNat]
  calc n = Nat.ofDigitChars 10 (Nat.toDigits 10 n) 0 := Nat.ofDigitChars_ten_toDigits.symm
    _ = Nat.ofDigitChars 10 (Nat.toDigits 10 m) 0 := by rw [← digits n, same, digits m]
    _ = m := Nat.ofDigitChars_ten_toDigits

/-- Texts that begin with a number of as many digits begin with the same number. -/
theorem number_of_append {n m : Nat} {rest rest' : Text} (same : toText n ++ rest = toText m ++ rest')
    (width : (toText n).length = (toText m).length) : n = m ∧ rest = rest' := by
  obtain ⟨front, back⟩ := List.append_inj same width
  exact ⟨toText_injective front, back⟩

/-- A flag is determined by how it prints. -/
theorem flagText_injective {a b : Bool} (same : flagText a = flagText b) : a = b := by
  cases a <;> cases b <;> first | rfl | exact absurd same (by decide)

/-- The thirty-two bytes of a SHA-256 digest. -/
structure Digest where
  bytes : Text
  size : bytes.length = 32
deriving DecidableEq, Repr

/-- The digest whose thirty-two bytes are all the character '0'. -/
def Digest.zero : Digest := ⟨List.replicate 32 zeroChar, by simp⟩

/-- Two digests with the same bytes are the same digest. -/
theorem Digest.ext_bytes {a b : Digest} (same : a.bytes = b.bytes) : a = b := by
  cases a; cases b; simpa using same

/-- A hash is a digest with a mark; the mark is false for the dummy hash. -/
structure Hash where
  hash : Digest
  set : Bool
deriving DecidableEq, Repr

namespace Hash

/-- The hash of the genesis block is the zero digest; with false it is the dummy hash. -/
def ofBool (b : Bool) : Hash := ⟨Digest.zero, b⟩

/-- The hash built without arguments is the one of the genesis block. -/
def default : Hash := ofBool true

def isDummy (h : Hash) : Bool := !h.set

/-- The signed text of a hash is its bytes followed by its mark. -/
def toString (h : Hash) : Text := h.hash.bytes ++ flagText h.set

/-- Equality compares the bytes only and ignores the mark. -/
instance : BEq Hash := ⟨fun a b => a.hash.bytes == b.hash.bytes⟩

/-- Two hashes compare equal exactly when their digests are the same. -/
@[simp] theorem beq_iff {a b : Hash} : (a == b) = true ↔ a.hash = b.hash := by
  change (a.hash.bytes == b.hash.bytes) = true ↔ _
  rw [beq_iff_eq]
  exact ⟨Digest.ext_bytes, fun same => by rw [same]⟩

/-- Every hash prints as thirty-three bytes. -/
@[simp] theorem length_toString (h : Hash) : h.toString.length = 33 := by
  simp [toString, flagText, h.hash.size]

/-- Texts that begin with a hash determine it, and what comes after it. -/
theorem of_append {a b : Hash} {rest rest' : Text}
    (same : a.toString ++ rest = b.toString ++ rest') : a = b ∧ rest = rest' := by
  -- Both hashes print with the same length, so the texts split at the same place.
  obtain ⟨front, back⟩ := List.append_inj same (by simp)
  obtain ⟨bytes, mark⟩ := List.append_inj front (by simp [a.hash.size, b.hash.size])
  obtain ⟨digest, set⟩ := a
  obtain ⟨digest', set'⟩ := b
  have digests : digest = digest' := Digest.ext_bytes bytes
  have marks : set = set' := flagText_injective mark
  exact ⟨by rw [digests, marks], back⟩

/-- Texts that begin with a hash determine its digest. -/
theorem digest_of_append {a b : Hash} {rest rest' : Text}
    (same : a.toString ++ rest = b.toString ++ rest') : a.hash = b.hash := by
  rw [(of_append same).1]

end Hash

/-- The hash function that names blocks. -/
class Hashing where
  sha256 : Text → Digest

/-- The hash of a text, which is always set. -/
def hashText [Hashing] (text : Text) : Hash := ⟨Hashing.sha256 text, true⟩

@[simp] theorem set_hashText [Hashing] (text : Text) : (hashText text).set = true := rfl

end ParaHotstuff
