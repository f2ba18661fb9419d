import ParaHotstuff.Data.Block

/-! A small hash function, and signatures as short texts, to evaluate concrete runs with. -/

namespace ParaHotstuff

namespace Checksum

/-- The text read as a number in base 257, modulo the number of digests. -/
def number (text : Text) : Nat :=
  text.foldl (fun n byte => (n * 257 + byte.toNat + 1) % 256 ^ 32) 0

/-- The digest whose bytes are the digits of the number. -/
def digest (text : Text) : Digest :=
  ⟨(List.range 32).map fun i => UInt8.ofNat (number text / 256 ^ i % 256), by simp⟩

/-- Blocks named by their checksum. -/
@[reducible] def hashing : Hashing := ⟨digest⟩

/-- Signatures print as the key and the digest of the text they were made on. -/
@[reducible] def signatureBytes : SignatureBytes where
  bytesOf
    | .blank => [zeroChar]
    | .made key text => toText key ++ (digest text).bytes
    | .other n => toText n

end Checksum

end ParaHotstuff
