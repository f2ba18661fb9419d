import ParaHotstuff.Data.Hash

/-! Signatures, the lists of them that certificates carry, and the table of public keys. -/

namespace ParaHotstuff

/-- A key pair goes by one name for its private and its public half. -/
abbrev KEY := Nat

/--
The bytes of a signature, by where they come from.

Only the owner of a key can make a signature that verifies under it, so the bytes are kept
as the pair they certify.
-/
inductive SigVal where
  | blank
  | made (key : KEY) (text : Text)
  | other (bytes : Nat)
deriving DecidableEq, Repr

/-- A signature names the node that claims to have made it. -/
structure Sign where
  set : Bool
  signer : PID
  sign : SigVal
deriving DecidableEq, Repr

namespace Sign

/-- Sign a text with a private key, in the name of a node. -/
def ofText (priv : KEY) (signer : PID) (text : Text) : Sign :=
  ⟨true, signer, .made priv text⟩

/-- A signature verifies under the key it was made with, on the text it was made on. -/
def verify (s : Sign) (pub : KEY) (text : Text) : Bool := s.sign == .made pub text

/-- Verification succeeds exactly on signatures made with the key on the text. -/
@[simp] theorem verify_iff {s : Sign} {pub : KEY} {text : Text} :
    s.verify pub text = true ↔ s.sign = .made pub text := by
  simp [verify]

end Sign

/-- What a node knows about a peer: its id and its public key. -/
structure NodeInfo where
  id : PID
  pub : KEY
deriving DecidableEq, Repr

/-- The table of known nodes. -/
structure Nodes where
  nodes : List NodeInfo
deriving Repr

namespace Nodes

/-- Look up a node by its id. -/
def find (nodes : Nodes) (id : PID) : Option NodeInfo :=
  nodes.nodes.find? fun info => info.id == id

/-- The table of a system in which node number i owns key number i. -/
def upTo (total : Nat) : Nodes := ⟨(List.range total).map fun i => ⟨i, i⟩⟩

/-- In such a table exactly the numbered nodes are known, each with its own key. -/
theorem find_upTo {total : Nat} {id : PID} {info : NodeInfo}
    (found : (upTo total).find id = some info) : id < total ∧ info.pub = id := by
  have member := List.mem_of_find?_eq_some found
  have named := List.find?_some found
  simp only [upTo, List.mem_map, List.mem_range, beq_iff_eq] at member named
  obtain ⟨i, within, rfl⟩ := member
  exact ⟨named ▸ within, named⟩

/-- Every numbered node is known there. -/
theorem find_upTo_of_lt {total : Nat} {id : PID} (known : id < total) :
    (upTo total).find id = some ⟨id, id⟩ := by
  cases found : (upTo total).find id with
  | some info =>
    have named : info.id = id := by simpa using List.find?_some found
    have owned : info.pub = id := (find_upTo found).2
    obtain ⟨number, key⟩ := info
    rw [show number = id from named, show key = id from owned]
  | none =>
    have missing := List.find?_eq_none.1 found ⟨id, id⟩ (by simpa [upTo] using known)
    simp at missing

end Nodes

/-- The signatures of a certificate, in order. -/
abbrev Signs := List Sign

namespace Signs

/-- The ids the signatures claim. -/
def getSigners (signs : Signs) : List PID := signs.map (·.signer)

/-- Every signature must verify on the text under the key of the node it names. -/
def verify (nodes : Nodes) (text : Text) : Signs → Bool
  | [] => true
  | sign :: rest =>
    match nodes.find sign.signer with
    | some info => if sign.verify info.pub text then verify nodes text rest else false
    | none => false

/-- Add signatures from the front of others as long as fewer than n are held. -/
def addUpto (signs others : Signs) (n : Nat) : Signs := signs ++ others.take (n - signs.length)

/-- Order by the number of signatures, then by the first pair of signers that differ. -/
def lt (a b : Signs) : Bool :=
  if a.length < b.length then true
  else if b.length < a.length then false
  else go a b
where
  go : Signs → Signs → Bool
    | x :: xs, y :: ys =>
      if x.signer < y.signer then true else if y.signer < x.signer then false else go xs ys
    | _, _ => false

/-- Lists of signatures that are not ordered either way have the same signers. -/
theorem getSigners_of_equivalent {a b : Signs} (first : lt a b = false)
    (second : lt b a = false) : a.getSigners = b.getSigners := by
  -- They are equally long, so their signers are compared one after the other.
  have general : ∀ xs ys : Signs, xs.length = ys.length → lt.go xs ys = false →
      lt.go ys xs = false → xs.getSigners = ys.getSigners := by
    intro xs
    induction xs with
    | nil =>
      intro ys same _ _
      rw [List.eq_nil_of_length_eq_zero same.symm]
    | cons x xs ih =>
      intro ys same first second
      cases ys with
      | nil => simp at same
      | cons y ys =>
        simp only [lt.go] at first second
        by_cases before : x.signer < y.signer
        · simp [before] at first
        by_cases after : y.signer < x.signer
        · simp [after] at second
        simp only [if_neg before, if_neg after] at first second
        have signer : x.signer = y.signer := Nat.le_antisymm (Nat.not_lt.1 after) (Nat.not_lt.1 before)
        have rest := ih ys (by simpa using same) first second
        simp only [getSigners, List.map_cons, signer, List.cons.injEq, true_and]
        exact rest
  unfold lt at first second
  by_cases shorter : a.length < b.length
  · simp [shorter] at first
  by_cases longer : b.length < a.length
  · simp [longer] at second
  simp only [if_neg shorter, if_neg longer] at first second
  exact general a b (by omega) first second

/-- A list verifies exactly when each of its signatures verifies under its signer's key. -/
theorem verify_iff {nodes : Nodes} {text : Text} {signs : Signs} :
    verify nodes text signs = true ↔
      ∀ s ∈ signs, ∃ info, nodes.find s.signer = some info ∧ s.sign = .made info.pub text := by
  -- The loop stops at the first unknown signer or bad signature.
  induction signs with
  | nil => simp [verify]
  | cons sign rest ih =>
    cases known : nodes.find sign.signer with
    | none => simp [verify, known]
    | some info =>
      by_cases good : sign.sign = .made info.pub text
      · simp [verify, known, good, ih]
      · simp [verify, known, good]

/-- A valid signature of a node on a text is among some signatures. -/
def SignedBy (nodes : Nodes) (p : PID) (text : Text) (signs : Signs) : Prop :=
  ∃ s ∈ signs, s.signer = p ∧ ∃ info, nodes.find p = some info ∧ s.verify info.pub text = true

/-- Where all signatures are verified, a node signed exactly if it is named as a signer. -/
theorem signedBy_of_verify {nodes : Nodes} {p : PID} {text : Text} {signs : Signs}
    (verified : verify nodes text signs = true) :
    SignedBy nodes p text signs ↔ p ∈ signs.getSigners := by
  constructor
  · rintro ⟨s, member, rfl, _⟩
    exact List.mem_map.2 ⟨s, member, rfl⟩
  · intro named
    obtain ⟨s, member, rfl⟩ := List.mem_map.1 named
    obtain ⟨info, found, made⟩ := verify_iff.1 verified s member
    exact ⟨s, member, rfl, info, found, Sign.verify_iff.2 made⟩

end Signs

end ParaHotstuff
