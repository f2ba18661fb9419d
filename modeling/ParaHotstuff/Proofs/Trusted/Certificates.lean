import ParaHotstuff.Trusted.Ch
import ParaHotstuff.Trusted.Fun
import ParaHotstuff.Trusted.Para
import ParaHotstuff.Data.Checksum
import ParaHotstuff.Handler.Schedule
import Mathlib.Data.Finset.Dedup
import Mathlib.Data.Finset.Card

/-! How many nodes stand behind the justifications that the trusted components accept. -/

namespace ParaHotstuff

/-- In a world, given by what each node signed, no verified signature of a list is forged. -/
def Ideal (nodes : Nodes) (signs : Signs) (signed : PID → Text → Prop) : Prop :=
  -- Verification looks up the key of the signer that the signature names.
  ∀ s ∈ signs, ∀ info text, nodes.find s.signer = some info → s.verify info.pub text = true →
    signed s.signer text

/-- In every world without forgeries, q distinct nodes have signed the text. -/
def Backs (nodes : Nodes) (q : Nat) (text : Text) (signs : Signs) : Prop :=
  ∀ signed, Ideal nodes signs signed → ∃ Q : Finset PID, q ≤ Q.card ∧ ∀ p ∈ Q, signed p text

/-- A call accepts when it answers with a justification that is set. -/
def accepts {State : Type} (answer : Option (Just × State)) : Bool := answer.any (·.1.set)

/-- Verified signatures stand for as many nodes as they have different signers, and no more. -/
theorem backs_iff {nodes : Nodes} {q : Nat} {text : Text} {signs : Signs}
    (verified : signs.verify nodes text = true) :
    Backs nodes q text signs ↔ q ≤ signs.getSigners.toFinset.card := by
  have real := Signs.verify_iff.1 verified
  constructor
  · intro backed
    -- In one world exactly the named signers have signed.
    obtain ⟨Q, large, members⟩ := backed (fun p _ => p ∈ signs.getSigners)
      fun s member _ _ _ _ => List.mem_map_of_mem member
    have within : Q ⊆ signs.getSigners.toFinset := fun p member =>
      List.mem_toFinset.2 (members p member)
    exact Nat.le_trans large (Finset.card_le_card within)
  · intro large signed ideal
    refine ⟨signs.getSigners.toFinset, large, fun p member => ?_⟩
    obtain ⟨s, held, rfl⟩ := List.mem_map.1 (List.mem_toFinset.1 member)
    obtain ⟨info, known, made⟩ := real s held
    exact ideal s held info text known (Sign.verify_iff.2 made)

/-- A verified list of the right size has enough different signers when none repeats. -/
theorem backs_iff_nodup {nodes : Nodes} {text : Text} {signs : Signs}
    (verified : signs.verify nodes text = true) :
    Backs nodes signs.length text signs ↔ signs.getSigners.Nodup := by
  have size : signs.getSigners.length = signs.length := List.length_map _
  rw [backs_iff verified, ← size]
  constructor
  · intro large
    -- The different signers are at most as many as the signatures.
    have bound := List.toFinset_card_le signs.getSigners
    have same : signs.getSigners.toFinset.card = signs.getSigners.length := by omega
    rw [List.card_toFinset] at same
    exact List.dedup_eq_self.1 (List.Sublist.eq_of_length (List.dedup_sublist _) same)
  · intro distinct
    exact Nat.le_of_eq (List.toFinset_card_of_nodup distinct).symm

/-- A verified list stands for at least one node exactly when it is not empty. -/
theorem backs_one_iff {nodes : Nodes} {text : Text} {signs : Signs}
    (verified : signs.verify nodes text = true) : Backs nodes 1 text signs ↔ signs ≠ [] := by
  rw [backs_iff verified, Nat.succ_le_iff, Finset.card_pos]
  constructor
  · rintro ⟨p, member⟩ rfl
    simp [Signs.getSigners] at member
  · intro some_sign
    obtain ⟨s, member⟩ := List.exists_mem_of_ne_nil signs some_sign
    exact ⟨s.signer, List.mem_toFinset.2 (List.mem_map_of_mem member)⟩

/-- The answer of an accepting call. -/
theorem of_accepts {State : Type} {answer : Option (Just × State)}
    (accepted : accepts answer = true) :
    ∃ out state, answer = some (out, state) ∧ out.set = true := by
  cases answer with
  | none => simp [accepts] at accepted
  | some result => exact ⟨result.1, result.2, rfl, by simpa [accepts] using accepted⟩

/--
When the accepted justifications are backed as they should be.

A certificate of a quorum's size is backed by a quorum exactly when no signer occurs in it
twice; a new-view justification is backed by a node exactly when it is signed at all.
-/
theorem accepted_backed_iff [Hashing] [SignatureBytes] (nodes : Nodes) :
    (∀ (tf : TrustedFun) (just : Just) (rd : RData), just.getRData = some rd →
      accepts (tf.TEEstore nodes just) = true →
        (Backs nodes tf.qsize rd.toString just.signs ↔ just.signs.getSigners.Nodup))
    ∧ (∀ (tp : TrustedPara) (just : Just) (rd : RDataPara) (getBlockFunc : Nat → PBlock),
      just.getRDataPara = some rd → accepts (tp.TEEstore nodes just getBlockFunc) = true →
        (Backs nodes tp.qsize rd.toString just.signs ↔ just.signs.getSigners.Nodup))
    ∧ (∀ (tp : TrustedCh) (block block0 block1 : JBlock) (rd : RData),
      block.just.getRData = some rd → block.just.wellFormedPrep tp.qsize = true →
      accepts (tp.TEEprepare nodes block block0 block1) = true →
        (Backs nodes tp.qsize rd.toString block.just.signs ↔ block.just.signs.getSigners.Nodup))
    ∧ (∀ (tf : TrustedFun) (hash : Hash) (just : Just) (rd : RData), just.getRData = some rd →
      accepts (tf.TEEprepare nodes hash just) = true →
        (Backs nodes 1 rd.toString just.signs ↔ just.signs ≠ []))
    ∧ (∀ (tp : TrustedPara) (block : PBlock) (just : Just) (rd : RDataPara),
      just.getRDataPara = some rd → accepts (tp.TEEprepare nodes block just) = true →
        (Backs nodes 1 rd.toString just.signs ↔ just.signs ≠ []))
    ∧ (∀ (tp : TrustedPara) (just : Just) (rd : RDataPara) (blockHashes : List Hash)
        (checkHashes : Bool), just.getRDataPara = some rd →
      (tp.TEEverifyLeaderQC nodes just blockHashes checkHashes).any (·.set) = true →
        (Backs nodes 1 rd.toString just.signs ↔ just.signs ≠ [])) := by
  -- Each component verifies the signatures; only the size is left to compare.
  refine ⟨?_, ?_, ?_, ?_, ?_, ?_⟩
  · intro tf just rd tagged accepted
    obtain ⟨out, tf', called, set⟩ := of_accepts accepted
    obtain ⟨rd', tagged', size, verified, -⟩ := TrustedFun.TEEstore_set called set
    obtain rfl : rd = rd' := by simpa [tagged] using tagged'
    rw [← size]
    exact backs_iff_nodup verified
  · intro tp just rd getBlockFunc tagged accepted
    obtain ⟨out, tp', called, set⟩ := of_accepts accepted
    obtain ⟨rd', tagged', size, verified, -⟩ := TrustedPara.TEEstore_set called set
    obtain rfl : rd = rd' := by simpa [tagged] using tagged'
    rw [← size]
    exact backs_iff_nodup verified
  · intro tp block block0 block1 rd tagged formed accepted
    obtain ⟨out, tp', called, set⟩ := of_accepts accepted
    obtain ⟨rd', tagged', verified, -⟩ := TrustedCh.TEEprepare_set called set
    obtain rfl : rd = rd' := by simpa [tagged] using tagged'
    have size : block.just.signs.length = tp.qsize := by
      simp only [Just.wellFormedPrep, Bool.and_eq_true, beq_iff_eq] at formed
      exact formed.2
    rw [← size]
    exact backs_iff_nodup verified
  · intro tf hash just rd tagged accepted
    obtain ⟨out, tf', called, set⟩ := of_accepts accepted
    obtain ⟨rd', tagged', verified, -⟩ := TrustedFun.TEEprepare_set called set
    obtain rfl : rd = rd' := by simpa [tagged] using tagged'
    exact backs_one_iff verified
  · intro tp block just rd tagged accepted
    obtain ⟨out, tp', called, set⟩ := of_accepts accepted
    obtain ⟨rd', tagged', verified, -⟩ := TrustedPara.TEEprepare_set called set
    obtain rfl : rd = rd' := by simpa [tagged] using tagged'
    exact backs_one_iff verified
  · intro tp just rd blockHashes checkHashes tagged accepted
    cases called : tp.TEEverifyLeaderQC nodes just blockHashes checkHashes with
    | none => simp [called] at accepted
    | some out =>
      have set : out.set = true := by simpa [called] using accepted
      obtain ⟨rd', tagged', -, verified, -⟩ := TrustedPara.TEEverifyLeaderQC_set called set
      obtain rfl : rd = rd' := by simpa [tagged] using tagged'
      exact backs_one_iff verified

section Repeated

/-- A statement about a block of the first slot of view 0. -/
def oneBlock : RDataPara := ⟨Hash.default, 0, Hash.default, 0, PH1_PREPARE, 1⟩

/-- A certificate of three copies of the signature of node 1. -/
def repeatedSigner : Just :=
  Just.ofRDataPara oneBlock (List.replicate 3 (Sign.ofText 1 1 oneBlock.toString))

/-- A new-view justification that nobody signed. -/
def unsignedNv : Just := Just.ofRDataPara RDataPara.default []

/--
Among four nodes, three copies of one signature pass as a certificate of three nodes, and no
signature at all passes as a new-view justification.
-/
theorem accepted_unbacked :
    let _ := Checksum.hashing
    let nodes := Schedule.fourNodes.nodes
    let tp := TrustedPara.init 0 0 Schedule.fourNodes.qsize
    (accepts (tp.TEEstore nodes repeatedSigner fun _ => PBlock.default) = true
      ∧ ¬ Backs nodes tp.qsize oneBlock.toString repeatedSigner.signs)
    ∧ accepts (tp.TEEprepare nodes PBlock.default unsignedNv) = true
      ∧ ¬ Backs nodes 1 RDataPara.default.toString unsignedNv.signs := by
  refine ⟨⟨by decide +kernel, fun backed => ?_⟩, by decide +kernel, fun backed => ?_⟩
  · -- All three signatures name the same signer.
    have enough := (backs_iff (show repeatedSigner.signs.verify Schedule.fourNodes.nodes
      oneBlock.toString = true by decide +kernel)).1 backed
    exact absurd enough (by decide +kernel)
  · have enough := (backs_iff (show unsignedNv.signs.verify Schedule.fourNodes.nodes
      RDataPara.default.toString = true by decide +kernel)).1 backed
    exact absurd enough (by decide +kernel)

end Repeated

end ParaHotstuff
