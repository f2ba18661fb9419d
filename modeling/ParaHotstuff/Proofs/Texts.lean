import ParaHotstuff.Data.Just
import ParaHotstuff.Handler.Schedule

/-! When different round data is signed under the same text. -/

namespace ParaHotstuff

namespace RData

/-- Two statements write each of their views with as many digits. -/
def SameWidths (r r' : RData) : Prop :=
  (toText r.propv).length = (toText r'.propv).length
    ∧ (toText r.justv).length = (toText r'.justv).length

/-- Statements with the same text are the same exactly when their views have as many digits. -/
theorem eq_iff_sameWidths {r r' : RData} (same : r.toString = r'.toString) :
    r = r' ↔ SameWidths r r' := by
  constructor
  · rintro rfl
    exact ⟨rfl, rfl⟩
  · rintro ⟨propvs, justvs⟩
    -- The hashes have a fixed width; the views split off by their digits, and the rest is the phase.
    simp only [toString, List.append_assoc] at same
    obtain ⟨proph, same⟩ := Hash.of_append same
    obtain ⟨propv, same⟩ := number_of_append same propvs
    obtain ⟨justh, same⟩ := Hash.of_append same
    obtain ⟨justv, same⟩ := number_of_append same justvs
    have phase := UInt8.toNat_inj.1 (toText_injective same)
    cases r
    cases r'
    simp_all

end RData

namespace RDataPara

/-- Two statements write each of their views and their phase with as many digits. -/
def SameWidths (r r' : RDataPara) : Prop :=
  (toText r.propv).length = (toText r'.propv).length
    ∧ (toText r.justv).length = (toText r'.justv).length
    ∧ (toText r.phase.toNat).length = (toText r'.phase.toNat).length

/-- Statements with the same text are the same exactly when these numbers have as many digits. -/
theorem eq_iff_sameWidths {r r' : RDataPara} (same : r.toString = r'.toString) :
    r = r' ↔ SameWidths r r' := by
  constructor
  · rintro rfl
    exact ⟨rfl, rfl, rfl⟩
  · rintro ⟨propvs, justvs, phases⟩
    simp only [toString, List.append_assoc] at same
    obtain ⟨proph, same⟩ := Hash.of_append same
    obtain ⟨propv, same⟩ := number_of_append same propvs
    obtain ⟨justh, same⟩ := Hash.of_append same
    obtain ⟨justv, same⟩ := number_of_append same justvs
    -- What is left after the phase is the slot number.
    obtain ⟨phase, same⟩ := number_of_append same phases
    have phase := UInt8.toNat_inj.1 phase
    have slot := toText_injective same
    cases r
    cases r'
    simp_all

end RDataPara

/-- Signatures that verify on two texts were made on both, so the texts are the same. -/
theorem Signs.text_of_verify {nodes : Nodes} {signs : Signs} {text text' : Text}
    (nonempty : signs ≠ []) (verified : signs.verify nodes text = true)
    (verified' : signs.verify nodes text' = true) : text = text' := by
  obtain ⟨s, member⟩ := List.exists_mem_of_ne_nil signs nonempty
  obtain ⟨info, known, made⟩ := Signs.verify_iff.1 verified s member
  obtain ⟨info', known', made'⟩ := Signs.verify_iff.1 verified' s member
  -- The signer has one key, and the signature was made on one text.
  obtain rfl := Option.some.inj (known.symm.trans known')
  rw [made] at made'
  injection made'

/-- Statements with one text, or with one list of signatures, are the same exactly when their
numbers have as many digits. -/
theorem toString_injective_iff (nodes : Nodes) (signs : Signs) (p p' : RDataPara) (q q' : RData) :
    (p.toString = p'.toString → (p = p' ↔ p.SameWidths p'))
    ∧ (q.toString = q'.toString → (q = q' ↔ q.SameWidths q'))
    ∧ (signs ≠ [] → signs.verify nodes p.toString = true → signs.verify nodes p'.toString = true →
      (p = p' ↔ p.SameWidths p'))
    ∧ (signs ≠ [] → signs.verify nodes q.toString = true → signs.verify nodes q'.toString = true →
      (q = q' ↔ q.SameWidths q')) := by
  refine ⟨RDataPara.eq_iff_sameWidths, RData.eq_iff_sameWidths, ?_, ?_⟩
  · intro nonempty verified verified'
    exact RDataPara.eq_iff_sameWidths (Signs.text_of_verify nonempty verified verified')
  · intro nonempty verified verified'
    exact RData.eq_iff_sameWidths (Signs.text_of_verify nonempty verified verified')

/-- A pre-commit statement for slot 31 on a justified block of view 1. -/
def slotThirtyOne : RDataPara := ⟨Hash.default, 20, Hash.default, 1, PH1_PRECOMMIT, 31⟩

/-- A commit statement for slot 1 on a justified block of view 12. -/
def slotOne : RDataPara := ⟨Hash.default, 20, Hash.default, 12, PH1_COMMIT, 1⟩

/-- A prepare statement of view 1 that justifies the genesis block in view 10. -/
def genesisJust : RData := ⟨Hash.default, 1, Hash.default, 10, PH1_PREPARE⟩

/-- The statement of view 10 whose justified hash leaves its first digit to the view before it. -/
def shiftedJust : RData :=
  ⟨Hash.default, 10, ⟨⟨List.replicate 31 zeroChar ++ [49], by decide⟩, true⟩, 0, PH1_PREPARE⟩

/-- The vote for slot 31 has the text of the commit for slot 1, and one signature fits both. -/
theorem toString_not_injective :
    (slotThirtyOne.toString = slotOne.toString ∧ slotThirtyOne ≠ slotOne)
    ∧ (genesisJust.toString = shiftedJust.toString ∧ genesisJust ≠ shiftedJust)
    ∧ Signs.verify Schedule.fourNodes.nodes slotOne.toString
      [Sign.ofText 1 1 slotThirtyOne.toString] = true := by
  decide +kernel

end ParaHotstuff
