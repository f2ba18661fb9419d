import ParaHotstuff.Lib.Component
import ParaHotstuff.Trusted.Ch
import ParaHotstuff.Trusted.Fun

/-! The trusted components of the basic and the chained protocol, as answering calls. -/

namespace ParaHotstuff

section Statements

variable {State Call : Type} (c : Component State Call Just)

/-- The statement a call signs, if it signs one; a refusing answer is not set. -/
def Component.statement (s : State) (call : Call) : Option RData :=
  match c.answer s call with
  | some (out, _) => if out.set then out.getRData else none
  | none => none

/-- The statements a sequence of calls signs, in order. -/
def Component.signed (s : State) (calls : List Call) : List RData :=
  c.observed c.statement s calls

end Statements

namespace TrustedFun

/-- A call to the component. -/
inductive Call where
  | sign
  | prepare (nodes : Nodes) (hash : Hash) (just : Just)
  | store (nodes : Nodes) (just : Just)

/-- The component, with the answers its functions give. -/
def component : Component TrustedFun Call Just where
  answer tf
    | .sign => some tf.TEEsign
    | .prepare nodes hash just => tf.TEEprepare nodes hash just
    | .store nodes just => tf.TEEstore nodes just

/-- What a call does: it signs the next statement, or it leaves the component as it was. -/
theorem call_cases (tf : TrustedFun) (call : Call) :
    (∃ (tf₁ : TrustedFun) (h1 h2 : Hash) (v2 : View), tf₁.view = tf.view ∧ tf₁.phase = tf.phase
        ∧ component.statement tf call = some (tf₁.statement h1 h2 v2)
        ∧ component.next tf call = tf₁.increment)
      ∨ (component.statement tf call = none ∧ component.next tf call = tf) := by
  cases call with
  | sign => exact .inl ⟨tf, Hash.ofBool false, tf.preph, tf.prepv, rfl, rfl, rfl, rfl⟩
  | prepare nodes hash just =>
    cases answered : tf.TEEprepare nodes hash just with
    | none => exact .inr ⟨by simp [Component.statement, component, answered],
        Component.next_of_throw answered⟩
    | some result =>
      obtain ⟨out, tf'⟩ := result
      have next : component.next tf (.prepare nodes hash just) = tf' :=
        Component.next_of_answer answered
      cases set : out.set with
      | true =>
        obtain ⟨rd, -, -, -, -, -, signed⟩ := TEEprepare_set answered set
        simp only [TrustedFun.sign, Prod.mk.injEq] at signed
        refine .inl ⟨tf, hash, rd.justh, rd.justv, rfl, rfl, ?_, by rw [next, signed.2]⟩
        simp [Component.statement, component, answered, ← signed.1]
      | false =>
        obtain ⟨-, same⟩ := TEEprepare_unset answered set
        exact .inr ⟨by simp [Component.statement, component, answered, set], by rw [next, same]⟩
  | store nodes just =>
    cases answered : tf.TEEstore nodes just with
    | none => exact .inr ⟨by simp [Component.statement, component, answered],
        Component.next_of_throw answered⟩
    | some result =>
      obtain ⟨out, tf'⟩ := result
      have next : component.next tf (.store nodes just) = tf' := Component.next_of_answer answered
      cases set : out.set with
      | true =>
        obtain ⟨rd, -, -, -, -, -, signed⟩ := TEEstore_set answered set
        simp only [TrustedFun.sign, Prod.mk.injEq] at signed
        -- Only the prepared and the locked block move before the signature.
        refine .inl ⟨tf.storeBlock rd.proph rd.propv, rd.proph, Hash.default, 0, rfl, rfl, ?_,
          by rw [next, signed.2]⟩
        simp [Component.statement, component, answered, ← signed.1]
      | false =>
        obtain ⟨-, same⟩ := TEEstore_unset answered set
        exact .inr ⟨by simp [Component.statement, component, answered, set], by rw [next, same]⟩

end TrustedFun

namespace TrustedCh

/-- A call to the component. -/
inductive Call where
  | sign
  | prepare (nodes : Nodes) (block block0 block1 : JBlock)

variable [Hashing] [SignatureBytes]

/-- The component, with the answers its functions give. -/
def component : Component TrustedCh Call Just where
  answer tp
    | .sign => some tp.TEEsign
    | .prepare nodes block block0 block1 => tp.TEEprepare nodes block block0 block1

/-- What a call to prepare does: nothing, record the chain of the block, or also sign the block. -/
theorem prepare_cases (tp : TrustedCh) (nodes : Nodes) (block block0 block1 : JBlock) :
    let call := Call.prepare nodes block block0 block1
    let stored := tp.storeChain block.just block0.just block0 block1
    (tp.checks nodes block block0 = false ∧ component.statement tp call = none
        ∧ component.next tp call = tp)
      ∨ (tp.checks nodes block block0 = true ∧ stored.safeNode block.just = false
        ∧ component.statement tp call = none ∧ component.next tp call = stored)
      ∨ (tp.checks nodes block block0 = true ∧ stored.safeNode block.just = true
        ∧ component.statement tp call
          = some ⟨block.hash, stored.view, Hash.default, 0, stored.phase⟩
        ∧ component.next tp call = stored.increment) := by
  intro call stored
  rcases tp.TEEprepare_cases nodes block block0 block1 with
    ⟨failed, thrown | refused⟩ | ⟨passed, ⟨unsafe', refused⟩ | ⟨safe, signed⟩⟩
  · exact .inl ⟨failed, by simp [Component.statement, component, call, thrown],
      Component.next_of_throw thrown⟩
  · exact .inl ⟨failed, by simp [Component.statement, component, call, refused, Just.default],
      Component.next_of_answer refused⟩
  · exact .inr (.inl ⟨passed, unsafe',
      by simp [Component.statement, component, call, refused, Just.default],
      Component.next_of_answer refused⟩)
  · refine .inr (.inr ⟨passed, safe, ?_, Component.next_of_answer signed⟩)
    simp only [Component.statement, component, call, signed]
    rfl

end TrustedCh

end ParaHotstuff
