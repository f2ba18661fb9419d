import Mathlib.Data.List.Nodup
import Mathlib.Logic.Function.Basic

/-! Families of values on which items act one after the other, each at its own key. -/

namespace ParaHotstuff

namespace KeyedUpdates

variable {ι β α : Type} [DecidableEq ι]

/-- What a list of items makes of a family of values: each acts on the value at its own key. -/
def applyAll (key : β → ι) (act : β → α → α) : List β → (ι → α) → ι → α
  | [], family => family
  | item :: items, family =>
    applyAll key act items (Function.update family (key item) (act item (family (key item))))

variable {key : β → ι} {act : β → α → α} {items : List β} {family : ι → α}

end KeyedUpdates

end ParaHotstuff
