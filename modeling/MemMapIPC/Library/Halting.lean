import Mathlib.Logic.Relation
import Mathlib.Order.WellFounded
import Mathlib.Tactic.TypeStar

/-!
# A machine that takes one step at a time

`Halts` is that the machine is done after finitely many steps. It is proved by a measure every step
lowers, and refuted by a property every step keeps.
-/

namespace Halting

variable {α : Type*} (step : α → Option α) (done : α → Prop)

inductive Halts : α → Prop
  | done {a : α} : done a → Halts a
  | step {a b : α} : step a = some b → Halts b → Halts a

variable {step done} {P : α → Prop} {a : α}

theorem Halts.of_measure {β : Type*} [LT β] [WellFoundedLT β] (μ : α → β)
    (h : ∀ a, P a → ¬done a → ∃ b, step a = some b ∧ P b ∧ μ b < μ a) (ha : P a) :
    Halts step done a := by
  induction hm : μ a using WellFoundedLT.induction generalizing a with
  | ind x ih =>
    by_cases hd : done a
    · exact .done hd
    · obtain ⟨b, hs, hb, hlt⟩ := h a ha hd
      exact .step hs (ih _ (hm ▸ hlt) hb rfl)

theorem Halts.not_of_invariant (hstep : ∀ a b, P a → step a = some b → P b)
    (hdone : ∀ a, P a → ¬done a) (ha : P a) : ¬Halts step done a := by
  intro h
  induction h with
  | done hd => exact hdone _ ha hd
  | step hs _ ih => exact ih (hstep _ _ ha hs)

theorem Halts.exists_done (h : Halts step done a) :
    ∃ b, Relation.ReflTransGen (fun x y => step x = some y) a b ∧ done b := by
  induction h with
  | done hd => exact ⟨_, .refl, hd⟩
  | step hs _ ih =>
    obtain ⟨b, hb, hd⟩ := ih
    exact ⟨b, .head hs hb, hd⟩

end Halting
