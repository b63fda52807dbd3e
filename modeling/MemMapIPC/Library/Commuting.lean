import Mathlib.Logic.Relation

/-!
# Parties that do not hinder each other

Each party's step is a function of the state, and two parties' steps can be taken in either order
and lead to the same (`Commutes`). So if one run comes to where no party can go on, then all runs
can come there (`Commutes.reaches_stuck`), and none comes to another such place.
-/

namespace Commuting

open Relation

variable {ι α : Type*} (step : ι → α → Option α)

def Step (a b : α) : Prop := ∃ i, step i a = some b

/-- No party can go on. -/
def Stuck (a : α) : Prop := ∀ i, step i a = none

def Commutes : Prop := ∀ ⦃i j : ι⦄ ⦃a b c : α⦄, i ≠ j → step i a = some b → step j a = some c →
  ∃ d, step j b = some d ∧ step i c = some d

variable {step} {a b c : α}

theorem Commutes.strong (h : Commutes step) (hab : Step step a b) (hac : Step step a c) :
    ∃ d, ReflGen (Step step) b d ∧ ReflTransGen (Step step) c d := by
  obtain ⟨i, hi⟩ := hab
  obtain ⟨j, hj⟩ := hac
  by_cases hij : i = j
  · subst hij
    rw [hi] at hj
    obtain rfl := Option.some.inj hj
    exact ⟨b, .refl, .refl⟩
  · obtain ⟨d, hd, hd'⟩ := h hij hi hj
    exact ⟨d, .single ⟨j, hd⟩, .single ⟨i, hd'⟩⟩

theorem Stuck.eq (h : Stuck step a) (hab : ReflTransGen (Step step) a b) : b = a := by
  rcases hab.cases_head with rfl | ⟨c, ⟨i, hi⟩, -⟩
  · rfl
  · rw [h i] at hi
    cases hi

theorem Commutes.reaches_stuck (h : Commutes step) (hab : ReflTransGen (Step step) a b)
    (hac : ReflTransGen (Step step) a c) (hc : Stuck step c) : ReflTransGen (Step step) b c := by
  obtain ⟨d, hbd, hcd⟩ := church_rosser (fun _ _ _ => h.strong) hab hac
  rwa [hc.eq hcd] at hbd

end Commuting
