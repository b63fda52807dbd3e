import Mathlib.Data.Option.Basic
import MemMapIPC.Library.Interleaving

/-!
# What is seen of a system from outside

Some of a system's steps show an event and the others none, and a behaviour is the events of a run
in order. If every step of one system can be followed by steps of another that show the same and
lead to a state standing for its own, then whatever the first can show the second can too
(`Simulates.behaves`).
-/

namespace Simulation

variable {α β ε : Type*}

/-- A run from `a` to `b` and the events it showed. -/
inductive Behaves (step : α → Option ε → α → Prop) (a : α) : List ε → α → Prop
  | refl : Behaves step a [] a
  | tail {t : List ε} {b c : α} {e : Option ε} : Behaves step a t b → step b e c →
    Behaves step a (t ++ e.toList) c

variable {step : α → Option ε → α → Prop} {step' : β → Option ε → β → Prop} {R : α → β → Prop}
  {a b c : α} {t t' : List ε}

theorem Behaves.trans (h : Behaves step a t b) (h' : Behaves step b t' c) :
    Behaves step a (t ++ t') c := by
  induction h' with
  | refl => rwa [List.append_nil]
  | tail _ hs ih =>
    rw [← List.append_assoc]
    exact ih.tail hs

theorem Behaves.single {e : Option ε} (h : step a e b) : Behaves step a e.toList b := by
  have hrun := Behaves.tail .refl h
  rwa [List.nil_append] at hrun

/-- Each step from a state that `R` relates is followed by steps that show the same. -/
def Simulates (step : α → Option ε → α → Prop) (step' : β → Option ε → β → Prop)
    (R : α → β → Prop) : Prop :=
  ∀ a b e a', R a b → step a e a' → ∃ b', Behaves step' b e.toList b' ∧ R a' b'

theorem Simulates.behaves (hsim : Simulates step step' R) {d : β} (hR : R a d)
    (h : Behaves step a t b) : ∃ d', Behaves step' d t d' ∧ R b d' := by
  induction h with
  | refl => exact ⟨d, .refl, hR⟩
  | tail _ hs ih =>
    obtain ⟨d₁, hd₁, hR₁⟩ := ih
    obtain ⟨d₂, hd₂, hR₂⟩ := hsim _ _ _ _ hR₁ hs
    exact ⟨d₂, hd₁.trans hd₂, hR₂⟩

section Parties

open Interleaving

variable {Λ₁ Λ₂ σ : Type*}

/-- A step of one party, its event shown with whose it is. -/
inductive PartyStep (A : Λ₁ × σ → Option ε → Λ₁ × σ → Prop)
    (B : Λ₂ × σ → Option ε → Λ₂ × σ → Prop) :
    State Λ₁ Λ₂ σ → Option (ε ⊕ ε) → State Λ₁ Λ₂ σ → Prop
  | left {l l' : Λ₁} {r : Λ₂} {s s' : σ} {e : Option ε} : A (l, s) e (l', s') →
    PartyStep A B ⟨l, r, s⟩ (e.map .inl) ⟨l', r, s'⟩
  | right {l : Λ₁} {r r' : Λ₂} {s s' : σ} {e : Option ε} : B (r, s) e (r', s') →
    PartyStep A B ⟨l, r, s⟩ (e.map .inr) ⟨l, r', s'⟩

variable {A : Λ₁ × σ → Option ε → Λ₁ × σ → Prop} {B : Λ₂ × σ → Option ε → Λ₂ × σ → Prop}

theorem PartyStep.behaves_left {l l' : Λ₁} {s s' : σ} (r : Λ₂) {t : List ε}
    (h : Behaves A (l, s) t (l', s')) :
    Behaves (PartyStep A B) ⟨l, r, s⟩ (t.map .inl) ⟨l', r, s'⟩ := by
  generalize hq : (l', s') = q at h
  induction h generalizing l' s' with
  | refl =>
    cases hq
    exact .refl
  | @tail t q₁ q₂ e _ hs ih =>
    subst hq
    have hstep : PartyStep A B ⟨q₁.1, r, q₁.2⟩ (e.map .inl) ⟨l', r, s'⟩ := .left hs
    have hmap : (t ++ e.toList).map (.inl : ε → ε ⊕ ε) = t.map .inl ++ (e.map .inl).toList := by
      cases e <;> simp
    rw [hmap]
    exact (ih rfl).tail hstep

theorem PartyStep.behaves_right {r r' : Λ₂} {s s' : σ} (l : Λ₁) {t : List ε}
    (h : Behaves B (r, s) t (r', s')) :
    Behaves (PartyStep A B) ⟨l, r, s⟩ (t.map .inr) ⟨l, r', s'⟩ := by
  generalize hq : (r', s') = q at h
  induction h generalizing r' s' with
  | refl =>
    cases hq
    exact .refl
  | @tail t q₁ q₂ e _ hs ih =>
    subst hq
    have hstep : PartyStep A B ⟨l, q₁.1, q₁.2⟩ (e.map .inr) ⟨l, r', s'⟩ := .right hs
    have hmap : (t ++ e.toList).map (.inr : ε → ε ⊕ ε) = t.map .inr ++ (e.map .inr).toList := by
      cases e <;> simp
    rw [hmap]
    exact (ih rfl).tail hstep

end Parties

end Simulation
