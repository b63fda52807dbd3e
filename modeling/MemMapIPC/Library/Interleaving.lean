import Mathlib.Logic.Relation
import Mathlib.Tactic.TypeStar

/-!
# Two parties over one shared state

Each party has locals only it can see and steps that read and change them together with the shared
state; a run takes a step of either party at a time. `Reach.of_rely` is the rely-guarantee rule:
an assertion about a party's locals that its own steps keep and the other's changes do not disturb
holds however the two are interleaved.
-/

namespace Interleaving

structure State (Λ₁ Λ₂ σ : Type*) where
  left : Λ₁
  right : Λ₂
  shared : σ

variable {Λ₁ Λ₂ σ : Type*}

/-- A step of one party, the other's locals unchanged. -/
inductive Step (A : Λ₁ × σ → Λ₁ × σ → Prop) (B : Λ₂ × σ → Λ₂ × σ → Prop) :
    State Λ₁ Λ₂ σ → State Λ₁ Λ₂ σ → Prop
  | left {l l' : Λ₁} {r : Λ₂} {s s' : σ} : A (l, s) (l', s') → Step A B ⟨l, r, s⟩ ⟨l', r, s'⟩
  | right {l : Λ₁} {r r' : Λ₂} {s s' : σ} : B (r, s) (r', s') → Step A B ⟨l, r, s⟩ ⟨l, r', s'⟩

variable {A : Λ₁ × σ → Λ₁ × σ → Prop} {B : Λ₂ × σ → Λ₂ × σ → Prop}

/-- The states some interleaving of the two parties' steps leads to from `x`. -/
abbrev Reach (A : Λ₁ × σ → Λ₁ × σ → Prop) (B : Λ₂ × σ → Λ₂ × σ → Prop) :
    State Λ₁ Λ₂ σ → State Λ₁ Λ₂ σ → Prop :=
  Relation.ReflTransGen (Step A B)

theorem Reach.left {l l' : Λ₁} {s s' : σ} (r : Λ₂) (h : Relation.ReflTransGen A (l, s) (l', s')) :
    Reach A B ⟨l, r, s⟩ ⟨l', r, s'⟩ :=
  h.lift (fun q : Λ₁ × σ => (⟨q.1, r, q.2⟩ : State Λ₁ Λ₂ σ)) fun _ _ hq => .left hq

theorem Reach.right {r r' : Λ₂} {s s' : σ} (l : Λ₁) (h : Relation.ReflTransGen B (r, s) (r', s')) :
    Reach A B ⟨l, r, s⟩ ⟨l, r', s'⟩ :=
  h.lift (fun q : Λ₂ × σ => (⟨l, q.1, q.2⟩ : State Λ₁ Λ₂ σ)) fun _ _ hq => .right hq

/-- A step of a party that asserts `I` establishes it again and changes the shared state only as
`G` allows. -/
def Guarantees {Λ : Type*} (S : Λ × σ → Λ × σ → Prop) (I : Λ → σ → Prop) (G : σ → σ → Prop) :
    Prop :=
  ∀ l s l' s', I l s → S (l, s) (l', s') → I l' s' ∧ G s s'

/-- A change of the shared state that `G` allows leaves `I` standing. -/
def Stable {Λ : Type*} (I : Λ → σ → Prop) (G : σ → σ → Prop) : Prop :=
  ∀ l s s', I l s → G s s' → I l s'

variable {I₁ : Λ₁ → σ → Prop} {I₂ : Λ₂ → σ → Prop} {G₁ G₂ : σ → σ → Prop}

theorem Step.of_rely (h₁ : Guarantees A I₁ G₁) (h₂ : Guarantees B I₂ G₂) (s₁ : Stable I₁ G₂)
    (s₂ : Stable I₂ G₁) {x y : State Λ₁ Λ₂ σ} (h : Step A B x y)
    (hx : I₁ x.left x.shared ∧ I₂ x.right x.shared) :
    I₁ y.left y.shared ∧ I₂ y.right y.shared := by
  cases h with
  | left h =>
    obtain ⟨hI, hG⟩ := h₁ _ _ _ _ hx.1 h
    exact ⟨hI, s₂ _ _ _ hx.2 hG⟩
  | right h =>
    obtain ⟨hI, hG⟩ := h₂ _ _ _ _ hx.2 h
    exact ⟨s₁ _ _ _ hx.1 hG, hI⟩

/-- Two parties, each keeping its own assertion and staying within what the other relies on, keep
both through every interleaving. -/
theorem Reach.of_rely (h₁ : Guarantees A I₁ G₁) (h₂ : Guarantees B I₂ G₂) (s₁ : Stable I₁ G₂)
    (s₂ : Stable I₂ G₁) {x y : State Λ₁ Λ₂ σ} (h : Reach A B x y)
    (hx : I₁ x.left x.shared ∧ I₂ x.right x.shared) :
    I₁ y.left y.shared ∧ I₂ y.right y.shared := by
  induction h with
  | refl => exact hx
  | tail _ hs ih => exact hs.of_rely h₁ h₂ s₁ s₂ ih

section Schedules

variable {ι₁ ι₂ : Type*}

/-- The state a schedule leads to, each entry telling one party what to do, if every entry could
be done. -/
def State.play (f : ι₁ → Λ₁ × σ → Option (Λ₁ × σ)) (g : ι₂ → Λ₂ × σ → Option (Λ₂ × σ)) :
    List (ι₁ ⊕ ι₂) → State Λ₁ Λ₂ σ → Option (State Λ₁ Λ₂ σ)
  | [], x => some x
  | .inl i :: rest, x =>
    (f i (x.left, x.shared)).bind fun q => State.play f g rest ⟨q.1, x.right, q.2⟩
  | .inr i :: rest, x =>
    (g i (x.right, x.shared)).bind fun q => State.play f g rest ⟨x.left, q.1, q.2⟩

theorem State.play_reach {f : ι₁ → Λ₁ × σ → Option (Λ₁ × σ)}
    {g : ι₂ → Λ₂ × σ → Option (Λ₂ × σ)} (hf : ∀ i x y, f i x = some y → A x y)
    (hg : ∀ i x y, g i x = some y → B x y) :
    ∀ {schedule : List (ι₁ ⊕ ι₂)} {x y : State Λ₁ Λ₂ σ}, x.play f g schedule = some y →
      Reach A B x y
  | [], x, y, h => by
    cases h
    exact .refl
  | .inl i :: rest, x, y, h => by
    obtain ⟨q, hq, h⟩ := Option.bind_eq_some_iff.1 h
    exact .head (.left (hf i _ _ hq)) (play_reach hf hg h)
  | .inr i :: rest, x, y, h => by
    obtain ⟨q, hq, h⟩ := Option.bind_eq_some_iff.1 h
    exact .head (.right (hg i _ _ hq)) (play_reach hf hg h)

end Schedules

end Interleaving
