import Mathlib.Logic.Relation
import Mathlib.Order.WellFounded
import Mathlib.Tactic.TypeStar

/-!
# Runs without end

In a `Run` some party takes a step at each time. `Run.reaches` is the rule for what a run comes to
if the parties that matter are not left out for good: each state has a party that can bring the
goal nearer, and nobody's step takes it farther away.
-/

namespace Fair

variable {ι α β : Type*} {step : ι → α → α → Prop}

structure Run (step : ι → α → α → Prop) where
  state : ℕ → α
  turn : ℕ → ι
  next : ∀ i, step (turn i) (state i) (state (i + 1))

namespace Run

/-- The party's turn comes again and again. -/
def Often (ρ : Run step) (a : ι) : Prop := ∀ i, ∃ j ≥ i, ρ.turn j = a

variable {P Q : α → Prop} (ρ : Run step)

theorem always (hstep : ∀ {a x y}, P x → step a x y → P y) (h : P (ρ.state 0)) (i : ℕ) :
    P (ρ.state i) := by
  induction i with
  | zero => exact h
  | succ i ih => exact hstep ih (ρ.next i)

theorem reach (i : ℕ) :
    Relation.ReflTransGen (fun x y => ∃ a, step a x y) (ρ.state 0) (ρ.state i) := by
  induction i with
  | zero => exact .refl
  | succ i ih => exact ih.tail ⟨_, ρ.next i⟩

/-- The run from time `i` on. -/
def drop (i : ℕ) : Run step where
  state := fun j => ρ.state (i + j)
  turn := fun j => ρ.turn (i + j)
  next := fun j => ρ.next (i + j)

theorem Often.drop {ρ : Run step} {a : ι} (h : ρ.Often a) (i : ℕ) : (ρ.drop i).Often a := by
  intro j
  obtain ⟨k, hk, hturn⟩ := h (i + j)
  refine ⟨k - i, by omega, ?_⟩
  show ρ.turn (i + (k - i)) = a
  rwa [Nat.add_sub_cancel' (by omega)]

/-- If every step from `P` reaches `Q`, or stays in `P` and lowers `μ`, or leaves `μ` and the party
to act as they were and is not that party's, and that party's turn comes as long as `P` holds, then
`P` holds until `Q` does. -/
theorem reaches [LT β] [WellFoundedLT β] {μ : α → β} {helper : α → ι}
    (hstep : ∀ {a x y}, P x → step a x y → Q y
      ∨ P y ∧ (μ y < μ x ∨ a ≠ helper x ∧ helper y = helper x ∧ μ y = μ x))
    (hturn : ∀ i, (∀ k < i, P (ρ.state k)) → P (ρ.state i) →
      ∃ j ≥ i, ρ.turn j = helper (ρ.state i))
    (h : P (ρ.state 0)) : ∃ j, Q (ρ.state j) ∧ ∀ k < j, P (ρ.state k) := by
  have key : ∀ (m : β) (i : ℕ), μ (ρ.state i) = m → (∀ k < i, P (ρ.state k)) → P (ρ.state i) →
      ∃ j, Q (ρ.state j) ∧ ∀ k < j, P (ρ.state k) := by
    intro m
    induction m using WellFoundedLT.induction with
    | ind m ih =>
      intro i hm hlt hi
      obtain ⟨j, hij, hj⟩ := hturn i hlt hi
      have hwait : ∀ l ≥ i, l ≤ j → (∃ j, Q (ρ.state j) ∧ ∀ k < j, P (ρ.state k))
          ∨ (∀ k < l, P (ρ.state k)) ∧ P (ρ.state l) ∧ μ (ρ.state l) = m
            ∧ helper (ρ.state l) = helper (ρ.state i) := by
        intro l hil
        induction l, hil using Nat.le_induction with
        | base => exact fun _ => .inr ⟨hlt, hi, hm, rfl⟩
        | succ l hil ihl =>
          intro hlj
          rcases ihl (by omega) with hq | ⟨hlt, hP, hμ, hh⟩
          · exact .inl hq
          have hlt' := Nat.forall_lt_succ_right.2 ⟨hlt, hP⟩
          rcases hstep hP (ρ.next l) with hq | ⟨hP', hlow | ⟨-, hh', hμ'⟩⟩
          · exact .inl ⟨l + 1, hq, hlt'⟩
          · rw [hμ] at hlow
            exact .inl (ih _ hlow (l + 1) rfl hlt' hP')
          · exact .inr ⟨hlt', hP', hμ'.trans hμ, hh'.trans hh⟩
      rcases hwait j hij le_rfl with hq | ⟨hlt, hP, hμ, hh⟩
      · exact hq
      have hlt' := Nat.forall_lt_succ_right.2 ⟨hlt, hP⟩
      rcases hstep hP (ρ.next j) with hq | ⟨hP', hlow | ⟨hne, -⟩⟩
      · exact ⟨j + 1, hq, hlt'⟩
      · rw [hμ] at hlow
        exact ih _ hlow (j + 1) rfl hlt' hP'
      · exact absurd (hj.trans hh.symm) hne
  exact key _ 0 rfl (fun k hk => absurd hk (Nat.not_lt_zero k)) h

/-- What no step raises comes to rest. -/
theorem settles {lt : β → β → Prop} (μ : α → β) (hwf : WellFounded lt)
    (hstep : ∀ i, lt (μ (ρ.state (i + 1))) (μ (ρ.state i)) ∨ μ (ρ.state (i + 1)) = μ (ρ.state i)) :
    ∃ i, ∀ j ≥ i, μ (ρ.state j) = μ (ρ.state i) := by
  obtain ⟨m, ⟨i, rfl⟩, hmin⟩ := hwf.has_min (Set.range fun i => μ (ρ.state i)) ⟨_, 0, rfl⟩
  refine ⟨i, fun j hij => ?_⟩
  induction j, hij using Nat.le_induction with
  | base => rfl
  | succ j hij ih =>
    rcases hstep j with hlt | heq
    · rw [ih] at hlt
      exact absurd hlt (hmin _ ⟨j + 1, rfl⟩)
    · rw [heq, ih]

/-- What each of a party's steps brings about, and no step undoes, holds from its turn on. -/
theorem lasts {a : ι} {i : ℕ} (hoften : ρ.Often a)
    (hown : ∀ j ≥ i, ρ.turn j = a → Q (ρ.state (j + 1)))
    (hkeep : ∀ j ≥ i, Q (ρ.state j) → Q (ρ.state (j + 1))) : ∃ l ≥ i, ∀ j ≥ l, Q (ρ.state j) := by
  obtain ⟨l, hl, hturn⟩ := hoften i
  refine ⟨l + 1, by omega, fun j hj => ?_⟩
  induction j, hj using Nat.le_induction with
  | base => exact hown l hl hturn
  | succ j hj ih => exact hkeep j (by omega) ih

/-- What each of a party's steps lowers and no other's changes does not last through its turns. -/
theorem not_often [Preorder β] [WellFoundedLT β] (μ : α → β) (i : ℕ) {a : ι}
    (hown : ∀ j ≥ i, ρ.turn j = a → μ (ρ.state (j + 1)) < μ (ρ.state j))
    (hother : ∀ j ≥ i, ρ.turn j ≠ a → μ (ρ.state (j + 1)) = μ (ρ.state j)) : ¬ρ.Often a := by
  intro hoften
  have hle : ∀ j ≥ i, ∀ l ≥ j, μ (ρ.state l) ≤ μ (ρ.state j) := by
    intro j hij l hjl
    induction l, hjl using Nat.le_induction with
    | base => exact le_rfl
    | succ l hjl ih =>
      by_cases ha : ρ.turn l = a
      · exact (hown l (hij.trans hjl) ha).le.trans ih
      · exact (hother l (hij.trans hjl) ha).le.trans ih
  obtain ⟨m, ⟨j, hij, rfl⟩, hmin⟩ := (wellFounded_lt : WellFounded fun m m' : β => m < m').has_min
    {m | ∃ j ≥ i, μ (ρ.state j) = m} ⟨_, i, le_rfl, rfl⟩
  obtain ⟨l, hjl, hl⟩ := hoften j
  exact hmin _ ⟨l + 1, by omega, rfl⟩ ((hown l (hij.trans hjl) hl).trans_le (hle j hij l hjl))

/-- Parties that can always take a step can take their turns in any order. -/
theorem exists_following (turn : ℕ → ι) (hstep : ∀ i x, P x → ∃ y, step (turn i) x y ∧ P y) {x : α}
    (hx : P x) : ∃ ρ : Run step, ρ.state 0 = x ∧ ∀ i, ρ.turn i = turn i := by
  choose f hf using fun (i : ℕ) (x : { x // P x }) => hstep i x.1 x.2
  let states : ℕ → { x // P x } := Nat.rec ⟨x, hx⟩ fun i y => ⟨f i y, (hf i y).2⟩
  exact ⟨⟨fun i => (states i).1, turn, fun i => (hf i (states i)).1⟩, rfl, fun _ => rfl⟩

/-- A party that can always take a step can be left to take them all. -/
theorem exists_alone {a : ι} (hstep : ∀ x, P x → ∃ y, step a x y ∧ P y) {x : α} (hx : P x) :
    ∃ ρ : Run step, ρ.state 0 = x ∧ ∀ i, ρ.turn i = a :=
  exists_following (fun _ => a) (fun _ => hstep) hx

end Run

end Fair
