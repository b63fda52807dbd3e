import Mathlib.Data.Nat.ModEq
import Mathlib.Tactic.Ring

/-!
# Positions on a ring

A position that only grows is kept modulo the ring's length `n`. A position less than one lap
ahead of another is found from the two residues alone.
-/

namespace Cyclic

variable {n a d : ℕ}

/-- A residue moved by less than a lap wraps at most once. -/
theorem add_mod_of_lt (hd : d < n) :
    (a + d) % n = if a % n + d < n then a % n + d else a % n + d - n := by
  have ha : a % n < n := Nat.mod_lt _ (by omega)
  rw [Nat.add_mod, Nat.mod_eq_of_lt hd]
  split_ifs with h
  · exact Nat.mod_eq_of_lt h
  · rw [Nat.mod_eq_sub_mod (by omega), Nat.mod_eq_of_lt (by omega)]

/-- Positions less than a lap apart are on different cells. -/
theorem mod_ne_of_lt {b : ℕ} (hab : a < b) (h : b < a + n) : a % n ≠ b % n := by
  obtain ⟨d, rfl⟩ : ∃ d, b = a + d := ⟨b - a, by omega⟩
  have ha : a % n < n := Nat.mod_lt _ (by omega)
  rw [add_mod_of_lt (by omega)]
  split_ifs <;> omega

theorem add_mod_of_eq (h : a % n + d = n) : (a + d) % n = 0 := by
  rw [Nat.add_mod, ← Nat.add_mod, ← Nat.div_add_mod a n]
  rw [show n * (a / n) + a % n + d = n * (a / n + 1) by rw [Nat.mul_add, mul_one]; omega]
  exact Nat.mul_mod_right _ _

/-- A position in a later cell than one it does not pass is on an earlier lap. -/
theorem le_lap {n i j : ℕ} (h : i ≤ j) (hlt : j % n < i % n) : i ≤ n * (j / n) := by
  have hi := Nat.div_add_mod i n
  have hj := Nat.div_add_mod j n
  have hpos : 0 < n := by
    rcases Nat.eq_zero_or_pos n with rfl | hn
    · simp only [Nat.mod_zero] at hlt
      omega
    · exact hn
  have hmod := Nat.mod_lt i hpos
  have hne : i / n ≠ j / n := fun he => by
    rw [he] at hi
    omega
  have hdiv : i / n + 1 ≤ j / n := (Nat.div_le_div_right h).lt_of_ne hne
  have hlap := Nat.mul_le_mul_left n hdiv
  rw [Nat.mul_add, Nat.mul_one] at hlap
  omega

end Cyclic
