import MemMapIPC.Library.ByteMemory

/-!
# Regions of a wrapping address space

The bytes from an address on, wrapping as addresses do. Regions laid out one after the other from
one base, without running into the base again, are disjoint.
-/

namespace ByteMemory

structure Region (w : ℕ) where
  start : BitVec w
  length : ℕ

namespace Region

variable {w : ℕ}

def Holds (R : Region w) (a : BitVec w) : Prop := (a - R.start).toNat < R.length

def Disjoint (R R' : Region w) : Prop := ∀ a, ¬(R.Holds a ∧ R'.Holds a)

variable {base : BitVec w} {x n : ℕ}

theorem holds_offset {y : ℕ} (h : x + n ≤ 2 ^ w) (hy : y < 2 ^ w) :
    (⟨base + BitVec.ofNat w x, n⟩ : Region w).Holds (base + BitVec.ofNat w y)
      ↔ x ≤ y ∧ y < x + n := by
  rcases Nat.eq_zero_or_pos n with rfl | h0
  · simp only [Holds, Nat.not_lt_zero, false_iff]
    omega
  · simp only [Holds, Memory.offset_sub base (show x < 2 ^ w by omega) hy]
    split_ifs <;> omega

theorem holds_of_le {y : ℕ} (hxy : x ≤ y) (hyn : y < x + n) (hy : y < 2 ^ w) :
    (⟨base + BitVec.ofNat w x, n⟩ : Region w).Holds (base + BitVec.ofNat w y) := by
  simp only [Holds, Memory.offset_sub base (show x < 2 ^ w by omega) hy, if_pos hxy]
  omega

theorem exists_offset (base a : BitVec w) : ∃ y < 2 ^ w, a = base + BitVec.ofNat w y :=
  ⟨(a - base).toNat, (a - base).isLt, by
    rw [BitVec.ofNat_toNat, BitVec.setWidth_eq]
    ring⟩

theorem disjoint_of_le {y k : ℕ} (hxy : x + n ≤ y) (hy : y + k ≤ 2 ^ w) :
    Disjoint (⟨base + BitVec.ofNat w x, n⟩ : Region w) ⟨base + BitVec.ofNat w y, k⟩ := by
  rintro a ⟨h1, h2⟩
  obtain ⟨z, hz, rfl⟩ := exists_offset base a
  rw [holds_offset (by omega) hz] at h1
  rw [holds_offset hy hz] at h2
  omega

/-- Regions given by offset and length, each ending before the next starts, are disjoint. -/
theorem pairwise_disjoint {l : List (ℕ × ℕ)} (h : l.Pairwise fun p q => p.1 + p.2 ≤ q.1)
    (hl : ∀ p ∈ l, p.1 + p.2 ≤ 2 ^ w) :
    (l.map fun p => (⟨base + BitVec.ofNat w p.1, p.2⟩ : Region w)).Pairwise Disjoint := by
  rw [List.pairwise_map]
  exact h.imp_of_mem fun _ hq hpq => disjoint_of_le hpq (hl _ hq)

end Region

end ByteMemory
