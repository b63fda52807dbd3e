import MemMapIPC.Library.Cyclic
import MemMapIPC.Ring

/-!
# The cursor arithmetic

A side's cursor is its position in the stream modulo the number of cells. `reach` is how far the
side may go given the peer's position: the producer one cell short of a lap past the consumer, the
consumer up to the producer. In 64-bit arithmetic, whatever the number of cells, the counts are the
distance to it (`toNat_difference`), and advancing by no more than the cells left before the end
moves the cursor to its new position (`wrap_eq`).
-/

namespace MemMapIPC

namespace Ring

variable (r : Ring)

/-- How far a side may go when the peer is at position `q`. -/
def reach : Side → ℕ → ℕ
  | .producer, q => q + (r.cells - 1)
  | .consumer, q => q

theorem reach_mono (s : Side) {q q' : ℕ} (h : q ≤ q') : r.reach s q ≤ r.reach s q' := by
  cases s <;> simp only [reach] <;> omega

variable {r} {own peer : U64} {pos q : ℕ}

theorem toNat_difference {s : Side} (hpeer : peer.toNat = q % r.cells)
    (hown : own.toNat = pos % r.cells) (hle : pos ≤ r.reach s q)
    (hlt : r.reach s q ≤ pos + (r.cells - 1)) :
    (r.buffer.difference s (CircularBuffer.ahead s peer own) peer own).toNat
      = r.reach s q - pos := by
  have hpos := r.cells_pos
  have hE := r.cells_lt
  have heff := r.toNat_effectiveBufferSize
  have hq : q % r.cells < r.cells := Nat.mod_lt _ hpos
  have hp : pos % r.cells < r.cells := Nat.mod_lt _ hpos
  cases s with
  | producer =>
    have h1 : (1 : U64).toNat = 1 := rfl
    simp only [reach] at hle hlt ⊢
    obtain ⟨d, rfl⟩ : ∃ d, pos = q + d := ⟨pos - q, by omega⟩
    have hd : d < r.cells := by omega
    rw [Cyclic.add_mod_of_lt hd] at hown
    simp only [CircularBuffer.ahead]
    by_cases hgt : own < peer
    · have hgt' := hgt
      rw [BitVec.lt_def] at hgt'
      simp only [gt_iff_lt, hgt, decide_true, CircularBuffer.difference, BitVec.toNat_sub, h1]
      split_ifs at hown <;> omega
    · have hgt' := hgt
      rw [BitVec.lt_def] at hgt'
      simp only [gt_iff_lt, hgt, decide_false, CircularBuffer.difference, BitVec.toNat_sub,
        BitVec.toNat_add, heff, h1]
      split_ifs at hown <;> omega
  | consumer =>
    simp only [reach] at hle hlt ⊢
    obtain ⟨d, rfl⟩ : ∃ d, q = pos + d := ⟨q - pos, by omega⟩
    have hd : d < r.cells := by omega
    rw [Cyclic.add_mod_of_lt hd] at hpeer
    simp only [CircularBuffer.ahead]
    by_cases hge : own ≤ peer
    · have hge' := hge
      rw [BitVec.le_def] at hge'
      simp only [ge_iff_le, hge, decide_true, CircularBuffer.difference]
      rw [BitVec.toNat_sub_of_le hge]
      split_ifs at hpeer <;> omega
    · have hge' := hge
      rw [BitVec.le_def] at hge'
      simp only [ge_iff_le, hge, decide_false, CircularBuffer.difference, BitVec.toNat_sub,
        BitVec.toNat_add, heff]
      split_ifs at hpeer <;> omega

theorem toNat_numberOfBytesBeforeWraparound {s : Side} (h : own.toNat < r.cells) :
    (r.buffer.numberOfBytesBeforeWraparound s own).toNat = r.cells - own.toNat := by
  have hE := r.cells_lt
  have heff := r.toNat_effectiveBufferSize
  cases s with
  | producer =>
    simp only [CircularBuffer.numberOfBytesBeforeWraparound, BitVec.toNat_sub, heff]
    omega
  | consumer =>
    have hsize := r.size_eq
    have hb : r.buffer.bufferSize = r.size := rfl
    simp only [CircularBuffer.numberOfBytesBeforeWraparound, hb, BitVec.toNat_sub,
      toNat_reserveSize]
    omega

theorem wrap_eq {n : U64} (hown : own.toNat = pos % r.cells)
    (hn : pos % r.cells + n.toNat ≤ r.cells) :
    r.buffer.wrap (own + n) = some (BitVec.ofNat 64 ((pos + n.toNat) % r.cells)) := by
  have hpos := r.cells_pos
  have hE := r.cells_lt
  have heff := r.toNat_effectiveBufferSize
  have hsum : (own + n).toNat = pos % r.cells + n.toNat := by
    rw [BitVec.toNat_add, hown]
    omega
  have hmod : (pos + n.toNat) % r.cells = (pos % r.cells + n.toNat) % r.cells := by
    rw [Nat.mod_add_mod]
  rw [CircularBuffer.wrap, hmod, ← hsum]
  have hne : r.buffer.effectiveBufferSize ≠ 0 := by
    intro h0
    rw [h0] at heff
    simp at heff
    omega
  split_ifs with hle
  · rw [Option.some.injEq, ← BitVec.toNat_inj, BitVec.toNat_umod, heff, BitVec.toNat_ofNat]
    exact (Nat.mod_eq_of_lt ((Nat.mod_lt _ hpos).trans (by omega))).symm
  · rw [BitVec.le_def, heff] at hle
    rw [Nat.mod_eq_of_lt (by omega), BitVec.ofNat_toNat, BitVec.setWidth_eq]

end Ring

end MemMapIPC
