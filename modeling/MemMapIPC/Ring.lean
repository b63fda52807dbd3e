import MemMapIPC.Call

/-!
# A ring with room for data

A ring whose size leaves at least one data cell past the cursor words. Its bytes are then at
offsets `0` to `size` from its location, all different, and an access to one of its words or cells
is one to its offset.
-/

namespace MemMapIPC

open ByteMemory

section Words

variable (m : Segment) (base v : U64) {x y : ℕ}

theorem toNat_loadWord (p : U64) : (m.loadWord p).toNat = m.load p 8 := by
  have h : m.load p 8 < 256 ^ 8 := Memory.load_lt m p 8
  rw [Segment.loadWord, BitVec.toNat_ofNat, Nat.mod_eq_of_lt (by norm_num at h ⊢; omega)]

theorem loadWord_storeWord_same (hx : x + 8 ≤ 2 ^ 64) :
    (m.storeWord (base + BitVec.ofNat 64 x) v).loadWord (base + BitVec.ofNat 64 x) = v := by
  rw [Segment.loadWord, Segment.storeWord, Memory.load_store_same m base hx]
  have hv := v.isLt
  rw [Nat.mod_eq_of_lt (by norm_num at hv ⊢; omega), BitVec.ofNat_toNat, BitVec.setWidth_eq]

theorem loadWord_storeWord_of_disjoint (hx : x + 8 ≤ 2 ^ 64) (hy : y + 8 ≤ 2 ^ 64)
    (h : y + 8 ≤ x ∨ x + 8 ≤ y) :
    (m.storeWord (base + BitVec.ofNat 64 x) v).loadWord (base + BitVec.ofNat 64 y)
      = m.loadWord (base + BitVec.ofNat 64 y) := by
  rw [Segment.loadWord, Segment.storeWord, Memory.store,
    Memory.load_write_of_disjoint m base (by simpa using hx) hy (by simpa using h)]
  rfl

theorem loadWord_write_of_disjoint {l : List U8} (hx : x + l.length ≤ 2 ^ 64)
    (hy : y + 8 ≤ 2 ^ 64) (h : y + 8 ≤ x ∨ x + l.length ≤ y) :
    Segment.loadWord (m.write (base + BitVec.ofNat 64 x) l) (base + BitVec.ofNat 64 y)
      = m.loadWord (base + BitVec.ofNat 64 y) := by
  rw [Segment.loadWord, Memory.load_write_of_disjoint m base hx hy h]
  rfl

theorem storeWord_of_disjoint (hx : x + 8 ≤ 2 ^ 64) (hy : y < 2 ^ 64)
    (h : y < x ∨ x + 8 ≤ y) :
    m.storeWord (base + BitVec.ofNat 64 x) v (base + BitVec.ofNat 64 y)
      = m (base + BitVec.ofNat 64 y) := by
  rw [Segment.storeWord, Memory.store,
    Memory.write_offset_of_disjoint m base (by simpa using hx) hy (by simpa using h)]

end Words

/-- A ring's location and size, the size past what is reserved for the cursors. -/
structure Ring where
  location : U64
  size : U64
  reserve_lt : CircularBuffer.reserveSize < size

namespace Ring

/-- The addresses either end holds. -/
def buffer (r : Ring) : CircularBuffer := CircularBuffer.circularReadBuffer r.location r.size

/-- The number of data cells, `E`. -/
def cells (r : Ring) : ℕ := r.size.toNat - 32

variable (r : Ring)

theorem toNat_reserveSize : CircularBuffer.reserveSize.toNat = 32 := rfl

theorem size_eq : r.size.toNat = r.cells + 32 := by
  have h := r.reserve_lt
  rw [BitVec.lt_def, toNat_reserveSize] at h
  simp only [cells]
  omega

theorem cells_pos : 0 < r.cells := by
  have h := r.reserve_lt
  rw [BitVec.lt_def, toNat_reserveSize] at h
  simp only [cells]
  omega

theorem cells_lt : r.cells + 32 < 2 ^ 64 := by
  rw [← size_eq]
  exact r.size.isLt

theorem toNat_effectiveBufferSize : r.buffer.effectiveBufferSize.toNat = r.cells := by
  have h := r.size_eq
  have hlt := r.cells_lt
  have hE : r.buffer.effectiveBufferSize = r.size - CircularBuffer.reserveSize := rfl
  rw [hE, BitVec.toNat_sub, toNat_reserveSize]
  omega

/-- The cursor words in the order they are laid out in. -/
def slot : Side → Bool → ℕ
  | .producer, false => 0
  | .producer, true => 1
  | .consumer, false => 2
  | .consumer, true => 3

theorem slot_lt (s : Side) (b : Bool) : slot s b < 4 := by
  cases s <;> cases b <;> decide

theorem slot_inj {s s' : Side} {b b' : Bool} (h : slot s b = slot s' b') : s = s' ∧ b = b' := by
  revert h
  cases s <;> cases s' <;> cases b <;> cases b' <;> decide

/-- A cursor word's offset from the ring's location. -/
def wordOffset (s : Side) (b : Bool) : ℕ := r.cells + 8 * slot s b

theorem wordOffset_add_le (s : Side) (b : Bool) : r.wordOffset s b + 8 ≤ r.cells + 32 := by
  have := slot_lt s b
  simp only [wordOffset]
  omega

theorem pointer_eq (s : Side) (b : Bool) :
    r.buffer.pointer s b = r.location + BitVec.ofNat 64 (r.wordOffset s b) := by
  have hE : BitVec.ofNat 64 r.cells = r.size - CircularBuffer.reserveSize := by
    rw [← r.toNat_effectiveBufferSize, BitVec.ofNat_toNat, BitVec.setWidth_eq]
    rfl
  have h : r.buffer.pointer s b
      = r.location + r.size - CircularBuffer.reserveSize + BitVec.ofNat 64 (8 * slot s b) := by
    cases s <;> cases b <;> rfl
  rw [h, wordOffset, BitVec.ofNat_add, hE]
  ring

theorem pointer_inj {s s' : Side} {b b' : Bool}
    (h : r.buffer.pointer s b = r.buffer.pointer s' b') :
    s = s' ∧ b = b' := by
  have h1 := r.wordOffset_add_le s b
  have h2 := r.wordOffset_add_le s' b'
  have hlt := r.cells_lt
  rw [pointer_eq, pointer_eq, BitVec.add_right_inj, ← BitVec.toNat_inj, BitVec.toNat_ofNat,
    BitVec.toNat_ofNat, Nat.mod_eq_of_lt (by omega), Nat.mod_eq_of_lt (by omega)] at h
  unfold wordOffset at h
  exact slot_inj (by omega)

theorem buffer_buffer : r.buffer.buffer = r.location := rfl

def word (m : Segment) (s : Side) (b : Bool) : U64 := m.loadWord (r.buffer.pointer s b)

def cell (m : Segment) (i : ℕ) : U8 := m (r.location + BitVec.ofNat 64 i)

variable {r} {m : Segment} {s s' : Side} {b b' : Bool} {v : U64}

theorem loadWord_pointer : m.loadWord (r.buffer.pointer s b) = r.word m s b := rfl

@[simp] theorem word_storeWord_same : r.word (m.storeWord (r.buffer.pointer s b) v) s b = v := by
  have h1 := r.wordOffset_add_le s b
  have h2 := r.cells_lt
  rw [word, pointer_eq]
  exact loadWord_storeWord_same m _ v (by omega)

theorem word_storeWord_of_ne (h : (s', b') ≠ (s, b)) :
    r.word (m.storeWord (r.buffer.pointer s b) v) s' b' = r.word m s' b' := by
  have h1 := r.wordOffset_add_le s b
  have h1' := r.wordOffset_add_le s' b'
  have h2 := r.cells_lt
  have hne : slot s' b' ≠ slot s b := fun he => h (by
    obtain ⟨rfl, rfl⟩ := slot_inj he
    rfl)
  rw [word, word, pointer_eq, pointer_eq]
  refine loadWord_storeWord_of_disjoint m _ v (by omega) (by omega) ?_
  simp only [wordOffset]
  omega

theorem cell_storeWord {i : ℕ} (hi : i < r.cells) :
    r.cell (m.storeWord (r.buffer.pointer s b) v) i = r.cell m i := by
  have h1 := r.wordOffset_add_le s b
  have h2 := r.cells_lt
  rw [cell, cell, pointer_eq]
  exact storeWord_of_disjoint m _ v (by omega) (by omega) (.inl (by simp only [wordOffset]; omega))

theorem word_write {i : ℕ} {l : List U8} (hi : i + l.length ≤ r.cells) :
    r.word (m.write (r.location + BitVec.ofNat 64 i) l) s b = r.word m s b := by
  have h1 := r.wordOffset_add_le s b
  have h2 := r.cells_lt
  rw [word, word, pointer_eq]
  exact loadWord_write_of_disjoint m _ (by omega) (by omega)
    (.inr (by simp only [wordOffset]; omega))

theorem cell_write {i j : ℕ} {l : List U8} (hi : i + l.length ≤ r.cells) (hj : j < r.cells) :
    r.cell (m.write (r.location + BitVec.ofNat 64 i) l) j
      = if i ≤ j then l.getD (j - i) (r.cell m j) else r.cell m j := by
  have h2 := r.cells_lt
  rw [cell, Memory.write_offset m _ (by omega) (by omega)]
  rfl

/-- The memories `m` and `m'` agree on every byte outside the ring. -/
def Outside (r : Ring) (m m' : Segment) : Prop :=
  ∀ y, r.size.toNat ≤ y → y < 2 ^ 64 →
    m' (r.location + BitVec.ofNat 64 y) = m (r.location + BitVec.ofNat 64 y)

theorem outside_refl : r.Outside m m := fun _ _ _ => rfl

theorem outside_storeWord : r.Outside m (m.storeWord (r.buffer.pointer s b) v) := by
  intro y hy hlt
  have h1 := r.wordOffset_add_le s b
  have h2 := r.cells_lt
  rw [size_eq] at hy
  rw [pointer_eq]
  exact storeWord_of_disjoint m _ v (by omega) hlt (.inr (by omega))

theorem outside_write {i : ℕ} {l : List U8} (hi : i + l.length ≤ r.cells) :
    r.Outside m (m.write (r.location + BitVec.ofNat 64 i) l) := by
  intro y hy hlt
  have h2 := r.cells_lt
  rw [size_eq] at hy
  rw [Memory.write_offset_of_disjoint m _ (by omega) hlt (.inr (by omega))]

/-- The memories `m` and `m'` agree on every byte of the ring. -/
def Same (r : Ring) (m m' : Segment) : Prop :=
  ∀ y < r.size.toNat,
    m' (r.location + BitVec.ofNat 64 y) = m (r.location + BitVec.ofNat 64 y)

theorem Same.word {m' : Segment} (h : r.Same m m') (s : Side) (b : Bool) :
    r.word m' s b = r.word m s b := by
  have hoff := r.wordOffset_add_le s b
  have hsize := r.size_eq
  have hread :
      Memory.read m' (r.buffer.pointer s b) 8 = Memory.read m (r.buffer.pointer s b) 8 := by
    rw [pointer_eq, Memory.read_offset, Memory.read_offset]
    refine List.map_congr_left fun i hi => h _ ?_
    rw [List.mem_range] at hi
    omega
  rw [Ring.word, Segment.loadWord, Memory.load, hread]
  rfl

theorem Same.cell {m' : Segment} (h : r.Same m m') {i : ℕ} (hi : i < r.cells) :
    r.cell m' i = r.cell m i :=
  h i (by rw [size_eq]; omega)

/-- A block before or after the ring, both within one lap of the address space from `base`. -/
theorem same_write {base : U64} {X x : ℕ} {l : List U8}
    (hr : r.location = base + BitVec.ofNat 64 X) (hX : X + r.size.toNat ≤ 2 ^ 64)
    (hx : x + l.length ≤ 2 ^ 64) (h : x + l.length ≤ X ∨ X + r.size.toNat ≤ x) :
    r.Same m (m.write (base + BitVec.ofNat 64 x) l) := by
  intro y hy
  rw [hr, BitVec.add_assoc, ← BitVec.ofNat_add]
  exact Memory.write_offset_of_disjoint m base hx (by omega) (by omega)

theorem pointer_offset {base : U64} {X : ℕ} (hr : r.location = base + BitVec.ofNat 64 X) (s : Side)
    (b : Bool) : r.buffer.pointer s b = base + BitVec.ofNat 64 (X + r.wordOffset s b) := by
  rw [pointer_eq, hr, BitVec.add_assoc, ← BitVec.ofNat_add]

theorem same_storeWord {r' : Ring} {base : U64} {X X' : ℕ}
    (hr : r.location = base + BitVec.ofNat 64 X) (hr' : r'.location = base + BitVec.ofNat 64 X')
    (hX : X + r.size.toNat ≤ 2 ^ 64) (hX' : X' + r'.size.toNat ≤ 2 ^ 64)
    (h : X' + r'.size.toNat ≤ X ∨ X + r.size.toNat ≤ X') :
    r.Same m (m.storeWord (r'.buffer.pointer s b) v) := by
  have hoff := r'.wordOffset_add_le s b
  rw [size_eq] at hX' h
  rw [pointer_offset hr']
  exact same_write hr hX (by simp; omega) (by simp; omega)

theorem word_clear_of_zero (h : r.word m s' b' = 0) :
    r.word (m.storeWord (r.buffer.pointer s b) 0) s' b' = 0 := by
  by_cases hs : (s', b') = (s, b)
  · obtain ⟨rfl, rfl⟩ := Prod.mk.inj hs
    exact word_storeWord_same
  · rw [word_storeWord_of_ne hs, h]

end Ring

end MemMapIPC
