import Mathlib.Data.Nat.Digits.Lemmas
import Mathlib.Data.BitVec
import Mathlib.Data.List.GetD
import Mathlib.Tactic.Ring

/-!
# Byte-addressed memory

A memory is a byte at every address of a `w`-bit address space, and addresses wrap as pointers do.
Everything is read and written through `n`-byte blocks, a number in a block little-endian first.
Two blocks are compared by their offsets from one base address (`write_offset`), so that whether
they meet is a question about natural numbers.
-/

namespace ByteMemory

abbrev Byte := BitVec 8

abbrev Memory (w : ℕ) := BitVec w → Byte

/-- The `n` little-endian bytes of `v`, what is above them dropped. -/
def toBytes : ℕ → ℕ → List Byte
  | 0, _ => []
  | n + 1, v => BitVec.ofNat 8 v :: toBytes n (v / 256)

def ofBytes (l : List Byte) : ℕ := Nat.ofDigits 256 (l.map BitVec.toNat)

@[simp] theorem length_toBytes : ∀ n v : ℕ, (toBytes n v).length = n
  | 0, _ => rfl
  | n + 1, v => by simp [toBytes, length_toBytes n]

@[simp] theorem ofBytes_nil : ofBytes [] = 0 := rfl

@[simp] theorem ofBytes_cons (b : Byte) (l : List Byte) :
    ofBytes (b :: l) = b.toNat + 256 * ofBytes l := by
  simp [ofBytes, Nat.ofDigits_cons]

theorem ofBytes_append (l l' : List Byte) :
    ofBytes (l ++ l') = ofBytes l + 256 ^ l.length * ofBytes l' := by
  simp [ofBytes, Nat.ofDigits_append]

theorem ofBytes_lt (l : List Byte) : ofBytes l < 256 ^ l.length := by
  have h : ∀ x ∈ l.map BitVec.toNat, x < 256 := by
    intro x hx
    obtain ⟨b, -, rfl⟩ := List.mem_map.1 hx
    exact b.isLt
  simpa [ofBytes] using Nat.ofDigits_lt_base_pow_length (by norm_num) h

theorem ofBytes_toBytes : ∀ n v : ℕ, ofBytes (toBytes n v) = v % 256 ^ n
  | 0, v => by simp [toBytes, Nat.mod_one]
  | n + 1, v => by
    rw [toBytes, ofBytes_cons, ofBytes_toBytes n, BitVec.toNat_ofNat, pow_succ' 256, Nat.mod_mul]

theorem toBytes_add : ∀ n k v : ℕ, toBytes (n + k) v = toBytes n v ++ toBytes k (v / 256 ^ n)
  | 0, k, v => by simp [toBytes]
  | n + 1, k, v => by
    rw [show n + 1 + k = (n + k) + 1 by omega, toBytes, toBytes_add n k, toBytes,
      List.cons_append, Nat.div_div_eq_div_mul, ← pow_succ']

@[simp] theorem toBytes_zero : ∀ n : ℕ, toBytes n 0 = List.replicate n 0
  | 0 => rfl
  | n + 1 => by simp [toBytes, toBytes_zero n, List.replicate_succ]

theorem toBytes_ofBytes : ∀ l : List Byte, toBytes l.length (ofBytes l) = l
  | [] => rfl
  | b :: l => by
    have hb : b.toNat < 256 := b.isLt
    have hdiv : (b.toNat + 256 * ofBytes l) / 256 = ofBytes l := by omega
    have hmod : BitVec.ofNat 8 (b.toNat + 256 * ofBytes l) = b := by
      rw [← BitVec.toNat_inj, BitVec.toNat_ofNat]
      omega
    rw [List.length_cons, toBytes, ofBytes_cons, hdiv, hmod, toBytes_ofBytes l]

namespace Memory

variable {w : ℕ}

def read (m : Memory w) (a : BitVec w) (n : ℕ) : List Byte :=
  (List.range n).map fun i => m (a + BitVec.ofNat w i)

def write (m : Memory w) (a : BitVec w) (l : List Byte) : Memory w :=
  fun x => l.getD (x - a).toNat (m x)

def load (m : Memory w) (a : BitVec w) (n : ℕ) : ℕ := ofBytes (read m a n)

def store (m : Memory w) (a : BitVec w) (n v : ℕ) : Memory w := write m a (toBytes n v)

section Offsets

variable (m : Memory w) (base : BitVec w)

@[simp] theorem length_read (a : BitVec w) (n : ℕ) : (read m a n).length = n := by simp [read]

theorem getElem_read (a : BitVec w) {n i : ℕ} (h : i < (read m a n).length) :
    (read m a n)[i] = m (a + BitVec.ofNat w i) := by
  simp [read]

theorem offset_sub {x y : ℕ} (hx : x < 2 ^ w) (hy : y < 2 ^ w) :
    ((base + BitVec.ofNat w y) - (base + BitVec.ofNat w x)).toNat
      = if x ≤ y then y - x else 2 ^ w + y - x := by
  have h : (base + BitVec.ofNat w y) - (base + BitVec.ofNat w x)
      = BitVec.ofNat w y - BitVec.ofNat w x := by ring
  rw [h, BitVec.toNat_sub, BitVec.toNat_ofNat, BitVec.toNat_ofNat, Nat.mod_eq_of_lt hx,
    Nat.mod_eq_of_lt hy]
  split_ifs with hxy
  · rw [show 2 ^ w - x + y = (y - x) + 2 ^ w by omega, Nat.add_mod_right]
    exact Nat.mod_eq_of_lt (by omega)
  · rw [Nat.mod_eq_of_lt (by omega)]
    omega

/-- What a block written at offset `x` does to the byte at offset `y`. -/
theorem write_offset {x y : ℕ} {l : List Byte} (hx : x + l.length ≤ 2 ^ w) (hy : y < 2 ^ w) :
    write m (base + BitVec.ofNat w x) l (base + BitVec.ofNat w y)
      = if x ≤ y then l.getD (y - x) (m (base + BitVec.ofNat w y))
        else m (base + BitVec.ofNat w y) := by
  rcases Nat.eq_zero_or_pos l.length with h0 | h0
  · rw [List.length_eq_zero_iff] at h0
    simp [write, h0]
  · rw [write, offset_sub base (by omega) hy]
    split_ifs with hxy
    · rfl
    · exact List.getD_eq_default _ _ (by omega)

theorem write_offset_of_disjoint {x y : ℕ} {l : List Byte} (hx : x + l.length ≤ 2 ^ w)
    (hy : y < 2 ^ w) (h : y < x ∨ x + l.length ≤ y) :
    write m (base + BitVec.ofNat w x) l (base + BitVec.ofNat w y)
      = m (base + BitVec.ofNat w y) := by
  rw [write_offset m base hx hy]
  split_ifs
  · exact List.getD_eq_default _ _ (by omega)
  · rfl

theorem write_offset_of_mem {x i : ℕ} {l : List Byte} (hx : x + l.length ≤ 2 ^ w)
    (hi : i < l.length) :
    write m (base + BitVec.ofNat w x) l (base + BitVec.ofNat w (x + i)) = l[i] := by
  rw [write_offset m base hx (by omega), if_pos (by omega)]
  simp [hi]

theorem write_outside {a p : BitVec w} {l : List Byte} (h : l.length ≤ (a - p).toNat) :
    write m p l a = m a :=
  List.getD_eq_default _ _ h

theorem write_write_same (p : BitVec w) {l l' : List Byte} (h : l.length = l'.length) :
    write (write m p l) p l' = write m p l' := by
  funext a
  by_cases hi : (a - p).toNat < l'.length
  · change l'.getD (a - p).toNat _ = l'.getD (a - p).toNat _
    rw [List.getD_eq_getElem _ _ hi, List.getD_eq_getElem _ _ hi]
  · rw [write_outside _ (by omega), write_outside _ (by omega), write_outside _ (by omega)]

theorem write_comm {x y : ℕ} {l l' : List Byte} (hx : x + l.length ≤ 2 ^ w)
    (hy : y + l'.length ≤ 2 ^ w) (h : y + l'.length ≤ x ∨ x + l.length ≤ y) :
    write (write m (base + BitVec.ofNat w x) l) (base + BitVec.ofNat w y) l'
      = write (write m (base + BitVec.ofNat w y) l') (base + BitVec.ofNat w x) l := by
  funext a
  obtain ⟨z, hz, rfl⟩ : ∃ z < 2 ^ w, a = base + BitVec.ofNat w z :=
    ⟨(a - base).toNat, (a - base).isLt, by
      rw [BitVec.ofNat_toNat, BitVec.setWidth_eq]
      ring⟩
  rw [write_offset _ base hy hz, write_offset _ base hx hz, write_offset _ base hx hz,
    write_offset _ base hy hz]
  split_ifs
  · rcases Nat.lt_or_ge (z - x) l.length with hi | hi
    · rw [List.getD_eq_default l' _ (by omega), List.getD_eq_getElem _ _ hi,
        List.getD_eq_getElem _ _ hi]
    · rw [List.getD_eq_default l _ (by omega), List.getD_eq_default l _ (by omega)]
  · rfl
  · rfl
  · rfl

theorem read_offset (x n : ℕ) :
    read m (base + BitVec.ofNat w x) n
      = (List.range n).map fun i => m (base + BitVec.ofNat w (x + i)) := by
  simp [read, BitVec.ofNat_add, BitVec.add_assoc]

/-- A block read back away from where one was written is unchanged. -/
theorem read_write_of_disjoint {x y n : ℕ} {l : List Byte} (hx : x + l.length ≤ 2 ^ w)
    (hy : y + n ≤ 2 ^ w) (h : y + n ≤ x ∨ x + l.length ≤ y) :
    read (write m (base + BitVec.ofNat w x) l) (base + BitVec.ofNat w y) n
      = read m (base + BitVec.ofNat w y) n := by
  rw [read_offset, read_offset]
  refine List.map_congr_left fun i hi => ?_
  rw [List.mem_range] at hi
  exact write_offset_of_disjoint m base hx (by omega) (by omega)

theorem read_write_same {x : ℕ} {l : List Byte} (hx : x + l.length ≤ 2 ^ w) :
    read (write m (base + BitVec.ofNat w x) l) (base + BitVec.ofNat w x) l.length = l := by
  refine List.ext_getElem (by simp) fun i h1 h2 => ?_
  rw [getElem_read, BitVec.add_assoc, ← BitVec.ofNat_add]
  exact write_offset_of_mem m base hx h2

theorem load_lt (a : BitVec w) (n : ℕ) : load m a n < 256 ^ n := by
  simpa [load] using ofBytes_lt (read m a n)

theorem load_store_same {x n : ℕ} (hx : x + n ≤ 2 ^ w) (v : ℕ) :
    load (store m (base + BitVec.ofNat w x) n v) (base + BitVec.ofNat w x) n = v % 256 ^ n := by
  have h := read_write_same m base (x := x) (l := toBytes n v) (by simpa using hx)
  rw [length_toBytes] at h
  rw [load, store, h, ofBytes_toBytes]

theorem load_write_of_disjoint {x y n : ℕ} {l : List Byte} (hx : x + l.length ≤ 2 ^ w)
    (hy : y + n ≤ 2 ^ w) (h : y + n ≤ x ∨ x + l.length ≤ y) :
    load (write m (base + BitVec.ofNat w x) l) (base + BitVec.ofNat w y) n
      = load m (base + BitVec.ofNat w y) n := by
  rw [load, load, read_write_of_disjoint m base hx hy h]

/-- A number's low `n` bytes and the `k` above them make up its `n + k`. -/
theorem load_add (a : BitVec w) (n k : ℕ) :
    load m a (n + k) = load m a n + 256 ^ n * load m (a + BitVec.ofNat w n) k := by
  have h : read m a (n + k) = read m a n ++ read m (a + BitVec.ofNat w n) k := by
    simp [read, List.range_add, BitVec.ofNat_add, BitVec.add_assoc]
  rw [load, h, ofBytes_append, length_read]
  rfl

theorem write_read (a : BitVec w) (n : ℕ) : write m a (read m a n) = m := by
  funext x
  by_cases h : (x - a).toNat < (read m a n).length
  · have hx : a + BitVec.ofNat w (x - a).toNat = x := by
      rw [BitVec.ofNat_toNat, BitVec.setWidth_eq]
      ring
    rw [write, List.getD_eq_getElem _ _ h, getElem_read, hx]
  · exact List.getD_eq_default _ _ (by omega)

theorem store_load (a : BitVec w) (n : ℕ) : store m a n (load m a n) = m := by
  have h := toBytes_ofBytes (read m a n)
  rw [length_read] at h
  rw [store, load, h, write_read]

/-- A block is written by writing its start and then what is after it. -/
theorem write_append {x : ℕ} (l l' : List Byte) (hx : x + (l.length + l'.length) ≤ 2 ^ w) :
    write (write m (base + BitVec.ofNat w x) l) (base + BitVec.ofNat w (x + l.length)) l'
      = write m (base + BitVec.ofNat w x) (l ++ l') := by
  funext a
  obtain ⟨y, hy, rfl⟩ : ∃ y < 2 ^ w, a = base + BitVec.ofNat w y :=
    ⟨(a - base).toNat, (a - base).isLt, by
      rw [BitVec.ofNat_toNat, BitVec.setWidth_eq]
      ring⟩
  have hlen : x + (l ++ l').length ≤ 2 ^ w := by rwa [List.length_append]
  rw [write_offset _ base (by omega) hy, write_offset m base (by omega) hy,
    write_offset m base hlen hy]
  split_ifs with h1 h2 h2
  · rw [List.getD_append_right _ _ _ _ (by omega), Nat.sub_sub,
      List.getD_eq_default _ _ (show l.length ≤ y - x by omega)]
  · omega
  · rw [List.getD_append _ _ _ _ (by omega)]
  · rfl

theorem store_add {x n k : ℕ} (hx : x + (n + k) ≤ 2 ^ w) (v : ℕ) :
    store (store m (base + BitVec.ofNat w x) n v) (base + BitVec.ofNat w (x + n)) k (v / 256 ^ n)
      = store m (base + BitVec.ofNat w x) (n + k) v := by
  have h := write_append m base (x := x) (toBytes n v) (toBytes k (v / 256 ^ n))
    (by simpa using hx)
  rw [length_toBytes] at h
  rw [store, store, store, toBytes_add, h]

end Offsets

end Memory

end ByteMemory
