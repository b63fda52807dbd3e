import MemMapIPC.Proofs.Cursor

/-!
# What a transfer does to the segment

A write puts its bytes in the cells from the producer's on, round the end of them (`Ring.put`), and
a read gets those from the consumer's on (`Ring.get`); then the side's two words are set. Nothing of
how the code splits a transfer that wraps is left in the result (`Ring.writeData_eq`,
`Ring.readData_eq`), and no other byte of the segment changes.
-/

namespace MemMapIPC

open ByteMemory

section Cursor

variable {r : Ring} {m : Segment} {s t : Side} {v : U64}

def Ring.setCursor (r : Ring) (m : Segment) (s : Side) (v : U64) : Segment :=
  (m.storeWord (r.buffer.pointer s false) v).storeWord (r.buffer.pointer s true) v

@[simp] theorem Ring.word_setCursor (b : Bool) : r.word (r.setCursor m s v) s b = v := by
  cases b
  · rw [setCursor, word_storeWord_of_ne (by simp), word_storeWord_same]
  · rw [setCursor, word_storeWord_same]

theorem Ring.word_setCursor_of_ne (h : t ≠ s) (b : Bool) :
    r.word (r.setCursor m s v) t b = r.word m t b := by
  rw [setCursor, word_storeWord_of_ne (by simp [h]), word_storeWord_of_ne (by simp [h])]

theorem Ring.cell_setCursor {i : ℕ} (hi : i < r.cells) :
    r.cell (r.setCursor m s v) i = r.cell m i := by
  rw [setCursor, cell_storeWord hi, cell_storeWord hi]

theorem Ring.advance_eq {pos : ℕ} {n : U64} (hown : (r.word m s false).toNat = pos % r.cells)
    (hn : pos % r.cells + n.toNat ≤ r.cells) :
    r.buffer.advance s n m
      = some (r.setCursor m s (BitVec.ofNat 64 ((pos + n.toNat) % r.cells))) := by
  rw [CircularBuffer.advance, loadWord_pointer, wrap_eq hown hn]
  rfl

theorem Ring.toNat_ofNat_mod (a : ℕ) : (BitVec.ofNat 64 (a % r.cells)).toNat = a % r.cells := by
  have hlt : a % r.cells < r.cells := Nat.mod_lt _ r.cells_pos
  have hE := r.cells_lt
  rw [BitVec.toNat_ofNat, Nat.mod_eq_of_lt (by omega)]

theorem Ring.memoryAddress_eq : r.buffer.memoryAddress s m
    = r.location + BitVec.ofNat 64 (r.word m s false).toNat := by
  rw [CircularBuffer.memoryAddress, loadWord_pointer, BitVec.ofNat_toNat, BitVec.setWidth_eq,
    buffer_buffer]

end Cursor

section Put

variable {r : Ring} {m : Segment} {s : Side} {v : U64}

/-- The bytes `l` in the cells from position `pos` on. -/
def Ring.put (r : Ring) : Segment → ℕ → List U8 → Segment
  | m, _, [] => m
  | m, pos, b :: l =>
    r.put (m.write (r.location + BitVec.ofNat 64 (pos % r.cells)) [b]) (pos + 1) l

/-- The bytes in the `n` cells from position `pos` on. -/
def Ring.get (r : Ring) (m : Segment) (pos n : ℕ) : List U8 :=
  (List.range n).map fun i => r.cell m ((pos + i) % r.cells)

theorem Ring.put_append : ∀ (l l' : List U8) (m : Segment) (pos : ℕ),
    r.put m pos (l ++ l') = r.put (r.put m pos l) (pos + l.length) l'
  | [], _, _, _ => rfl
  | b :: l, l', m, pos => by
    rw [List.cons_append, put, put_append l, put, List.length_cons, Nat.add_right_comm,
      Nat.add_assoc]

theorem Ring.put_mod : ∀ (l : List U8) (m : Segment) (pos : ℕ),
    r.put m (pos % r.cells) l = r.put m pos l
  | [], _, _ => rfl
  | b :: l, m, pos => by
    rw [put, put, Nat.mod_mod, ← put_mod l _ (pos % r.cells + 1), Nat.mod_add_mod, put_mod l]

/-- A block that does not reach past the end of the cells. -/
theorem Ring.write_eq_put : ∀ (l : List U8) (m : Segment) {i : ℕ}, i + l.length ≤ r.cells →
    m.write (r.location + BitVec.ofNat 64 i) l = r.put m i l
  | [], _, _, _ => rfl
  | b :: l, m, i, h => by
    have hE := r.cells_lt
    rw [List.length_cons] at h
    have happ := Memory.write_append m r.location (x := i) [b] l
      (by rw [List.length_singleton]; omega)
    rw [put, Nat.mod_eq_of_lt (by omega), ← write_eq_put l _ (by omega)]
    exact happ.symm

theorem Ring.get_add (n k pos : ℕ) :
    r.get m pos (n + k) = r.get m pos n ++ r.get m (pos + n) k := by
  simp [get, List.range_add, Nat.add_assoc]

theorem Ring.get_mod (n pos : ℕ) : r.get m (pos % r.cells) n = r.get m pos n := by
  simp [get]

@[simp] theorem Ring.length_get (pos n : ℕ) : (r.get m pos n).length = n := by simp [get]

theorem Ring.read_eq_get {i n : ℕ} (h : i + n ≤ r.cells) :
    m.read (r.location + BitVec.ofNat 64 i) n = r.get m i n := by
  rw [Memory.read_offset]
  refine List.map_congr_left fun k hk => ?_
  rw [List.mem_range] at hk
  rw [Nat.mod_eq_of_lt (by omega)]
  rfl

theorem Ring.word_put (s : Side) (b : Bool) : ∀ (l : List U8) (m : Segment) (pos : ℕ),
    r.word (r.put m pos l) s b = r.word m s b
  | [], _, _ => rfl
  | c :: l, m, pos => by
    have hlt := Nat.mod_lt pos r.cells_pos
    rw [put, word_put s b l, word_write (by rw [List.length_singleton]; omega)]

/-- What is in the cell `k` past the first of those written to. -/
theorem Ring.cell_put : ∀ (l : List U8) (m : Segment) (pos : ℕ) {k : ℕ}, l.length ≤ r.cells →
    k < r.cells → r.cell (r.put m pos l) ((pos + k) % r.cells)
      = l.getD k (r.cell m ((pos + k) % r.cells))
  | [], _, _, _, _, _ => rfl
  | c :: l, m, pos, k, hl, hk => by
    have hpos := r.cells_pos
    have hlt := Nat.mod_lt pos hpos
    rw [List.length_cons] at hl
    rw [put]
    rcases k with _ | k
    · have hlap : (pos + 1 + (r.cells - 1)) % r.cells = pos % r.cells := by
        rw [show pos + 1 + (r.cells - 1) = pos + r.cells by omega, Nat.add_mod_right]
      have ih := cell_put l (m.write (r.location + BitVec.ofNat 64 (pos % r.cells)) [c]) (pos + 1)
        (k := r.cells - 1) (by omega) (by omega)
      rw [hlap, List.getD_eq_default _ _ (by omega)] at ih
      refine ih.trans ?_
      rw [cell_write (by rw [List.length_singleton]; omega) hlt, if_pos le_rfl, Nat.sub_self]
      rfl
    · have hne : (pos + (k + 1)) % r.cells ≠ pos % r.cells := by
        rw [Cyclic.add_mod_of_lt hk]
        split_ifs <;> omega
      rw [show pos + (k + 1) = pos + 1 + k by omega] at hne ⊢
      rw [cell_put l _ (pos + 1) (by omega) (by omega),
        cell_write (by rw [List.length_singleton]; omega) (Nat.mod_lt _ hpos)]
      split_ifs with hle
      · rw [List.getD_eq_default [c] _ (by rw [List.length_singleton]; omega)]
        rfl
      · rfl

theorem Ring.get_setCursor (pos n : ℕ) : r.get (r.setCursor m s v) pos n = r.get m pos n :=
  List.map_congr_left fun _ _ => cell_setCursor (Nat.mod_lt _ r.cells_pos)

theorem Ring.storeWord_write_comm {i : ℕ} (h : i < r.cells) (b : Bool) (c : U8) :
    Segment.storeWord (m.write (r.location + BitVec.ofNat 64 i) [c]) (r.buffer.pointer s b) v
      = (m.storeWord (r.buffer.pointer s b) v).write (r.location + BitVec.ofNat 64 i) [c] := by
  have h1 := r.wordOffset_add_le s b
  have hE := r.cells_lt
  have hoff : i + 1 ≤ r.wordOffset s b := by
    simp only [wordOffset]
    omega
  rw [pointer_eq]
  exact Memory.write_comm m _ (by simp; omega) (by simp; omega) (.inr hoff)

theorem Ring.put_setCursor : ∀ (l : List U8) (m : Segment) (pos : ℕ),
    r.put (r.setCursor m s v) pos l = r.setCursor (r.put m pos l) s v
  | [], _, _ => rfl
  | c :: l, m, pos => by
    have hlt := Nat.mod_lt pos r.cells_pos
    rw [put, put, ← put_setCursor l]
    simp only [setCursor, storeWord_write_comm hlt]

theorem Ring.storeWord_storeWord_comm {v' : U64} :
    (m.storeWord (r.buffer.pointer s true) v).storeWord (r.buffer.pointer s false) v'
      = (m.storeWord (r.buffer.pointer s false) v').storeWord (r.buffer.pointer s true) v := by
  have h0 := r.wordOffset_add_le s false
  have h1 := r.wordOffset_add_le s true
  have hE := r.cells_lt
  have hoff : r.wordOffset s false + 8 ≤ r.wordOffset s true := by
    cases s <;> simp only [wordOffset, slot] <;> omega
  rw [pointer_eq, pointer_eq]
  exact Memory.write_comm m _ (by simp; omega) (by simp; omega) (.inl (by simpa using hoff))

theorem storeWord_storeWord (p v v' : U64) :
    (m.storeWord p v).storeWord p v' = m.storeWord p v' :=
  Memory.write_write_same m p (by simp)

theorem Ring.setCursor_setCursor {v' : U64} :
    r.setCursor (r.setCursor m s v) s v' = r.setCursor m s v' := by
  simp only [setCursor, storeWord_storeWord_comm, storeWord_storeWord]

theorem Ring.setCursor_self {v : U64} (h : ∀ b, r.word m s b = v) : r.setCursor m s v = m := by
  have hstore : ∀ b, m.storeWord (r.buffer.pointer s b) v = m := fun b => by
    rw [← h b, word, Segment.storeWord, toNat_loadWord]
    exact Memory.store_load m _ 8
  rw [setCursor, hstore, hstore]

end Put

section Transfers

variable {r : Ring} {m : Segment}

theorem Ring.writeChunk {pos : ℕ} {l : List U8}
    (hp : (r.word m .producer false).toNat = pos % r.cells)
    (hn : pos % r.cells + l.length ≤ r.cells) :
    r.buffer.advanceProducer (BitVec.ofNat 64 l.length)
        (m.write (r.buffer.producerMemoryAddress m) l)
      = some (r.setCursor (r.put m pos l) .producer
          (BitVec.ofNat 64 ((pos + l.length) % r.cells))) := by
  have hE := r.cells_lt
  have hln : (BitVec.ofNat 64 l.length).toNat = l.length := by
    rw [BitVec.toNat_ofNat, Nat.mod_eq_of_lt (by omega)]
  have hadv := advance_eq (m := r.put m pos l) (s := .producer) (n := BitVec.ofNat 64 l.length)
    (by rw [word_put]; exact hp) (by rw [hln]; exact hn)
  rw [hln] at hadv
  rw [CircularBuffer.producerMemoryAddress, memoryAddress_eq, hp, write_eq_put l m hn, put_mod]
  exact hadv

theorem Ring.writeData_eq {l : List U8} (hp : (r.word m .producer false).toNat < r.cells)
    (hl : l.length ≤ r.cells) :
    r.buffer.writeData l m = some (r.setCursor (r.put m (r.word m .producer false).toNat l)
      .producer (BitVec.ofNat 64 (((r.word m .producer false).toNat + l.length) % r.cells))) := by
  have hE := r.cells_lt
  have hpp := Nat.mod_eq_of_lt hp
  have hln : (BitVec.ofNat 64 l.length).toNat = l.length := by
    rw [BitVec.toNat_ofNat, Nat.mod_eq_of_lt (by omega)]
  have hbefore := toNat_numberOfBytesBeforeWraparound (s := .producer) hp
  have hword : m.loadWord r.buffer.producerPointer = r.word m .producer false := rfl
  rw [CircularBuffer.writeData, hword]
  generalize r.buffer.numberOfBytesBeforeWraparound .producer (r.word m .producer false) = before
    at hbefore
  simp only [ge_iff_le, BitVec.le_def, hln]
  split_ifs with hge
  · exact writeChunk hpp.symm (by omega)
  · have h1 : (l.take before.toNat).length = before.toNat := by
      rw [List.length_take]
      omega
    have h2 : (l.drop before.toNat).length = l.length - before.toNat := List.length_drop
    have hn1 : BitVec.ofNat 64 (l.take before.toNat).length = before := by
      rw [h1, BitVec.ofNat_toNat, BitVec.setWidth_eq]
    have hn2 : BitVec.ofNat 64 (l.drop before.toNat).length
        = BitVec.ofNat 64 l.length - before := by
      rw [← BitVec.toNat_inj, BitVec.toNat_sub_of_le (by rw [BitVec.le_def]; omega), hln, h2,
        BitVec.toNat_ofNat, Nat.mod_eq_of_lt (by omega)]
    have hend : (r.word m .producer false).toNat + before.toNat = r.cells := by omega
    have hc1 := writeChunk hpp.symm (l := l.take before.toNat) (by omega)
    rw [hn1, h1] at hc1
    rw [hc1]
    simp only [Option.bind_eq_bind, Option.bind_some]
    have hcur : (r.word (r.setCursor
          (r.put m (r.word m .producer false).toNat (l.take before.toNat)) .producer
          (BitVec.ofNat 64 (((r.word m .producer false).toNat + before.toNat) % r.cells)))
        .producer false).toNat
          = ((r.word m .producer false).toNat + before.toNat) % r.cells := by
      rw [word_setCursor, toNat_ofNat_mod]
    have hc2 := writeChunk hcur (l := l.drop before.toNat) (by rw [hend, Nat.mod_self]; omega)
    rw [hn2] at hc2
    rw [hc2, put_setCursor, setCursor_setCursor, Nat.add_assoc, h2,
      Nat.add_sub_of_le (show before.toNat ≤ l.length by omega)]
    have happ := put_append (r := r) (l.take before.toNat) (l.drop before.toNat) m
      (r.word m .producer false).toNat
    rw [List.take_append_drop, h1] at happ
    rw [happ]

theorem Ring.readChunk {pos : ℕ} {n : U64}
    (hc : (r.word m .consumer false).toNat = pos % r.cells)
    (hn : pos % r.cells + n.toNat ≤ r.cells) :
    m.read (r.buffer.consumerMemoryAddress m) n.toNat = r.get m pos n.toNat
      ∧ r.buffer.advanceConsumer n m
        = some (r.setCursor m .consumer (BitVec.ofNat 64 ((pos + n.toNat) % r.cells))) := by
  refine ⟨?_, advance_eq hc hn⟩
  rw [CircularBuffer.consumerMemoryAddress, memoryAddress_eq, hc, read_eq_get hn, get_mod]

theorem Ring.readData_eq {n : U64} (hc : (r.word m .consumer false).toNat < r.cells)
    (hn : n.toNat ≤ r.cells) :
    r.buffer.readData n m = some (r.get m (r.word m .consumer false).toNat n.toNat,
      r.setCursor m .consumer
        (BitVec.ofNat 64 (((r.word m .consumer false).toNat + n.toNat) % r.cells))) := by
  have hcc := Nat.mod_eq_of_lt hc
  have hbefore := toNat_numberOfBytesBeforeWraparound (s := .consumer) hc
  have hword : m.loadWord r.buffer.consumerPointer = r.word m .consumer false := rfl
  rw [CircularBuffer.readData, hword]
  generalize r.buffer.numberOfBytesBeforeWraparound .consumer (r.word m .consumer false) = before
    at hbefore
  simp only [ge_iff_le, BitVec.le_def]
  split_ifs with hge
  · obtain ⟨hread, hadv⟩ := readChunk hcc.symm (n := n) (by omega)
    rw [hread, hadv]
    rfl
  · have hsub : (n - before).toNat = n.toNat - before.toNat :=
      BitVec.toNat_sub_of_le (by rw [BitVec.le_def]; omega)
    have hend : (r.word m .consumer false).toNat + before.toNat = r.cells := by omega
    obtain ⟨hread1, hadv1⟩ := readChunk hcc.symm (n := before) (by omega)
    have hcur : (r.word (r.setCursor m .consumer
          (BitVec.ofNat 64 (((r.word m .consumer false).toNat + before.toNat) % r.cells)))
        .consumer false).toNat
          = ((r.word m .consumer false).toNat + before.toNat) % r.cells := by
      rw [word_setCursor, toNat_ofNat_mod]
    obtain ⟨hread2, hadv2⟩ := readChunk hcur (n := n - before) (by rw [hend, Nat.mod_self]; omega)
    have hsum : before.toNat + (n - before).toNat = n.toNat := by omega
    rw [hread1, hadv1]
    simp only [Option.bind_eq_bind, Option.bind_some]
    rw [hread2, hadv2, get_setCursor, ← get_add, setCursor_setCursor, hsum, Nat.add_assoc, hsum]
    rfl

end Transfers

end MemMapIPC
