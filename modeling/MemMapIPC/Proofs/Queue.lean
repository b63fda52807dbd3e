import MemMapIPC.Proofs.Effect
import MemMapIPC.Proofs.Fifo
import MemMapIPC.Queue

/-!
# The ring refines the bounded queue

What is written goes into the cells from the producer's on, which are those past the items of the
queue the ring represents, and what is read comes out of those from the consumer's on, its first
items. `Op.exec` is then `Op.apply` on the queue, one operation at a time, for a session of any
length.
-/

namespace MemMapIPC

open ByteMemory

section Chunks

variable {r : Ring} {m : Segment} {q : BoundedQueue U8 (r.cells - 1)}

theorem Represents.available_lt (_ : Represents r m q) : q.available < r.cells := by
  have hq := q.length_le
  have hpos := r.cells_pos
  rw [BoundedQueue.available]
  omega

theorem Represents.second_eq (h : Represents r m q) (s : Side) :
    r.word m s true = r.word m s false := by
  cases s with
  | producer => exact h.producer_second
  | consumer => exact h.consumer_second

/-- Both counts are the queue's, and the retry loop is left at once. -/
theorem Represents.count (h : Represents r m q) (s : Side) (fuel : ℕ) :
    ∃ n, r.buffer.count s (fuel + 1) m = some n
      ∧ n.toNat = match s with
        | .producer => q.free
        | .consumer => q.available := by
  have hpos := r.cells_pos
  have hq := q.length_le
  have hlen := h.length
  have hc := h.consumer_lt
  have hloop : r.buffer.nonvolatilePointer s.peer m (fuel + 1) = some (r.word m s.peer false) := by
    rw [CircularBuffer.nonvolatilePointer, Ring.loadWord_pointer, Ring.loadWord_pointer,
      h.second_eq]
    simp
  refine ⟨_, by rw [CircularBuffer.count, hloop]; rfl, ?_⟩
  rw [Ring.loadWord_pointer]
  simp only [BoundedQueue.available, BoundedQueue.free] at hlen ⊢
  cases s with
  | producer =>
    have hd := Ring.toNat_difference (s := .producer) (q := (r.word m .consumer false).toNat)
      (Nat.mod_eq_of_lt hc).symm hlen (by simp only [Ring.reach]; omega)
      (by simp only [Ring.reach]; omega)
    refine hd.trans ?_
    simp only [Ring.reach]
    omega
  | consumer =>
    have hd := Ring.toNat_difference (s := .consumer) hlen (Nat.mod_eq_of_lt hc).symm
      (by simp only [Ring.reach]; omega) (by simp only [Ring.reach]; omega)
    refine hd.trans ?_
    simp only [Ring.reach]
    omega

theorem Represents.writeData (h : Represents r m q) {l : List U8} (hl : l.length ≤ q.free) :
    ∃ m', r.buffer.writeData l m = some m' ∧ Represents r m' (q.push l hl) := by
  have hpos := r.cells_pos
  have hc := h.consumer_lt
  have hq := h.available_lt
  have hsum := q.available_add_free
  have hlen := h.length
  have hne : Side.consumer ≠ Side.producer := by decide
  refine ⟨_, Ring.writeData_eq h.producer_lt (by omega), ?_, ?_, ?_, ?_, ?_, fun i hi => ?_⟩
  · rw [Ring.word_setCursor, Ring.word_setCursor]
  · rw [Ring.word_setCursor, Ring.toNat_ofNat_mod]
    exact Nat.mod_lt _ hpos
  · rw [Ring.word_setCursor_of_ne hne, Ring.word_setCursor_of_ne hne, Ring.word_put, Ring.word_put]
    exact h.consumer_second
  · rw [Ring.word_setCursor_of_ne hne, Ring.word_put]
    exact hc
  · rw [Ring.word_setCursor, Ring.toNat_ofNat_mod, Ring.word_setCursor_of_ne hne, Ring.word_put,
      BoundedQueue.available_push, hlen, Nat.mod_add_mod, Nat.add_assoc]
  · rw [Ring.word_setCursor_of_ne hne, Ring.word_put, Ring.cell_setCursor (Nat.mod_lt _ hpos)]
    simp only [BoundedQueue.contents_push, List.length_append] at hi ⊢
    simp only [BoundedQueue.available] at hlen hq hsum
    rcases Nat.lt_or_ge i q.contents.length with hi' | hi'
    · have hcell : ((r.word m .consumer false).toNat + i) % r.cells
          = ((r.word m .producer false).toNat + (i + r.cells - q.contents.length)) % r.cells := by
        rw [hlen, Nat.mod_add_mod, Nat.add_assoc,
          show q.contents.length + (i + r.cells - q.contents.length) = i + r.cells by omega,
          ← Nat.add_assoc, Nat.add_mod_right]
      rw [List.getElem_append_left hi', ← h.contents i hi', hcell,
        Ring.cell_put l m _ (by omega) (by omega)]
      exact List.getD_eq_default _ _ (by omega)
    · have hcell : ((r.word m .consumer false).toNat + i) % r.cells
          = ((r.word m .producer false).toNat + (i - q.contents.length)) % r.cells := by
        rw [hlen, Nat.mod_add_mod, Nat.add_assoc, Nat.add_sub_of_le hi']
      rw [List.getElem_append_right hi', hcell, Ring.cell_put l m _ (by omega) (by omega)]
      exact List.getD_eq_getElem _ _ (by omega)

theorem Represents.get_eq (h : Represents r m q) {n : ℕ} (hl : n ≤ q.available) :
    r.get m (r.word m .consumer false).toNat n = q.contents.take n := by
  rw [BoundedQueue.available] at hl
  refine List.ext_getElem (by simpa using hl) fun i h1 h2 => ?_
  rw [Ring.length_get] at h1
  rw [List.getElem_take, ← h.contents i (by omega)]
  simp [Ring.get]

theorem Represents.readData (h : Represents r m q) {n : U64} (hl : n.toNat ≤ q.available) :
    ∃ m', r.buffer.readData n m = some (q.contents.take n.toNat, m')
      ∧ Represents r m' (q.pop n.toNat) := by
  have hpos := r.cells_pos
  have hq := h.available_lt
  have hne : Side.producer ≠ Side.consumer := by decide
  have hread := Ring.readData_eq h.consumer_lt (n := n) (by omega)
  rw [h.get_eq hl] at hread
  refine ⟨_, hread, ?_, ?_, ?_, ?_, ?_, fun i hi => ?_⟩
  · rw [Ring.word_setCursor_of_ne hne, Ring.word_setCursor_of_ne hne]
    exact h.producer_second
  · rw [Ring.word_setCursor_of_ne hne]
    exact h.producer_lt
  · rw [Ring.word_setCursor, Ring.word_setCursor]
  · rw [Ring.word_setCursor, Ring.toNat_ofNat_mod]
    exact Nat.mod_lt _ hpos
  · rw [Ring.word_setCursor, Ring.word_setCursor_of_ne hne, Ring.toNat_ofNat_mod, h.length,
      Nat.mod_add_mod, BoundedQueue.available_pop, Nat.add_assoc, Nat.add_sub_of_le hl]
  · rw [Ring.word_setCursor, Ring.toNat_ofNat_mod, Nat.mod_add_mod,
      Ring.cell_setCursor (Nat.mod_lt _ hpos)]
    simp only [BoundedQueue.contents_pop, List.length_drop] at hi ⊢
    rw [List.getElem_drop, ← h.contents (n.toNat + i) (by omega), Nat.add_assoc]

end Chunks

section Sessions

variable {r : Ring} {m : Segment} {q : BoundedQueue U8 (r.cells - 1)}

theorem represents_zero (h : ∀ s b, r.word m s b = 0) : Represents r m .empty := by
  have h0 : (0 : U64).toNat = 0 := rfl
  refine ⟨?_, ?_, ?_, ?_, ?_, fun i hi => absurd hi (Nat.not_lt_zero i)⟩ <;>
    simp only [h, h0, r.cells_pos, BoundedQueue.available, BoundedQueue.contents_empty,
      List.length_nil, Nat.add_zero, Nat.zero_mod]

theorem represents_clear (r : Ring) (m : Segment) :
    Represents r (r.buffer.clear m) .empty :=
  represents_zero Ring.word_clear

theorem Represents.permitted_iff (h : Represents r m q) {op : Op} :
    op.Permitted r.buffer m ↔ (op.apply q).isSome := by
  cases op with
  | free => simp [Op.Permitted, Op.apply]
  | available => simp [Op.Permitted, Op.apply]
  | write l =>
    obtain ⟨n, hn, hfree⟩ := h.count .producer 0
    change n.toNat = q.free at hfree
    have hiff : (Op.write l).Permitted r.buffer m ↔ l.length ≤ n.toNat := by
      simp only [Op.Permitted, CircularBuffer.numberOfBytesFreeToWrite, hn, Option.some.injEq,
        exists_eq_left']
    rw [hiff, hfree, Op.apply]
    split_ifs with hl <;> simp [hl]
  | read k =>
    obtain ⟨n, hn, hav⟩ := h.count .consumer 0
    change n.toNat = q.available at hav
    have hiff : (Op.read k).Permitted r.buffer m ↔ k.toNat ≤ n.toNat := by
      simp only [Op.Permitted, CircularBuffer.numberOfBytesAvailableToRead, hn, Option.some.injEq,
        exists_eq_left', BitVec.le_def]
    rw [hiff, hav, Op.apply]
    split_ifs with hl <;> simp [hl]

/-- An operation that may be done on the queue does that to the ring. -/
theorem Represents.exec (h : Represents r m q) {op : Op} {reply : Reply}
    {q' : BoundedQueue U8 (r.cells - 1)} (hop : op.apply q = some (reply, q')) :
    ∃ m', op.exec r.buffer m = some (reply, m') ∧ Represents r m' q' := by
  cases op with
  | free =>
    obtain ⟨n, hn, hfree⟩ := h.count .producer 0
    change n.toNat = q.free at hfree
    cases hop
    exact ⟨m, by simp only [Op.exec, CircularBuffer.numberOfBytesFreeToWrite, hn, Option.map_some,
      hfree], h⟩
  | available =>
    obtain ⟨n, hn, hav⟩ := h.count .consumer 0
    change n.toNat = q.available at hav
    cases hop
    exact ⟨m, by simp only [Op.exec, CircularBuffer.numberOfBytesAvailableToRead, hn,
      Option.map_some, hav], h⟩
  | write l =>
    rw [Op.apply] at hop
    split_ifs at hop with hl
    cases hop
    obtain ⟨m', hm, hr⟩ := h.writeData hl
    exact ⟨m', by rw [Op.exec, hm]; rfl, hr⟩
  | read n =>
    rw [Op.apply] at hop
    split_ifs at hop with hl
    cases hop
    obtain ⟨m', hm, hr⟩ := h.readData hl
    exact ⟨m', by rw [Op.exec, hm]; rfl, hr⟩

theorem Represents.runOps : ∀ {ops : List Op} {m : Segment} {q : BoundedQueue U8 (r.cells - 1)},
    Represents r m q → Session r.buffer ops m →
      ∃ replies m' q', MemMapIPC.runOps (Op.exec r.buffer) ops m = some (replies, m')
        ∧ MemMapIPC.runOps Op.apply ops q = some (replies, q') ∧ Represents r m' q'
  | [], m, q, h, _ => ⟨[], m, q, rfl, rfl, h⟩
  | op :: ops, m, q, h, hs => by
    obtain ⟨hop, hrest⟩ := hs
    obtain ⟨⟨reply, q1⟩, ha⟩ := Option.isSome_iff_exists.1 (h.permitted_iff.1 hop)
    obtain ⟨m1, he, h1⟩ := h.exec ha
    obtain ⟨replies, m2, q2, he2, ha2, h2⟩ := Represents.runOps h1 (hrest _ _ he)
    refine ⟨reply :: replies, m2, q2, ?_, ?_, h2⟩
    · simp [MemMapIPC.runOps, he, he2]
    · simp [MemMapIPC.runOps, ha, ha2]

theorem Represents.session : ∀ {ops : List Op} {m : Segment} {q : BoundedQueue U8 (r.cells - 1)},
    Represents r m q → (MemMapIPC.runOps Op.apply ops q).isSome → Session r.buffer ops m
  | [], _, _, _, _ => trivial
  | op :: ops, m, q, h, hs => by
    rcases ha : op.apply q with _ | ⟨reply, q1⟩
    · simp [MemMapIPC.runOps, ha] at hs
    · have hrest : (MemMapIPC.runOps Op.apply ops q1).isSome := by
        rcases hr : MemMapIPC.runOps Op.apply ops q1 with _ | x
        · simp [MemMapIPC.runOps, ha, hr] at hs
        · rfl
      refine ⟨h.permitted_iff.2 (by rw [ha]; rfl), fun reply' m' he => ?_⟩
      obtain ⟨m1, he1, h1⟩ := h.exec ha
      obtain ⟨-, rfl⟩ := Prod.mk.inj (Option.some_inj.1 (he1.symm.trans he))
      exact h1.session hrest

/-- A session on a new ring returns what the queue of capacity `E - 1` would, and leaves the ring
representing it: the words of each cursor agree, so a count is had in one round of its loop, and
the two add up to all but one cell. -/
theorem ring_refines_queue (r : Ring) (m : Segment) {ops : List Op}
    (h : Session r.buffer ops (CircularBuffer.circularWriteBuffer r.location r.size m).2) :
    ∃ replies m' q',
      runOps (Op.exec r.buffer) ops (CircularBuffer.circularWriteBuffer r.location r.size m).2
          = some (replies, m')
        ∧ runOps Op.apply ops (.empty : BoundedQueue U8 (r.cells - 1)) = some (replies, q')
        ∧ Represents r m' q'
        ∧ ∀ fuel, ∃ free available,
          r.buffer.numberOfBytesFreeToWrite (fuel + 1) m' = some free
            ∧ r.buffer.numberOfBytesAvailableToRead (fuel + 1) m' = some available
            ∧ free.toNat = q'.free ∧ available.toNat = q'.available
            ∧ free + available = r.size - CircularBuffer.reserveSize - 1 := by
  obtain ⟨replies, m', q', he, ha, hr⟩ := (represents_clear r m).runOps h
  refine ⟨replies, m', q', he, ha, hr, fun fuel => ?_⟩
  obtain ⟨nf, hf, hnf⟩ := hr.count .producer fuel
  obtain ⟨na, hav, hna⟩ := hr.count .consumer fuel
  refine ⟨nf, na, hf, hav, hnf, hna, ?_⟩
  have hsum := q'.available_add_free
  have hpos := r.cells_pos
  have hE := r.cells_lt
  have heff : (r.size - CircularBuffer.reserveSize).toNat = r.cells := r.toNat_effectiveBufferSize
  have h1 : (1 : U64).toNat = 1 := rfl
  simp only at hnf hna
  rw [← BitVec.toNat_inj, BitVec.toNat_add, BitVec.toNat_sub, heff, hnf, hna, h1]
  omega

/-- Two writes, the second wrapping, with the ring full in between. -/
def smallSession : List Op :=
  [.write [1, 2, 3, 4, 5], .read 3, .write [6, 7, 8, 9, 10], .free, .read 7, .available]

theorem ring_refines_queue_small : ∃ replies m' q',
    runOps (Op.exec smallRing.buffer) smallSession
        (CircularBuffer.circularWriteBuffer smallRing.location smallRing.size fun _ => 0).2
      = some (replies, m')
    ∧ runOps Op.apply smallSession (.empty : BoundedQueue U8 (smallRing.cells - 1))
      = some (replies, q') ∧ Represents smallRing m' q' := by
  have hs : Session smallRing.buffer smallSession
      (CircularBuffer.circularWriteBuffer smallRing.location smallRing.size fun _ => 0).2 :=
    (represents_clear smallRing fun _ => 0).session (by decide)
  obtain ⟨replies, m', q', he, ha, hr, -⟩ := ring_refines_queue smallRing (fun _ => 0) hs
  exact ⟨replies, m', q', he, ha, hr⟩

end Sessions

end MemMapIPC
