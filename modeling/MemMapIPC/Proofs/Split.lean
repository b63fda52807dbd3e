import MemMapIPC.Proofs.Effect
import MemMapIPC.Proofs.Fifo

/-!
# A transfer in pieces

The pieces of a transfer are one after the other round the cells, and each leaves both words of the
cursor where the next begins, so the last leaves the segment as the whole transfer does
(`Ring.writeAll_eq`, `Ring.readAll_eq`). An entity that transfers what its peer makes room for
leaves what it would have left at once.
-/

namespace MemMapIPC

open ByteMemory

/-- The pieces written one after the other. -/
def CircularBuffer.writeAll (cb : CircularBuffer) : List (List U8) → Segment → Option Segment
  | [], m => some m
  | dataSource :: rest, m => (cb.writeData dataSource m).bind (writeAll cb rest)

/-- Reads one after the other, each into the sink from where the one before it ended. -/
def CircularBuffer.readAll (cb : CircularBuffer) : List U64 → Segment → Option (List U8 × Segment)
  | [], m => some ([], m)
  | numberOfBytes :: rest, m => do
    let (dataSink, m) ← cb.readData numberOfBytes m
    let (sinkRest, m) ← readAll cb rest m
    return (dataSink ++ sinkRest, m)

/-- `n` bytes are no more than the last count the side got, or than one it gets now. -/
def Party.Permits (cb : CircularBuffer) (s : Side) (p : Party) (m : Segment) (n : ℕ) : Prop :=
  n ≤ p.last.toNat ∨ ∃ fuel count, cb.count s fuel m = some count ∧ n ≤ count.toNat

section Split

variable {r : Ring}

theorem Ring.setCursor_pos {m : Segment} {s : Side} {v : U64} (hv : ∀ b, r.word m s b = v)
    (hlt : v.toNat < r.cells) :
    r.setCursor m s (BitVec.ofNat 64 ((v.toNat + 0) % r.cells)) = m := by
  rw [Nat.add_zero, Nat.mod_eq_of_lt hlt, BitVec.ofNat_toNat, BitVec.setWidth_eq]
  exact setCursor_self hv

theorem Ring.writeAll_eq (pieces : List (List U8)) {m : Segment} {v : U64}
    (hv : ∀ b, r.word m .producer b = v) (hlt : v.toNat < r.cells)
    (hl : pieces.flatten.length ≤ r.cells) :
    r.buffer.writeAll pieces m = some (r.setCursor (r.put m v.toNat pieces.flatten) .producer
      (BitVec.ofNat 64 ((v.toNat + pieces.flatten.length) % r.cells))) := by
  induction pieces generalizing m v with
  | nil =>
    rw [List.flatten_nil, List.length_nil, put, setCursor_pos hv hlt, CircularBuffer.writeAll]
  | cons dataSource rest ih =>
    rw [List.flatten_cons, List.length_append] at hl
    have hfirst : (r.word m .producer false).toNat = v.toNat := congrArg BitVec.toNat (hv false)
    have hw := writeData_eq (l := dataSource) (hfirst.trans_lt hlt) (by omega)
    have hrest := ih (m := r.setCursor (r.put m v.toNat dataSource) .producer
        (BitVec.ofNat 64 ((v.toNat + dataSource.length) % r.cells)))
      (fun b => word_setCursor b) (by rw [toNat_ofNat_mod]; exact Nat.mod_lt _ r.cells_pos)
      (by omega)
    rw [hfirst] at hw
    rw [CircularBuffer.writeAll, hw, Option.bind_some, hrest, toNat_ofNat_mod, put_mod,
      put_setCursor, setCursor_setCursor, Nat.mod_add_mod, ← put_append, List.flatten_cons,
      List.length_append, Nat.add_assoc]

theorem Ring.readAll_eq (sizes : List U64) {m : Segment} {v : U64}
    (hv : ∀ b, r.word m .consumer b = v) (hlt : v.toNat < r.cells)
    (hl : (sizes.map BitVec.toNat).sum ≤ r.cells) :
    r.buffer.readAll sizes m = some (r.get m v.toNat (sizes.map BitVec.toNat).sum,
      r.setCursor m .consumer
        (BitVec.ofNat 64 ((v.toNat + (sizes.map BitVec.toNat).sum) % r.cells))) := by
  induction sizes generalizing m v with
  | nil =>
    rw [List.map_nil, List.sum_nil, setCursor_pos hv hlt, CircularBuffer.readAll]
    rfl
  | cons n rest ih =>
    rw [List.map_cons, List.sum_cons] at hl
    have hfirst : (r.word m .consumer false).toNat = v.toNat := congrArg BitVec.toNat (hv false)
    have hn := readData_eq (n := n) (hfirst.trans_lt hlt) (by omega)
    have hrest := ih (m := r.setCursor m .consumer
        (BitVec.ofNat 64 ((v.toNat + n.toNat) % r.cells)))
      (fun b => word_setCursor b) (by rw [toNat_ofNat_mod]; exact Nat.mod_lt _ r.cells_pos)
      (by omega)
    rw [hfirst] at hn
    rw [CircularBuffer.readAll, hn]
    simp only [Option.bind_eq_bind, Option.bind_some, hrest, Option.pure_def]
    rw [toNat_ofNat_mod, get_mod, get_setCursor, setCursor_setCursor, Nat.mod_add_mod, ← get_add,
      List.map_cons, List.sum_cons, Nat.add_assoc]

end Split

section Reached

variable {r : Ring} {s : Side} {σ : Shared} {p : Party}

theorem Own.words_eq (h : Own r s σ p) (hc : p.call = none) (b : Bool) :
    r.word σ.mem s b = r.word σ.mem s false := by
  cases b with
  | false => rfl
  | true =>
    have hat := h.at_call
    rw [hc] at hat
    exact BitVec.eq_of_toNat_eq (hat.1.2.trans (h.sound.first s).symm)

/-- The retry loop is left with what both words were. -/
theorem CircularBuffer.nonvolatilePointer_eq {cb : CircularBuffer} {m : Segment} {v : U64}
    {fuel : ℕ} (h : cb.nonvolatilePointer s m fuel = some v) :
    m.loadWord (cb.pointer s false) = v := by
  induction fuel with
  | zero => cases h
  | succ fuel ih =>
    rw [nonvolatilePointer] at h
    split_ifs at h with hne
    · exact ih h
    · rw [← Option.some_inj.1 h]
      exact (not_not.1 hne).symm

/-- What a side counts is what it can reach. -/
theorem Own.count_eq (h : Own r s σ p) {fuel : ℕ} {n : U64}
    (hn : r.buffer.count s fuel σ.mem = some n) : n.toNat = limit r σ s - σ.advanced s := by
  obtain ⟨v, hv, he⟩ := Option.bind_eq_some_iff.1 hn
  have hfirst := h.sound.first s.peer
  rw [← Ring.loadWord_pointer, CircularBuffer.nonvolatilePointer_eq hv] at hfirst
  cases he
  exact Ring.toNat_difference hfirst (h.sound.first s)
    ((h.sound.advanced_le s).trans (h.sound.moved_le s)) (h.sound.limit_le s)

theorem Own.permits_le (h : Own r s σ p) {n : ℕ}
    (hn : p.Permits r.buffer s σ.mem n) : n ≤ limit r σ s - σ.advanced s := by
  rcases hn with hn | ⟨fuel, count, hcount, hn⟩
  · have := h.last
    omega
  · exact hn.trans (h.count_eq hcount).le

end Reached

/-- In every state of a ring, what a side between two calls may transfer it may transfer in any
pieces, one after the other: the segment is the same, and so is what is in the sink. -/
theorem transfer_in_pieces (r : Ring) (m : Segment) {x : RingState}
    (hx : RingReach r (ringStart r m) x) :
    (x.left.call = none → ∀ pieces : List (List U8),
      x.left.Permits r.buffer .producer x.shared.mem pieces.flatten.length →
        ∃ m', r.buffer.writeData pieces.flatten x.shared.mem = some m'
          ∧ r.buffer.writeAll pieces x.shared.mem = some m')
      ∧ (x.right.call = none → ∀ sizes : List U64,
        x.right.Permits r.buffer .consumer x.shared.mem (sizes.map BitVec.toNat).sum →
          ∃ dataSink m',
            r.buffer.readData (BitVec.ofNat 64 (sizes.map BitVec.toNat).sum) x.shared.mem
                = some (dataSink, m')
              ∧ dataSink.length = (sizes.map BitVec.toNat).sum
              ∧ r.buffer.readAll sizes x.shared.mem = some (dataSink, m')) := by
  obtain ⟨hp, hc⟩ := own_reach hx
  have hE := r.cells_lt
  refine ⟨fun hidle pieces hn => ?_, fun hidle sizes hn => ?_⟩
  · have hle := hp.permits_le hn
    have hlim := hp.sound.limit_le .producer
    exact ⟨_, Ring.writeData_eq (hp.sound.first_lt .producer) (by omega),
      Ring.writeAll_eq pieces (hp.words_eq hidle) (hp.sound.first_lt .producer) (by omega)⟩
  · have hle := hc.permits_le hn
    have hlim := hc.sound.limit_le .consumer
    have hn : (BitVec.ofNat 64 (sizes.map BitVec.toNat).sum).toNat
        = (sizes.map BitVec.toNat).sum := by
      rw [BitVec.toNat_ofNat, Nat.mod_eq_of_lt (by omega)]
    have hread := Ring.readData_eq (n := BitVec.ofNat 64 (sizes.map BitVec.toNat).sum)
      (hc.sound.first_lt .consumer) (by omega)
    rw [hn] at hread
    exact ⟨_, _, hread, Ring.length_get _ _,
      Ring.readAll_eq sizes (hc.words_eq hidle) (hc.sound.first_lt .consumer) (by omega)⟩

/-- Two bytes written, and counted by the reader. -/
def smallCount : List (Choice ⊕ Choice) := smallSchedule.take 18

theorem small_count : ((ringStart smallRing fun _ => 0).run smallRing smallCount).map (fun y =>
    (y.left.call, y.right.call, y.right.last, smallRing.buffer.count .producer 1 y.shared.mem))
      = some (none, none, 2, some 5) := by
  decide +kernel

theorem transfer_in_pieces_small : ∃ y, RingReach smallRing (ringStart smallRing fun _ => 0) y
    ∧ (∃ m', smallRing.buffer.writeData [1, 2, 3] y.shared.mem = some m'
      ∧ smallRing.buffer.writeAll [[1], [], [2, 3]] y.shared.mem = some m')
    ∧ ∃ dataSink m', smallRing.buffer.readData 2 y.shared.mem = some (dataSink, m')
      ∧ smallRing.buffer.readAll [1, 0, 1] y.shared.mem = some (dataSink, m') := by
  obtain ⟨y, hy, hm⟩ := Option.map_eq_some_iff.1 small_count
  simp only [Prod.mk.injEq] at hm
  obtain ⟨hleft, hright, hlast, hcount⟩ := hm
  obtain ⟨hw, hr⟩ := transfer_in_pieces smallRing (fun _ => 0) (RingState.run_reach hy)
  obtain ⟨dataSink, m', hone, -, hall⟩ := hr hright [1, 0, 1] (.inl (by rw [hlast]; decide))
  exact ⟨y, RingState.run_reach hy,
    hw hleft [[1], [], [2, 3]] (.inr ⟨1, 5, hcount, by decide⟩), dataSink, m', hone, hall⟩

end MemMapIPC
