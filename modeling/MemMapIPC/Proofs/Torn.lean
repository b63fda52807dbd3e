import MemMapIPC.Torn
import MemMapIPC.Proofs.Fifo

/-!
# Torn words that fit in their low part

When every cursor value fits in the low `k` bytes, the high part of each word is always zero: the
low part alone is the word, and the step on it is the whole access. A torn party then stands for
one that accesses words at once (`Stands`), in the same shared state, and knows what that one
knows.
-/

namespace MemMapIPC

open ByteMemory Interleaving

variable {r : Ring} {s : Side} {σ σ' : Shared} {k : ℕ}

/-- Party `p` is where the torn party is, a word half done taken as done. -/
def Stands (r : Ring) (s : Side) (k : ℕ) (t : TornParty) (p : Party) : Prop :=
  match t.half with
  | none => p = t.party
  | some low => ∃ c, t.party.call = some c ∧
      match c.access r.buffer s with
      | .load _ => t.party.resume (c.next r.buffer s (BitVec.ofNat 64 low)) = some p ∧ low < 256 ^ k
      | .store _ v => t.party.resume (c.next r.buffer s 0) = some p ∧ v.toNat < 256 ^ k
      | _ => False

section Parts

variable {m : Segment} {b : Bool}

theorem word_offset (r : Ring) (s : Side) (b : Bool) (k : ℕ) :
    r.buffer.pointer s b + BitVec.ofNat 64 k
      = r.location + BitVec.ofNat 64 (r.wordOffset s b + k) := by
  rw [Ring.pointer_eq, BitVec.add_assoc, BitVec.ofNat_add]

theorem load_parts (hk : k ≤ 8) : (r.word m s b).toNat
    = m.load (r.buffer.pointer s b) k
      + 256 ^ k * m.load (r.buffer.pointer s b + BitVec.ofNat 64 k) (8 - k) := by
  rw [Ring.word, toNat_loadWord, ← Memory.load_add]
  congr 1
  omega

theorem load_parts_of_lt (hk : k ≤ 8) (h : (r.word m s b).toNat < 256 ^ k) :
    m.load (r.buffer.pointer s b) k = (r.word m s b).toNat
      ∧ m.load (r.buffer.pointer s b + BitVec.ofNat 64 k) (8 - k) = 0 := by
  have hp := load_parts (m := m) (r := r) (s := s) (b := b) hk
  have h0 : m.load (r.buffer.pointer s b + BitVec.ofNat 64 k) (8 - k) = 0 := by
    by_contra hne
    have := Nat.mul_le_mul_left (256 ^ k) (Nat.one_le_iff_ne_zero.2 hne)
    omega
  rw [h0, Nat.mul_zero, Nat.add_zero] at hp
  exact ⟨hp.symm, h0⟩

/-- Storing the high part of a value that has none, over one that is zero, changes nothing. -/
theorem store_high {v : U64} (hv : v.toNat < 256 ^ k) (hk : k ≤ 8)
    (h : (r.word m s b).toNat < 256 ^ k) :
    m.store (r.buffer.pointer s b + BitVec.ofNat 64 k) (8 - k) (v.toNat / 256 ^ k) = m := by
  rw [Nat.div_eq_of_lt hv, ← (load_parts_of_lt hk h).2]
  exact Memory.store_load m _ _

/-- Storing the low part of such a value over such a word stores the word. -/
theorem store_low {v : U64} (hv : v.toNat < 256 ^ k) (hk : k ≤ 8)
    (h : (r.word m s b).toNat < 256 ^ k) :
    m.store (r.buffer.pointer s b) k v.toNat = m.storeWord (r.buffer.pointer s b) v := by
  have h1 := r.wordOffset_add_le s b
  have h2 := r.cells_lt
  have hadd := Memory.store_add m r.location (x := r.wordOffset s b) (n := k) (k := 8 - k)
    (by omega) v.toNat
  rw [← Ring.pointer_eq, ← word_offset, show k + (8 - k) = 8 by omega] at hadd
  rw [Segment.storeWord, ← hadd, Nat.div_eq_of_lt hv]
  have hhigh : Memory.load (m.store (r.buffer.pointer s b) k v.toNat)
      (r.buffer.pointer s b + BitVec.ofNat 64 k) (8 - k) = 0 := by
    rw [← (load_parts_of_lt hk h).2, word_offset, Ring.pointer_eq, Memory.store]
    exact Memory.load_write_of_disjoint m _ (by simp; omega) (by omega) (.inr (by simp))
  have := Memory.store_load (m.store (r.buffer.pointer s b) k v.toNat)
    (r.buffer.pointer s b + BitVec.ofNat 64 k) (8 - k)
  rw [hhigh] at this
  exact this.symm

end Parts

theorem Sound.word_lt (h : Sound r σ) (t : Side) (b : Bool) :
    (r.word σ.mem t b).toNat < r.cells := by
  cases b with
  | false => exact h.first_lt t
  | true => exact h.second t

theorem Own.stored_lt {p : Party} (h : Own r s σ p) {v later : U64}
    (hc : p.call = some (.publish v later) ∨ p.call = some (.publishSecond v later)) :
    v.toNat < r.cells := by
  have hat := h.at_call
  rcases hc with hc | hc <;> rw [hc] at hat
  · rw [hat.1]
    exact Nat.mod_lt _ r.cells_pos
  · rw [hat.2.1]
    exact Nat.mod_lt _ r.cells_pos

def TornOwn (r : Ring) (s : Side) (k : ℕ) (t : TornParty) (σ : Shared) : Prop :=
  ∃ p, Stands r s k t p ∧ Own r s σ p

theorem TornOwn.move {t t' : TornParty} (hk : k ≤ 8) (hE : r.cells ≤ 256 ^ k)
    (h : TornOwn r s k t σ) {c : Call} (hc : t.party.call = some c)
    (hm : t.move r.buffer s k c σ = some (t', σ')) :
    TornOwn r s k t' σ' ∧ Keeps r s.peer σ σ' := by
  obtain ⟨p, hp, hown⟩ := h
  have hword : ∀ t b, (r.word σ.mem t b).toNat < 256 ^ k := fun t b =>
    (hown.sound.word_lt t b).trans_le hE
  unfold TornParty.move at hm
  split at hm
  · rename_i a ha hh
    simp only [Option.some.injEq, Prod.mk.injEq] at hm
    obtain ⟨rfl, rfl⟩ := hm
    obtain rfl : p = t.party := by simpa [Stands, hh] using hp
    obtain ⟨q, hq⟩ := Option.isSome_iff_exists.1 (hown.move_isSome hc)
    have hq' := hq
    simp only [Party.move, ha, Option.map_eq_some_iff] at hq'
    obtain ⟨p', hres, rfl⟩ := hq'
    obtain ⟨u, b, rfl⟩ := Call.access_load ha
    have hlow := (load_parts_of_lt hk (hword u b)).1
    refine ⟨⟨p', ⟨c, hc, ?_⟩, (hown.move hc hq).1⟩, (hown.move hc hq).2⟩
    simp only [ha]
    rw [hlow]
    exact ⟨by rwa [BitVec.ofNat_toNat, BitVec.setWidth_eq], hword u b⟩
  · rename_i a low ha hh
    simp only [Option.map_eq_some_iff, Prod.mk.injEq] at hm
    obtain ⟨p', hres, rfl, rfl⟩ := hm
    simp only [Stands, hh] at hp
    obtain ⟨c', hc', hp⟩ := hp
    obtain rfl : c = c' := by simpa [hc] using hc'
    simp only [ha] at hp
    obtain ⟨u, b, rfl⟩ := Call.access_load ha
    rw [(load_parts_of_lt hk (hword u b)).2, Nat.mul_zero, Nat.add_zero, hp.1,
      Option.some.injEq] at hres
    subst hres
    exact ⟨⟨_, rfl, hown⟩, hown.sound.keeps_refl⟩
  · rename_i a v ha hh
    simp only [Option.some.injEq, Prod.mk.injEq] at hm
    obtain ⟨rfl, rfl⟩ := hm
    obtain rfl : p = t.party := by simpa [Stands, hh] using hp
    obtain ⟨q, hq⟩ := Option.isSome_iff_exists.1 (hown.move_isSome hc)
    have hq' := hq
    simp only [Party.move, ha, Option.map_eq_some_iff] at hq'
    obtain ⟨p', hres, rfl⟩ := hq'
    obtain ⟨b, later, rfl, hcv⟩ := Call.access_store ha
    have hst : t.party.call = some (.publish v later)
        ∨ t.party.call = some (.publishSecond v later) := by
      rw [hc]
      simpa using hcv
    have hv : v.toNat < 256 ^ k := (hown.stored_lt hst).trans_le hE
    rw [store_low hv hk (hword s b)]
    refine ⟨⟨p', ⟨c, hc, ?_⟩, (hown.move hc hq).1⟩, (hown.move hc hq).2⟩
    simp only [ha]
    exact ⟨hres, hv⟩
  · rename_i a v low ha hh
    simp only [Option.map_eq_some_iff, Prod.mk.injEq] at hm
    obtain ⟨p', hres, rfl, rfl⟩ := hm
    simp only [Stands, hh] at hp
    obtain ⟨c', hc', hp⟩ := hp
    obtain rfl : c = c' := by simpa [hc] using hc'
    simp only [ha] at hp
    obtain ⟨b, later, rfl, -⟩ := Call.access_store ha
    rw [hp.1, Option.some.injEq] at hres
    subst hres
    rw [store_high hp.2 hk (hword s b)]
    exact ⟨⟨_, rfl, hown⟩, hown.sound.keeps_refl⟩
  · rename_i hl0 hl1 hs0 hs1
    rcases hh : t.half with _ | low
    · obtain rfl : p = t.party := by simpa [Stands, hh] using hp
      simp only [Option.map_eq_some_iff, Prod.mk.injEq] at hm
      obtain ⟨q, hq, rfl, rfl⟩ := hm
      have hq' : t.party.move r.buffer s c σ = some (q.1, q.2) := hq
      exact ⟨⟨_, rfl, (hown.move hc hq').1⟩, (hown.move hc hq').2⟩
    · exfalso
      simp only [Stands, hh] at hp
      obtain ⟨c', hc', hp⟩ := hp
      obtain rfl : c = c' := by simpa [hc] using hc'
      split at hp
      · exact hl1 _ _ ‹_› hh
      · exact hs1 _ _ _ ‹_› hh
      · exact hp

theorem tornStep_guarantees (hk : k ≤ 8) (hE : r.cells ≤ 256 ^ k) (s : Side) :
    Guarantees (TornStep r.buffer s k) (TornOwn r s k) (Keeps r s.peer) := by
  rintro t σ t' σ' h hstep
  cases hstep with
  | start hp =>
    obtain ⟨p, rfl, hown⟩ := h
    exact ⟨⟨_, rfl, (hown.start hp).1⟩, (hown.start hp).2⟩
  | move hc hm => exact h.move hk hE hc hm

theorem tornOwn_stable : Stable (TornOwn r s k) (Keeps r s) := by
  rintro t σ σ' ⟨p, hp, hown⟩ hkeep
  exact ⟨p, hp, own_stable p σ σ' hown hkeep⟩

/-- A count the retry loop lets through is within reach. -/
theorem TornOwn.countOf_le {t : TornParty} (h : TornOwn r s k t σ) {v : U64}
    (hc : t.party.call = some (.compare v)) :
    (σ.moved s).length + (r.countOf s v σ.mem).toNat ≤ limit r σ s := by
  obtain ⟨p, hp, hown⟩ := h
  have hat : Settled r s σ ∧ Seen r s σ v := by
    have ha := hown.at_call
    rcases hh : t.half with _ | low <;> simp only [Stands, hh] at hp
    · subst hp
      rw [hc] at ha
      exact ⟨ha.1, ha.2.2⟩
    · obtain ⟨c', hc', hp⟩ := hp
      obtain rfl : .compare v = c' := by simpa [hc] using hc'
      simp only [Call.access, Call.next, Party.resume, Option.some.injEq] at hp
      rw [← hp.1] at ha
      exact ⟨ha.1, ha.2.2.1⟩
  obtain ⟨h1, q, hq, hv, hle⟩ := hat
  have hlim : r.reach s q ≤ limit r σ s := r.reach_mono s hq
  have hcount := Ring.toNat_difference hv (hown.sound.first s) hle
    (hlim.trans (hown.sound.limit_le s))
  have h1' := h1.1
  simp only [Ring.countOf, hcount]
  omega

/-- On a ring whose cells are numbered in `k` bytes, counts are safe however words are torn. -/
theorem torn_countsSafe (hk : k ≤ 8) (hE : r.cells ≤ 256 ^ k) {m : Segment} {x : TornState}
    (h : TornReach r k (tornStart r m) x) : CountsSafe r x := by
  obtain ⟨hp, hc⟩ := Reach.of_rely (tornStep_guarantees hk hE .producer)
    (tornStep_guarantees hk hE .consumer) tornOwn_stable tornOwn_stable h
    ⟨⟨{}, rfl, own_start .producer⟩, ⟨{}, rfl, own_start .consumer⟩⟩
  have hsound : Sound r x.shared := by
    obtain ⟨p, -, hown⟩ := hp
    exact hown.sound
  have hpos := r.cells_pos
  refine ⟨fun v hv => ?_, fun v hv => ?_⟩
  · have h1 := hc.countOf_le hv
    have h2 := hsound.advanced_le .producer
    simp only [limit, Ring.reach, Side.peer] at h1
    omega
  · have h1 := hp.countOf_le hv
    have h2 := hsound.advanced_le .consumer
    simp only [limit, Ring.reach, Side.peer] at h1
    omega

end MemMapIPC
