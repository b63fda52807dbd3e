import MemMapIPC.Notices
import MemMapIPC.Proofs.Duplex
import MemMapIPC.Proofs.Startup
import MemMapIPC.Proofs.Succession

/-!
# What is read in front of the rings

The parts of the header do not overlap, and no ring has a byte of it (`Layout.header_read`). So a
timestamp stays until the same process stores another, and a byte of the key until one process or
the other copies over it.
-/

namespace MemMapIPC

open ByteMemory Relation

/-! ## The header -/

section Header

variable {L : Layout} {m m' : Segment} {c : Channel} {y n : ℕ} {p q : Process}

def Layout.timestampOffset (L : Layout) : Process → ℕ
  | .server => 0
  | .client => L.sizeofPtime.toNat * L.sizeofPtime.toNat

def Layout.keyOffset (L : Layout) : ℕ :=
  L.sizeofPtime.toNat * L.sizeofPtime.toNat + L.sizeofPtime.toNat

theorem Process.timestamp_eq (p : Process) :
    p.timestamp L = 0 + BitVec.ofNat 64 (L.timestampOffset p) := by
  cases p <;> rw [timestamp, L.header_eq] <;> rfl

theorem Layout.key_eq : (L.header 0).key = 0 + BitVec.ofNat 64 L.keyOffset := by
  rw [L.header_eq]
  rfl

theorem Layout.keyOffset_add : L.keyOffset + 72 = headerSize L.sizeofPtime := by
  unfold keyOffset headerSize
  omega

theorem Layout.headerSize_lt (L : Layout) : headerSize L.sizeofPtime < 2 ^ 64 := by
  have hfits := L.fits
  have hsize := L.bufferSize_gt
  omega

theorem Layout.timestampOffset_le (p : Process) :
    L.timestampOffset p + L.sizeofPtime.toNat ≤ L.keyOffset := by
  unfold timestampOffset keyOffset
  cases p <;> simp

/-- Both timestamps have their own bytes. -/
theorem Layout.timestampOffset_disjoint (h : q ≠ p) :
    L.timestampOffset q + L.sizeofPtime.toNat ≤ L.timestampOffset p
      ∨ L.timestampOffset p + L.sizeofPtime.toNat ≤ L.timestampOffset q := by
  have hpos := L.sizeofPtime_pos
  rw [BitVec.lt_def] at hpos
  have hsquare : L.sizeofPtime.toNat ≤ L.sizeofPtime.toNat * L.sizeofPtime.toNat :=
    Nat.le_mul_of_pos_left _ hpos
  unfold timestampOffset
  cases p <;> cases q <;> simp_all

/-- No ring has a byte of the header. -/
theorem Layout.header_byte (h : (L.ring c).Outside m m') (hy : y < headerSize L.sizeofPtime) :
    m' (0 + BitVec.ofNat 64 y) = m (0 + BitVec.ofNat 64 y) := by
  rw [zero_add]
  exact L.outside_offset h (.inl (hy.trans_le (L.headerSize_le c))) (hy.trans L.headerSize_lt)

theorem Layout.header_read (h : (L.ring c).Outside m m') (hle : y + n ≤ headerSize L.sizeofPtime) :
    m'.read (0 + BitVec.ofNat 64 y) n = m.read (0 + BitVec.ofNat 64 y) n := by
  rw [Memory.read_offset, Memory.read_offset]
  refine List.map_congr_left fun i hi => ?_
  rw [List.mem_range] at hi
  exact L.header_byte h (by omega)

theorem Process.read_updateTimestamp (p : Process) (now : Ptime L.sizeofPtime) :
    (m.write (p.timestamp L) now.1).read (p.timestamp L) L.sizeofPtime.toNat = now.1 := by
  have hadd := L.keyOffset_add
  have hlt := L.headerSize_lt
  have hle := L.timestampOffset_le p
  have hnow := now.2
  have hsame := Memory.read_write_same (x := L.timestampOffset p) (l := now.1) m 0 (by omega)
  rw [p.timestamp_eq]
  rwa [hnow] at hsame

/-- A timestamp is stored away from every other part of the header. -/
theorem Process.read_of_disjoint (p : Process) (now : Ptime L.sizeofPtime) {y n : ℕ}
    (hle : y + n ≤ headerSize L.sizeofPtime)
    (h : y + n ≤ L.timestampOffset p ∨ L.timestampOffset p + L.sizeofPtime.toNat ≤ y) :
    (m.write (p.timestamp L) now.1).read (0 + BitVec.ofNat 64 y) n
      = m.read (0 + BitVec.ofNat 64 y) n := by
  have hadd := L.keyOffset_add
  have hlt := L.headerSize_lt
  have hle' := L.timestampOffset_le p
  have hnow := now.2
  rw [p.timestamp_eq]
  exact Memory.read_write_of_disjoint _ _ (by omega) (by omega) (by rwa [hnow])

theorem getElem?_mixed {k l : List U8} (hlen : k.length = l.length) (i j : ℕ) :
    (k.take i ++ l.drop i)[j]? = if j < i then k[j]? else l[j]? := by
  rw [List.getElem?_append, List.length_take, List.getElem?_take, List.getElem?_drop]
  by_cases hj : j < i
  · simp only [hj, if_true]
    split_ifs with hk
    · rfl
    · rw [List.getElem?_eq_none (by omega), List.getElem?_eq_none (by omega)]
  · simp only [hj, if_false]
    rw [if_neg (by omega)]
    by_cases hi : i ≤ k.length
    · rw [Nat.min_eq_left hi, Nat.add_sub_cancel' (by omega)]
    · rw [List.getElem?_eq_none (by omega), List.getElem?_eq_none (by omega)]

end Header

/-! ## The notices -/

section Notices

variable {L : Layout} {m : Segment} {x y : Notices L} {p q : Process} {i : ℕ} {b : U8} {key : Key}

namespace Notices

theorem length_old (x : Notices L) (p : Process) :
    (x.old p).length = Header.keySizeInBytes.toNat := by
  unfold old
  rcases x.written p with _ | key
  · exact List.length_replicate
  · exact key.2

/-- The byte of the key at `i`. -/
def keyByte (x : Notices L) (i : ℕ) : U8 := x.mem (0 + BitVec.ofNat 64 (L.keyOffset + i))

theorem shown_of_none (h : x.writing p = none) : x.shown p = x.old p := by
  unfold shown
  rw [h]

theorem shown_of_some {k : ℕ} (h : x.writing p = some (key, k)) (j : ℕ) :
    (x.shown p)[j]? = if j < k then key.1[j]? else (x.old p)[j]? := by
  unfold shown
  rw [h]
  exact getElem?_mixed (key.2.trans (x.length_old p).symm) k j

/-- A process that has not changed its key. -/
theorem shown_congr (hwriting : y.writing p = x.writing p) (hwritten : y.written p = x.written p) :
    y.shown p = x.shown p := by
  unfold shown old
  rw [hwriting, hwritten]

theorem silent_congr (hwriting : y.writing p = x.writing p) (hwritten : y.written p = x.written p) :
    y.Silent p ↔ x.Silent p := by
  unfold Silent
  rw [hwriting, hwritten]

end Notices

structure NoticesInv (L : Layout) (m : Segment) (x : Notices L) : Prop where
  kept : x.duplex.Kept L m
  timestamp : ∀ p, x.mem.read (p.timestamp L) L.sizeofPtime.toNat = (x.timestamp p).1
  byte : ∀ i < Header.keySizeInBytes.toNat, (∃ p, (x.shown p)[i]? = some (x.keyByte i))
    ∧ ∀ p, x.Silent p.other → (x.shown p)[i]? = some (x.keyByte i)

/-- Where neither process has copied a byte of its key. -/
theorem NoticesInv.byte_congr (h : NoticesInv L m x)
    (hshown : ∀ p, y.shown p = x.shown p) (hsilent : ∀ p, y.Silent p → x.Silent p)
    (hbyte : ∀ i < Header.keySizeInBytes.toNat, y.keyByte i = x.keyByte i) :
    ∀ i < Header.keySizeInBytes.toNat, (∃ p, (y.shown p)[i]? = some (y.keyByte i))
      ∧ ∀ p, y.Silent p.other → (y.shown p)[i]? = some (y.keyByte i) := by
  intro i hi
  obtain ⟨⟨p, hp⟩, hall⟩ := h.byte i hi
  rw [hbyte i hi]
  refine ⟨⟨p, by rw [hshown, hp]⟩, fun q hq => ?_⟩
  rw [hshown]
  exact hall q (hsilent _ hq)

/-- Where a process begins with a key, or is done with it. -/
theorem NoticesInv.turn (h : NoticesInv L m x) (hduplex : y.duplex = x.duplex)
    (htimestamp : y.timestamp = x.timestamp)
    (hother : ∀ q, q ≠ p → y.writing q = x.writing q ∧ y.written q = x.written q)
    (hshown : y.shown p = x.shown p) (hself : ¬y.Silent p) : NoticesInv L m y := by
  have hmem : y.mem = x.mem := congrArg Duplex.mem hduplex
  refine ⟨hduplex ▸ h.kept, fun q => ?_, h.byte_congr (fun q => ?_) (fun q hq => ?_) fun i _ => ?_⟩
  · rw [hmem, htimestamp, h.timestamp q]
  · by_cases hqp : q = p
    · rw [hqp, hshown]
    · exact Notices.shown_congr (hother q hqp).1 (hother q hqp).2
  · have hqp : q ≠ p := fun he => hself (he ▸ hq)
    exact (Notices.silent_congr (hother q hqp).1 (hother q hqp).2).1 hq
  · unfold Notices.keyByte
    rw [hmem]

/-- Where a process has copied byte `i` of its key. -/
theorem NoticesInv.copied (h : NoticesInv L m x) (hi : x.writing p = some (key, i))
    (hb : key.1[i]? = some b) (hduplex : y.duplex = x.duplex.write (L.keyOffset + i) [b])
    (htimestamp : y.timestamp = x.timestamp) (hself : y.writing p = some (key, i + 1))
    (hwritten : y.written = x.written) (hother : ∀ q, q ≠ p → y.writing q = x.writing q) :
    NoticesInv L m y := by
  have hadd := L.keyOffset_add
  have hlt := L.headerSize_lt
  have hkeySize : Header.keySizeInBytes.toNat = 64 := rfl
  obtain ⟨hlen, -⟩ := List.getElem?_eq_some_iff.1 hb
  rw [key.2] at hlen
  have hmem : y.mem = x.mem.write (0 + BitVec.ofNat 64 (L.keyOffset + i)) [b] :=
    congrArg Duplex.mem hduplex
  have hkept : y.duplex.Kept L m := by
    rw [hduplex]
    exact (DuplexStep.header (by rw [List.length_singleton]; omega)).kept h.kept
  have hsilent : ∀ q, y.Silent q → q ≠ p ∧ x.Silent q := by
    intro q hq
    have hqp : q ≠ p := by
      rintro rfl
      rw [Notices.Silent, hself] at hq
      cases hq.1
    exact ⟨hqp, (Notices.silent_congr (hother q hqp) (congrFun hwritten q)).1 hq⟩
  have hshown : ∀ j, j ≠ i → ∀ q, (y.shown q)[j]? = (x.shown q)[j]? := by
    intro j hj q
    by_cases hqp : q = p
    · have hold : y.old p = x.old p := by
        unfold Notices.old
        rw [hwritten]
      rw [hqp, Notices.shown_of_some hself, Notices.shown_of_some hi, hold]
      by_cases hji : j < i
      · rw [if_pos hji, if_pos (by omega)]
      · rw [if_neg hji, if_neg (by omega)]
    · rw [Notices.shown_congr (hother q hqp) (congrFun hwritten q)]
  refine ⟨hkept, fun q => ?_, fun j hj => ?_⟩
  · have hle := L.timestampOffset_le q
    rw [htimestamp, ← h.timestamp q, hmem, q.timestamp_eq]
    exact Memory.read_write_of_disjoint _ _ (by rw [List.length_singleton]; omega) (by omega)
      (.inl (by omega))
  by_cases hji : j = i
  · subst hji
    have hbyte : y.keyByte j = b := by
      unfold Notices.keyByte
      rw [hmem]
      exact Memory.write_offset_of_mem (x := L.keyOffset + j) (i := 0) (l := [b]) x.mem 0
        (by rw [List.length_singleton]; omega) Nat.one_pos
    have hp : (y.shown p)[j]? = some (y.keyByte j) := by
      rw [hbyte, Notices.shown_of_some hself, if_pos (Nat.lt_succ_self _), hb]
    refine ⟨⟨p, hp⟩, fun q hq => ?_⟩
    obtain rfl : q = p := by
      have hne := (hsilent _ hq).1
      revert hne
      cases p <;> cases q <;> decide
    exact hp
  · have hbyte : y.keyByte j = x.keyByte j := by
      unfold Notices.keyByte
      rw [hmem]
      exact Memory.write_offset_of_disjoint _ _ (by rw [List.length_singleton]; omega) (by omega)
        (by rw [List.length_singleton]; omega)
    obtain ⟨⟨q, hq⟩, hall⟩ := h.byte j hj
    rw [hbyte]
    refine ⟨⟨q, (hshown j hji q).trans hq⟩, fun r hr => ?_⟩
    exact (hshown j hji r).trans (hall r (hsilent _ hr).2)

theorem NoticeStep.inv (h : NoticesInv L m x) (hs : NoticeStep L x y) : NoticesInv L m y := by
  have hadd := L.keyOffset_add
  have hlt := L.headerSize_lt
  have hkeySize : Header.keySizeInBytes.toNat = 64 := rfl
  cases hs with
  | @call c s e σ hstep =>
    have hkept := (DuplexStep.call c s hstep).kept h.kept
    obtain ⟨z, hz⟩ := h.kept.apart c
    obtain ⟨-, hkeep⟩ := endpointStep_guarantees _ _ _ _ _ _ (hz.firm s).toEndpointOwn hstep
    refine ⟨hkept, fun p => ?_, h.byte_congr (fun p => rfl) (fun p hp => hp) fun i hi => ?_⟩
    · have hle := L.timestampOffset_le p
      rw [← h.timestamp p, p.timestamp_eq]
      exact L.header_read hkeep.outside (by omega)
    · exact L.header_byte hkeep.outside (by omega)
  | updateTimestamp p now =>
    have hle := L.timestampOffset_le p
    have hnow := now.2
    refine ⟨?_, fun q => ?_, h.byte_congr (fun q => rfl) (fun q hq => hq) fun i hi => ?_⟩
    · rw [p.timestamp_eq]
      exact (DuplexStep.header (by omega)).kept h.kept
    · show (x.mem.write (p.timestamp L) now.1).read (q.timestamp L) _
        = (Function.update x.timestamp p now q).1
      by_cases hq : q = p
      · subst hq
        rw [Function.update_self]
        exact q.read_updateTimestamp now
      · have hle' := L.timestampOffset_le q
        rw [Function.update_of_ne hq, ← h.timestamp q, q.timestamp_eq]
        exact p.read_of_disjoint now (by omega) (L.timestampOffset_disjoint hq)
    · show (x.mem.write (p.timestamp L) now.1) _ = _
      rw [p.timestamp_eq]
      exact Memory.write_offset_of_disjoint _ _ (by omega) (by omega) (.inr (by omega))
  | writeKey p key hnone =>
    refine h.turn (p := p) rfl rfl (fun q hq => ⟨Function.update_of_ne hq _ _, rfl⟩) ?_ ?_
    · rw [Notices.shown_of_none hnone]
      unfold Notices.shown
      simp only [Function.update_self, List.take_zero, List.nil_append, List.drop_zero]
      rfl
    · rintro ⟨hnone', -⟩
      simp only [Function.update_self] at hnone'
      cases hnone'
  | @copy p key i b hi hb =>
    refine h.copied hi hb ?_ rfl (Function.update_self _ _ _) rfl fun q hq =>
      Function.update_of_ne hq _ _
    show (x.write ((L.header 0).key + BitVec.ofNat 64 i) [b]).duplex = _
    rw [L.key_eq, BitVec.add_assoc, ← BitVec.ofNat_add]
    rfl
  | @written p key hsome =>
    refine h.turn (p := p) rfl rfl
      (fun q hq => ⟨Function.update_of_ne hq _ _, Function.update_of_ne hq _ _⟩) ?_ ?_
    · have hlen := x.length_old p
      have hkey := key.2
      unfold Notices.shown
      simp only [Function.update_self, hsome]
      rw [List.take_of_length_le hkey.le, List.drop_of_length_le hlen.le, List.append_nil]
      unfold Notices.old
      simp only [Function.update_self]
      rfl
    · rintro ⟨-, hnone⟩
      simp only [Function.update_self] at hnone
      cases hnone

/-! ## From the start -/

theorem NoticesInv.reach (h : NoticesInv L m x) (hxy : NoticeReach L x y) : NoticesInv L m y := by
  induction hxy with
  | refl => exact h
  | tail _ hs ih => exact hs.inv ih

section Example

end Example

end Notices

end MemMapIPC
