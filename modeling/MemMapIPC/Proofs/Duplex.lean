import MemMapIPC.Duplex
import MemMapIPC.Proofs.Checked
import MemMapIPC.Proofs.TwoRings

/-!
# Each ring goes on as if the other were not there

What a step of an end does depends on the bytes of its own ring only (`EndpointStep.same`), and it
changes no others; so a run of both rings, looked at from one of them, is a run of that ring alone.
-/

namespace MemMapIPC

open ByteMemory Interleaving Relation

/-! ## A step sees its own ring only -/

section Same

variable {r : Ring} {s : Side} {σ σ' : Shared} {p p' : Party} {e e' : Endpoint} {m : Segment}

theorem Ring.same_write_both {m m' : Segment} (h : r.Same m m') (a : U64) (l : List U8) :
    r.Same (m.write a l) (m'.write a l) := by
  intro y hy
  unfold Memory.write
  rw [h y hy]

theorem Own.move_same (h : Own r s σ p) {c : Call} (hc : p.call = some c) (hm : r.Same σ.mem m)
    (hmove : p.move r.buffer s c σ = some (p', σ')) :
    ∃ m', p.move r.buffer s c { σ with mem := m } = some (p', { σ' with mem := m' })
      ∧ r.Same σ'.mem m' := by
  have hat := h.at_call
  rw [hc] at hat
  have hcell : ∀ {a : U64}, c.access r.buffer s = .get a ∨ c.access r.buffer s = .put a →
      m a = σ.mem a := by
    intro a ha
    obtain ⟨cell, i, now, later, rfl, hi, rfl⟩ := Call.access_byte ha
    obtain ⟨-, haddr⟩ := hat.2.2.2.2.cell hi hat.2.2.1
    rw [hat.1, haddr]
    exact hm.cell (Nat.mod_lt _ r.cells_pos)
  rcases hacc : c.access r.buffer s with a | ⟨a, v⟩ | a | a
  · obtain ⟨t, b, rfl⟩ := Call.access_load hacc
    have hw : m.loadWord (r.buffer.pointer t b) = σ.mem.loadWord (r.buffer.pointer t b) :=
      hm.word t b
    simp only [Party.move_of_load hacc, Option.map_eq_some_iff, Prod.mk.injEq] at hmove ⊢
    obtain ⟨q, hq, rfl, rfl⟩ := hmove
    rw [hw]
    exact ⟨m, ⟨q, hq, rfl, rfl⟩, hm⟩
  · simp only [Party.move_of_store hacc, Option.map_eq_some_iff, Prod.mk.injEq] at hmove ⊢
    obtain ⟨q, hq, rfl, rfl⟩ := hmove
    refine ⟨m.storeWord a v, ⟨q, hq, rfl, ?_⟩, Ring.same_write_both hm _ _⟩
    cases c <;> rfl
  · simp only [Party.move_of_get hacc, Option.map_eq_some_iff, Prod.mk.injEq] at hmove ⊢
    obtain ⟨q, hq, rfl, rfl⟩ := hmove
    rw [hcell (.inl hacc)]
    exact ⟨m, ⟨q, hq, rfl, rfl⟩, hm⟩
  · rcases hb : p.source with _ | ⟨b, rest⟩
    · simp [Party.move, hacc, hb] at hmove
    · simp only [Party.move_of_put hacc hb, Option.map_eq_some_iff, Prod.mk.injEq] at hmove ⊢
      obtain ⟨q, hq, rfl, rfl⟩ := hmove
      exact ⟨m.write a [b], ⟨q, hq, rfl, rfl⟩, Ring.same_write_both hm _ _⟩

theorem Endpoint.step_mem {cb : CircularBuffer} (hc : e.ring.call = none) (below : Bool) :
    e.step cb s below { σ with mem := m }
      = (e.step cb s below σ).map fun q => (q.1, { q.2 with mem := m }) := by
  rcases ht : e.transfer with _ | ⟨t, asked⟩
  · simp [Endpoint.step, ht]
  cases asked with
  | true => simp [Endpoint.step, ht, hc]
  | false =>
    simp only [Endpoint.step, ht, hc]
    split
    · rfl
    · cases s <;> rfl
    · rfl

theorem EndpointStep.same (h : EndpointOwn r s σ e) (hm : r.Same σ.mem m)
    (hs : EndpointStep r.buffer s (e, σ) (e', σ')) :
    ∃ m', EndpointStep r.buffer s (e, { σ with mem := m }) (e', { σ' with mem := m' })
      ∧ r.Same σ'.mem m' := by
  cases hs with
  | direct ht hstep =>
    cases hstep with
    | start hp => exact ⟨m, .direct ht (.start hp), hm⟩
    | move hc hmove =>
      obtain ⟨m', hmove', hm'⟩ := h.ring.move_same hc hm hmove
      exact ⟨m', .direct ht (.move hc hmove'), hm'⟩
  | begin hidle hlt => exact ⟨m, .begin hidle hlt, hm⟩
  | step below hstep =>
    rcases hc : e.ring.call with _ | c
    · have hmem : σ'.mem = σ.mem := by
        rcases (EndpointStep.step below hstep).ring_cases with ⟨c, hc', -⟩ | ⟨-, hmem, -⟩
        · rw [hc] at hc'
          cases hc'
        · exact hmem
      refine ⟨m, .step below ?_, by rw [hmem]; exact hm⟩
      rw [Endpoint.step_mem hc, hstep]
      rfl
    · rcases ht : e.transfer with _ | ⟨t, asked⟩
      · simp [Endpoint.step, ht] at hstep
      simp only [Endpoint.step, ht, hc, Option.map_eq_some_iff, Prod.mk.injEq] at hstep
      obtain ⟨⟨p, σ''⟩, hmove, rfl, rfl⟩ := hstep
      obtain ⟨m', hmove', hm'⟩ := h.ring.move_same hc hm hmove
      refine ⟨m', .step below ?_, hm'⟩
      simp only [Endpoint.step, ht, hc, hmove', Option.map_some]

theorem firm_leaves : Stable (fun e σ => Firm r s σ e) (Leaves r s) := by
  intro e σ σ' h k
  refine ⟨⟨own_leaves _ _ _ h.ring k, h.length_lt, h.idle, h.at_transfer⟩, fun c v hc hv => ?_,
    fun hne => ?_⟩
  · obtain ⟨q, hq, hv, hle⟩ := h.steady c v hc hv
    exact ⟨q, hq.trans k.advanced_peer, hv, by rw [k.advanced]; exact hle⟩
  · rw [k.word, k.word]
    exact h.paired hne

end Same

/-! ## Both rings -/

section Duplex

variable {L : Layout} {x y : Duplex} {c : Channel} {s : Side} {e : Endpoint} {σ : Shared}

@[simp] theorem Duplex.shared_set_self : (x.set c s e σ).shared c = σ := by
  simp [Duplex.shared, Duplex.set, Shared.history]

theorem Duplex.shared_set_of_ne {d : Channel} (h : d ≠ c) :
    (x.set c s e σ).shared d = { x.shared d with mem := σ.mem } := by
  simp [Duplex.shared, Duplex.set, h]

@[simp] theorem Duplex.ends_set_self : (x.set c s e σ).ends c s = e := by
  simp [Duplex.set]

theorem Duplex.ends_set_of_ne {d : Channel} {t : Side} (h : (d, t) ≠ (c, s)) :
    (x.set c s e σ).ends d t = x.ends d t := by
  rcases eq_or_ne d c with rfl | hd
  · have ht : t ≠ s := fun he => h (he ▸ rfl)
    simp [Duplex.set, ht]
  · simp [Duplex.set, hd]

theorem Layout.write_same (L : Layout) (c : Channel) (m : Segment) {offset : ℕ} {l : List U8}
    (h : offset + l.length + 8 ≤ headerSize L.sizeofPtime) :
    (L.ring c).Same m (m.write (0 + BitVec.ofNat 64 offset) l) := by
  have hle := L.headerSize_le c
  have hend := L.ring_end c
  exact Ring.same_write (L.ring_eq c) hend (by omega) (.inl (by omega))

namespace Duplex.Apart

variable {z : PeerState} {m : Segment}

theorem shared_eq (h : Apart L m x c z) : x.shared c = { z.shared with mem := x.mem } := by
  have hh := h.history
  simp only [Shared.history] at hh
  simp only [Duplex.shared, ← hh]

theorem firm (h : Apart L m x c z) (s : Side) : Firm (L.ring c) s (x.shared c) (x.ends c s) := by
  have hfirm := bothFirm_reach h.reach s
  rw [h.shared_eq, ← h.ends s]
  exact firm_leaves _ _ _ hfirm (hfirm.ring.sound.leaves_same h.same s)

/-- A step of one of its ends is one the ring could take alone. -/
theorem call (h : Apart L m x c z)
    (hs : EndpointStep (L.ring c).buffer s (x.ends c s, x.shared c) (e, σ)) :
    ∃ z', Apart L m (x.set c s e σ) c z' := by
  have hown := (h.firm s).toEndpointOwn
  have hback : (L.ring c).Same (x.shared c).mem z.shared.mem := fun y hy => (h.same y hy).symm
  obtain ⟨m', hs', hm'⟩ := hs.same hown hback
  have hz : { x.shared c with mem := z.shared.mem } = z.shared := by
    rw [h.shared_eq]
  rw [hz, ← h.ends s] at hs'
  have hends : ∀ t, t ≠ s → (x.set c s e σ).ends c t = endpointOf z t := fun t ht => by
    rw [ends_set_of_ne (by simp [ht]), h.ends]
  have hhist : (x.set c s e σ).history c = σ.history := by simp [Duplex.set]
  cases s with
  | producer =>
    refine ⟨⟨e, z.right, { σ with mem := m' }⟩, h.reach.tail (.left hs'), fun t => ?_, ?_,
      fun y hy => (hm' y hy).symm⟩
    · cases t with
      | producer => exact ends_set_self.symm
      | consumer => exact (hends .consumer (by decide)).symm
    · rw [hhist]
      rfl
  | consumer =>
    refine ⟨⟨z.left, e, { σ with mem := m' }⟩, h.reach.tail (.right hs'), fun t => ?_, ?_,
      fun y hy => (hm' y hy).symm⟩
    · cases t with
      | producer => exact (hends .producer (by decide)).symm
      | consumer => exact ends_set_self.symm
    · rw [hhist]
      rfl

/-- A step elsewhere leaves the ring where it is. -/
theorem elsewhere (h : Apart L m x c z) (hends : y.ends c = x.ends c)
    (hhist : y.history c = x.history c) (hm : (L.ring c).Same x.mem y.mem) : Apart L m y c z :=
  ⟨h.reach, fun s => by rw [hends, h.ends], by rw [hhist, h.history],
    fun i hi => (hm i hi).trans (h.same i hi)⟩

end Duplex.Apart

/-! ## Runs of both -/

theorem ready_duplexStart (now now' : Ptime L.sizeofPtime) :
    Ready L (duplexStart L now now').mem := by
  have hready := ready_setMemoryID L now
  have hsnd : (duplexStart L now now').mem
      = Store.applyAll (Server.setMemoryID 0 L.bufferSize now fun _ => 0).2
        (Client.stores ((Server.setMemoryID 0 L.bufferSize now fun _ => 0).2.loadWord
          (L.header 0).bufferSize) now') := rfl
  rw [hsnd, hready.bufferSize]
  exact harmless_all harmless_client hready

/-- A zero stored over a zero leaves the segment as it is. -/
theorem Ring.storeWord_of_zero {r : Ring} {m : Segment} {s : Side} {b : Bool}
    (h : r.word m s b = 0) : m.storeWord (r.buffer.pointer s b) 0 = m := by
  have hload : m.load (r.buffer.pointer s b) 8 = 0 := by
    rw [← toNat_loadWord, loadWord_pointer, h]
    rfl
  have hback := Memory.store_load m (r.buffer.pointer s b) 8
  rwa [hload] at hback

theorem Ring.clear_of_zero {r : Ring} {m : Segment} (h : ∀ s b, r.word m s b = 0) :
    r.buffer.clear m = m := by
  rw [Ring.clear_eq, storeWord_of_zero (h _ _), storeWord_of_zero (h _ _),
    storeWord_of_zero (h _ _), storeWord_of_zero (h _ _)]

theorem Ready.apart {m : Segment} (h : Ready L m) (c : Channel) :
    Duplex.Apart L m { mem := m } c (peerStart (L.ring c) m) := by
  have hzero : ∀ s b, (L.ring c).word m s b = 0 := by
    cases c with
    | inbound => exact h.inbound
    | outbound => exact h.outbound
  have hmem : (peerStart (L.ring c) m).shared.mem = m := Ring.clear_of_zero hzero
  refine ⟨.refl, fun s => by cases s <;> rfl, rfl, ?_⟩
  rw [hmem]
  exact fun _ _ => rfl

/-- What holds of both rings and the buffer size at once. -/
structure Duplex.Kept (L : Layout) (m : Segment) (x : Duplex) : Prop where
  apart : ∀ c, ∃ z, Apart L m x c z
  bufferSize : x.mem.loadWord (L.header 0).bufferSize = L.bufferSize

theorem Ready.kept {m : Segment} (h : Ready L m) : Duplex.Kept L m { mem := m } :=
  ⟨fun c => ⟨_, h.apart c⟩, h.bufferSize⟩

theorem DuplexStep.kept {m : Segment} (h : x.Kept L m) (hs : DuplexStep L x y) : y.Kept L m := by
  cases hs with
  | @call c s e σ hstep =>
    obtain ⟨z, hz⟩ := h.apart c
    obtain ⟨-, hkeep⟩ := endpointStep_guarantees _ _ _ _ _ _ (hz.firm s).toEndpointOwn hstep
    refine ⟨fun d => ?_, ?_⟩
    · rcases eq_or_ne d c with rfl | hd
      · exact hz.call hstep
      · have hother : d = c.other := by
          revert hd
          cases c <;> cases d <;> simp [Channel.other]
        obtain ⟨z', hz'⟩ := h.apart d
        refine ⟨z', hz'.elsewhere (by simp [Duplex.set, hd]) (by simp [Duplex.set, hd]) ?_⟩
        rw [hother]
        exact L.other_same hkeep.outside
    · exact (L.bufferSize_outside (L.ring_eq c) (L.ring_end c) (L.headerSize_le c)
        hkeep.outside).trans h.bufferSize
  | header hlt =>
    refine ⟨fun d => ?_, (L.bufferSize_write _ hlt).trans h.bufferSize⟩
    obtain ⟨z, hz⟩ := h.apart d
    exact ⟨z, hz.elsewhere rfl rfl (L.write_same d _ hlt)⟩

theorem DuplexReach.kept {now now' : Ptime L.sizeofPtime}
    (h : DuplexReach L (duplexStart L now now') x) : x.Kept L (duplexStart L now now').mem := by
  induction h with
  | refl => exact (ready_duplexStart now now').kept
  | tail _ hs ih => exact hs.kept ih

/-- Whatever is done at both rings and in front of them, access by access, each ring is where some
run of its own two ends alone would have brought it. -/
theorem rings_run_apart (L : Layout) (now now' : Ptime L.sizeofPtime) {x : Duplex}
    (h : DuplexReach L (duplexStart L now now') x) (c : Channel) :
    ∃ y, Duplex.Apart L (duplexStart L now now').mem x c y :=
  h.kept.apart c

/-- Both rings are FIFOs through every interleaving of the four ends' accesses and of the writes in
front of them, and the buffer size stays where clients look for it. -/
theorem duplex_safe (L : Layout) (now now' : Ptime L.sizeofPtime) {x : Duplex}
    (h : DuplexReach L (duplexStart L now now') x) : DuplexSafe L x := by
  refine ⟨fun c => ?_, h.kept.bufferSize⟩
  obtain ⟨z, hz⟩ := h.kept.apart c
  exact fifoSafe_of_own (hz.firm .producer).ring (hz.firm .consumer).ring

theorem Duplex.run_reach : ∀ {schedule : List (Channel × Side × Choice)} {x y : Duplex},
    (∀ c s, (x.ends c s).transfer = none) → x.run L schedule = some y → DuplexReach L x y
  | [], x, y, _, h => by
    cases h
    exact .refl
  | (c, s, ch) :: rest, x, y, hd, h => by
    obtain ⟨z, hz, h⟩ := Option.bind_eq_some_iff.1 h
    obtain ⟨⟨p, σ⟩, hq, rfl⟩ := Option.map_eq_some_iff.1 hz
    have hstep : EndpointStep (L.ring c).buffer s (x.ends c s, x.shared c)
        ({ x.ends c s with ring := p }, σ) :=
      .direct (hd c s) (Party.choose_sound ch _ _ hq)
    refine .head (.call c s hstep) (Duplex.run_reach (fun d t => ?_) h)
    by_cases hdt : (d, t) = (c, s)
    · obtain ⟨rfl, rfl⟩ := Prod.mk.inj hdt
      rw [ends_set_self]
      exact hd d t
    · rw [ends_set_of_ne hdt]
      exact hd d t

section Example

/-- Each choice on both rings, the accesses taking turns. -/
def onBoth (s : Side) (l : List Choice) : List (Channel × Side × Choice) :=
  l.flatMap fun ch => [(.outbound, s, ch), (.inbound, s, ch)]

/-- Each entity writes a byte and reads the other's. -/
def crossingSchedule : List (Channel × Side × Choice) :=
  onBoth .producer (.count :: List.replicate 4 .move)
    ++ [(.outbound, .producer, .write [7]), (.inbound, .producer, .write [9])]
    ++ onBoth .producer (List.replicate 6 .move)
    ++ onBoth .consumer
      (.count :: List.replicate 4 .move ++ .read 1 :: List.replicate 6 .move)

theorem crossing_run : ((duplexStart smallLayout (.zero _) (.zero _)).run smallLayout
      crossingSchedule).map
    (fun x => ((x.history .outbound).moved .consumer, (x.history .inbound).moved .consumer))
      = some ([7], [9]) := by
  decide +kernel

theorem rings_run_apart_crossing : ∃ x y, DuplexReach smallLayout
      (duplexStart smallLayout (.zero _) (.zero _)) x
    ∧ (x.history .outbound).moved .consumer = [7] ∧ (x.history .inbound).moved .consumer = [9]
    ∧ Duplex.Apart smallLayout (duplexStart smallLayout (.zero _) (.zero _)).mem x .outbound y := by
  obtain ⟨x, hx, hm⟩ := Option.map_eq_some_iff.1 crossing_run
  obtain ⟨hout, hin⟩ := Prod.mk.inj hm
  have hreach := Duplex.run_reach (fun _ _ => rfl) hx
  obtain ⟨y, hy⟩ := rings_run_apart smallLayout (.zero _) (.zero _) hreach .outbound
  exact ⟨x, y, hreach, hout, hin, hy⟩

theorem duplex_safe_crossing : ∃ x, DuplexReach smallLayout
      (duplexStart smallLayout (.zero _) (.zero _)) x
    ∧ (x.history .outbound).moved .consumer = [7] ∧ (x.history .inbound).moved .consumer = [9]
    ∧ DuplexSafe smallLayout x := by
  obtain ⟨x, hx, hm⟩ := Option.map_eq_some_iff.1 crossing_run
  obtain ⟨hout, hin⟩ := Prod.mk.inj hm
  have hreach := Duplex.run_reach (fun _ _ => rfl) hx
  exact ⟨x, hreach, hout, hin, duplex_safe smallLayout (.zero _) (.zero _) hreach⟩

end Example

end Duplex

end MemMapIPC
