import MemMapIPC.Fifo
import MemMapIPC.Proofs.Sharing

/-!
# One ring is a FIFO under every interleaving

Both sides' `Own` hold after the constructor (`own_start`), so by the rely-guarantee rule they hold
in every reachable state, and `FifoSafe` follows from the two.
-/

namespace MemMapIPC

open ByteMemory Interleaving

variable {r : Ring} {m : Segment} {x y : RingState}

theorem Ring.clear_eq : r.buffer.clear m
    = (((m.storeWord (r.buffer.pointer .producer false) 0).storeWord
        (r.buffer.pointer .producer true) 0).storeWord
        (r.buffer.pointer .consumer false) 0).storeWord (r.buffer.pointer .consumer true) 0 := rfl

theorem Ring.word_clear (s : Side) (b : Bool) : r.word (r.buffer.clear m) s b = 0 := by
  rw [clear_eq]
  cases s <;> cases b <;> simp [word_storeWord_of_ne]

/-- With every word zero both sides are at the start of the stream. -/
theorem sound_zero (h : ∀ s b, r.word m s b = 0) : Sound r { mem := m } := by
  have hpos := r.cells_pos
  refine ⟨fun s => ?_, fun s => ?_, fun s => le_rfl, fun s => Nat.zero_le _,
    List.prefix_rfl, fun j hj => ?_⟩
  · rw [h]
    exact (Nat.zero_mod _).symm
  · rw [h]
    exact hpos
  · simp at hj

theorem settled_zero (h : ∀ s b, r.word m s b = 0) (s : Side) : Settled r s { mem := m } := by
  refine ⟨rfl, ?_⟩
  rw [h]
  exact (Nat.zero_mod _).symm

theorem own_zero (h : ∀ s b, r.word m s b = 0) (s : Side) : Own r s { mem := m } {} :=
  ⟨sound_zero h, Nat.zero_le _, (fun _ hc => nomatch hc), fun _ => rfl,
    ⟨settled_zero h s, fun _ => rfl⟩⟩

theorem own_start (s : Side) : Own r s { mem := r.buffer.clear m } {} :=
  own_zero Ring.word_clear s

theorem own_reach (h : RingReach r (ringStart r m) x) :
    Own r .producer x.shared x.left ∧ Own r .consumer x.shared x.right :=
  Reach.of_rely (ringStep_guarantees r .producer) (ringStep_guarantees r .consumer) own_stable
    own_stable h ⟨own_start .producer, own_start .consumer⟩

section Safe

variable {σ : Shared} {p c : Party}

theorem Own.moved_add_last {s : Side} (h : Own r s σ p) :
    (σ.moved s).length + p.last.toNat ≤ limit r σ s := by
  have hat := h.at_call
  have hlast := h.last
  rcases hc : p.call with _ | c <;> rw [hc] at hat
  · rw [hat.1.1]
    exact hlast
  · by_cases ht : c.transfers
    · have h0 := h.sound.moved_le s
      rw [h.spent c hc ht]
      simpa using h0
    · have hs : Settled r s σ := by
        cases c <;> first | exact hat.1 | simp [Call.transfers] at ht
      rw [hs.1]
      exact hlast

theorem fifoSafe_of_own (hp : Own r .producer x.shared x.left)
    (hc : Own r .consumer x.shared x.right) : FifoSafe r x := by
  have hpos := r.cells_pos
  have hsent := hp.sent rfl
  have hadv := hp.sound.advanced_le
  have hfree := hp.moved_add_last
  have havail := hc.moved_add_last
  simp only [limit, Ring.reach, Side.peer] at hfree havail
  have hw : x.shared.moved .producer <+: x.shared.sent := by
    rw [hsent]
    exact List.prefix_append _ _
  refine ⟨hp.sound.delivered.trans hw, hp.sound.delivered, hw, fun hn => ?_, fun j hj hle => ?_,
    ?_, ?_, ?_, fun s b => ?_⟩
  · have hat := hp.at_call
    rw [hn] at hat
    rw [hsent, List.length_eq_zero_iff.1 (hat.2 rfl), List.append_nil]
  · exact hp.sound.data j hj ((hadv .consumer).trans hle)
  · have := hadv .consumer
    omega
  · have := hadv .consumer
    omega
  · have := hadv .producer
    omega
  · cases b with
    | false => exact hp.sound.first_lt s
    | true => exact hp.sound.second s

/-- However the two sides' steps are interleaved, the ring is a FIFO. -/
theorem ring_fifo_safe (r : Ring) (m : Segment) {x : RingState}
    (h : RingReach r (ringStart r m) x) : FifoSafe r x :=
  have := own_reach h
  fifoSafe_of_own this.1 this.2

end Safe

theorem Party.choose_sound {cb : CircularBuffer} {s : Side} (ch : Choice) (x y : Party × Shared)
    (h : Party.choose cb s ch x = some y) : RingStep cb s x y := by
  obtain ⟨p, σ⟩ := x
  cases ch with
  | count =>
    simp only [Party.choose, Option.ite_none_right_eq_some, Option.some.injEq] at h
    obtain ⟨hc, rfl⟩ := h
    have hstep : RingStep cb s (p, σ) (_, { σ with sent := σ.sent ++ [] }) := .start (.count hc)
    simpa using hstep
  | write data =>
    simp only [Party.choose, Option.ite_none_right_eq_some, Option.some.injEq] at h
    obtain ⟨⟨rfl, hc, hle⟩, rfl⟩ := h
    exact .start (.write hc hle)
  | read n =>
    simp only [Party.choose, Option.ite_none_right_eq_some, Option.some.injEq] at h
    obtain ⟨⟨rfl, hc, hle⟩, rfl⟩ := h
    have hstep : RingStep cb .consumer (p, σ) (_, { σ with sent := σ.sent ++ [] }) :=
      .start (.read hc hle)
    simpa using hstep
  | move =>
    obtain ⟨c, hc, hm⟩ := Option.bind_eq_some_iff.1 h
    exact .move hc hm

theorem RingState.run_reach {schedule : List (Choice ⊕ Choice)} (h : x.run r schedule = some y) :
    RingReach r x y :=
  State.play_reach Party.choose_sound Party.choose_sound h

section Example

/-- A ring of eight cells behind the header. -/
def smallRing : Ring := ⟨144, 40, by decide⟩

/-- Two bytes written and read back, each call run to its end. -/
def smallSchedule : List (Choice ⊕ Choice) :=
  .inl .count :: List.replicate 4 (.inl .move) ++ .inl (.write [7, 9])
    :: List.replicate 7 (.inl .move) ++ .inr .count :: List.replicate 4 (.inr .move)
    ++ .inr (.read 2) :: List.replicate 7 (.inr .move)

theorem small_run :
    ((ringStart smallRing fun _ => 0).run smallRing smallSchedule).map
      (fun y => y.shared.moved .consumer) = some [7, 9] := by
  decide +kernel

theorem ring_fifo_safe_small : ∃ y, RingReach smallRing (ringStart smallRing fun _ => 0) y
    ∧ y.shared.moved .consumer = [7, 9] ∧ FifoSafe smallRing y := by
  obtain ⟨y, hy, hm⟩ := Option.map_eq_some_iff.1 small_run
  exact ⟨y, RingState.run_reach hy, hm, ring_fifo_safe _ _ (RingState.run_reach hy)⟩

end Example

end MemMapIPC
