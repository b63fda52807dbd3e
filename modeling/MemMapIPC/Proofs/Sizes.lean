import MemMapIPC.Proofs.Fifo
import MemMapIPC.Sizes

/-!
# The sizes whose arithmetic is sound

With room for a cell past the words the ring is a `Ring`, and each side's `Own` says that its
cursors and counts stay within the cells. With no more room than the words take there is no cell for
a cursor to be on.
-/

namespace MemMapIPC

open ByteMemory Interleaving

section Sound

variable {r : Ring} {s : Side} {σ : Shared} {p : Party}

/-- A byte of a cell is in no cursor word. -/
theorem Ring.cell_not_word {i : ℕ} (hi : i < r.cells) (t : Side) (b : Bool) :
    ¬(⟨r.buffer.pointer t b, 8⟩ : Region 64).Holds (r.location + BitVec.ofNat 64 i) := by
  have hoff := r.wordOffset_add_le t b
  have hE := r.cells_lt
  rw [pointer_eq, Region.holds_offset (by omega) (by omega)]
  unfold wordOffset
  omega

theorem Own.no_fault (h : Own r s σ p) {c : Call} (hc : p.call = some c) :
    ¬c.Faults r.buffer s σ.mem := by
  rintro ⟨a, ha, hf⟩
  have hmove := h.move_isSome hc
  rw [Party.move_of_load ha, hf] at hmove
  cases hmove

theorem Own.copies (h : Own r s σ p) {c : Call} (hc : p.call = some c) {a : U64}
    (ha : c.Copies r.buffer s a) :
    ∃ i < r.cells, a = r.location + BitVec.ofNat 64 i := by
  have hat := h.at_call
  rw [hc] at hat
  obtain ⟨cell, i, now, later, rfl, hi, rfl⟩ := Call.access_byte ha
  obtain ⟨rfl, -, -, -, hchunk⟩ := hat
  refine ⟨σ.advanced s % r.cells + i, by have := hchunk.2.1; omega, ?_⟩
  rw [BitVec.add_assoc, ← BitVec.ofNat_add]

theorem Own.cursorSafe (h : Own r s σ p) : p.CursorSafe r.buffer s σ.mem := by
  refine ⟨?_, fun c hc => h.no_fault hc, fun c a hc ha t b => ?_⟩
  · have hlast := h.last
    have hlim := h.sound.limit_le s
    have hsize := r.size_eq
    have hpos := r.cells_pos
    have hb : r.buffer.bufferSize = r.size := rfl
    rw [BitVec.lt_def, hb]
    omega
  · obtain ⟨i, hi, rfl⟩ := h.copies hc ha
    exact Ring.cell_not_word hi t b

end Sound

/-- The arithmetic of the ring is sound, whatever its two sides do, for the sizes that leave room
for data and for no others. -/
theorem cursor_safe_iff (location bufferSize : U64) (m : Segment) :
    CursorSafe location bufferSize m ↔ CircularBuffer.reserveSize < bufferSize := by
  constructor
  · intro h
    have hcursor := (h _ .refl).2.2 .producer false
    rw [BitVec.lt_def]
    omega
  · intro hsize x hx
    obtain ⟨hp, hc⟩ := own_reach (r := ⟨location, bufferSize, hsize⟩) hx
    refine ⟨hp.cursorSafe, hc.cursorSafe, fun s b => ?_⟩
    have hlt : (Ring.word ⟨location, bufferSize, hsize⟩ x.shared.mem s b).toNat
        < Ring.cells ⟨location, bufferSize, hsize⟩ := by
      cases b with
      | false => exact hp.sound.first_lt s
      | true => exact hp.sound.second s
    have hcells := Ring.size_eq ⟨location, bufferSize, hsize⟩
    have hreserve := Ring.toNat_reserveSize
    simp only [Ring.word, Ring.buffer, CircularBuffer.circularReadBuffer] at hlt hcells
    omega

/-- At the size that leaves nothing for data the first count of free cells is as large as can be, so
that a byte may be written, and the cursor is moved over it modulo zero. -/
def faultingSchedule : List (Choice ⊕ Choice) :=
  .inl .count :: List.replicate 4 (.inl .move) ++ .inl (.write [7]) :: List.replicate 2 (.inl .move)

theorem faulting_run : ((sizedStart 144 32 fun _ => 0).play
      (Party.choose (CircularBuffer.attach 144 32) .producer)
      (Party.choose (CircularBuffer.attach 144 32) .consumer) faultingSchedule).map
        (fun x => x.left.call) = some (some (.copy 144 0 0 1)) := by
  decide +kernel

theorem cursor_unsafe : ¬∀ location bufferSize m, CursorSafe location bufferSize m := by
  intro h
  obtain ⟨x, hx, hcall⟩ := Option.map_eq_some_iff.1 faulting_run
  have hreach : SizedReach 144 32 (sizedStart 144 32 fun _ => 0) x :=
    State.play_reach Party.choose_sound Party.choose_sound hx
  have hwrap : ∀ v, (CircularBuffer.attach 144 32).wrap v = none := fun v => by
    have hE : (CircularBuffer.attach 144 32).effectiveBufferSize = 0 := by decide
    rw [CircularBuffer.wrap, hE, if_pos (BitVec.le_def.2 (Nat.zero_le _)), if_pos rfl]
  refine (h 144 32 (fun _ => 0) x hreach).1.no_fault _ hcall ⟨_, rfl, ?_⟩
  simp only [Call.next, hwrap]
  rfl

end MemMapIPC
