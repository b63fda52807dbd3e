import MemMapIPC.Fifo
import MemMapIPC.Library.Region

/-!
# A ring of any size

Neither constructor looks at the buffer size it is given, nor does `cServer::SetMemoryID`, and the
size of the data is what is left of it when what is reserved has been taken off, modulo `2 ^ 64`.
The two sides' steps are those of any ring, each transfer within the last count; `CursorSafe` is
what their arithmetic should keep to.
-/

namespace MemMapIPC

open ByteMemory Interleaving

variable (location bufferSize : U64)

/-- The ring as the write side's constructor leaves it, both sides between calls. -/
def sizedStart (m : Segment) : RingState :=
  ⟨{}, {}, { mem := (CircularBuffer.circularWriteBuffer location bufferSize m).2 }⟩

/-- Both sides hold the addresses their constructors computed, which are the same. -/
abbrev SizedReach (x y : RingState) : Prop :=
  Reach (RingStep (CircularBuffer.attach location bufferSize) .producer)
    (RingStep (CircularBuffer.attach location bufferSize) .consumer) x y

/-- The access the call makes next is followed by the division by zero. -/
def Call.Faults (cb : CircularBuffer) (s : Side) (c : Call) (m : Segment) : Prop :=
  ∃ p, c.access cb s = .load p ∧ c.next cb s (m.loadWord p) = .fault

/-- The byte a copy is at. -/
def Call.Copies (cb : CircularBuffer) (s : Side) (c : Call) (p : U64) : Prop :=
  c.access cb s = .get p ∨ c.access cb s = .put p

/-- What a side with the call and count it has may be relied on for. -/
structure Party.CursorSafe (cb : CircularBuffer) (s : Side) (p : Party) (m : Segment) : Prop where
  last_lt : p.last < cb.bufferSize
  no_fault : ∀ c, p.call = some c → ¬c.Faults cb s m
  no_word : ∀ c a, p.call = some c → c.Copies cb s a → ∀ t b,
    ¬(⟨cb.pointer t b, 8⟩ : Region 64).Holds a

/-- Whatever the two sides do, no cursor is moved with a division by zero, every count is below the
buffer size, every cursor is the number of a cell there is room for, and no byte is copied from or
to a cursor. -/
def CursorSafe (m : Segment) : Prop :=
  ∀ x, SizedReach location bufferSize (sizedStart location bufferSize m) x →
    x.left.CursorSafe (CircularBuffer.attach location bufferSize) .producer x.shared.mem
      ∧ x.right.CursorSafe (CircularBuffer.attach location bufferSize) .consumer x.shared.mem
      ∧ ∀ s b, ((x.shared.mem.loadWord
          ((CircularBuffer.attach location bufferSize).pointer s b)).toNat : ℤ)
        < (bufferSize.toNat : ℤ) - CircularBuffer.reserveSize.toNat

end MemMapIPC
