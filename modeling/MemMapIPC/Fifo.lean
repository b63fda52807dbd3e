import MemMapIPC.Ring

/-!
# One ring, its two sides interleaved

The ring after the write side's constructor, and every state the two sides' steps lead to from
there. `FifoSafe` is what those states have in common: the bytes copied out are those handed to
`WriteData`, in order, whatever is half done on either side.
-/

namespace MemMapIPC

open Interleaving

abbrev RingState := State Party Party Shared

variable (r : Ring)

/-- The ring as the constructor leaves it, nothing written and neither side in a call. -/
def ringStart (m : Segment) : RingState :=
  ⟨{}, {}, { mem := (CircularBuffer.circularWriteBuffer r.location r.size m).2 }⟩

/-- The producer's steps on the left, the consumer's on the right. -/
abbrev RingReach (x y : RingState) : Prop :=
  Reach (RingStep r.buffer .producer) (RingStep r.buffer .consumer) x y

structure FifoSafe (x : RingState) : Prop where
  /-- What is in the sinks is the start of what was handed over. -/
  delivered : x.shared.moved .consumer <+: x.shared.sent
  /-- It was in the cells first. -/
  copied : x.shared.moved .consumer <+: x.shared.moved .producer
  written : x.shared.moved .producer <+: x.shared.sent
  /-- A finished write has copied all it was handed. -/
  finished : x.left.call = none → x.shared.moved .producer = x.shared.sent
  /-- No byte copied in is overwritten before it is copied out. -/
  intact : ∀ j (h : j < (x.shared.moved .producer).length),
    (x.shared.moved .consumer).length ≤ j →
      r.cell x.shared.mem (j % r.cells) = (x.shared.moved .producer)[j]
  capacity : (x.shared.moved .producer).length < (x.shared.moved .consumer).length + r.cells
  /-- The counts are of free cells and of bytes in the ring. -/
  free : (x.shared.moved .producer).length + x.left.last.toNat
    < (x.shared.moved .consumer).length + r.cells
  available : (x.shared.moved .consumer).length + x.right.last.toNat
    ≤ (x.shared.moved .producer).length
  /-- Every cursor word is the number of a cell. -/
  cursors : ∀ s b, (r.word x.shared.mem s b).toNat < r.cells

/-- What a side is told to do next. -/
inductive Choice
  | count
  | write (data : List U8)
  | read (n : U64)
  | move

/-- The step a side takes so told, if it can. -/
def Party.choose (cb : CircularBuffer) (s : Side) :
    Choice → Party × Shared → Option (Party × Shared)
  | .count, (p, σ) => if p.call = none then some ({ p with call := some .loadSecond }, σ) else none
  | .write data, (p, σ) =>
    if s = .producer ∧ p.call = none ∧ data.length ≤ p.last.toNat then
      some ({ call := some (.span (BitVec.ofNat 64 data.length)), last := 0, source := data },
        { σ with sent := σ.sent ++ data })
    else none
  | .read n, (p, σ) =>
    if s = .consumer ∧ p.call = none ∧ n ≤ p.last then
      some ({ call := some (.span n), last := 0, source := [] }, σ)
    else none
  | .move, (p, σ) => p.call.bind fun c => p.move cb s c σ

/-- The state after a schedule, the producer's choices on the left. -/
def RingState.run (x : RingState) (schedule : List (Choice ⊕ Choice)) : Option RingState :=
  x.play (Party.choose r.buffer .producer) (Party.choose r.buffer .consumer) schedule

end MemMapIPC
