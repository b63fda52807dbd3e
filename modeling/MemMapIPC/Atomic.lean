import MemMapIPC.Fifo
import MemMapIPC.Library.Simulation
import MemMapIPC.Queue
import MemMapIPC.Stream

/-!
# A queue called from both sides at once

What is seen of a ring's calls, and the queue they are calls of. `RingCall` is a step of a side with
the call it begins or the reply it returns, if it does. `QueueCall` is the same for the queue: there
a count looks once, at some moment between its beginning and its return, and the bytes of a transfer
go in or come out at one such moment or at two.
-/

namespace MemMapIPC

open Interleaving Simulation

deriving instance DecidableEq for Op, Reply

inductive CallEvent
  | begins (op : Op)
  | returns (reply : Reply)
  deriving DecidableEq

def Side.countOp : Side → Op
  | .producer => .free
  | .consumer => .available

/-! ## The ring -/

/-- A side's locals, and how many bytes it had copied when its call began. -/
structure Watched where
  party : Party := {}
  since : ℕ := 0

/-- The call a side is at the first access of, `data` being the bytes it was handed. -/
def Party.begun (p : Party) (data : List U8) (s : Side) : Op :=
  match p.call, s with
  | some (.span _), .producer => .write data
  | some (.span n), .consumer => .read n
  | _, s => s.countOp

/-- What a call returns whose last access was at `c`. -/
def Watched.reply (w : Watched) (σ : Shared) : Call → Side → Reply
  | .subtract _ _, _ => .count w.party.last.toNat
  | _, .producer => .written
  | _, .consumer => .read ((σ.moved .consumer).drop w.since)

variable (cb : CircularBuffer) (s : Side)

inductive RingCall : Watched × Shared → Option CallEvent → Watched × Shared → Prop
  | start {p p' : Party} {k : ℕ} {σ : Shared} {data : List U8} : p.Starts s p' data →
    RingCall (⟨p, k⟩, σ) (some (.begins (p'.begun data s)))
      (⟨p', (σ.moved s).length⟩, { σ with sent := σ.sent ++ data })
  | move {p p' : Party} {k : ℕ} {c : Call} {σ σ' : Shared} : p.call = some c →
    p.move cb s c σ = some (p', σ') →
    RingCall (⟨p, k⟩, σ)
      (if p'.call = none then some (.returns (Watched.reply ⟨p', k⟩ σ' c s)) else none)
      (⟨p', k⟩, σ')

abbrev WatchedState := State Watched Watched Shared

def watchedStart (r : Ring) (m : Segment) : WatchedState := ⟨{}, {}, (ringStart r m).shared⟩

/-- The ring shows these events on the way to the state `x`. -/
abbrev RingBehaves (r : Ring) (m : Segment) : List (CallEvent ⊕ CallEvent) → WatchedState → Prop :=
  Behaves (PartyStep (RingCall r.buffer .producer) (RingCall r.buffer .consumer)) (watchedStart r m)

/-- The step a side takes when told to, and the event it shows. -/
def Watched.choose (ch : Choice) :
    Watched × Shared → Option (Option CallEvent × Watched × Shared)
  | (w, σ) =>
    (Party.choose cb s ch (w.party, σ)).map fun q =>
      match ch, w.party.call with
      | .move, some c =>
        (if q.1.call = none then some (.returns (Watched.reply ⟨q.1, w.since⟩ q.2 c s)) else none,
          ⟨q.1, w.since⟩, q.2)
      | .write data, _ => (some (.begins (q.1.begun data s)), ⟨q.1, (σ.moved s).length⟩, q.2)
      | _, _ => (some (.begins (q.1.begun [] s)), ⟨q.1, (σ.moved s).length⟩, q.2)

/-- What a schedule shows, the producer's choices on the left, and the state it leads to. -/
def WatchedState.run (r : Ring) :
    List (Choice ⊕ Choice) → WatchedState → Option (List (CallEvent ⊕ CallEvent) × WatchedState)
  | [], x => some ([], x)
  | .inl ch :: rest, x => do
    let (e, w, σ) ← Watched.choose r.buffer .producer ch (x.left, x.shared)
    let (t, y) ← WatchedState.run r rest ⟨w, x.right, σ⟩
    return ((e.map .inl).toList ++ t, y)
  | .inr ch :: rest, x => do
    let (e, w, σ) ← Watched.choose r.buffer .consumer ch (x.right, x.shared)
    let (t, y) ← WatchedState.run r rest ⟨x.left, w, σ⟩
    return ((e.map .inr).toList ++ t, y)

/-! ## The queue -/

/-- Where a caller of the queue is in its call. -/
inductive Errand
  | idle
  | count
  | counted (n : ℕ)
  /-- With `rest` still to go in, in at most so many pieces. -/
  | write (pieces : ℕ) (rest : List U8)
  /-- With so many bytes still to come out, in at most so many pieces. -/
  | read (pieces left : ℕ) (dataSink : List U8)

structure QueueCaller where
  errand : Errand := .idle
  /-- The last count it got since its own last transfer. -/
  last : ℕ := 0

variable {capacity : ℕ}

inductive QueueCall : Side → QueueCaller × Stream capacity → Option CallEvent →
    QueueCaller × Stream capacity → Prop
  | count {s : Side} {last : ℕ} {σ : Stream capacity} :
    QueueCall s (⟨.idle, last⟩, σ) (some (.begins s.countOp)) (⟨.count, last⟩, σ)
  | look {s : Side} {last : ℕ} {σ : Stream capacity} :
    QueueCall s (⟨.count, last⟩, σ) none (⟨.counted (σ.room s), last⟩, σ)
  | counted {s : Side} {n last : ℕ} {σ : Stream capacity} :
    QueueCall s (⟨.counted n, last⟩, σ) (some (.returns (.count n))) (⟨.idle, n⟩, σ)
  | write {data : List U8} {last : ℕ} {σ : Stream capacity} : data.length ≤ last →
    QueueCall .producer (⟨.idle, last⟩, σ) (some (.begins (.write data))) (⟨.write 2 data, 0⟩, σ)
  | push {pieces last : ℕ} {l rest : List U8} {σ : Stream capacity} (h : l.length ≤ σ.queue.free) :
    QueueCall .producer (⟨.write (pieces + 1) (l ++ rest), last⟩, σ) none
      (⟨.write pieces rest, last⟩, σ.push l h)
  | written {pieces last : ℕ} {σ : Stream capacity} :
    QueueCall .producer (⟨.write pieces [], last⟩, σ) (some (.returns .written)) (⟨.idle, last⟩, σ)
  | read {n : U64} {last : ℕ} {σ : Stream capacity} : n.toNat ≤ last →
    QueueCall .consumer (⟨.idle, last⟩, σ) (some (.begins (.read n))) (⟨.read 2 n.toNat [], 0⟩, σ)
  | pop {pieces i left last : ℕ} {dataSink : List U8} {σ : Stream capacity} :
    i ≤ σ.queue.available →
    QueueCall .consumer (⟨.read (pieces + 1) (i + left) dataSink, last⟩, σ) none
      (⟨.read pieces left (dataSink ++ σ.queue.contents.take i), last⟩, σ.pop i)
  | gotten {pieces last : ℕ} {dataSink : List U8} {σ : Stream capacity} :
    QueueCall .consumer (⟨.read pieces 0 dataSink, last⟩, σ) (some (.returns (.read dataSink)))
      (⟨.idle, last⟩, σ)

abbrev QueueState (capacity : ℕ) := State QueueCaller QueueCaller (Stream capacity)

def queueStart (capacity : ℕ) : QueueState capacity := ⟨{}, {}, { queue := .empty }⟩

/-- The queue shows these events on the way to the state `y`. -/
abbrev QueueBehaves (capacity : ℕ) : List (CallEvent ⊕ CallEvent) → QueueState capacity → Prop :=
  Behaves (PartyStep (QueueCall .producer) (QueueCall .consumer)) (queueStart capacity)

end MemMapIPC
