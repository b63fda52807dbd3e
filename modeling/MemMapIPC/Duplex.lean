import MemMapIPC.Peer
import MemMapIPC.TwoRings

/-!
# Both rings at work at once

One segment with its header and its two rings, and an entity's end at either side of each ring. The
server writes at one ring and reads at the other, the client the other way about, and neither's two
ends wait for each other. A step is one access by one end, or a write in front of the buffer size,
where the timestamps and the key are.
-/

namespace MemMapIPC

open ByteMemory Relation

/-- What has gone through a ring. -/
structure History where
  sent : List U8 := []
  moved : Side → List U8 := fun _ => []
  advanced : Side → ℕ := fun _ => 0

def Shared.history (σ : Shared) : History := ⟨σ.sent, σ.moved, σ.advanced⟩

structure Duplex where
  mem : Segment
  history : Channel → History := fun _ => {}
  ends : Channel → Side → Endpoint := fun _ _ => {}

namespace Duplex

variable (x : Duplex) (c : Channel)

/-- What the two ends of ring `c` share. -/
def shared : Shared := ⟨x.mem, (x.history c).sent, (x.history c).moved, (x.history c).advanced⟩

/-- After an access by the end at side `s` of ring `c`. -/
def set (s : Side) (e : Endpoint) (σ : Shared) : Duplex :=
  { mem := σ.mem
    history := Function.update x.history c σ.history
    ends := Function.update x.ends c (Function.update (x.ends c) s e) }

/-- After a write to the segment that is none of either ring's. -/
def write (offset : ℕ) (l : List U8) : Duplex :=
  { x with mem := x.mem.write (0 + BitVec.ofNat 64 offset) l }

end Duplex

variable (L : Layout)

inductive DuplexStep : Duplex → Duplex → Prop
  | call {x : Duplex} (c : Channel) (s : Side) {e : Endpoint} {σ : Shared} :
    EndpointStep (L.ring c).buffer s (x.ends c s, x.shared c) (e, σ) →
      DuplexStep x (x.set c s e σ)
  | header {x : Duplex} {offset : ℕ} {l : List U8} :
    offset + l.length + 8 ≤ headerSize L.sizeofPtime → DuplexStep x (x.write offset l)

abbrev DuplexReach : Duplex → Duplex → Prop := ReflTransGen (DuplexStep L)

/-- The server has returned from `SetMemoryID`, and then the client. -/
def duplexStart (now now' : Ptime L.sizeofPtime) : Duplex :=
  { mem := (Client.setMemoryID 0 now' (Server.setMemoryID 0 L.bufferSize now fun _ => 0).2).2 }

/-- Ring `c` is as if it were on its own: a run of its two ends alone, from where the constructor
leaves the segment `m`, comes to the state `y`, with the same locals, the same history and the same
bytes in the ring. -/
structure Duplex.Apart (L : Layout) (m : Segment) (x : Duplex) (c : Channel) (y : PeerState) :
    Prop where
  reach : PeerReach (L.ring c) (peerStart (L.ring c) m) y
  ends : ∀ s, endpointOf y s = x.ends c s
  history : y.shared.history = x.history c
  same : (L.ring c).Same y.shared.mem x.mem

/-- Both rings are FIFOs, and the buffer size is what the server stored. -/
structure DuplexSafe (L : Layout) (x : Duplex) : Prop where
  fifo : ∀ c, FifoSafe (L.ring c)
    ⟨(x.ends c .producer).ring, (x.ends c .consumer).ring, x.shared c⟩
  bufferSize : x.mem.loadWord (L.header 0).bufferSize = L.bufferSize

/-- The state after the end at side `s` of ring `c` has done as it is told, using the ring
directly. -/
def Duplex.act {L : Layout} (x : Duplex) : Channel × Side × Choice → Option Duplex
  | (c, s, ch) =>
    (Party.choose (L.ring c).buffer s ch ((x.ends c s).ring, x.shared c)).map fun q =>
      x.set c s { x.ends c s with ring := q.1 } q.2

def Duplex.run (L : Layout) : List (Channel × Side × Choice) → Duplex → Option Duplex
  | [], x => some x
  | i :: rest, x => (x.act (L := L) i).bind (Duplex.run L rest)

end MemMapIPC
