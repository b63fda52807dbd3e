import MemMapIPC.Layout
import MemMapIPC.Queue

/-!
# Both rings in one segment

The header and the two rings as `SetMemoryID` lays them out, in one array of bytes, and whole
operations of either ring in any order. `ChangedOnly` says of an operation which bytes it may have
changed.
-/

namespace MemMapIPC

open ByteMemory

/-- The two rings, by the server's names. -/
inductive Channel
  | inbound
  | outbound
  deriving DecidableEq

def Channel.other : Channel → Channel
  | .inbound => .outbound
  | .outbound => .inbound

namespace Ring

/-- The `n` cells from position `pos` on. -/
def cellsFrom (r : Ring) (pos n : ℕ) : List (Region 64) :=
  (List.range n).map fun i => ⟨r.location + BitVec.ofNat 64 ((pos + i) % r.cells), 1⟩

def words (r : Ring) (s : Side) : List (Region 64) :=
  [⟨r.buffer.pointer s false, 8⟩, ⟨r.buffer.pointer s true, 8⟩]

end Ring

/-- Every byte outside the `regions` is as it was. -/
def ChangedOnly (regions : List (Region 64)) (m m' : Segment) : Prop :=
  ∀ a, (∀ R ∈ regions, ¬R.Holds a) → m' a = m a

namespace Layout

variable (L : Layout)

def ring : Channel → Ring
  | .inbound => L.inbound 0
  | .outbound => L.outbound 0

/-- What the segment may hold once the server has set it up: clients attach, timestamps and the key
are written in front of the buffer size, and guarded operations are done on both rings. -/
inductive Content : Segment → Prop
  | created (now : Ptime L.sizeofPtime) :
    Content (Server.setMemoryID 0 L.bufferSize now fun _ => 0).2
  | attached {m : Segment} (now : Ptime L.sizeofPtime) : Content m →
    Content (Client.setMemoryID 0 now m).2
  | header {m : Segment} {x : ℕ} {l : List U8} : Content m →
    x + l.length + 8 ≤ headerSize L.sizeofPtime → Content (m.write (0 + BitVec.ofNat 64 x) l)
  | operation {m m' : Segment} (c : Channel) {op : Op} {reply : Reply} : Content m →
    op.Permitted (L.ring c).buffer m → op.exec (L.ring c).buffer m = some (reply, m') → Content m'

/-- What a transfer by side `s` of ring `c` leaves as it was: the cells not yet read, the words of
the other side, the other ring, and the header. -/
structure Spared (c : Channel) (s : Side) (m m' : Segment) : Prop where
  unread : ∀ n, (L.ring c).buffer.numberOfBytesAvailableToRead 1 m = some n → ∀ i < n.toNat,
    (L.ring c).cell m' ((((L.ring c).word m .consumer false).toNat + i) % (L.ring c).cells)
      = (L.ring c).cell m ((((L.ring c).word m .consumer false).toNat + i) % (L.ring c).cells)
  words : ∀ b, (L.ring c).word m' s.peer b = (L.ring c).word m s.peer b
  other : (L.ring c.other).Same m m'
  header : ∀ y < headerSize L.sizeofPtime, m' (BitVec.ofNat 64 y) = m (BitVec.ofNat 64 y)

/-- Operations on both rings one after the other, and what each returned. -/
def runOps : List (Channel × Op) → Segment → Option (List (Channel × Reply) × Segment)
  | [], m => some ([], m)
  | (c, op) :: ops, m => do
    let (reply, m) ← op.exec (L.ring c).buffer m
    let (replies, m) ← runOps ops m
    return ((c, reply) :: replies, m)

/-- Each operation is permitted where it is done. -/
def Session : List (Channel × Op) → Segment → Prop
  | [], _ => True
  | (c, op) :: ops, m => op.Permitted (L.ring c).buffer m
    ∧ ∀ reply m', op.exec (L.ring c).buffer m = some (reply, m') → Session ops m'

end Layout

/-- Those of ring `c`, in order. -/
def Channel.on {α : Type*} (c : Channel) (l : List (Channel × α)) : List α :=
  (l.filter fun p => p.1 = c).map Prod.snd

end MemMapIPC
