import MemMapIPC.Program

/-!
# The key and the timestamps

`WriteKey` copies a key into the header byte by byte, and `ReadKey` and the getters of the
timestamps are where any object at the segment sees them. `Notices` is both rings at work with
these: a step is an access by one end of a ring, a timestamp, or the copy of one byte of a key, and
both processes may be at writing a key.
-/

namespace MemMapIPC

open ByteMemory Relation

abbrev Key := { l : List U8 // l.length = Header.keySizeInBytes.toNat }

namespace Header

variable (h : Header) (sizeofPtime : U64) (m : Segment)

end Header

structure Notices (L : Layout) where
  duplex : Duplex
  /-- The last timestamp each process has stored. -/
  timestamp : Process → Ptime L.sizeofPtime
  /-- The key that a process's `WriteKey` is at copying, and how many bytes it has copied. -/
  writing : Process → Option (Key × ℕ) := fun _ => none
  /-- The key of the process's last `WriteKey` to have returned. -/
  written : Process → Option Key := fun _ => none

namespace Notices

variable {L : Layout} (x : Notices L) (p : Process)

def mem : Segment := x.duplex.mem

/-- After a store to the header. -/
def write (a : U64) (l : List U8) : Notices L :=
  { x with duplex := { x.duplex with mem := x.duplex.mem.write a l } }

/-- The process has never called `WriteKey`. -/
def Silent : Prop := x.writing p = none ∧ x.written p = none

def old : List U8 :=
  (x.written p).elim (List.replicate Header.keySizeInBytes.toNat 0) Subtype.val

/-- What the key would be if no other process wrote it. -/
def shown : List U8 :=
  match x.writing p with
  | none => x.old p
  | some (key, i) => key.1.take i ++ (x.old p).drop i

end Notices

/-- Where the process's `UpdateTimestamp` stores. -/
def Process.timestamp (L : Layout) : Process → U64
  | server => (L.header 0).serverTimestamp
  | client => (L.header 0).clientTimestamp

inductive NoticeStep (L : Layout) : Notices L → Notices L → Prop
  | call {x : Notices L} (c : Channel) (s : Side) {e : Endpoint} {σ : Shared} :
    EndpointStep (L.ring c).buffer s (x.duplex.ends c s, x.duplex.shared c) (e, σ) →
      NoticeStep L x { x with duplex := x.duplex.set c s e σ }
  | updateTimestamp {x : Notices L} (p : Process) (now : Ptime L.sizeofPtime) :
    NoticeStep L x { x.write (p.timestamp L) now.1 with
      timestamp := Function.update x.timestamp p now }
  | writeKey {x : Notices L} (p : Process) (key : Key) : x.writing p = none →
    NoticeStep L x { x with writing := Function.update x.writing p (some (key, 0)) }
  | copy {x : Notices L} (p : Process) {key : Key} {i : ℕ} {b : U8} :
    x.writing p = some (key, i) → key.1[i]? = some b →
      NoticeStep L x { x.write ((L.header 0).key + BitVec.ofNat 64 i) [b] with
        writing := Function.update x.writing p (some (key, i + 1)) }
  | written {x : Notices L} (p : Process) {key : Key} :
    x.writing p = some (key, Header.keySizeInBytes.toNat) →
      NoticeStep L x { x with
        writing := Function.update x.writing p none
        written := Function.update x.written p (some key) }

abbrev NoticeReach (L : Layout) : Notices L → Notices L → Prop := ReflTransGen (NoticeStep L)

end MemMapIPC
