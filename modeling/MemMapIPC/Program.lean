import MemMapIPC.Duplex
import MemMapIPC.Library.Fair

/-!
# Two processes at one segment

A process is one thread with an entity of its own. Its `Program` counts until there is enough, calls
`WriteData` or `ReadData`, goes on by what the call left in the buffer, and gives up where a call
returns false. A `System` is the segment with a process at either end of it, and its step one access
by one of them. Where no timer reaches its limit the step is a `PatientStep`.
-/

namespace MemMapIPC

open ByteMemory Relation

inductive Process
  | server
  | client
  deriving DecidableEq

namespace Process

def other : Process → Process
  | server => client
  | client => server

/-- The ring a process has side `s` of. -/
def channel : Process → Side → Channel
  | server, .producer => .outbound
  | server, .consumer => .inbound
  | client, .producer => .inbound
  | client, .consumer => .outbound

end Process

/-- A buffer whose size is a `size_t`. -/
abbrev Buffer := { l : List U8 // l.length < 2 ^ 64 }

inductive Program
  | stop
  /-- Counts until at least `numberOfBytes` are free, or available. -/
  | await (s : Side) (numberOfBytes : U64) (next : Program)
  /-- Calls `WriteData` or `ReadData`, and then goes on by the buffer. -/
  | transfer (s : Side) (buffer : Buffer) (next : List U8 → Program)

/-- What the calls of a program have left in their buffers. -/
abbrev Log := List (Side × List U8)

/-- A process: the program it has still to run, the bytes its side had moved when the call it is in
began, and the calls before that. -/
structure Worker where
  program : Program
  calling : Option ℕ := none
  log : Log := []
  failed : Bool := false

structure System where
  duplex : Duplex
  worker : Process → Worker

namespace System

variable (L : Layout) (x : System) (p : Process) (s : Side)

def endpoint : Endpoint := x.duplex.ends (p.channel s) s

/-- What the process's end at side `s` shares with the other's. -/
def shared : Shared := x.duplex.shared (p.channel s)

/-- After an access by the process's end at side `s`. -/
def set (e : Endpoint) (σ : Shared) : System :=
  { x with duplex := x.duplex.set (p.channel s) s e σ }

def setWorker (w : Worker) : System := { x with worker := Function.update x.worker p w }

/-- The process's `UpdateTimestamp`. -/
def stamp {L : Layout} (now : Ptime L.sizeofPtime) : System :=
  let update : Segment → Segment := match p with
    | .server => Server.updateTimestamp (L.header 0) now
    | .client => Client.updateTimestamp (L.header 0) now
  { x with duplex := { x.duplex with mem := update x.duplex.mem } }

/-- What a call leaves in its buffer, the side having moved `k` bytes when it began: a read has put
there all it has moved since. -/
def filled (k : ℕ) (buffer : List U8) : List U8 :=
  match s with
  | .producer => buffer
  | .consumer => ((x.shared p s).moved s).drop k

/-- The process's next step, the clock reading `now` and the timer answering `below` if asked. -/
def step {L : Layout} (now : Ptime L.sizeofPtime) (below : Bool) : Option System :=
  let w := x.worker p
  match w.program with
  | .stop => some x
  | .await s n next =>
    let e := x.endpoint p s
    let σ := x.shared p s
    match w.calling, e.ring.call with
    | none, _ =>
      some ((x.set p s { e with ring := { e.ring with call := some .loadSecond } } σ).setWorker p
        { w with calling := some (σ.moved s).length })
    | some _, some c =>
      (e.ring.move (L.ring (p.channel s)).buffer s c σ).map fun q =>
        x.set p s { e with ring := q.1 } q.2
    | some _, none =>
      if n ≤ e.ring.last then
        some (x.setWorker p
          { w with program := next, calling := none, log := w.log ++ [(s, [])] })
      else some (x.setWorker p { w with calling := none })
  | .transfer s buffer next =>
    let e := x.endpoint p s
    let σ := x.shared p s
    match w.calling, e.transfer with
    | none, _ =>
      some ((x.set p s (e.begin buffer) σ).setWorker p
        { w with calling := some (σ.moved s).length })
    | some _, some (t, _) =>
      (e.step (L.ring (p.channel s)).buffer s below σ).map fun q =>
        if t = .updateTimestamp then (x.set p s q.1 q.2).stamp p now else x.set p s q.1 q.2
    | some k, none =>
      if e.result = some true then
        let data := x.filled p s k buffer
        some (x.setWorker p
          { w with program := next data, calling := none, log := w.log ++ [(s, data)] })
      else some (x.setWorker p { w with program := .stop, calling := none, failed := true })

/-- The bytes the ring has free, or available, for the process by its cursors. -/
def room : ℕ :=
  let h := x.duplex.history (p.channel s)
  let held := h.advanced .producer - h.advanced .consumer
  match s with
  | .producer => (L.ring (p.channel s)).cells - 1 - held
  | .consumer => held

/-- The bytes of the process's call that its cursor has still to move over. -/
def owed : ℕ :=
  match (x.worker p).program, (x.worker p).calling with
  | .transfer _ buffer _, none => buffer.1.length
  | .transfer s buffer _, some k => k + buffer.1.length - (x.shared p s).advanced s
  | _, _ => 0

/-- The process has come to its end, or waits for what the ring does not have for it. -/
def Rests : Prop :=
  match (x.worker p).program with
  | .stop => True
  | .await s n _ => x.room L p s < n.toNat
  | .transfer s _ _ => x.room L p s = 0 ∧ 0 < x.owed p

/-- Both processes rest, none of their calls having returned false. -/
def AtRest : Prop := ∀ p, x.Rests L p ∧ (x.worker p).failed = false

end System

variable (L : Layout)

def SystemStep (p : Process) (x y : System) : Prop :=
  ∃ (now : Ptime L.sizeofPtime) (below : Bool), x.step p now below = some y

/-- A step by which no timer has reached its limit. -/
def PatientStep (p : Process) (x y : System) : Prop :=
  ∃ now : Ptime L.sizeofPtime, x.step p now true = some y

abbrev SystemReach : System → System → Prop := ReflTransGen fun x y => ∃ p, SystemStep L p x y

abbrev PatientRun := Fair.Run (PatientStep L)

/-- Processes about to run their programs, nothing having gone through the rings of the segment. -/
def System.fresh (program : Process → Program) (mem : Segment) : System :=
  { duplex := { mem }, worker := fun p => { program := program p } }

/-- Both processes attached and about to run their programs. -/
def systemStart (now now' : Ptime L.sizeofPtime) (program : Process → Program) : System :=
  { duplex := duplexStart L now now', worker := fun p => { program := program p } }

/-- The process has called all it had to, every call having returned true. -/
def Worker.Finished (w : Worker) : Prop :=
  match w.program with
  | .stop => w.failed = false
  | _ => False

end MemMapIPC
