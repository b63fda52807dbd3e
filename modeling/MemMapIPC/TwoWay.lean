import MemMapIPC.TestThreads

/-!
# Two threads that poll

In the two-way tests each thread goes round a loop: it writes a chunk if so many bytes are free, and
reads one if so many are available, until it has done either often enough. A thread makes its calls
as one-call programs of its process, and decides by the last count what to call next.
-/

namespace MemMapIPC

open Relation

structure TwoWayTest where
  chunkSize : U64
  /-- The number of chunks is got by dividing by it. -/
  chunkSize_pos : 0 < chunkSize
  /-- `VERIFICATION_TRANSFER_SIZE/chunkSize` -/
  chunks : ℕ
  /-- The counters are 32-bit `long`s. -/
  chunks_lt : chunks < 2 ^ 31
  simulatedBuffer : Process → Buffer
  size : ∀ p, (simulatedBuffer p).1.length = chunkSize.toNat

/-- What a thread is at: the test of its loop, a call or what follows it, or past the loop. -/
inductive TwoWayStage
  | test
  | count (s : Side)
  | transfer (s : Side)
  | past
  deriving DecidableEq

structure TwoWayThread where
  stage : TwoWayStage := .test
  /-- `productionCounter` and `consumptionCounter` -/
  counter : Side → ℕ := fun _ => 0

structure TwoWay where
  system : System
  thread : Process → TwoWayThread

variable (T : TwoWayTest)

/-- The buffer of a thread's calls at side `s`. -/
def TwoWayTest.buffer (p : Process) : Side → Buffer
  | .producer => producerData T.chunkSize
  | .consumer => T.simulatedBuffer p

/-- The call a thread makes at a stage. A count returns whatever it is. -/
def TwoWayStage.call (p : Process) : TwoWayStage → Program
  | count s => .await s 0 .stop
  | transfer s => .transfer s (T.buffer p s) fun _ => .stop
  | _ => .stop

/-- What comes after the calls at a side. -/
def TwoWayStage.after : Side → TwoWayStage
  | .producer => count .consumer
  | .consumer => test

/-- The process is given another program to run after the one it has come to the end of. -/
def System.load (x : System) (p : Process) (program : Program) : System :=
  x.setWorker p { x.worker p with program, calling := none }

namespace TwoWay

variable (x : TwoWay) (p : Process)

/-- The process's thread comes to `stage`, and is to make its call. -/
def enter (thread : TwoWayThread) (stage : TwoWayStage) : TwoWay where
  system := x.system.load p (stage.call T p)
  thread := Function.update x.thread p { thread with stage }

/-- The thread's own part, its call having returned. -/
def proceed : TwoWay :=
  let thread := x.thread p
  match thread.stage with
  | .test =>
    if thread.counter .consumer < T.chunks ∨ thread.counter .producer < T.chunks then
      x.enter T p thread (.count .producer)
    else x.enter T p thread .past
  | .count s =>
    if T.chunkSize ≤ (x.system.endpoint p s).ring.last ∧ thread.counter s < T.chunks then
      x.enter T p thread (.transfer s)
    else x.enter T p thread (.after s)
  | .transfer s =>
    x.enter T p { thread with counter := Function.update thread.counter s (thread.counter s + 1) }
      (.after s)
  | .past => x

def step {L : Layout} (now : Ptime L.sizeofPtime) (below : Bool) : Option TwoWay :=
  match (x.system.worker p).program with
  | .stop => some (x.proceed T p)
  | _ => (x.system.step p now below).map fun system => { x with system }

end TwoWay

variable (L : Layout)

def TwoWayStep (p : Process) (x y : TwoWay) : Prop :=
  ∃ (now : Ptime L.sizeofPtime) (below : Bool), x.step T p now below = some y

abbrev TwoWayReach : TwoWay → TwoWay → Prop := ReflTransGen fun x y => ∃ p, TwoWayStep T L p x y

abbrev TwoWayRun := Fair.Run (TwoWayStep T L)

/-- Both threads before their loops. -/
def TwoWay.fresh (mem : Segment) : TwoWay where
  system := .fresh (fun _ => .stop) mem
  thread := fun _ => {}

/-- Both objects attached, and both threads before their loops. -/
def twoWayStart (now now' : Ptime L.sizeofPtime) : TwoWay where
  system := systemStart L now now' fun _ => .stop
  thread := fun _ => {}

end MemMapIPC
