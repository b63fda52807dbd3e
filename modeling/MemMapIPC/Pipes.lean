import MemMapIPC.Conversation
import MemMapIPC.Library.BoundedQueue
import MemMapIPC.Library.Commuting

/-!
# Two programs at two pipes

The same programs, each ring replaced by a queue of the bytes it has cells for. A call moves its
bytes one by one, a count is of what the queue has, and there are no words, no clock and no
segment. `Shows` says which `Pipes` a `System` shows to its programs.
-/

namespace MemMapIPC

open Relation

namespace Side

variable {capacity : ℕ} (q : BoundedQueue U8 capacity)

/-- The bytes the queue has free, or available. -/
def room : Side → ℕ
  | producer => q.free
  | consumer => q.available

/-- The byte put in, or taken out, and the queue after. -/
def pass (b : U8) : Side → Option (U8 × BoundedQueue U8 capacity)
  | producer => if h : [b].length ≤ q.free then some (b, q.push [b] h) else none
  | consumer => q.contents.head?.map fun c => (c, q.pop 1)

end Side

/-- A process at two pipes: the program it has still to run, the bytes that the call it is in has
moved, and what the calls before it left. -/
structure Partner where
  program : Program
  moved : List U8 := []
  log : Log := []

/-- The side of the process's next call. -/
def Program.side : Program → Option Side
  | stop => none
  | await s _ _ => some s
  | transfer s _ _ => some s

namespace Partner

variable (w : Partner)

/-- After its call, which has left `data` in its buffer. -/
def goOn (s : Side) (data : List U8) (next : Program) : Partner :=
  { program := next, log := w.log ++ [(s, data)] }

/-- Its next step at the queue that its call is about. -/
def step {capacity : ℕ} (q : BoundedQueue U8 capacity) :
    Option (Partner × BoundedQueue U8 capacity) :=
  match w.program with
  | .stop => none
  | .await s n next => if n.toNat ≤ s.room q then some (w.goOn s [] next, q) else none
  | .transfer s buffer next =>
    match buffer.1.drop w.moved.length with
    | [] => some (w.goOn s w.moved (next w.moved), q)
    | b :: _ => (s.pass q b).map fun r => ({ w with moved := w.moved ++ [r.1] }, r.2)

end Partner

structure Pipes (capacity : ℕ) where
  partner : Process → Partner
  queue : Channel → BoundedQueue U8 capacity

namespace Pipes

variable {capacity : ℕ}

/-- After a step of process `p` at its side `s`. -/
def set (X : Pipes capacity) (p : Process) (s : Side) (r : Partner × BoundedQueue U8 capacity) :
    Pipes capacity :=
  { partner := Function.update X.partner p r.1
    queue := Function.update X.queue (p.channel s) r.2 }

def step (p : Process) (X : Pipes capacity) : Option (Pipes capacity) :=
  (X.partner p).program.side.bind fun s =>
    ((X.partner p).step (X.queue (p.channel s))).map (X.set p s)

abbrev Reach : Pipes capacity → Pipes capacity → Prop := ReflTransGen (Commuting.Step step)

/-- No process can go on. -/
abbrev Ended : Pipes capacity → Prop := Commuting.Stuck step

def start (capacity : ℕ) (program : Process → Program) : Pipes capacity :=
  { partner := fun p => { program := program p }, queue := fun _ => .empty }

end Pipes

namespace Shared

variable (σ : Shared)

/-- The bytes that side `s` has moved its cursor over. -/
def passed (s : Side) : List U8 := (σ.moved s).take (σ.advanced s)

/-- What the ring has for the consumer, by its cursors. -/
def outstanding : List U8 := (σ.passed .producer).drop (σ.advanced .consumer)

end Shared

namespace System

variable (x : System) (p : Process)

/-- The bytes of its call that the process has moved its cursor over. -/
def passedInCall : List U8 :=
  match (x.worker p).program, (x.worker p).calling with
  | .transfer s _ _, some k => ((x.shared p s).passed s).drop k
  | _, _ => []

/-- The programs have got as far, and with the same bytes, as at the pipes. -/
structure Shows {capacity : ℕ} (X : Pipes capacity) : Prop where
  program : ∀ p, (X.partner p).program = (x.worker p).program
  moved : ∀ p, (X.partner p).moved = x.passedInCall p
  log : ∀ p, (X.partner p).log = (x.worker p).log
  queue : ∀ c, (X.queue c).contents = (x.duplex.shared c).outstanding

end System

end MemMapIPC
