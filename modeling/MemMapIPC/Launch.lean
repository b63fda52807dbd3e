import MemMapIPC.Startup
import MemMapIPC.TwoWay

/-!
# Processes that attach while the other is at work

Neither process waits for the other's `SetMemoryID`. Once the server has stored the buffer size the
client can be anywhere in its own, or at work, while the server still makes the rest of its stores;
and the server can be long at work when the client attaches. A process first makes the stores it
has left, and then takes its steps in a larger state that has the system in it.
-/

namespace MemMapIPC

/-- Where the system is in a state. -/
structure Host (α : Type*) where
  system : α → System
  replace : α → System → α

def Host.self : Host System := ⟨id, fun _ y => y⟩

def TwoWay.host : Host TwoWay := ⟨TwoWay.system, fun x system => { x with system }⟩

/-- The stores of a process's `SetMemoryID` once the buffer size is there. -/
def Process.setup {sizeofPtime : U64} (bufferSize : U64) (now : Ptime sizeofPtime) :
    Process → List Store
  | .server => Server.setup bufferSize now
  | .client => Client.stores bufferSize now

/-- A server is past the load: it has the size from its caller. -/
structure Launch (α : Type*) where
  state : α
  attach : Process → Attach

def System.store (x : System) (w : Store) : System :=
  { x with duplex := { x.duplex with mem := w.apply x.duplex.mem } }

variable {α : Type*} (host : Host α) (step : Process → α → α → Prop) (L : Layout)

/-- The process has returned from `SetMemoryID`, with the right buffer size. -/
def Launch.Attached (x : Launch α) (p : Process) : Prop := x.attach p = .storing L.bufferSize []

inductive LaunchStep (p : Process) (x : Launch α) : Launch α → Prop
  | load (now : Ptime L.sizeofPtime) {b : U64} : x.attach p = .load →
    b = (host.system x.state).duplex.mem.loadWord (L.header 0).bufferSize →
    LaunchStep p x { x with
      attach := Function.update x.attach p (.storing b (p.setup b now)) }
  | store {b : U64} {w : Store} {rest : List Store} : x.attach p = .storing b (w :: rest) →
    LaunchStep p x {
      state := host.replace x.state ((host.system x.state).store w)
      attach := Function.update x.attach p (.storing b rest) }
  | run {y : α} : x.Attached L p → step p x.state y → LaunchStep p x { x with state := y }

/-- The segment when the server has just stored the buffer size. -/
def launchSegment : Segment :=
  Store.applyAll (fun _ => 0) (Server.clearing L.bufferSize L.sizeofPtime
    ++ [Server.sizeStore L.bufferSize L.sizeofPtime])

def launchStart (now : Ptime L.sizeofPtime) (fresh : Segment → α) : Launch α where
  state := fresh (launchSegment L)
  attach
    | .server => .storing L.bufferSize (Process.setup L.bufferSize now .server)
    | .client => .load

abbrev ProgramLaunch := Fair.Run (LaunchStep Host.self (SystemStep L) L)

/-- No timer reaches its limit. -/
abbrev PatientLaunch := Fair.Run (LaunchStep Host.self (PatientStep L) L)

/-- The two-way threads, whatever their timers answer. -/
abbrev TwoWayLaunch (T : TwoWayTest) := Fair.Run (LaunchStep TwoWay.host (TwoWayStep T L) L)

end MemMapIPC
