import MemMapIPC.Fifo
import MemMapIPC.Library.Halting
import MemMapIPC.Transfer

/-!
# Entities at the two sides of a ring

An `Endpoint` is an entity at one side of the ring itself: between calls it may use the ring
directly, and in a call it makes the ring's calls access by access where `Transfer` asks for them.
`Alone` is one such end going on while the other does nothing, its timer answering from an oracle.
-/

namespace MemMapIPC

open Interleaving Halting

/-- An entity's locals: its call and whether it is waiting for the ring there, the source or the
sink it was given, and its side of the ring. -/
structure Endpoint where
  transfer : Option (Transfer × Bool) := none
  data : List U8 := []
  result : Option Bool := none
  ring : Party := {}

namespace Endpoint

variable (cb : CircularBuffer) (s : Side) (e : Endpoint)

def numberOfBytes : U64 := BitVec.ofNat 64 e.data.length

def Idle : Prop := e.transfer = none ∧ e.ring.call = none

def begin (data : List U8) : Endpoint :=
  { e with transfer := some (.updateTimestamp, false), data }

def resume : Progress → Endpoint
  | .more t => { e with transfer := some (t, false) }
  | .returned success => { e with transfer := none, result := success }

/-- The ring's transfer of `amount` bytes at `offset` begun. -/
def begun (offset amount : ℕ) (σ : Shared) : Side → Party × Shared
  | .producer =>
    let chunk := (e.data.drop offset).take amount
    ({ call := some (.span (BitVec.ofNat 64 chunk.length)), last := 0, source := chunk },
      { σ with sent := σ.sent ++ chunk })
  | .consumer => ({ call := some (.span (BitVec.ofNat 64 amount)), last := 0, source := [] }, σ)

/-- The next step of the entity's call, the timer answering `below` if asked. -/
def step (below : Bool) (σ : Shared) : Option (Endpoint × Shared) :=
  match e.transfer, e.ring.call with
  | none, _ => none
  | some _, some c => (e.ring.move cb s c σ).map fun q => ({ e with ring := q.1 }, q.2)
  | some (t, true), none => some (e.resume (t.next e.numberOfBytes e.ring.last below), σ)
  | some (t, false), none =>
    match t.ask e.numberOfBytes with
    | .count =>
      some ({ e with transfer := some (t, true), ring := { e.ring with call := some .loadSecond } },
        σ)
    | .transfer offset amount =>
      let q := e.begun offset.toNat amount.toNat σ s
      some ({ e with transfer := some (t, true), ring := q.1 }, q.2)
    | _ => some (e.resume (t.next e.numberOfBytes 0 below), σ)

end Endpoint

variable (cb : CircularBuffer) (s : Side)

inductive EndpointStep : Endpoint × Shared → Endpoint × Shared → Prop
  | direct {e : Endpoint} {σ σ' : Shared} {p : Party} : e.transfer = none →
    RingStep cb s (e.ring, σ) (p, σ') → EndpointStep (e, σ) ({ e with ring := p }, σ')
  | begin {e : Endpoint} {σ : Shared} {data : List U8} : e.Idle → data.length < 2 ^ 64 →
    EndpointStep (e, σ) (e.begin data, σ)
  | step {e : Endpoint} {σ : Shared} {q : Endpoint × Shared} (below : Bool) :
    e.step cb s below σ = some q → EndpointStep (e, σ) q

abbrev PeerState := State Endpoint Endpoint Shared

def peerStart (r : Ring) (m : Segment) : PeerState := ⟨{}, {}, (ringStart r m).shared⟩

abbrev PeerReach (r : Ring) (x y : PeerState) : Prop :=
  Reach (EndpointStep r.buffer .producer) (EndpointStep r.buffer .consumer) x y

def endpointOf (x : PeerState) : Side → Endpoint
  | .producer => x.left
  | .consumer => x.right

/-- An entity and the shared state, the number of times its timer was started, and of tests of it
since. -/
structure Alone where
  endpoint : Endpoint
  shared : Shared
  restarts : ℕ := 0
  tests : ℕ := 0

namespace Alone

/-- The oracle is asked with how often the timer was started and tested since. -/
def step (oracle : ℕ → ℕ → Bool) (a : Alone) : Option Alone :=
  match a.endpoint.transfer, a.endpoint.ring.call with
  | none, none => none
  | none, some c =>
    (a.endpoint.ring.move cb s c a.shared).map fun q =>
      { a with endpoint := { a.endpoint with ring := q.1 }, shared := q.2 }
  | some (t, asked), call =>
    (a.endpoint.step cb s (oracle a.restarts a.tests) a.shared).map fun q =>
      match asked, call, t.ask a.endpoint.numberOfBytes with
      | false, none, .elapsed => ⟨q.1, q.2, a.restarts, a.tests + 1⟩
      | false, none, .restart => ⟨q.1, q.2, a.restarts + 1, 0⟩
      | false, none, .timeoutTimer => ⟨q.1, q.2, a.restarts + 1, 0⟩
      | _, _, _ => ⟨q.1, q.2, a.restarts, a.tests⟩

/-- Whatever call is in progress returns after finitely many steps. -/
def Returns (oracle : ℕ → ℕ → Bool) (a : Alone) : Prop :=
  Halts (Alone.step cb s oracle) (fun b => b.endpoint.Idle) a

end Alone

/-- Whatever side `s` does from here while the other takes no step, the call it is then in returns,
however its timer answers, so long as it says after each start that the limit is reached in the
end. -/
def DetectsStopped (e : Endpoint) (σ : Shared) : Prop :=
  ∀ e' σ', Relation.ReflTransGen (EndpointStep cb s) (e, σ) (e', σ') →
    ∀ oracle : ℕ → ℕ → Bool, (∀ i, ∃ j, oracle i j = false) →
      Alone.Returns cb s oracle { endpoint := e', shared := σ' }

end MemMapIPC
