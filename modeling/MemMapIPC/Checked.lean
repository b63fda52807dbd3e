import MemMapIPC.Library.Fair
import MemMapIPC.Peer

/-!
# A call after a check

A side that has got a count, and then makes an entity's call for no more bytes than that.
`Meanwhile` is what may happen before the call, the side starting no transfer of its own, and
`DuringCall` what may happen up to its return. A `PeerRun` is a run of both ends without end, each
taking its turns in any order.
-/

namespace MemMapIPC

open Relation

variable (r : Ring)

/-- A step of side `t`, the other end's locals unchanged. -/
def SideStep (t : Side) (x y : PeerState) : Prop :=
  EndpointStep r.buffer t (endpointOf x t, x.shared) (endpointOf y t, y.shared)
    ∧ endpointOf y t.peer = endpointOf x t.peer

/-- Between `x` and `y` side `s` has started a transfer of the ring's. -/
def StartsTransfer (s : Side) (x y : PeerState) : Prop :=
  (endpointOf x s).ring.call = none ∧ ∃ n, (endpointOf y s).ring.call = some (.span n)

def Meanwhile (s : Side) : PeerState → PeerState → Prop :=
  ReflTransGen fun x y => (∃ t, SideStep r t x y) ∧ ¬StartsTransfer s x y

/-- Steps of either side until side `s` has returned from its entity's call. -/
def DuringCall (s : Side) : PeerState → PeerState → Prop :=
  ReflTransGen fun x y => (∃ t, SideStep r t x y) ∧ (endpointOf x s).transfer ≠ none

def PeerState.begin (x : PeerState) (s : Side) (data : List U8) : PeerState :=
  match s with
  | .producer => { x with left := x.left.begin data }
  | .consumer => { x with right := x.right.begin data }

/-- On the path without the timer and the loop. -/
def Transfer.direct : Transfer → Bool
  | .updateTimestamp | .check | .whole => true
  | _ => false

namespace Endpoint

def AtOnce (e : Endpoint) : Prop := ∃ t asked, e.transfer = some (t, asked) ∧ t.direct

def Succeeded (e : Endpoint) : Prop := e.transfer = none ∧ e.result = some true

/-- The entity's check has still to find the peer's two words the same, the first of them now being
`first`. -/
def Seeks (first : U64) (e : Endpoint) : Prop :=
  match e.transfer, e.ring.call with
  | some (.updateTimestamp, _), _ => True
  | some (.check, false), _ => True
  | some (.check, true), some .loadSecond => True
  | some (.check, true), some (.loadFirst v) => v ≠ first
  | _, _ => False

end Endpoint

abbrev PeerRun := Fair.Run (SideStep r)

/-- The peer has stopped for good between the two stores of its cursor while side `s` is in the call
the run starts with and its check has still to find the two words the same. -/
def Hangs {r : Ring} (s : Side) (ρ : PeerRun r) : Prop :=
  ∃ i, (∀ k ≤ i, (endpointOf (ρ.state k) s).transfer ≠ none)
    ∧ (endpointOf (ρ.state i) s).Seeks (r.word (ρ.state i).shared.mem s.peer false)
    ∧ r.word (ρ.state i).shared.mem s.peer true ≠ r.word (ρ.state i).shared.mem s.peer false
    ∧ ∀ j ≥ i, ρ.turn j = s

/-- The run starts in a call of side `s` that returns true without having waited. -/
def ReturnsAtOnce {r : Ring} (s : Side) (ρ : PeerRun r) : Prop :=
  ∃ k, (endpointOf (ρ.state k) s).Succeeded ∧ ∀ i < k, (endpointOf (ρ.state i) s).AtOnce

/-- What a count got by side `s` is good for from the state `x` on, a call after it returning in the
runs of `C`. -/
structure CheckStands (s : Side) (x : PeerState) (C : PeerRun r → Prop) : Prop where
  /-- It never decreases until the side's own next transfer. -/
  grows : ∀ y, Meanwhile r s x y → (endpointOf x s).ring.last ≤ (endpointOf y s).ring.last
  /-- A call for no more never waits and never returns false. -/
  atOnce : ∀ data : List U8, (endpointOf x s).Idle →
    data.length ≤ (endpointOf x s).ring.last.toNat →
      ∀ y, DuringCall r s (x.begin s data) y →
        (endpointOf y s).AtOnce ∨ (endpointOf y s).Succeeded
  /-- Taking its turns, it returns true. -/
  returns : ∀ data : List U8, (endpointOf x s).Idle →
    data.length ≤ (endpointOf x s).ring.last.toNat →
      ∀ ρ : PeerRun r, ρ.state 0 = x.begin s data → ρ.Often s → (ReturnsAtOnce s ρ ↔ C ρ)

end MemMapIPC
