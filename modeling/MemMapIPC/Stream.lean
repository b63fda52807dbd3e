import MemMapIPC.Library.BoundedQueue
import MemMapIPC.Library.Interleaving
import MemMapIPC.Ring
import MemMapIPC.Transfer

/-!
# Two entities over a queue

The ring as a queue of all but one of its cells, an entity writing at one end and one reading at
the other. An end's steps are its calls' (`CallerStep`), the timer's answers arbitrary, or those of
any program that puts in what fits or takes out what is there (`OtherStep`).
-/

namespace MemMapIPC

open Interleaving

/-- The ring as a queue, and what has gone in and come out. -/
structure Stream (capacity : ℕ) where
  queue : BoundedQueue U8 capacity
  accepted : List U8 := []
  delivered : List U8 := []

namespace Stream

variable {capacity : ℕ} (σ : Stream capacity)

def history : Side → List U8
  | .producer => σ.accepted
  | .consumer => σ.delivered

def room : Side → ℕ
  | .producer => σ.queue.free
  | .consumer => σ.queue.available

def push (l : List U8) (h : l.length ≤ σ.queue.free) : Stream capacity :=
  { σ with queue := σ.queue.push l h, accepted := σ.accepted ++ l }

def pop (n : ℕ) : Stream capacity :=
  { σ with
    queue := σ.queue.pop n
    delivered := σ.delivered ++ σ.queue.contents.take n }

end Stream

/-- A call that has returned: its buffer before and after, and how many bytes it transferred. -/
structure Returned where
  original : List U8
  data : List U8
  moved : ℕ
  success : Bool
  deriving DecidableEq

/-- An entity at one end: its call, the buffer it was given as it was then and as it is now, how
many bytes the call has transferred, and the calls before it. -/
structure Caller where
  call : Option Transfer := none
  original : List U8 := []
  data : List U8 := []
  moved : ℕ := 0
  log : List Returned := []

namespace Caller

def numberOfBytes (c : Caller) : U64 := BitVec.ofNat 64 c.original.length

def begin (c : Caller) (data : List U8) : Caller :=
  { c with call := some .updateTimestamp, original := data, data, moved := 0 }

def resume (c : Caller) : Progress → Caller
  | .more t => { c with call := some t }
  | .returned success =>
    { c with call := none, log := c.log ++ [⟨c.original, c.data, c.moved, success⟩] }

variable {capacity : ℕ}

/-- The bytes from `offset` on put in, or taken out to there: `none` if the queue has not the room
or the buffer not the bytes. -/
def transfer (c : Caller) (offset amount : ℕ) (σ : Stream capacity) :
    Side → Option (Caller × Stream capacity)
  | .producer =>
    if h : offset + amount ≤ c.data.length
        ∧ ((c.data.drop offset).take amount).length ≤ σ.queue.free then
      some ({ c with moved := c.moved + amount }, σ.push ((c.data.drop offset).take amount) h.2)
    else none
  | .consumer =>
    if offset + amount ≤ c.data.length ∧ amount ≤ σ.queue.available then
      some ({ c with
          data := c.data.take offset ++ σ.queue.contents.take amount
            ++ c.data.drop (offset + amount)
          moved := c.moved + amount }, σ.pop amount)
    else none

/-- The step of a call at `t`, the timer answering `below` if asked. -/
def step (c : Caller) (s : Side) (t : Transfer) (below : Bool) (σ : Stream capacity) :
    Option (Caller × Stream capacity) :=
  match t.ask c.numberOfBytes with
  | .transfer offset amount =>
    (c.transfer offset.toNat amount.toNat σ s).map fun q =>
      (q.1.resume (t.next c.numberOfBytes 0 below), q.2)
  | _ => some (c.resume (t.next c.numberOfBytes (BitVec.ofNat 64 (σ.room s)) below), σ)

end Caller

variable (capacity : ℕ) (s : Side)

inductive CallerStep : Caller × Stream capacity → Caller × Stream capacity → Prop
  | begin {c : Caller} {σ : Stream capacity} {data : List U8} : c.call = none →
    data.length < 2 ^ 64 → CallerStep (c, σ) (c.begin data, σ)
  | step {c : Caller} {t : Transfer} {σ : Stream capacity} {q : Caller × Stream capacity}
    (below : Bool) : c.call = some t → c.step s t below σ = some q → CallerStep (c, σ) q

/-- The step a caller takes when told to begin a call, or to go on with the timer answering so. -/
def Caller.choose : List U8 ⊕ Bool → Caller × Stream capacity → Option (Caller × Stream capacity)
  | .inl data, (c, σ) =>
    if c.call = none ∧ data.length < 2 ^ 64 then some (c.begin data, σ) else none
  | .inr below, (c, σ) => c.call.bind fun t => c.step s t below σ

/-- Any program at side `s`. -/
inductive OtherStep : Side → Unit × Stream capacity → Unit × Stream capacity → Prop
  | fill {σ : Stream capacity} {l : List U8} (h : l.length ≤ σ.queue.free) :
    OtherStep .producer ((), σ) ((), σ.push l h)
  | drain {σ : Stream capacity} {n : ℕ} : n ≤ σ.queue.available →
    OtherStep .consumer ((), σ) ((), σ.pop n)

/-- What a call did at side `s`: it transferred the first `moved` bytes, all of them if and only if
it succeeded, and left the buffer from there on as it was. -/
structure Returned.Kept (d : Returned) : Prop where
  moved_le : d.moved ≤ d.original.length
  success_iff : d.success = true ↔ d.moved = d.original.length
  length_eq : d.data.length = d.original.length
  rest : d.data.drop d.moved = d.original.drop d.moved
  source : s = .producer → d.data = d.original

/-- The bytes of the call not yet returned that have been transferred. -/
def Caller.current (c : Caller) : List U8 := if c.call = none then [] else c.data.take c.moved

/-- What has been transferred at side `s` is what its calls have transferred, in order; each did so
as it should, and the next transfer has the room it needs. -/
structure CallsKept (c : Caller) (σ : Stream capacity) : Prop where
  returned : ∀ d ∈ c.log, d.Kept s
  history : σ.history s = (c.log.map fun d => d.data.take d.moved).flatten ++ c.current
  room : ∀ t, c.call = some t → ∀ offset amount, t.ask c.numberOfBytes = .transfer offset amount →
    amount.toNat ≤ σ.room s
  stepped : ∀ t, c.call = some t → ∀ below, (c.step s t below σ).isSome

end MemMapIPC
