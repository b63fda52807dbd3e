import Mathlib.Algebra.Order.Group.Defs
import Mathlib.Data.Set.Defs
import MemMapIPC.Transfer

/-!
# The loop an entity waits in

An entity's call on its own, the ring's counts given and nothing said of the other side. A `Loop`
has its timer answer from an oracle and counts the iterations of the loop. A `Timed` call has a
clock, which may go on between any two steps of the call and while it copies a chunk, and a record
of what the call has seen since it last moved something.
-/

namespace MemMapIPC

/-- The bytes transferred so far, as the call counts them. -/
def Transfer.moved : Transfer → U64
  | updateTimestamp | check | whole | timeoutTimer => 0
  | elapsed moved | poll moved | restart moved _ | chunk moved _ => moved

variable (numberOfBytes : U64)

/-- A call, how many counts it has asked for and how many iterations of its loop it has begun, how
often its timer was started, and how often tested since. -/
structure Loop where
  progress : Progress := .more .updateTimestamp
  queries : ℕ := 0
  iterations : ℕ := 0
  starts : ℕ := 0
  tests : ℕ := 0

namespace Loop

/-- The call's next step. The oracle is asked with how often the timer was started, and tested
since; where the condition holds another iteration begins. -/
def step (counts : ℕ → U64) (oracle : ℕ → ℕ → Bool) (l : Loop) : Option Loop :=
  match l.progress with
  | .returned _ => none
  | .more t =>
    let progress := t.next numberOfBytes (counts l.queries) (oracle l.starts l.tests)
    match t.ask numberOfBytes, progress with
    | .count, _ => some { l with progress, queries := l.queries + 1 }
    | .timeoutTimer, _ | .restart, _ => some { l with progress, starts := l.starts + 1, tests := 0 }
    | .elapsed, .more _ =>
      some { l with progress, tests := l.tests + 1, iterations := l.iterations + 1 }
    | _, _ => some { l with progress }

abbrev Run (counts : ℕ → U64) (oracle : ℕ → ℕ → Bool) (l l' : Loop) : Prop :=
  Relation.ReflTransGen (fun x y => step numberOfBytes counts oracle x = some y) l l'

end Loop

/-- A call with a clock: its reading now and when the timer was started, and when the call last
finished copying a chunk, or created the timer, with the counts it got since. -/
structure Timed (T : Type*) where
  progress : Progress := .more .updateTimestamp
  now : T
  startTime : T
  since : T
  seen : List U64 := []

namespace Timed

variable {T : Type*} [AddCommGroup T] [LinearOrder T] (timeoutLimit : T)

/-- The call at `t` after its next step, the ring counting `count`. -/
def after (x : Timed T) (t : Transfer) (count : U64) : Timed T :=
  let progress := t.next numberOfBytes count (x.now - x.startTime < timeoutLimit)
  match t.ask numberOfBytes with
  | .count => { x with progress, seen := x.seen ++ [count] }
  | .timeoutTimer => { x with progress, startTime := x.now, since := x.now, seen := [] }
  | .restart => { x with progress, startTime := x.now }
  | .transfer _ _ => { x with progress, since := x.now, seen := [] }
  | _ => { x with progress }

/-- A step of the call, or the clock going on. From the timer's restart to the end of the copying
of the chunk takes one of the `durations`. -/
inductive Step (durations : Set T) : Timed T → Timed T → Prop
  | tick {x : Timed T} {now : T} : x.now ≤ now → Step durations x { x with now }
  | call {x : Timed T} {t : Transfer} (count : U64) : x.progress = .more t →
    (∀ moved available, t = .chunk moved available → x.now - x.startTime ∈ durations) →
    Step durations x (x.after numberOfBytes timeoutLimit t count)

abbrev Run (durations : Set T) (x y : Timed T) : Prop :=
  Relation.ReflTransGen (Step numberOfBytes timeoutLimit durations) x y

/-- A call about to begin, the timer not yet there. -/
def begin (now : T) : Timed T := { now, startTime := now, since := now }

/-- For as long as the limit nothing has moved, and there was nothing to move. -/
def Idle (x : Timed T) : Prop := timeoutLimit ≤ x.now - x.since ∧ ∀ count ∈ x.seen, count = 0

end Timed

end MemMapIPC
