import MemMapIPC.Startup
import MemMapIPC.Fifo

/-!
# One client after another

A server that has set its segment up, and clients that come and go. Each opens the segment and runs
`cClient::SetMemoryID`, access by access, at any point of what the server is doing; then it uses
the ring it has worked out from the buffer size it loaded, and stops between two calls.

The clients read from the server-to-client ring in the first system and write to the other one in
the second.
-/

namespace MemMapIPC

open ByteMemory Interleaving

/-- The place of the clients. -/
inductive Slot
  /-- No client has opened the segment, or the last one has stopped. -/
  | away
  /-- One is in `SetMemoryID`. -/
  | attaching (a : Attach)
  /-- One has returned from it, the buffer size it loaded being `bufferSize`. -/
  | attached (bufferSize : U64) (p : Party)

def Slot.party : Slot → Party
  | .attached _ p => p
  | _ => {}

/-- The segment a server starts from, its `SetMemoryID` having returned. -/
def serverStart {sizeofPtime : U64} (bufferSize : U64) (now : Ptime sizeofPtime) (m : Segment) :
    Shared :=
  { mem := (Server.setMemoryID 0 bufferSize now m).2 }

/-- What a client is told to do next. -/
inductive Visit
  | opens
  | attach
  | returns
  | call (ch : Choice)
  | stops

/-- The next access of an attach, if it has one left. -/
def Attach.next {sizeofPtime : U64} (now : Ptime sizeofPtime) :
    Attach → Segment → Option (Attach × Segment)
  | .load, m =>
    let b := m.loadWord (Header.attach sizeofPtime 0).bufferSize
    some (.storing b (Client.stores b now), m)
  | .storing b (w :: rest), m => some (.storing b rest, w.apply m)
  | .storing _ [], _ => none

/-! ## Clients that read -/

structure Readers where
  slot : Slot := .away
  /-- What each client that has stopped had copied out. -/
  delivered : List (List U8) := []
  /-- What the one there is has. -/
  sink : List U8 := []

inductive ReaderStep (sizeofPtime : U64) : Readers × Shared → Readers × Shared → Prop
  | opens {d : List (List U8)} {k : List U8} {σ : Shared} :
    ReaderStep sizeofPtime (⟨.away, d, k⟩, σ) (⟨.attaching .load, d, k⟩, σ)
  | attach {now : Ptime sizeofPtime} {a a' : Attach} {d : List (List U8)} {k : List U8}
    {σ : Shared} {m : Segment} : ClientInit now (a, σ.mem) (a', m) →
    ReaderStep sizeofPtime (⟨.attaching a, d, k⟩, σ) (⟨.attaching a', d, k⟩, { σ with mem := m })
  | returns {b : U64} {d : List (List U8)} {k : List U8} {σ : Shared} :
    ReaderStep sizeofPtime (⟨.attaching (.storing b []), d, k⟩, σ) (⟨.attached b {}, d, k⟩, σ)
  | call {b : U64} {p p' : Party} {d : List (List U8)} {k : List U8} {σ σ' : Shared} :
    RingStep (Client.entity sizeofPtime 0 b).readBuffer .consumer (p, σ) (p', σ') →
    ReaderStep sizeofPtime (⟨.attached b p, d, k⟩, σ)
      (⟨.attached b p', d, k ++ (σ'.moved .consumer).drop (σ.moved .consumer).length⟩, σ')
  | stops {b : U64} {p : Party} {d : List (List U8)} {k : List U8} {σ : Shared} :
    p.call = none → ReaderStep sizeofPtime (⟨.attached b p, d, k⟩, σ) (⟨.away, d ++ [k], []⟩, σ)

abbrev ReaderState := State Party Readers Shared

/-- The server writes, the clients read. -/
abbrev ReaderReach (sizeofPtime bufferSize : U64) (x y : ReaderState) : Prop :=
  Reach (RingStep (Server.entity sizeofPtime 0 bufferSize).writeBuffer .producer)
    (ReaderStep sizeofPtime) x y

def Readers.all (c : Readers) : List U8 := c.delivered.flatten ++ c.sink

/-- The stream is what it would be with one client that had been there from the start. -/
structure StreamSurvives (r : Ring) (x : ReaderState) : Prop where
  delivered : x.right.all <+: x.shared.sent
  copied : x.right.all = x.shared.moved .consumer
  fifo : FifoSafe r ⟨x.left, x.right.slot.party, x.shared⟩

def Readers.choose {sizeofPtime : U64} (now : Ptime sizeofPtime) :
    Visit → Readers × Shared → Option (Readers × Shared)
  | .opens, (⟨.away, d, k⟩, σ) => some (⟨.attaching .load, d, k⟩, σ)
  | .attach, (⟨.attaching a, d, k⟩, σ) =>
    (a.next now σ.mem).map fun q => (⟨.attaching q.1, d, k⟩, { σ with mem := q.2 })
  | .returns, (⟨.attaching (.storing b []), d, k⟩, σ) => some (⟨.attached b {}, d, k⟩, σ)
  | .call ch, (⟨.attached b p, d, k⟩, σ) =>
    (Party.choose (Client.entity sizeofPtime 0 b).readBuffer .consumer ch (p, σ)).map fun q =>
      (⟨.attached b q.1, d, k ++ (q.2.moved .consumer).drop (σ.moved .consumer).length⟩, q.2)
  | .stops, (⟨.attached _ p, d, k⟩, σ) =>
    if p.call = none then some (⟨.away, d ++ [k], []⟩, σ) else none
  | _, _ => none

/-- The state after a schedule, the server's choices on the left. -/
def ReaderState.run {sizeofPtime : U64} (bufferSize : U64) (now : Ptime sizeofPtime)
    (x : ReaderState) (schedule : List (Choice ⊕ Visit)) : Option ReaderState :=
  x.play (Party.choose (Server.entity sizeofPtime 0 bufferSize).writeBuffer .producer)
    (Readers.choose now) schedule

/-! ## Clients that write -/

structure Writers where
  slot : Slot := .away
  /-- What had been written to the ring and what read from it, each time it was emptied. -/
  past : List (List U8 × List U8) := []

/-- The attach is at its store of the consumer's word. -/
def Attach.Empties (sizeofPtime : U64) : Attach → Prop
  | .storing b (w :: _) => w.address = (Client.entity sizeofPtime 0 b).writeBuffer.consumerPointer
  | _ => False

instance {sizeofPtime : U64} (a : Attach) : Decidable (a.Empties sizeofPtime) :=
  match a with
  | .storing b (w :: _) =>
    inferInstanceAs
      (Decidable (w.address = (Client.entity sizeofPtime 0 b).writeBuffer.consumerPointer))
  | .storing _ [] => .isFalse id
  | .load => .isFalse id

/-- A client that attaches empties the ring: both cursors' first words are zero once it has stored
the consumer's, and the stream begins again. -/
inductive WriterStep (sizeofPtime : U64) : Writers × Shared → Writers × Shared → Prop
  | opens {past : List (List U8 × List U8)} {σ : Shared} :
    WriterStep sizeofPtime (⟨.away, past⟩, σ) (⟨.attaching .load, past⟩, σ)
  | attach {now : Ptime sizeofPtime} {a a' : Attach} {past : List (List U8 × List U8)}
    {σ : Shared} {m : Segment} : ClientInit now (a, σ.mem) (a', m) → ¬a.Empties sizeofPtime →
    WriterStep sizeofPtime (⟨.attaching a, past⟩, σ) (⟨.attaching a', past⟩, { σ with mem := m })
  | empties {now : Ptime sizeofPtime} {a a' : Attach} {past : List (List U8 × List U8)}
    {σ : Shared} {m : Segment} : ClientInit now (a, σ.mem) (a', m) → a.Empties sizeofPtime →
    WriterStep sizeofPtime (⟨.attaching a, past⟩, σ)
      (⟨.attaching a', past ++ [(σ.moved .producer, σ.moved .consumer)]⟩, { mem := m })
  | returns {b : U64} {past : List (List U8 × List U8)} {σ : Shared} :
    WriterStep sizeofPtime (⟨.attaching (.storing b []), past⟩, σ) (⟨.attached b {}, past⟩, σ)
  | call {b : U64} {p p' : Party} {past : List (List U8 × List U8)} {σ σ' : Shared} :
    RingStep (Client.entity sizeofPtime 0 b).writeBuffer .producer (p, σ) (p', σ') →
    WriterStep sizeofPtime (⟨.attached b p, past⟩, σ) (⟨.attached b p', past⟩, σ')
  | stops {b : U64} {p : Party} {past : List (List U8 × List U8)} {σ : Shared} :
    p.call = none → WriterStep sizeofPtime (⟨.attached b p, past⟩, σ) (⟨.away, past⟩, σ)

abbrev WriterState := State Party Writers Shared

/-- A step of the server, which reads, or of the clients, which write. -/
abbrev WriterSystem (sizeofPtime bufferSize : U64) (x y : WriterState) : Prop :=
  Step (RingStep (Server.entity sizeofPtime 0 bufferSize).readBuffer .consumer)
    (WriterStep sizeofPtime) x y

namespace Writers

variable (c : Writers) (σ : Shared)

def written : ℕ := (c.past.map fun e => e.1.length).sum + (σ.moved .producer).length

def consumed : ℕ := (c.past.map fun e => e.2.length).sum + (σ.moved .consumer).length

end Writers

/-- No client is in `SetMemoryID`. -/
def Slot.Settled : Slot → Prop
  | .attaching _ => False
  | _ => True

/-- The server reads what the clients have written and nothing else. -/
structure ReadsWritten (r : Ring) (x : WriterState) : Prop where
  /-- The count it holds is of bytes written and not yet read. -/
  available : x.left.last.toNat + x.right.consumed x.shared ≤ x.right.written x.shared
  /-- What it has read since the ring was last emptied is what was written since. -/
  delivered : x.shared.moved .consumer <+: x.shared.moved .producer
  past : ∀ e ∈ x.right.past, e.2 <+: e.1
  cursors : x.right.slot.Settled → x.left.call = none →
    (∀ s b, (r.word x.shared.mem s b).toNat < r.cells)
      ∧ r.word x.shared.mem .consumer true = r.word x.shared.mem .consumer false
  empty : x.right.slot.Settled → x.left.call = none → x.right.slot.party.call = none →
    r.word x.shared.mem .producer true = r.word x.shared.mem .producer false
      ∧ ∃ n, r.buffer.numberOfBytesAvailableToRead 1 x.shared.mem = some n
        ∧ (x.shared.moved .consumer).length + n.toNat = (x.shared.moved .producer).length

/-! ## Attaches that keep out of the server's way -/

/-- Between calls, or in the retry loop of a count. -/
def Party.Waits (p : Party) : Prop :=
  match p.call with
  | none | some .loadSecond | some (.loadFirst _) => True
  | _ => False

/-- An attach has zeroed the producer's word and not yet the consumer's. -/
def Slot.HalfEmptied (sizeofPtime : U64) : Slot → Prop
  | .attaching (.storing b rest) =>
    let cb := (Client.entity sizeofPtime 0 b).writeBuffer
    (∀ w ∈ rest, w.address ≠ cb.producerPointer) ∧ ∃ w ∈ rest, w.address = cb.consumerPointer
  | _ => False

/-- The cell a side's cursor was last moved to. -/
def Ring.position (r : Ring) (σ : Shared) (s : Side) : ℕ := σ.advanced s % r.cells

/-- A step from `x` to `y` in which an attach and the server do not get into each other's way. -/
structure Orderly (L : Layout) (x y : WriterState) : Prop where
  /-- The ring is emptied while the server has no count in hand, or has both cursors at the first
  cell anyway. -/
  empties : y.right.past ≠ x.right.past →
    x.left.Waits ∨ ∀ s, (L.inbound 0).position x.shared s = 0
  /-- The retry loop is not left with the producer's word zeroed and the consumer's not, unless
  zero is ahead of the consumer. -/
  leaves : ∀ v, x.left.call = some (.loadFirst v) → y.left.call = some (.compare v) →
    x.right.slot.HalfEmptied L.sizeofPtime →
      (L.inbound 0).position x.shared .consumer = 0
        ∨ (L.inbound 0).position x.shared .producer < (L.inbound 0).position x.shared .consumer
  /-- A read is of bytes written since the ring was last emptied. -/
  reads : ∀ n, x.left.call = none → y.left.call = some (.span n) →
    x.shared.advanced .consumer + n.toNat ≤ x.shared.advanced .producer

def Writers.choose {sizeofPtime : U64} (now : Ptime sizeofPtime) :
    Visit → Writers × Shared → Option (Writers × Shared)
  | .opens, (⟨.away, past⟩, σ) => some (⟨.attaching .load, past⟩, σ)
  | .attach, (⟨.attaching a, past⟩, σ) =>
    (a.next now σ.mem).map fun q =>
      if a.Empties sizeofPtime then
        (⟨.attaching q.1, past ++ [(σ.moved .producer, σ.moved .consumer)]⟩, { mem := q.2 })
      else (⟨.attaching q.1, past⟩, { σ with mem := q.2 })
  | .returns, (⟨.attaching (.storing b []), past⟩, σ) => some (⟨.attached b {}, past⟩, σ)
  | .call ch, (⟨.attached b p, past⟩, σ) =>
    (Party.choose (Client.entity sizeofPtime 0 b).writeBuffer .producer ch (p, σ)).map fun q =>
      (⟨.attached b q.1, past⟩, q.2)
  | .stops, (⟨.attached _ p, past⟩, σ) => if p.call = none then some (⟨.away, past⟩, σ) else none
  | _, _ => none

/-- The state after a schedule, the server's choices on the left. -/
def WriterState.run {sizeofPtime : U64} (bufferSize : U64) (now : Ptime sizeofPtime)
    (x : WriterState) (schedule : List (Choice ⊕ Visit)) : Option WriterState :=
  x.play (Party.choose (Server.entity sizeofPtime 0 bufferSize).readBuffer .consumer)
    (Writers.choose now) schedule

section Decide

variable {L : Layout} {x y : WriterState}

instance (p : Party) : Decidable p.Waits := by
  unfold Party.Waits
  split <;> infer_instance

instance {sizeofPtime : U64} (s : Slot) : Decidable (s.HalfEmptied sizeofPtime) := by
  unfold Slot.HalfEmptied
  split <;> infer_instance

/-- The clauses of `Orderly`, each with the calls it is about looked up. -/
def Orderly.Check (L : Layout) (x y : WriterState) : Prop :=
  (y.right.past ≠ x.right.past → x.left.Waits
      ∨ (L.inbound 0).position x.shared .producer = 0
        ∧ (L.inbound 0).position x.shared .consumer = 0)
    ∧ (match x.left.call, y.left.call with
      | some (.loadFirst _), some (.compare _) => x.right.slot.HalfEmptied L.sizeofPtime →
        (L.inbound 0).position x.shared .consumer = 0
          ∨ (L.inbound 0).position x.shared .producer < (L.inbound 0).position x.shared .consumer
      | none, some (.span n) =>
        x.shared.advanced .consumer + n.toNat ≤ x.shared.advanced .producer
      | _, _ => True)

instance : Decidable (Orderly.Check L x y) := by
  unfold Orderly.Check
  refine @instDecidableAnd _ _ inferInstance ?_
  split <;> infer_instance

theorem Orderly.of_check (h : Orderly.Check L x y) : Orderly L x y := by
  obtain ⟨h1, h2⟩ := h
  refine ⟨fun hp => ?_, fun v hx hy hs => ?_, fun n hx hy => ?_⟩
  · rcases h1 hp with hw | ⟨hpos, hpos'⟩
    · exact .inl hw
    · exact .inr fun s => by cases s <;> assumption
  · rw [hx, hy] at h2
    exact h2 hs
  · rw [hx, hy] at h2
    exact h2

end Decide

/-- The state after a schedule whose steps are all orderly. -/
def WriterState.orderlyRun (L : Layout) (now : Ptime L.sizeofPtime) :
    List (Choice ⊕ Visit) → WriterState → Option WriterState
  | [], x => some x
  | i :: rest, x => (x.run L.bufferSize now [i]).bind fun y =>
    if Orderly.Check L x y then WriterState.orderlyRun L now rest y else none

/-- Every step of the run is orderly. -/
abbrev OrderlyReach (L : Layout) : WriterState → WriterState → Prop :=
  Relation.ReflTransGen fun x y => WriterSystem L.sizeofPtime L.bufferSize x y ∧ Orderly L x y

end MemMapIPC
