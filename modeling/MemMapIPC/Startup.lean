import MemMapIPC.Layout
import MemMapIPC.Library.Interleaving

/-!
# A client attaching while the server starts up

The segment can be opened as soon as it has been created, full of zeros, so `cClient::SetMemoryID`
may run between any two stores of the rest of `cServer::SetMemoryID`. Each side is the list of the
stores it has still to make; the client's is known once it has loaded the buffer size.
-/

namespace MemMapIPC

open ByteMemory Interleaving

structure Store where
  address : U64
  bytes : List U8

namespace Store

def word (p v : U64) : Store := ⟨p, toBytes 8 v.toNat⟩

def apply (m : Segment) (w : Store) : Segment := m.write w.address w.bytes

def applyAll (m : Segment) (l : List Store) : Segment := l.foldl apply m

end Store

/-- The stores of the write side's constructor. -/
def CircularBuffer.clearing (cb : CircularBuffer) : List Store :=
  [.word cb.producerPointer 0, .word cb.secondProducerPointer 0, .word cb.consumerPointer 0,
    .word cb.secondConsumerPointer 0]

namespace Server

variable {sizeofPtime : U64} (bufferSize : U64) (now : Ptime sizeofPtime)

/-- The first `memset`, a byte at a time. -/
def clearing (sizeofPtime : U64) : List Store :=
  (List.range (requestedSize sizeofPtime bufferSize).toNat).map fun i => ⟨BitVec.ofNat 64 i, [0]⟩

def sizeStore (sizeofPtime : U64) : Store :=
  .word (Header.attach sizeofPtime 0).bufferSize bufferSize

/-- What comes after the store of the buffer size. -/
def setup : List Store :=
  let e := entity sizeofPtime 0 bufferSize
  e.writeBuffer.clearing ++ [⟨e.serverTimestamp, now.1⟩]

/-- The stores of `SetMemoryID`, in order. -/
def stores : List Store :=
  clearing bufferSize sizeofPtime ++ sizeStore bufferSize sizeofPtime :: setup bufferSize now

end Server

/-- The stores of `SetMemoryID` once it has loaded `bufferSize`. -/
def Client.stores {sizeofPtime : U64} (bufferSize : U64) (now : Ptime sizeofPtime) : List Store :=
  let e := entity sizeofPtime 0 bufferSize
  e.writeBuffer.clearing ++ [⟨e.clientTimestamp, now.1⟩]

/-- Where a client is in `SetMemoryID`: at the load of the buffer size, or past it with the size it
loaded. -/
inductive Attach
  | load
  | storing (bufferSize : U64) (rest : List Store)

inductive ServerInit : List Store × Segment → List Store × Segment → Prop
  | store {w : Store} {rest : List Store} {m : Segment} :
    ServerInit (w :: rest, m) (rest, w.apply m)

inductive ClientInit {sizeofPtime : U64} (now : Ptime sizeofPtime) :
    Attach × Segment → Attach × Segment → Prop
  | load {m : Segment} {b : U64} : b = m.loadWord (Header.attach sizeofPtime 0).bufferSize →
    ClientInit now (.load, m) (.storing b (Client.stores b now), m)
  | store {b : U64} {w : Store} {rest : List Store} {m : Segment} :
    ClientInit now (.storing b (w :: rest), m) (.storing b rest, w.apply m)

abbrev InitState := State (List Store) Attach Segment

namespace Layout

variable (L : Layout) (now now' : Ptime L.sizeofPtime)

/-- The segment just created, neither side having stored anything. -/
def initStart : InitState := ⟨Server.stores L.bufferSize now, .load, fun _ => 0⟩

abbrev InitReach (x y : InitState) : Prop := Reach ServerInit (ClientInit now') x y

/-- What both sides are left with once both calls have returned, the client having loaded `b`. -/
structure AttachedSafely (b : U64) (m : Segment) : Prop where
  bufferSize : b = L.bufferSize
  /-- The client's rings are the server's, the other way round. -/
  rings : (Client.entity L.sizeofPtime 0 b).readBuffer = (L.server 0).writeBuffer
    ∧ (Client.entity L.sizeofPtime 0 b).writeBuffer = (L.server 0).readBuffer
  /-- The client has stored in its timestamp and in the words of its own write ring only. -/
  stores : ∀ w ∈ Client.stores b now', ∀ i < w.bytes.length,
    (⟨(L.header 0).clientTimestamp, L.sizeofPtime.toNat⟩ : Region 64).Holds
        (w.address + BitVec.ofNat 64 i)
      ∨ (L.inbound 0).buffer.controlWords.Holds (w.address + BitVec.ofNat 64 i)
  kept : m.loadWord (L.header 0).bufferSize = L.bufferSize
  inbound_empty : ∀ s c, (L.inbound 0).word m s c = 0
  outbound_empty : ∀ s c, (L.outbound 0).word m s c = 0

end Layout

/-- The bundled timestamps, and two pages for each ring. -/
def bundledLayout : Layout := ⟨8, 8192, by decide, by decide, by decide⟩

end MemMapIPC
