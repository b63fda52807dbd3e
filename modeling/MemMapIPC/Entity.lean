import MemMapIPC.CircularBuffer
import MemMapIPC.Library.Region

/-!
# The two ends of a segment

Where `SetMemoryID` puts things in the segment, and what it stores there. A pointer is advanced in
units of what it points to, so a timestamp pointer moves by `sizeof(ptime)` times what is added to
it. `address` is where the process has mapped the segment.
-/

namespace MemMapIPC

open ByteMemory

/-- `p + n`, where `p` points to elements of `size` bytes. -/
def pointerAdd (size p n : U64) : U64 := p + n * size

def sizeofChar : U64 := 1

def Ptime (sizeofPtime : U64) : Type := { bytes : List U8 // bytes.length = sizeofPtime.toNat }

def Ptime.zero (sizeofPtime : U64) : Ptime sizeofPtime :=
  ⟨List.replicate sizeofPtime.toNat 0, List.length_replicate⟩

/-- The segment as a process sees it that has mapped it at `address`. -/
def Segment.mapped (m : Segment) (address : U64) : Segment := fun p => m (p - address)

def Segment.memset (m : Segment) (p n : U64) : Segment := m.write p (List.replicate n.toNat 0)

namespace CircularBuffer

variable (cb : CircularBuffer)

/-- Its addresses from where the segment is mapped. -/
def relative (address : U64) : CircularBuffer :=
  { cb with
    buffer := cb.buffer - address
    bufferReservePointer := cb.bufferReservePointer - address
    producerPointer := cb.producerPointer - address
    secondProducerPointer := cb.secondProducerPointer - address
    consumerPointer := cb.consumerPointer - address
    secondConsumerPointer := cb.secondConsumerPointer - address }

def cells : Region 64 := ⟨cb.buffer, cb.effectiveBufferSize.toNat⟩

def controlWords : Region 64 := ⟨cb.producerPointer, reserveSize.toNat⟩

end CircularBuffer

/-- What every entity points at in front of the rings. -/
@[ext] structure Header where
  serverTimestamp : U64
  clientTimestamp : U64
  key : U64
  bufferSize : U64

structure Entity extends Header where
  readBuffer : CircularBuffer
  writeBuffer : CircularBuffer

namespace Header

def keySizeInBytes : U64 := 64

/-- The pointers as all three `SetMemoryID`s compute them. -/
def attach (sizeofPtime address : U64) : Header :=
  let serverTimestamp := address
  let clientTimestamp := pointerAdd sizeofPtime serverTimestamp sizeofPtime
  let key := pointerAdd sizeofChar clientTimestamp sizeofPtime
  let bufferSize := pointerAdd sizeofChar key (keySizeInBytes * sizeofChar)
  { serverTimestamp, clientTimestamp, key, bufferSize }

/-- Its addresses from where the segment is mapped. -/
def relative (h : Header) (address : U64) : Header :=
  ⟨h.serverTimestamp - address, h.clientTimestamp - address, h.key - address,
    h.bufferSize - address⟩

end Header

namespace Entity

/-- The room for two timestamps, the key and the size. -/
def reserveSize (sizeofPtime : U64) : U64 :=
  2 * sizeofPtime + Header.keySizeInBytes * sizeofChar + sizeofU64

/-- All an entity and its two rings read and write. -/
def regions (sizeofPtime : U64) (e : Entity) : List (Region 64) :=
  [⟨e.serverTimestamp, sizeofPtime.toNat⟩, ⟨e.clientTimestamp, sizeofPtime.toNat⟩,
    ⟨e.key, (Header.keySizeInBytes * sizeofChar).toNat⟩, ⟨e.bufferSize, sizeofU64.toNat⟩,
    e.readBuffer.cells, e.readBuffer.controlWords, e.writeBuffer.cells, e.writeBuffer.controlWords]

end Entity

namespace Server

def updateTimestamp {sizeofPtime : U64} (h : Header) (now : Ptime sizeofPtime) (m : Segment) :
    Segment :=
  m.write h.serverTimestamp now.1

/-- The size of the segment it creates. -/
def requestedSize (sizeofPtime bufferSize : U64) : U64 :=
  bufferSize * 2 + Entity.reserveSize sizeofPtime

/-- The pointers `SetMemoryID` sets up. -/
def entity (sizeofPtime address bufferSize : U64) : Entity :=
  let h := Header.attach sizeofPtime address
  let inboundBufferAddress := h.bufferSize + sizeofU64
  let outboundBufferAddress := inboundBufferAddress + bufferSize
  { h with
    readBuffer := CircularBuffer.attach inboundBufferAddress bufferSize
    writeBuffer := CircularBuffer.attach outboundBufferAddress bufferSize }

/-- `SetMemoryID` from where the segment is created and mapped. -/
def setMemoryID {sizeofPtime : U64} (address bufferSize : U64) (now : Ptime sizeofPtime)
    (m : Segment) : Entity × Segment :=
  let m := m.memset address (requestedSize sizeofPtime bufferSize)
  let h := Header.attach sizeofPtime address
  let m := m.storeWord h.bufferSize bufferSize
  let inboundBufferAddress := h.bufferSize + sizeofU64
  let outboundBufferAddress := inboundBufferAddress + bufferSize
  let readBuffer := CircularBuffer.circularReadBuffer inboundBufferAddress bufferSize
  let (writeBuffer, m) := CircularBuffer.circularWriteBuffer outboundBufferAddress bufferSize m
  ({ h with readBuffer, writeBuffer }, updateTimestamp h now m)

end Server

namespace Client

def updateTimestamp {sizeofPtime : U64} (h : Header) (now : Ptime sizeofPtime) (m : Segment) :
    Segment :=
  m.write h.clientTimestamp now.1

/-- The pointers `SetMemoryID` sets up, having loaded `bufferSize`. -/
def entity (sizeofPtime address bufferSize : U64) : Entity :=
  let h := Header.attach sizeofPtime address
  let outboundBufferAddress := h.bufferSize + sizeofU64
  let inboundBufferAddress := outboundBufferAddress + bufferSize
  { h with
    readBuffer := CircularBuffer.attach inboundBufferAddress bufferSize
    writeBuffer := CircularBuffer.attach outboundBufferAddress bufferSize }

/-- `SetMemoryID` from where the segment is opened and mapped. -/
def setMemoryID {sizeofPtime : U64} (address : U64) (now : Ptime sizeofPtime) (m : Segment) :
    Entity × Segment :=
  let h := Header.attach sizeofPtime address
  let bufferSize := m.loadWord h.bufferSize
  let outboundBufferAddress := h.bufferSize + sizeofU64
  let inboundBufferAddress := outboundBufferAddress + bufferSize
  let readBuffer := CircularBuffer.circularReadBuffer inboundBufferAddress bufferSize
  let (writeBuffer, m) := CircularBuffer.circularWriteBuffer outboundBufferAddress bufferSize m
  ({ h with readBuffer, writeBuffer }, updateTimestamp h now m)

end Client

theorem Server.setMemoryID_fst {sizeofPtime : U64} (address bufferSize : U64)
    (now : Ptime sizeofPtime) (m : Segment) :
    (Server.setMemoryID address bufferSize now m).1
      = Server.entity sizeofPtime address bufferSize :=
  rfl

theorem Client.setMemoryID_fst {sizeofPtime : U64} (address : U64) (now : Ptime sizeofPtime)
    (m : Segment) : (Client.setMemoryID address now m).1 = Client.entity sizeofPtime address
      (m.loadWord (Header.attach sizeofPtime address).bufferSize) :=
  rfl

/-- Every byte the entity uses is in the segment asked for, and the first `memset` clears it. -/
def Entity.Inside (sizeofPtime bufferSize : U64) (e : Entity) : Prop :=
  ∀ R ∈ e.regions sizeofPtime, ∀ a, R.Holds a →
    a < Server.requestedSize sizeofPtime bufferSize
      ∧ ∀ m : Segment, m.memset 0 (Server.requestedSize sizeofPtime bufferSize) a = 0

/-- Neither a server given `bufferSize` nor a client that finds it there leaves the segment. -/
def StaysInside (sizeofPtime bufferSize : U64) : Prop :=
  (∀ (now : Ptime sizeofPtime) (m : Segment),
      (Server.setMemoryID 0 bufferSize now m).1.Inside sizeofPtime bufferSize)
    ∧ ∀ (now : Ptime sizeofPtime) (m : Segment),
      m.loadWord (Header.attach sizeofPtime 0).bufferSize = bufferSize →
        (Client.setMemoryID 0 now m).1.Inside sizeofPtime bufferSize

namespace Observer

/-- `SetMemoryID` from where the segment is opened and mapped; it stores nothing. -/
def setMemoryID (sizeofPtime address : U64) : Header := Header.attach sizeofPtime address

end Observer

end MemMapIPC
