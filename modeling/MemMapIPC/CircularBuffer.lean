import MemMapIPC.Library.ByteMemory

/-!
# The circular buffer

One ring in the shared segment: data cells followed by four cursor words, each cursor kept twice.
A process holds the ring's addresses in a `CircularBuffer`; the contents are in the segment. The
read and the write side do the same things to opposite cursors, so what they share is written once
with a `Side`, and each function of the source is that at its own side.

Addresses are offsets from where the process has mapped the segment, and wrap as pointers do.
-/

namespace MemMapIPC

open ByteMemory

abbrev U8 := Byte
abbrev U64 := BitVec 64

abbrev Segment := Memory 64

def Segment.loadWord (m : Segment) (p : U64) : U64 := BitVec.ofNat 64 (m.load p 8)

def Segment.storeWord (m : Segment) (p v : U64) : Segment := m.store p 8 v.toNat

def sizeofU64 : U64 := 8

inductive Side
  | producer
  | consumer
  deriving DecidableEq

def Side.peer : Side → Side
  | .producer => .consumer
  | .consumer => .producer

@[ext] structure CircularBuffer where
  buffer : U64
  bufferSize : U64
  effectiveBufferSize : U64
  bufferReservePointer : U64
  producerPointer : U64
  secondProducerPointer : U64
  consumerPointer : U64
  secondConsumerPointer : U64

namespace CircularBuffer

def reserveSize : U64 := 4 * sizeofU64

/-- The addresses both constructors compute. -/
def attach (bufferLocation bufferSize : U64) : CircularBuffer :=
  let reserve := bufferLocation + bufferSize - reserveSize
  { buffer := bufferLocation
    bufferSize := bufferSize
    effectiveBufferSize := bufferSize - reserveSize
    bufferReservePointer := reserve
    producerPointer := reserve + 0 * sizeofU64
    secondProducerPointer := reserve + 1 * sizeofU64
    consumerPointer := reserve + 2 * sizeofU64
    secondConsumerPointer := reserve + 3 * sizeofU64 }

/-- The read side's constructor only computes addresses. -/
def circularReadBuffer (bufferLocation bufferSize : U64) : CircularBuffer :=
  attach bufferLocation bufferSize

/-- What the write side's constructor stores: a zero in each of the four cursor words. -/
def clear (cb : CircularBuffer) (m : Segment) : Segment :=
  (((m.storeWord cb.producerPointer 0).storeWord cb.secondProducerPointer 0).storeWord
    cb.consumerPointer 0).storeWord cb.secondConsumerPointer 0

def circularWriteBuffer (bufferLocation bufferSize : U64) (m : Segment) :
    CircularBuffer × Segment :=
  let cb := attach bufferLocation bufferSize
  (cb, cb.clear m)

variable (cb : CircularBuffer)

/-- A side's cursor word, `second` for the copy of it. -/
def pointer : Side → (second : Bool) → U64
  | .producer, false => cb.producerPointer
  | .producer, true => cb.secondProducerPointer
  | .consumer, false => cb.consumerPointer
  | .consumer, true => cb.secondConsumerPointer

def memoryAddress (s : Side) (m : Segment) : U64 := cb.buffer + m.loadWord (cb.pointer s false)

def producerMemoryAddress (m : Segment) : U64 := cb.memoryAddress .producer m
def consumerMemoryAddress (m : Segment) : U64 := cb.memoryAddress .consumer m

/-- The new cursor value once it has gone off the end of the buffer; `none` is the division by
zero. -/
def wrap (newPointerValue : U64) : Option U64 :=
  if cb.effectiveBufferSize ≤ newPointerValue then
    if cb.effectiveBufferSize = 0 then none
    else some (newPointerValue % cb.effectiveBufferSize)
  else some newPointerValue

/-- Moves a side's cursor over `amount` cells, its first word before its second. -/
def advance (s : Side) (amount : U64) (m : Segment) : Option Segment := do
  let newPointerValue ← cb.wrap (m.loadWord (cb.pointer s false) + amount)
  let m := m.storeWord (cb.pointer s false) newPointerValue
  return m.storeWord (cb.pointer s true) newPointerValue

def advanceProducer (amount : U64) (m : Segment) : Option Segment := cb.advance .producer amount m
def advanceConsumer (amount : U64) (m : Segment) : Option Segment := cb.advance .consumer amount m

/-- The count's test of the peer's cursor against the side's own. -/
def ahead : Side → (nonvolatile own : U64) → Bool
  | .producer, nonvolatileConsumer, producer => nonvolatileConsumer > producer
  | .consumer, nonvolatileProducer, consumer => nonvolatileProducer ≥ consumer

/-- The count, by what the test said. -/
def difference : Side → Bool → (nonvolatile own : U64) → U64
  | .producer, true, nonvolatileConsumer, producer => nonvolatileConsumer - producer - 1
  | .producer, false, nonvolatileConsumer, producer =>
    nonvolatileConsumer + cb.effectiveBufferSize - producer - 1
  | .consumer, true, nonvolatileProducer, consumer => nonvolatileProducer - consumer
  | .consumer, false, nonvolatileProducer, consumer =>
    nonvolatileProducer + cb.effectiveBufferSize - consumer

/-- The retry loop of both counts, `fuel` rounds of it: the second word is loaded before the
first. -/
def nonvolatilePointer (s : Side) (m : Segment) : ℕ → Option U64
  | 0 => none
  | fuel + 1 =>
    let nonvolatile := m.loadWord (cb.pointer s true)
    let check := m.loadWord (cb.pointer s false)
    if nonvolatile ≠ check then nonvolatilePointer s m fuel else some nonvolatile

def count (s : Side) (fuel : ℕ) (m : Segment) : Option U64 := do
  let nonvolatile ← cb.nonvolatilePointer s.peer m fuel
  let own := m.loadWord (cb.pointer s false)
  return cb.difference s (ahead s nonvolatile own) nonvolatile own

def numberOfBytesFreeToWrite (fuel : ℕ) (m : Segment) : Option U64 := cb.count .producer fuel m
def numberOfBytesAvailableToRead (fuel : ℕ) (m : Segment) : Option U64 := cb.count .consumer fuel m

/-- How much a side can copy before its cursor is off the end. -/
def numberOfBytesBeforeWraparound : Side → (own : U64) → U64
  | .producer, producer => cb.effectiveBufferSize - producer
  | .consumer, consumer => cb.bufferSize - consumer - reserveSize

def writeData (dataSource : List U8) (m : Segment) : Option Segment :=
  let numberOfBytes := BitVec.ofNat 64 dataSource.length
  let before := cb.numberOfBytesBeforeWraparound .producer (m.loadWord cb.producerPointer)
  if before ≥ numberOfBytes then
    cb.advanceProducer numberOfBytes (m.write (cb.producerMemoryAddress m) dataSource)
  else do
    let m ← cb.advanceProducer before
      (m.write (cb.producerMemoryAddress m) (dataSource.take before.toNat))
    cb.advanceProducer (numberOfBytes - before)
      (m.write (cb.producerMemoryAddress m) (dataSource.drop before.toNat))

def readData (numberOfBytes : U64) (m : Segment) : Option (List U8 × Segment) :=
  let before := cb.numberOfBytesBeforeWraparound .consumer (m.loadWord cb.consumerPointer)
  if before ≥ numberOfBytes then do
    let dataSink := m.read (cb.consumerMemoryAddress m) numberOfBytes.toNat
    return (dataSink, ← cb.advanceConsumer numberOfBytes m)
  else do
    let dataSink := m.read (cb.consumerMemoryAddress m) before.toNat
    let m ← cb.advanceConsumer before m
    let rest := m.read (cb.consumerMemoryAddress m) (numberOfBytes - before).toNat
    return (dataSink ++ rest, ← cb.advanceConsumer (numberOfBytes - before) m)

end CircularBuffer

end MemMapIPC
