import MemMapIPC.Library.BoundedQueue
import MemMapIPC.Ring

/-!
# One ring in whole operations

Queries, writes and reads one after the other, none started before the last has returned, against
the queue they are for. `Op.exec` is the ring's code, `Op.apply` the queue's meaning of the same
operation, and a `Session` is a sequence of operations each within the count the ring itself
reports just before it.
-/

namespace MemMapIPC

inductive Op
  | free
  | available
  | write (dataSource : List U8)
  | read (numberOfBytes : U64)

inductive Reply
  | count (n : ℕ)
  | written
  | read (dataSink : List U8)

namespace Op

/-- The operation on the ring. A count that would go round its retry loop again gives `none`. -/
def exec (cb : CircularBuffer) : Op → Segment → Option (Reply × Segment)
  | free, m => (cb.numberOfBytesFreeToWrite 1 m).map fun n => (.count n.toNat, m)
  | available, m => (cb.numberOfBytesAvailableToRead 1 m).map fun n => (.count n.toNat, m)
  | write dataSource, m => (cb.writeData dataSource m).map fun m' => (.written, m')
  | read numberOfBytes, m => (cb.readData numberOfBytes m).map fun q => (.read q.1, q.2)

/-- A write of no more than the free count, a read of no more than the available one. -/
def Permitted (cb : CircularBuffer) (m : Segment) : Op → Prop
  | free | available => True
  | write dataSource => ∃ n, cb.numberOfBytesFreeToWrite 1 m = some n ∧ dataSource.length ≤ n.toNat
  | read numberOfBytes => ∃ n, cb.numberOfBytesAvailableToRead 1 m = some n ∧ numberOfBytes ≤ n

variable {capacity : ℕ}

/-- The operation on the queue, if it may be done there. -/
def apply : Op → BoundedQueue U8 capacity → Option (Reply × BoundedQueue U8 capacity)
  | free, q => some (.count q.free, q)
  | available, q => some (.count q.available, q)
  | write dataSource, q =>
    if h : dataSource.length ≤ q.free then some (.written, q.push dataSource h) else none
  | read numberOfBytes, q =>
    if numberOfBytes.toNat ≤ q.available then
      some (.read (q.contents.take numberOfBytes.toNat), q.pop numberOfBytes.toNat)
    else none

end Op

/-- A sequence of operations one after the other, and what each returned. -/
def runOps {σ : Type*} (f : Op → σ → Option (Reply × σ)) : List Op → σ → Option (List Reply × σ)
  | [], x => some ([], x)
  | op :: ops, x => do
    let (reply, x) ← f op x
    let (replies, x) ← runOps f ops x
    return (reply :: replies, x)

/-- Each operation is permitted where it is done. -/
def Session (cb : CircularBuffer) : List Op → Segment → Prop
  | [], _ => True
  | op :: ops, m =>
    op.Permitted cb m ∧ ∀ reply m', op.exec cb m = some (reply, m') → Session cb ops m'

/-- The ring's words and cells are those of the queue `q`. -/
structure Represents (r : Ring) (m : Segment) (q : BoundedQueue U8 (r.cells - 1)) : Prop where
  producer_second : r.word m .producer true = r.word m .producer false
  producer_lt : (r.word m .producer false).toNat < r.cells
  consumer_second : r.word m .consumer true = r.word m .consumer false
  consumer_lt : (r.word m .consumer false).toNat < r.cells
  length : (r.word m .producer false).toNat
    = ((r.word m .consumer false).toNat + q.available) % r.cells
  /-- The items are in the cells from the consumer's on. -/
  contents : ∀ i (h : i < q.contents.length),
    r.cell m (((r.word m .consumer false).toNat + i) % r.cells) = q.contents[i]

end MemMapIPC
