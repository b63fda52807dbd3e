import MemMapIPC.Conversation
import MemMapIPC.Library.ByteMemory

/-!
# The threads of the tests

In the one-way tests one thread writes the same chunk again and again and the other reads it. In the
emulation tests a thread asks for transfers of the sizes that `rand` gives, each with a package that
has the size in its first eight bytes, and the other makes them.
-/

namespace MemMapIPC

open ByteMemory

/-! ## One way -/

/-- `producerData`, where `producerData[i] = (U8)i`. -/
def producerData (chunkSize : U64) : Buffer :=
  ⟨(List.range chunkSize.toNat).map fun i => BitVec.ofNat 8 i, by simpa using chunkSize.isLt⟩

/-- `ServerThreadProducerVerifyMethod` and `ClientThreadProducerVerifyMethod`, which write so many
chunks, fewer than `2 ^ 31` as they are counted in a 32-bit `long`. Where a call returns false they
go on, the test having failed, and the program does not. -/
def producerVerifyMethod (chunkSize : U64) : ℕ → Program
  | 0 => .stop
  | n + 1 => .transfer .producer (producerData chunkSize) fun _ => producerVerifyMethod chunkSize n

/-- `ServerThreadConsumerVerifyMethod` and `ClientThreadConsumerVerifyMethod`. A read overwrites all
of `simulatedBuffer`. -/
def consumerVerifyMethod (simulatedBuffer : Buffer) : ℕ → Program
  | 0 => .stop
  | n + 1 => .transfer .consumer simulatedBuffer fun _ => consumerVerifyMethod simulatedBuffer n

/-- Process `p` produces, and the other consumes. -/
def oneWay (p : Process) (chunkSize : U64) (simulatedBuffer : Buffer) (chunks : ℕ) :
    Process → Program :=
  fun q => if q = p then producerVerifyMethod chunkSize chunks
    else consumerVerifyMethod simulatedBuffer chunks

/-! ## Emulation -/

/-- `TEST_ES_BUFFER_SIZE` -/
def testEsBufferSize : ℕ := 16 * 1024 * 1024

/-- `INITIAL_PACKAGE_SIZE` -/
def initialPackageSize : U64 := 8 * 1024

/-- `NUMBER_OF_TEST_TRANSFERS` -/
def numberOfTestTransfers : ℕ := 500

/-- `rand() % TEST_ES_BUFFER_SIZE`, the macro being `16*1024*1024` with no brackets around it. -/
def testSize (rand : ℕ) : ℕ := rand % 16 * 1024 * 1024

abbrev EsBuffer := { l : List U8 // l.length = testEsBufferSize }

namespace EsBuffer

def zeros : EsBuffer := ⟨List.replicate testEsBufferSize 0, List.length_replicate⟩

variable (buffer : EsBuffer)

/-- Its first `n` bytes, for a call to write or to read into. -/
def front (n : ℕ) : Buffer :=
  ⟨buffer.1.take n, ((List.length_take_le' _ _).trans_eq buffer.2).trans_lt (by decide)⟩

/-- With `l` at its front. -/
def fill (l : List U8) : EsBuffer :=
  ⟨(l ++ buffer.1.drop l.length).take testEsBufferSize, by
    have hlen := buffer.2
    rw [List.length_take, List.length_append, List.length_drop]
    omega⟩

/-- `*((U64 *)buffer) = testSize` -/
def storeSize (testSize : ℕ) : EsBuffer := buffer.fill (toBytes 8 testSize)

/-- `*((U64*) buffer)` -/
def loadSize : ℕ := ofBytes (buffer.1.take 8)

end EsBuffer

/-- The thread that asks, and is at side `s` of the transfers it asks for. -/
def snareThread (s : Side) : List ℕ → EsBuffer → Program
  | [], _ => .stop
  | rand :: rands, buffer =>
    let buffer := buffer.storeSize (testSize rand)
    .transfer .producer (buffer.front initialPackageSize.toNat) fun _ =>
      .transfer s (buffer.front (testSize rand)) fun l => snareThread s rands (buffer.fill l)

/-- The thread that is asked, and is at side `s` of the transfers. -/
def esThread (s : Side) : ℕ → EsBuffer → Program
  | 0, _ => .stop
  | transfers + 1, buffer =>
    .await .consumer initialPackageSize <|
      .transfer .consumer (buffer.front initialPackageSize.toNat) fun l =>
        let buffer := buffer.fill l
        let transferSize := buffer.loadSize
        if transferSize > testEsBufferSize then .stop
        else .transfer s (buffer.front transferSize) fun l => esThread s transfers (buffer.fill l)

def simpleWriteCommandSnareThread (rands : List ℕ) : Program := snareThread .producer rands .zeros

/-- Its buffer is not initialised. -/
def simpleWriteCommandEsThread (buffer : EsBuffer) : Program :=
  esThread .consumer numberOfTestTransfers buffer

def simpleReadCommandSnareThread (rands : List ℕ) : Program := snareThread .consumer rands .zeros

def simpleReadCommandEsThread : Program := esThread .producer numberOfTestTransfers .zeros

/-- `_tmain` of `TestOpenEvent.exe` -/
def tmain : Program := esThread .producer numberOfTestTransfers .zeros

/-- The client asks for so many transfers as the server is to make. -/
def emulation (s : Side) (rands : List ℕ) (buffer buffer' : EsBuffer) : Process → Program
  | .server => esThread s.peer rands.length buffer'
  | .client => snareThread s rands buffer

end MemMapIPC
