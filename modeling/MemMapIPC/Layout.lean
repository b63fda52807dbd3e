import MemMapIPC.Entity
import MemMapIPC.Ring

/-!
# The layout of a segment

The sizes `SetMemoryID` is given, where they leave both rings a data cell and the whole layout fits
in the address space. `inbound` and `outbound` are the server's names for the two rings.
-/

namespace MemMapIPC

open ByteMemory

/-- The bytes in front of the rings. -/
def headerSize (sizeofPtime : U64) : ℕ :=
  sizeofPtime.toNat * sizeofPtime.toNat + sizeofPtime.toNat + 72

structure Layout where
  sizeofPtime : U64
  bufferSize : U64
  sizeofPtime_pos : 0 < sizeofPtime
  reserve_lt : CircularBuffer.reserveSize < bufferSize
  fits : headerSize sizeofPtime + 2 * bufferSize.toNat ≤ 2 ^ 64

namespace Layout

variable (L : Layout) (address : U64)

def header : Header := Header.attach L.sizeofPtime address

/-- The client-to-server ring. -/
def inbound : Ring := ⟨(L.header address).bufferSize + sizeofU64, L.bufferSize, L.reserve_lt⟩

/-- The server-to-client ring. -/
def outbound : Ring :=
  ⟨(L.header address).bufferSize + sizeofU64 + L.bufferSize, L.bufferSize, L.reserve_lt⟩

def server : Entity := Server.entity L.sizeofPtime address L.bufferSize

def client : Entity := Client.entity L.sizeofPtime address L.bufferSize

end Layout

end MemMapIPC
