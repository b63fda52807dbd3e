import MemMapIPC.Program

/-!
# Programs made for each other

Two programs `Converses` where reads and writes meet in order, each write of one being met by the
other's read of as many bytes before either goes on, and neither waits for more than a ring can
hold, nor for more bytes than the message has that the other is at writing. `exchange` is not so
made: both processes write first, and only then read what the other wrote.
-/

namespace MemMapIPC

/-- The bytes either ring can hold. -/
def Layout.capacity (L : Layout) : ℕ := L.bufferSize.toNat - 33

/-- Two programs, one for each process, and what their calls leave in the buffers. Apart from waits
the calls come in pairs, a write by the one process and a read of as many bytes by the other. -/
inductive Converses (capacity : ℕ) : Program → Program → Log → Log → Prop
  | stop : Converses capacity .stop .stop [] []
  | swap {P Q : Program} {l l' : Log} : Converses capacity P Q l l' → Converses capacity Q P l' l
  | tell {buffer sink : Buffer} {next next' : List U8 → Program} {l l' : Log} :
    sink.1.length = buffer.1.length → Converses capacity (next buffer) (next' buffer) l l' →
      Converses capacity (.transfer .producer buffer next) (.transfer .consumer sink next')
        ((.producer, buffer) :: l) ((.consumer, buffer) :: l')
  /-- A wait for room to write. -/
  | space {n : U64} {P Q : Program} {l l' : Log} :
    n.toNat ≤ capacity → Converses capacity P Q l l' →
      Converses capacity (.await .producer n P) Q ((.producer, []) :: l) l'
  /-- A wait for bytes of what the other process is at writing, and for no more than these. -/
  | heed {n : U64} {P : Program} {buffer : Buffer} {next : List U8 → Program} {l l' : Log} :
    n.toNat ≤ capacity → n.toNat ≤ buffer.1.length →
      Converses capacity P (.transfer .producer buffer next) l l' →
        Converses capacity (.await .consumer n P) (.transfer .producer buffer next)
          ((.consumer, []) :: l) l'

/-- Each process writes its `data` and then reads into its `sink`. -/
def exchange (data sink : Process → Buffer) (p : Process) : Program :=
  .transfer .producer (data p) fun _ => .transfer .consumer (sink p) fun _ => .stop

end MemMapIPC
