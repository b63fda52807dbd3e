import MemMapIPC.Layout
import MemMapIPC.Proofs.Fifo

/-!
# Where things are in the segment

Every pointer of an entity is an offset from where its process has mapped the segment, the same
offset for every process (`Header.attach_eq`, `Layout.inbound_eq`, `Layout.outbound_eq`), so what
the server has stored at one is what a client loads there.
-/

namespace MemMapIPC

open ByteMemory

section Offsets

variable (s b address : U64)

theorem Header.attach_eq : Header.attach s address
    = { serverTimestamp := address + BitVec.ofNat 64 0
        clientTimestamp := address + BitVec.ofNat 64 (s.toNat * s.toNat)
        key := address + BitVec.ofNat 64 (s.toNat * s.toNat + s.toNat)
        bufferSize := address + BitVec.ofNat 64 (s.toNat * s.toNat + s.toNat + 64) } := by
  have hs : BitVec.ofNat 64 s.toNat = s := by rw [BitVec.ofNat_toNat, BitVec.setWidth_eq]
  have h64 : BitVec.ofNat 64 64 = Header.keySizeInBytes := rfl
  have h0 : BitVec.ofNat 64 0 = 0 := rfl
  have h1 : sizeofChar = 1 := rfl
  ext1 <;>
    simp only [Header.attach, pointerAdd, BitVec.ofNat_add, BitVec.ofNat_mul, hs, h64, h0, h1] <;>
    ring

theorem Header.relative_attach :
    (Header.attach s address).relative address = Header.attach s 0 := by
  ext1 <;> simp only [Header.relative, Header.attach, pointerAdd] <;> ring

theorem CircularBuffer.relative_attach (x : U64) :
    (CircularBuffer.attach (address + x) b).relative address = CircularBuffer.attach x b := by
  ext1 <;> simp only [CircularBuffer.relative, CircularBuffer.attach] <;> ring

theorem sizeofU64_eq : sizeofU64 = BitVec.ofNat 64 8 := rfl

theorem rings_eq : (Header.attach s address).bufferSize + sizeofU64
    = address + BitVec.ofNat 64 (headerSize s) := by
  rw [Header.attach_eq, sizeofU64_eq, BitVec.add_assoc, ← BitVec.ofNat_add, headerSize]

variable {s b}

theorem toNat_requestedSize : (Server.requestedSize s b).toNat
    = (2 * b.toNat + 2 * s.toNat + 72) % 2 ^ 64 := by
  have h : Entity.reserveSize s = 2 * s + 72 := by
    simp only [Entity.reserveSize, Header.keySizeInBytes, sizeofChar, sizeofU64]
    ring
  rw [Server.requestedSize, h, BitVec.toNat_add, BitVec.toNat_mul, BitVec.toNat_add,
    BitVec.toNat_mul]
  have h2 : (2 : U64).toNat = 2 := rfl
  have h72 : (72 : U64).toNat = 72 := rfl
  rw [h2, h72]
  omega

/-- A ring takes up every byte from its location to its size past it. -/
theorem Ring.regions_cover (r : Ring) {x y : ℕ} (hr : r.location = address + BitVec.ofNat 64 x)
    (hlo : x ≤ y) (hhi : y < x + r.size.toNat) (hy : y < 2 ^ 64) :
    r.buffer.cells.Holds (address + BitVec.ofNat 64 y)
      ∨ r.buffer.controlWords.Holds (address + BitVec.ofNat 64 y) := by
  have hsize := r.size_eq
  rcases Nat.lt_or_ge y (x + r.cells) with h | h
  · refine .inl ?_
    rw [CircularBuffer.cells, r.toNat_effectiveBufferSize, r.buffer_buffer, hr]
    exact Region.holds_of_le hlo h hy
  · refine .inr ?_
    have hp : r.buffer.producerPointer = address + BitVec.ofNat 64 (x + r.cells) := by
      rw [BitVec.ofNat_add, ← BitVec.add_assoc, ← hr]
      exact r.pointer_eq .producer false
    rw [CircularBuffer.controlWords, hp, Ring.toNat_reserveSize]
    exact Region.holds_of_le h (by omega) hy

/-- The server's two rings take up every byte from the header to the end of the layout. -/
theorem Server.regions_cover (hb : CircularBuffer.reserveSize < b) (now : Ptime s) (m : Segment)
    {y : ℕ} (hlo : headerSize s ≤ y) (hhi : y < headerSize s + 2 * b.toNat) (hy : y < 2 ^ 64) :
    ∃ R ∈ (Server.setMemoryID address b now m).1.regions s,
      R.Holds (address + BitVec.ofNat 64 y) := by
  have hofb : BitVec.ofNat 64 b.toNat = b := by rw [BitVec.ofNat_toNat, BitVec.setWidth_eq]
  rcases Nat.lt_or_ge y (headerSize s + b.toNat) with h | h
  · rcases Ring.regions_cover address ⟨_, b, hb⟩ (rings_eq s address) hlo h hy with hR | hR
    · exact ⟨_, List.mem_of_getElem? (i := 4) rfl, hR⟩
    · exact ⟨_, List.mem_of_getElem? (i := 5) rfl, hR⟩
  · have hout : (Header.attach s address).bufferSize + sizeofU64 + b
        = address + BitVec.ofNat 64 (headerSize s + b.toNat) := by
      rw [rings_eq, BitVec.add_assoc, BitVec.ofNat_add, hofb]
    rcases Ring.regions_cover address ⟨_, b, hb⟩ hout h (by simp only; omega) hy with hR | hR
    · exact ⟨_, List.mem_of_getElem? (i := 6) rfl, hR⟩
    · exact ⟨_, List.mem_of_getElem? (i := 7) rfl, hR⟩

/-- With a timestamp of two bytes or more the client's is placed past where it was counted. -/
theorem not_staysInside (hs : 2 ≤ s.toNat) (hfit : headerSize s < 2 ^ 64)
    (hb : CircularBuffer.reserveSize < b) : ¬StaysInside s b := by
  rintro ⟨hserver, -⟩
  have hb' := hb
  rw [BitVec.lt_def, Ring.toNat_reserveSize] at hb'
  have hreq := toNat_requestedSize (s := s) (b := b)
  have hsq : 2 * s.toNat ≤ s.toNat * s.toNat := Nat.mul_le_mul_right _ hs
  obtain ⟨y, hlo, hhi, hy, hge⟩ : ∃ y, headerSize s ≤ y ∧ y < headerSize s + 2 * b.toNat
      ∧ y < 2 ^ 64 ∧ (Server.requestedSize s b).toNat ≤ y := by
    rcases Nat.lt_or_ge (2 ^ 64) (headerSize s + 2 * b.toNat) with h | h
    · exact ⟨2 ^ 64 - 1, by omega, by omega, by omega,
        Nat.le_sub_one_of_lt (Server.requestedSize s b).isLt⟩
    · refine ⟨headerSize s + 2 * b.toNat - 1, by omega, by omega, by omega, ?_⟩
      rw [headerSize] at h ⊢
      omega
  obtain ⟨R, hR, hholds⟩ := Server.regions_cover 0 hb (.zero s) (fun _ => 0) hlo hhi hy
  have hlt := (hserver (.zero s) (fun _ => 0) R hR _ hholds).1
  rw [zero_add, BitVec.lt_def, BitVec.toNat_ofNat, Nat.mod_eq_of_lt hy] at hlt
  omega

end Offsets

/-- With the bundled timestamp of eight bytes no buffer size keeps the server inside. -/
theorem layout_overruns (bufferSize : U64) (h : CircularBuffer.reserveSize < bufferSize) :
    ¬StaysInside 8 bufferSize :=
  not_staysInside (by decide) (by decide) h

theorem layout_overruns_least : ¬StaysInside 8 33 :=
  layout_overruns 33 (by decide)

theorem layout_overruns_page :
    ¬∀ bufferSize : U64, CircularBuffer.reserveSize < bufferSize → StaysInside 8 bufferSize :=
  fun h => not_staysInside (by decide) (by decide) (by decide) (h 8192 (by decide))

/-! ## The two ends of one layout -/

section Ends

variable (L : Layout) (address : U64)

namespace Layout

theorem header_eq : L.header address
    = { serverTimestamp := address + BitVec.ofNat 64 0
        clientTimestamp := address + BitVec.ofNat 64 (L.sizeofPtime.toNat * L.sizeofPtime.toNat)
        key := address
          + BitVec.ofNat 64 (L.sizeofPtime.toNat * L.sizeofPtime.toNat + L.sizeofPtime.toNat)
        bufferSize := address + BitVec.ofNat 64 (headerSize L.sizeofPtime - 8) } :=
  Header.attach_eq _ _

theorem inbound_eq : (L.inbound address).location
    = address + BitVec.ofNat 64 (headerSize L.sizeofPtime) :=
  rings_eq _ _

theorem outbound_eq : (L.outbound address).location
    = address + BitVec.ofNat 64 (headerSize L.sizeofPtime + L.bufferSize.toNat) := by
  rw [BitVec.ofNat_add, ← BitVec.add_assoc, ← inbound_eq, BitVec.ofNat_toNat, BitVec.setWidth_eq]
  rfl

theorem bufferSize_gt : 32 < L.bufferSize.toNat := by
  have h := L.reserve_lt
  rwa [BitVec.lt_def, Ring.toNat_reserveSize] at h

end Layout

theorem Ring.regions_eq (r : Ring) {x : ℕ} (hr : r.location = address + BitVec.ofNat 64 x) :
    r.buffer.cells = ⟨address + BitVec.ofNat 64 x, r.cells⟩
      ∧ r.buffer.controlWords = ⟨address + BitVec.ofNat 64 (x + r.cells), 32⟩ := by
  have hp : r.buffer.producerPointer = address + BitVec.ofNat 64 (x + r.cells) := by
    rw [BitVec.ofNat_add, ← BitVec.add_assoc, ← hr]
    exact r.pointer_eq .producer false
  rw [CircularBuffer.cells, CircularBuffer.controlWords, r.toNat_effectiveBufferSize, hp,
    r.buffer_buffer, hr, Ring.toNat_reserveSize]
  exact ⟨rfl, rfl⟩

/-- The eight regions by offset, in the order they lie in the segment. -/
def Layout.offsets (L : Layout) : List (ℕ × ℕ) :=
  let s := L.sizeofPtime.toNat
  let b := L.bufferSize.toNat
  let h := headerSize L.sizeofPtime
  [(0, s), (s * s, s), (s * s + s, 64), (h - 8, 8), (h, b - 32), (h + (b - 32), 32),
    (h + b, b - 32), (h + b + (b - 32), 32)]

theorem Layout.regions_disjoint :
    (L.offsets.map fun p => (⟨address + BitVec.ofNat 64 p.1, p.2⟩ : Region 64)).Pairwise
      Region.Disjoint := by
  have hfit := L.fits
  have hb := L.bufferSize_gt
  have hs := L.sizeofPtime_pos
  rw [BitVec.lt_def] at hs
  have h0 : (0 : U64).toNat = 0 := rfl
  have hsq : L.sizeofPtime.toNat ≤ L.sizeofPtime.toNat * L.sizeofPtime.toNat :=
    Nat.le_mul_of_pos_left _ (by omega)
  refine Region.pairwise_disjoint ?_ ?_
  · simp only [Layout.offsets, headerSize, List.pairwise_cons, List.mem_cons, List.not_mem_nil,
      or_false, forall_eq_or_imp, forall_eq, List.Pairwise.nil, false_imp_iff, implies_true,
      and_true] at hfit ⊢
    omega
  · simp only [Layout.offsets, headerSize, List.mem_cons, List.not_mem_nil, or_false,
      forall_eq_or_imp, forall_eq] at hfit ⊢
    omega

/-- The server reads where the client writes, and writes where it reads. -/
theorem Layout.server_rings : (L.server address).readBuffer = (L.inbound address).buffer
    ∧ (L.server address).writeBuffer = (L.outbound address).buffer := ⟨rfl, rfl⟩

theorem Layout.client_rings : (L.client address).readBuffer = (L.outbound address).buffer
    ∧ (L.client address).writeBuffer = (L.inbound address).buffer := ⟨rfl, rfl⟩

theorem Layout.server_regions : (L.server address).regions L.sizeofPtime
    = L.offsets.map fun p => ⟨address + BitVec.ofNat 64 p.1, p.2⟩ := by
  have hin := Ring.regions_eq address (L.inbound address) (L.inbound_eq address)
  have hout := Ring.regions_eq address (L.outbound address) (L.outbound_eq address)
  have hheader : (L.server address).toHeader = L.header address := rfl
  simp only [Entity.regions, L.server_rings, hheader, hin, hout, L.header_eq]
  rfl

theorem Layout.client_regions : ((L.client address).regions L.sizeofPtime).Perm
    ((L.server address).regions L.sizeofPtime) := by
  have h : ∀ x y : CircularBuffer, ([x.cells, x.controlWords] ++ [y.cells, y.controlWords]).Perm
      ([y.cells, y.controlWords] ++ [x.cells, x.controlWords]) := fun _ _ => List.perm_append_comm
  have hp := h (L.outbound address).buffer (L.inbound address).buffer
  exact List.Perm.append_left (((L.server address).regions L.sizeofPtime).take 4) hp

theorem loadWord_mapped (m : Segment) (p : U64) :
    (m.mapped address).loadWord p = m.loadWord (p - address) := by
  have h : ∀ i, p + BitVec.ofNat 64 i - address = p - address + BitVec.ofNat 64 i :=
    fun i => by ring
  simp only [Segment.loadWord, Memory.load, Memory.read, Segment.mapped, h]

/-- The write side's constructor stores in its own ring only. -/
theorem Ring.loadWord_clear (r : Ring) (m : Segment) {x z : ℕ}
    (hr : r.location = address + BitVec.ofNat 64 x) (hx : x + r.size.toNat ≤ 2 ^ 64)
    (hz : z + 8 ≤ x) : (r.buffer.clear m).loadWord (address + BitVec.ofNat 64 z)
      = m.loadWord (address + BitVec.ofNat 64 z) := by
  have hsize := r.size_eq
  have hword : ∀ (m : Segment) (s : Side) (b : Bool),
      (m.storeWord (r.buffer.pointer s b) 0).loadWord (address + BitVec.ofNat 64 z)
        = m.loadWord (address + BitVec.ofNat 64 z) := by
    intro m s b
    have hoff := r.wordOffset_add_le s b
    rw [r.pointer_eq, hr, BitVec.add_assoc, ← BitVec.ofNat_add]
    exact loadWord_storeWord_of_disjoint m _ 0 (by omega) (by omega) (.inl (by omega))
  rw [Ring.clear_eq, hword, hword, hword, hword]

theorem Ring.relative_buffer (r : Ring) {x : ℕ} (hr : r.location = address + BitVec.ofNat 64 x) :
    r.buffer.relative address = CircularBuffer.attach (BitVec.ofNat 64 x) r.size := by
  rw [← CircularBuffer.relative_attach r.size address, ← hr]
  rfl

/-- The server leaves the size where its clients look for it. -/
theorem Layout.loadWord_bufferSize (now : Ptime L.sizeofPtime) (m : Segment) :
    (Server.setMemoryID address L.bufferSize now m).2.loadWord (L.header address).bufferSize
      = L.bufferSize := by
  have hfit := L.fits
  have hs := L.sizeofPtime_pos
  have hsq : L.sizeofPtime.toNat ≤ L.sizeofPtime.toNat * L.sizeofPtime.toNat := by
    rw [BitVec.lt_def] at hs
    exact Nat.le_mul_of_pos_left _ hs
  have hnow := now.2
  have hsnd : (Server.setMemoryID address L.bufferSize now m).2
      = Server.updateTimestamp (L.header address) now ((L.outbound address).buffer.clear
        ((m.memset address (Server.requestedSize L.sizeofPtime L.bufferSize)).storeWord
          (L.header address).bufferSize L.bufferSize)) := rfl
  rw [hsnd, Server.updateTimestamp, L.header_eq]
  have hh : headerSize L.sizeofPtime
      = L.sizeofPtime.toNat * L.sizeofPtime.toNat + L.sizeofPtime.toNat + 72 := rfl
  rw [loadWord_write_of_disjoint _ _ (by omega) (by omega) (.inr (by omega)),
    Ring.loadWord_clear address _ _ (L.outbound_eq address)
      (by change _ + L.bufferSize.toNat ≤ _; omega) (by omega),
    loadWord_storeWord_same _ _ _ (by omega)]

/-- Once the server's `SetMemoryID` has returned, a client or an observer that maps the segment
anywhere finds everything where the server has it, the client's two rings being the server's the
other way round, and no two regions meet. -/
theorem ends_agree (serverAddress clientAddress observerAddress : U64)
    (now now' : Ptime L.sizeofPtime) (m : Segment) :
    let server := Server.setMemoryID serverAddress L.bufferSize now m
    let segment := server.2.mapped (-serverAddress)
    let client := (Client.setMemoryID clientAddress now' (segment.mapped clientAddress)).1
    let observer := Observer.setMemoryID L.sizeofPtime observerAddress
    client.toHeader.relative clientAddress = server.1.toHeader.relative serverAddress
      ∧ observer.relative observerAddress = server.1.toHeader.relative serverAddress
      ∧ client.readBuffer.relative clientAddress = server.1.writeBuffer.relative serverAddress
      ∧ client.writeBuffer.relative clientAddress = server.1.readBuffer.relative serverAddress
      ∧ (server.1.regions L.sizeofPtime).Pairwise Region.Disjoint
      ∧ (client.regions L.sizeofPtime).Pairwise Region.Disjoint := by
  intro server segment client observer
  have hserver : server.1 = L.server serverAddress := Server.setMemoryID_fst _ _ _ _
  have hload : (segment.mapped clientAddress).loadWord (L.header clientAddress).bufferSize
      = L.bufferSize := by
    have hp : (L.header clientAddress).bufferSize - clientAddress - -serverAddress
        = (L.header serverAddress).bufferSize := by
      rw [L.header_eq, L.header_eq]
      ring
    rw [loadWord_mapped, loadWord_mapped, hp]
    exact L.loadWord_bufferSize serverAddress now m
  have hclient : client = L.client clientAddress := by
    have h : client = Client.entity L.sizeofPtime clientAddress
        ((segment.mapped clientAddress).loadWord (L.header clientAddress).bufferSize) :=
      Client.setMemoryID_fst _ _ _
    rw [h, hload]
    rfl
  have hin : ∀ a a', (L.inbound a).buffer.relative a = (L.inbound a').buffer.relative a' :=
    fun a a' => (Ring.relative_buffer a _ (L.inbound_eq a)).trans
      (Ring.relative_buffer a' _ (L.inbound_eq a')).symm
  have hout : ∀ a a', (L.outbound a).buffer.relative a = (L.outbound a').buffer.relative a' :=
    fun a a' => (Ring.relative_buffer a _ (L.outbound_eq a)).trans
      (Ring.relative_buffer a' _ (L.outbound_eq a')).symm
  have hdisjoint : ∀ a, ((L.server a).regions L.sizeofPtime).Pairwise Region.Disjoint := fun a => by
    rw [L.server_regions]
    exact L.regions_disjoint a
  have hsymm : ∀ {R R' : Region 64}, R.Disjoint R' → R'.Disjoint R :=
    fun h a ha => h a ⟨ha.2, ha.1⟩
  rw [hclient, hserver]
  refine ⟨?_, ?_, ?_, ?_, hdisjoint _, (L.client_regions _).pairwise_iff hsymm |>.2 (hdisjoint _)⟩
  · exact (Header.relative_attach _ _).trans (Header.relative_attach _ _).symm
  · exact (Header.relative_attach _ _).trans (Header.relative_attach _ _).symm
  · rw [(L.client_rings _).1, (L.server_rings _).2]
    exact hout clientAddress serverAddress
  · rw [(L.client_rings _).2, (L.server_rings _).1]
    exact hin clientAddress serverAddress

end Ends

end MemMapIPC
