import MemMapIPC.Proofs.Conversation
import MemMapIPC.TestThreads

/-!
# What becomes of the tests' threads

The threads of either kind of test are conversations. The emulation's server waits for a whole
package before it reads the first byte of it, which a ring that cannot hold one never lets it have.
-/

namespace MemMapIPC

open ByteMemory Relation Commuting

section Flow

variable {capacity : ℕ} {P Q : Program} {l l' : Log}

/-- What one program has read in a conversation is what the other has written. -/
theorem Converses.flow_eq (h : Converses capacity P Q l l') :
    flow .consumer l = flow .producer l' ∧ flow .consumer l' = flow .producer l := by
  induction h with
  | stop => exact ⟨rfl, rfl⟩
  | swap _ ih => exact ih.symm
  | tell hlen _ ih =>
    simp only [flow_cons]
    exact ⟨ih.1, congrArg _ ih.2⟩
  | space hn _ ih =>
    simp only [flow_cons]
    exact ih
  | heed hn hlen _ ih =>
    simp only [flow_cons]
    exact ih

end Flow

/-! ## One way -/

section OneWay

variable {capacity : ℕ} {chunkSize : U64} {simulatedBuffer : Buffer}

theorem producerVerifyMethod_converses (capacity : ℕ)
    (hsize : simulatedBuffer.1.length = chunkSize.toNat) :
    ∀ chunks : ℕ, Converses capacity (producerVerifyMethod chunkSize chunks)
      (consumerVerifyMethod simulatedBuffer chunks)
      (List.replicate chunks (.producer, (producerData chunkSize).1))
      (List.replicate chunks (.consumer, (producerData chunkSize).1))
  | 0 => .stop
  | chunks + 1 => .tell (by simpa [producerData] using hsize)
    (producerVerifyMethod_converses capacity hsize chunks)

/-- The chunks as each of the threads has them in its buffer. -/
def oneWayLog (p : Process) (chunkSize : U64) (chunks : ℕ) (q : Process) : Log :=
  List.replicate chunks (if q = p then .producer else .consumer, (producerData chunkSize).1)

theorem oneWay_converses (capacity : ℕ) (p : Process)
    (hsize : simulatedBuffer.1.length = chunkSize.toNat) (chunks : ℕ) :
    Converses capacity (oneWay p chunkSize simulatedBuffer chunks .server)
      (oneWay p chunkSize simulatedBuffer chunks .client)
      (oneWayLog p chunkSize chunks .server) (oneWayLog p chunkSize chunks .client) := by
  have hthreads := producerVerifyMethod_converses capacity hsize chunks
  cases p with
  | server => exact hthreads
  | client => exact hthreads.swap

/-- The one-way tests pass: whatever the size of the chunks, be it larger than the ring, both
threads finish if they go on and no timer reaches its limit, and as long as no call has returned
false each read has given the chunk that was written. The sizes and numbers of chunks are those the
threads can divide by and count to. -/
theorem oneWay_completes (L : Layout) (now now' : Ptime L.sizeofPtime) (p : Process)
    (chunkSize : U64) (simulatedBuffer : Buffer) (chunks : ℕ) (_ : 0 < chunkSize)
    (_ : chunks < 2 ^ 31) (hsize : simulatedBuffer.1.length = chunkSize.toNat)
    (hcapacity : 0 < L.capacity) :
    (∀ ρ : PatientRun L,
      ρ.state 0 = systemStart L now now' (oneWay p chunkSize simulatedBuffer chunks) →
        (∀ q, ρ.Often q) → ∃ i, ∀ j ≥ i, ∀ q, ((ρ.state j).worker q).Finished
          ∧ ((ρ.state j).worker q).log = oneWayLog p chunkSize chunks q)
    ∧ ∀ x, SystemReach L (systemStart L now now' (oneWay p chunkSize simulatedBuffer chunks)) x →
      (∀ q, (x.worker q).failed = false) →
        ∀ d ∈ (x.worker p.other).log, d = (.consumer, (producerData chunkSize).1) := by
  have hconverses := oneWay_converses L.capacity p hsize chunks
  refine ⟨fun ρ hρ hoften => hconverses.finishes hcapacity hρ hoften, fun x hx _ d hd => ?_⟩
  have hmem := (hconverses.log_prefix hcapacity hx p.other).subset hd
  unfold oneWayLog at hmem
  rw [if_neg p.other_ne] at hmem
  exact List.eq_of_mem_replicate hmem

theorem oneWay_completes_small :
    (∀ ρ : PatientRun smallLayout,
      ρ.state 0 = systemStart smallLayout (.zero _) (.zero _)
          (oneWay .client 9 (producerData 9) 2) →
        (∀ q, ρ.Often q) → ∃ i, ∀ j ≥ i, ∀ q, ((ρ.state j).worker q).Finished
          ∧ ((ρ.state j).worker q).log = oneWayLog .client 9 2 q)
    ∧ ∀ x, SystemReach smallLayout
        (systemStart smallLayout (.zero _) (.zero _) (oneWay .client 9 (producerData 9) 2)) x →
      (∀ q, (x.worker q).failed = false) →
        ∀ d ∈ (x.worker (Process.client).other).log, d = (.consumer, (producerData 9).1) :=
  oneWay_completes smallLayout (.zero _) (.zero _) .client 9 (producerData 9) 2 (by decide)
    (by decide) (by decide) (by decide)

end OneWay

/-! ## Emulation -/

section Emulation

variable {capacity : ℕ} {buffer buffer' : EsBuffer} {s : Side} {l : List U8} {n v : ℕ}

theorem testSize_le (rand : ℕ) : testSize rand ≤ testEsBufferSize := by
  unfold testSize testEsBufferSize
  omega

theorem initialPackageSize_le : initialPackageSize.toNat ≤ testEsBufferSize := by decide

namespace EsBuffer

theorem length_front (buffer : EsBuffer) (h : n ≤ testEsBufferSize) :
    (buffer.front n).1.length = n := by
  have hlen := buffer.2
  show (buffer.1.take n).length = n
  rw [List.length_take]
  omega

/-- What has been read is at the front. -/
theorem take_fill (hle : n ≤ l.length) (hn : n ≤ testEsBufferSize) :
    (buffer.fill l).1.take n = l.take n := by
  show ((l ++ buffer.1.drop l.length).take testEsBufferSize).take n = l.take n
  rw [List.take_take, Nat.min_eq_left hn, List.take_append_of_le_length hle]

/-- The size that was stored is the size that is loaded at the other end. -/
theorem loadSize_fill (hv : v < 2 ^ 64) :
    (buffer'.fill ((buffer.storeSize v).front initialPackageSize.toNat).1).loadSize = v := by
  have hlen := (buffer.storeSize v).length_front initialPackageSize_le
  unfold loadSize
  rw [take_fill (by rw [hlen]; decide) (by decide)]
  show ofBytes (((buffer.storeSize v).1.take initialPackageSize.toNat).take 8) = v
  rw [List.take_take, show min 8 initialPackageSize.toNat = 8 by decide]
  unfold storeSize
  rw [take_fill (by rw [length_toBytes]) (by decide),
    List.take_of_length_le (by rw [length_toBytes]), ofBytes_toBytes, Nat.mod_eq_of_lt]
  exact hv.trans_eq (by norm_num)

end EsBuffer

/-- The sizes of the snare's calls and of the other's, the waits included. -/
def snareSizes (rands : List ℕ) : List ℕ :=
  rands.flatMap fun rand => [initialPackageSize.toNat, testSize rand]

def esSizes (rands : List ℕ) : List ℕ :=
  rands.flatMap fun rand => [0, initialPackageSize.toNat, testSize rand]

theorem emulation_converses (hcapacity : initialPackageSize.toNat ≤ capacity) (s : Side) :
    ∀ (rands : List ℕ) (buffer buffer' : EsBuffer), ∃ l l' : Log,
      Converses capacity (esThread s.peer rands.length buffer') (snareThread s rands buffer) l l'
        ∧ l.map (fun d => d.2.length) = esSizes rands
        ∧ l'.map (fun d => d.2.length) = snareSizes rands
  | [], _, _ => ⟨[], [], .stop, rfl, rfl⟩
  | rand :: rands, buffer, buffer' => by
    let b := buffer.storeSize (testSize rand)
    let package := b.front initialPackageSize.toNat
    let b' := buffer'.fill package.1
    have hpackage : package.1.length = initialPackageSize.toNat :=
      EsBuffer.length_front _ initialPackageSize_le
    have hle := testSize_le rand
    have hsize : b'.loadSize = testSize rand :=
      EsBuffer.loadSize_fill (hle.trans_lt (by decide))
    have hlen : (b.front (testSize rand)).1.length = testSize rand := EsBuffer.length_front _ hle
    have hlen' : (b'.front (testSize rand)).1.length = testSize rand := EsBuffer.length_front _ hle
    obtain ⟨l, l', htransfer, hl, hl'⟩ : ∃ l l' : Log, Converses capacity
        (.transfer s.peer (b'.front (testSize rand)) fun data =>
          esThread s.peer rands.length (b'.fill data))
        (.transfer s (b.front (testSize rand)) fun data => snareThread s rands (b.fill data)) l l'
          ∧ l.map (fun d => d.2.length) = testSize rand :: esSizes rands
          ∧ l'.map (fun d => d.2.length) = testSize rand :: snareSizes rands := by
      cases s with
      | producer =>
        obtain ⟨l, l', h, hl, hl'⟩ := emulation_converses hcapacity .producer rands
          (b.fill (b.front (testSize rand)).1) (b'.fill (b.front (testSize rand)).1)
        refine ⟨_, _, .swap (.tell (hlen'.trans hlen.symm) h.swap), ?_, ?_⟩
        · rw [List.map_cons, hl, hlen]
        · rw [List.map_cons, hl', hlen]
      | consumer =>
        obtain ⟨l, l', h, hl, hl'⟩ := emulation_converses hcapacity .consumer rands
          (b.fill (b'.front (testSize rand)).1) (b'.fill (b'.front (testSize rand)).1)
        refine ⟨_, _, .tell (hlen.trans hlen'.symm) h, ?_, ?_⟩
        · rw [List.map_cons, hl, hlen']
        · rw [List.map_cons, hl', hlen']
    have hnext : (if b'.loadSize > testEsBufferSize then Program.stop
        else .transfer s.peer (b'.front b'.loadSize) fun data =>
          esThread s.peer rands.length (b'.fill data))
        = .transfer s.peer (b'.front (testSize rand)) fun data =>
          esThread s.peer rands.length (b'.fill data) := by
      rw [hsize, if_neg (Nat.not_lt.2 hle)]
    rw [← hnext] at htransfer
    refine ⟨_, _, .heed hcapacity hpackage.ge
      (.swap (.tell ((EsBuffer.length_front _ initialPackageSize_le).trans hpackage.symm)
        htransfer.swap)), ?_, ?_⟩
    · rw [List.map_cons, List.map_cons, hl, EsBuffer.length_front _ initialPackageSize_le]
      rfl
    · rw [List.map_cons, hl', EsBuffer.length_front _ initialPackageSize_le]
      rfl

/-- The first package does not fit, and the server waits for all of it. -/
theorem emulation_jams (hlt : capacity < initialPackageSize.toNat) (s : Side) (rand : ℕ)
    (rands : List ℕ) (buffer buffer' : EsBuffer) : ∃ Y : Pipes capacity,
      Pipes.Reach (.start capacity (emulation s (rand :: rands) buffer buffer')) Y ∧ Y.Ended
        ∧ ∀ p, (Y.partner p).log = [] := by
  let package := (buffer.storeSize (testSize rand)).front initialPackageSize.toNat
  have hpackage : package.1.length = initialPackageSize.toNat :=
    EsBuffer.length_front _ initialPackageSize_le
  have hlen : (package.1.take capacity).length = capacity := by
    rw [List.length_take, hpackage, Nat.min_eq_left hlt.le]
  let q : BoundedQueue U8 capacity := ⟨package.1.take capacity, hlen.le⟩
  let program := emulation s (rand :: rands) buffer buffer'
  let v : Partner := { program := program .client }
  let queue : Channel → BoundedQueue U8 capacity := Function.update (fun _ => .empty) .inbound q
  have hfill : Pipes.Reach (.start capacity program)
      (.pair .client { v with moved := package.1.take capacity } { program := program .server }
        queue) := by
    rw [Pipes.start_eq _ .client]
    exact Pipes.pair_passes (w := v) (l := package.1.take capacity) rfl
      ((Nat.zero_add _).trans_le (List.length_take_le' _ _)) (fun _ => List.take_prefix _ _) rfl
  refine ⟨_, hfill, fun p => ?_, fun p => by cases p <;> rfl⟩
  cases p with
  | server => exact Pipes.step_of_await rfl ((BoundedQueue.length_le _).trans_lt hlt)
  | client =>
    refine Pipes.step_of_transfer (s := .producer) rfl ?_ ?_
    · exact (hlen.trans_lt hlt).trans_eq hpackage.symm
    · exact Nat.sub_eq_zero_of_le hlen.ge

theorem emulation_reach {rands : List ℕ}
    (hfits : rands = [] ∨ initialPackageSize.toNat ≤ capacity) (s : Side)
    (buffer buffer' : EsBuffer) : ∃ Y : Pipes capacity,
      Pipes.Reach (.start capacity (emulation s rands buffer buffer')) Y
        ∧ (∀ p, (Y.partner p).program = .stop
          ∧ flow .consumer (Y.partner p).log = flow .producer (Y.partner p.other).log)
        ∧ (Y.partner .server).log.map (fun d => d.2.length) = esSizes rands
        ∧ (Y.partner .client).log.map (fun d => d.2.length) = snareSizes rands := by
  rcases hfits with rfl | hfits
  · exact ⟨_, .refl, fun p => by cases p <;> exact ⟨rfl, rfl⟩, rfl, rfl⟩
  · obtain ⟨l, l', h, hl, hl'⟩ := emulation_converses hfits s rands buffer buffer'
    have hcapacity : 0 < capacity := lt_of_lt_of_le (by decide) hfits
    rw [Pipes.start_eq _ .server]
    refine ⟨_, h.reach hcapacity .server [] [], fun p => ?_, hl, hl'⟩
    cases p with
    | server => exact ⟨rfl, h.flow_eq.1⟩
    | client => exact ⟨rfl, h.flow_eq.2⟩

/-- The threads of `ESEmulationTest.cpp` by their names there. -/
theorem emulation_write {rands : List ℕ} (h : rands.length = numberOfTestTransfers)
    (buffer : EsBuffer) : emulation .producer rands .zeros buffer .server
        = simpleWriteCommandEsThread buffer
      ∧ emulation .producer rands .zeros buffer .client = simpleWriteCommandSnareThread rands := by
  unfold emulation simpleWriteCommandEsThread
  rw [h]
  exact ⟨rfl, rfl⟩

theorem emulation_read {rands : List ℕ} (h : rands.length = numberOfTestTransfers) :
    emulation .consumer rands .zeros .zeros .server = simpleReadCommandEsThread
      ∧ emulation .consumer rands .zeros .zeros .server = tmain
      ∧ emulation .consumer rands .zeros .zeros .client = simpleReadCommandSnareThread rands := by
  unfold emulation simpleReadCommandEsThread tmain
  rw [h]
  exact ⟨rfl, rfl, rfl⟩

/-- The emulation finishes just if the ring can hold a whole package, or no transfer is asked for.
Then, if both threads go on and no timer reaches its limit, each has made all its calls and read
what the other wrote, every transfer being of the size that was asked for. -/
theorem emulation_completes_iff (L : Layout) (now now' : Ptime L.sizeofPtime) (s : Side)
    (rands : List ℕ) (buffer buffer' : EsBuffer) :
    ((∃ x, SystemReach L (systemStart L now now' (emulation s rands buffer buffer')) x
        ∧ ∃ p, (x.worker p).Finished) ↔ rands = [] ∨ initialPackageSize.toNat ≤ L.capacity)
      ∧ (rands = [] ∨ initialPackageSize.toNat ≤ L.capacity → ∀ ρ : PatientRun L,
        ρ.state 0 = systemStart L now now' (emulation s rands buffer buffer') →
          (∀ p, ρ.Often p) → ∃ i, ∀ j ≥ i,
            (∀ p, ((ρ.state j).worker p).Finished ∧ flow .consumer ((ρ.state j).worker p).log
              = flow .producer ((ρ.state j).worker p.other).log)
            ∧ ((ρ.state j).worker .server).log.map (fun d => d.2.length) = esSizes rands
            ∧ ((ρ.state j).worker .client).log.map (fun d => d.2.length) = snareSizes rands) := by
  have hfair : rands = [] ∨ initialPackageSize.toNat ≤ L.capacity → ∀ ρ : PatientRun L,
      ρ.state 0 = systemStart L now now' (emulation s rands buffer buffer') →
        (∀ p, ρ.Often p) → ∃ i, ∀ j ≥ i,
          (∀ p, ((ρ.state j).worker p).Finished ∧ flow .consumer ((ρ.state j).worker p).log
            = flow .producer ((ρ.state j).worker p.other).log)
          ∧ ((ρ.state j).worker .server).log.map (fun d => d.2.length) = esSizes rands
          ∧ ((ρ.state j).worker .client).log.map (fun d => d.2.length) = snareSizes rands := by
    intro hfits ρ hρ hoften
    obtain ⟨Y, hY, hend, hserver, hclient⟩ := emulation_reach hfits s buffer buffer'
    obtain ⟨i, hi⟩ := PatientRun.finishes hρ hoften hY fun p => (hend p).1
    refine ⟨i, fun j hj => ⟨fun p => ⟨(hi j hj p).1, ?_⟩, ?_, ?_⟩⟩
    · rw [(hi j hj p).2, (hi j hj p.other).2]
      exact (hend p).2
    · rw [(hi j hj .server).2]
      exact hserver
    · rw [(hi j hj .client).2]
      exact hclient
  refine ⟨⟨fun ⟨x, hx, p, hfinished⟩ => ?_, fun hfits => ?_⟩, hfair⟩
  · by_contra hlong
    push Not at hlong
    obtain ⟨hne, hlt⟩ := hlong
    obtain ⟨rand, rands, rfl⟩ := List.exists_cons_of_ne_nil hne
    obtain ⟨Y, hY, hended, hnil⟩ := emulation_jams hlt s rand rands buffer buffer'
    have hstop := Worker.Finished.program_eq hx hfinished
      (List.prefix_nil.1 (hnil p ▸ log_prefix hY hended hx p))
    cases p <;> cases hstop
  · obtain ⟨ρ, hρ, hoften⟩ := exists_patientRun now now' (emulation s rands buffer buffer')
    obtain ⟨i, hi⟩ := hfair hfits ρ hρ hoften
    exact ⟨_, hρ ▸ PatientRun.reach ρ i, .server, ((hi i le_rfl).1 .server).1⟩

/-- The tests' size is large enough. -/
example {L : Layout} (h : L.bufferSize = 160 * 1024) : initialPackageSize.toNat ≤ L.capacity := by
  unfold Layout.capacity
  rw [h]
  decide

end Emulation

end MemMapIPC
