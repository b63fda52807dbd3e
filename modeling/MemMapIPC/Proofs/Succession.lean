import MemMapIPC.Succession
import MemMapIPC.Proofs.Fifo
import MemMapIPC.Proofs.Startup

/-!
# The stream to one client after another

A client in `SetMemoryID` stores in the other ring and in its timestamp only, so on the
server-to-client ring it is a consumer between two calls, and each client takes over from the one
before it where that one's cursor stands.
-/

namespace MemMapIPC

open ByteMemory Interleaving

variable {L : Layout} {now : Ptime L.sizeofPtime}

/-- A client past the load has loaded the size the server stored. -/
def Slot.Sized (L : Layout) : Slot → Prop
  | .attaching (.storing b rest) =>
    b = L.bufferSize ∧ ∃ now : Ptime L.sizeofPtime, rest <:+ Client.stores L.bufferSize now
  | .attached b _ => b = L.bufferSize
  | _ => True

/-- An access of an attach is the load of the size, or the next of the stores. -/
theorem ClientInit.cases {a a' : Attach} {m m' : Segment} (h : ClientInit now (a, m) (a', m'))
    (ha : (Slot.attaching a).Sized L)
    (hm : m.loadWord (L.header 0).bufferSize = L.bufferSize) :
    (a = .load ∧ a' = .storing L.bufferSize (Client.stores L.bufferSize now) ∧ m' = m)
      ∨ ∃ (now' : Ptime L.sizeofPtime) (w : Store) (rest : List Store),
        a = .storing L.bufferSize (w :: rest) ∧ a' = .storing L.bufferSize rest
          ∧ w :: rest <:+ Client.stores L.bufferSize now' ∧ m' = w.apply m := by
  cases h with
  | load hb =>
    obtain rfl := hb.trans hm
    exact .inl ⟨rfl, rfl, rfl⟩
  | store =>
    obtain ⟨rfl, now', hs⟩ := ha
    exact .inr ⟨now', _, _, rfl, rfl, hs, rfl⟩

theorem ClientInit.sized {a a' : Attach} {m m' : Segment} (h : ClientInit now (a, m) (a', m'))
    (ha : (Slot.attaching a).Sized L)
    (hm : m.loadWord (L.header 0).bufferSize = L.bufferSize) : (Slot.attaching a').Sized L := by
  rcases h.cases ha hm with ⟨-, rfl, -⟩ | ⟨now', w, rest, -, rfl, hs, -⟩
  · exact ⟨rfl, now, List.suffix_refl _⟩
  · exact ⟨rfl, now', (List.suffix_cons _ _).trans hs⟩

theorem outbound_same {w : Store} (hw : w ∈ Client.stores L.bufferSize now) (m : Segment) :
    (L.outbound 0).Same m (w.apply m) := by
  have hlt := L.header_lt
  have hfit := L.fits
  have hnow := now.2
  rcases client_store_cases hw with ⟨s, b, rfl⟩ | rfl
  · exact Ring.same_storeWord (L.outbound_eq 0) (L.inbound_eq 0) L.outbound_end L.inbound_end
      (.inl le_rfl)
  · change (L.outbound 0).Same m (m.write (L.header 0).clientTimestamp now.1)
    rw [L.clientTimestamp_eq]
    exact Ring.same_write (L.outbound_eq 0) L.outbound_end (by omega) (.inl (by omega))

theorem bufferSize_client {w : Store} (hw : w ∈ Client.stores L.bufferSize now) (m : Segment) :
    (w.apply m).loadWord (L.header 0).bufferSize = m.loadWord (L.header 0).bufferSize := by
  have hlt := L.header_lt
  have hnow := now.2
  rcases client_store_cases hw with ⟨s, b, rfl⟩ | rfl
  · exact L.bufferSize_outside (L.inbound_eq 0) L.inbound_end le_rfl Ring.outside_storeWord
  · change Segment.loadWord (m.write (L.header 0).clientTimestamp now.1) _ = _
    rw [L.clientTimestamp_eq]
    exact L.bufferSize_write m (by omega)

theorem ClientInit.bufferSize {a a' : Attach} {m m' : Segment} (h : ClientInit now (a, m) (a', m'))
    (ha : (Slot.attaching a).Sized L)
    (hm : m.loadWord (L.header 0).bufferSize = L.bufferSize) :
    m'.loadWord (L.header 0).bufferSize = L.bufferSize := by
  rcases h.cases ha hm with ⟨-, -, rfl⟩ | ⟨now', w, rest, -, -, hs, rfl⟩
  · exact hm
  · rw [bufferSize_client (hs.subset List.mem_cons_self), hm]

/-! ## What a client that reads knows -/

section Readers

theorem RingStep.moved_prefix {cb : CircularBuffer} {s : Side} {p p' : Party} {σ σ' : Shared}
    (h : RingStep cb s (p, σ) (p', σ')) (t : Side) : σ.moved t <+: σ'.moved t := by
  have hcopied : ∀ b, σ.moved t <+: (σ.copied s b).moved t := by
    intro b
    rcases eq_or_ne t s with rfl | ht
    · simp only [Shared.copied, Function.update_self]
      exact List.prefix_append _ _
    · simp only [Shared.copied, Function.update_of_ne ht]
      exact List.prefix_rfl
  have hadvance : ∀ c, (σ.advance s c).moved = σ.moved := by
    intro c
    cases c <;> rfl
  cases h with
  | start _ => exact List.prefix_rfl
  | move hc hm =>
    unfold Party.move at hm
    split at hm
    · simp only [Option.map_eq_some_iff, Prod.mk.injEq] at hm
      obtain ⟨_, -, -, rfl⟩ := hm
      exact List.prefix_rfl
    · simp only [Option.map_eq_some_iff, Prod.mk.injEq] at hm
      obtain ⟨_, -, -, rfl⟩ := hm
      simp only [hadvance]
      exact List.prefix_rfl
    · simp only [Option.map_eq_some_iff, Prod.mk.injEq] at hm
      obtain ⟨_, -, -, rfl⟩ := hm
      exact hcopied _
    · split at hm
      · cases hm
      · simp only [Option.map_eq_some_iff, Prod.mk.injEq] at hm
        obtain ⟨_, -, -, rfl⟩ := hm
        exact hcopied _

theorem Own.replace {r : Ring} {σ : Shared} {p : Party} (h : Own r .consumer σ p)
    (hp : p.call = none) : Own r .consumer σ {} := by
  have hat := h.at_call
  rw [hp] at hat
  have hlast := h.last
  refine ⟨h.sound, ?_, (fun _ hc => nomatch hc), (fun hs => nomatch hs), hat.1,
    fun hs => nomatch hs⟩
  change σ.advanced .consumer + 0 ≤ _
  omega

/-- What is known of the clients: the one there is owns the consumer's end, and together they have
copied out what has been copied out. -/
structure ReadersOwn (L : Layout) (c : Readers) (σ : Shared) : Prop where
  own : Own (L.outbound 0) .consumer σ c.slot.party
  sized : c.slot.Sized L
  bufferSize : σ.mem.loadWord (L.header 0).bufferSize = L.bufferSize
  all : c.all = σ.moved .consumer

theorem Keeps.bufferSize_outbound {s : Side} {σ σ' : Shared} (h : Keeps (L.outbound 0) s σ σ')
    (hm : σ.mem.loadWord (L.header 0).bufferSize = L.bufferSize) :
    σ'.mem.loadWord (L.header 0).bufferSize = L.bufferSize :=
  (L.bufferSize_outside (L.outbound_eq 0) L.outbound_end (Nat.le_add_right _ _) h.outside).trans hm

theorem readersOwn_stable : Stable (ReadersOwn L) (Keeps (L.outbound 0) .consumer) := by
  intro c σ σ' h k
  exact ⟨own_stable _ _ _ h.own k, h.sized, k.bufferSize_outbound h.bufferSize,
    h.all.trans k.moved.symm⟩

theorem readerStep_guarantees (L : Layout) : Guarantees (ReaderStep L.sizeofPtime) (ReadersOwn L)
    (Leaves (L.outbound 0) .producer) := by
  rintro c σ c' σ' h hstep
  have hrefl : Leaves (L.outbound 0) .producer σ σ := h.own.sound.keeps_refl.toLeaves
  cases hstep with
  | opens => exact ⟨⟨h.own, trivial, h.bufferSize, h.all⟩, hrefl⟩
  | attach hinit =>
    have hs := hinit.sized h.sized h.bufferSize
    have hb := hinit.bufferSize h.sized h.bufferSize
    rcases hinit.cases h.sized h.bufferSize with ⟨-, -, rfl⟩ | ⟨now', w, rest, -, -, hw, rfl⟩
    · exact ⟨⟨h.own, hs, hb, h.all⟩, hrefl⟩
    · have hsame := outbound_same (hw.subset List.mem_cons_self) σ.mem
      exact ⟨⟨own_leaves _ _ _ h.own (h.own.sound.leaves_same hsame _), hs, hb, h.all⟩,
        h.own.sound.leaves_same hsame _⟩
  | returns => exact ⟨⟨h.own, h.sized.1, h.bufferSize, h.all⟩, hrefl⟩
  | @call b p p' d k σ σ' hcall =>
    obtain rfl : b = L.bufferSize := h.sized
    obtain ⟨hown, hkeep⟩ := ringStep_guarantees (L.outbound 0) .consumer _ _ _ _ h.own hcall
    refine ⟨⟨hown, h.sized, hkeep.bufferSize_outbound h.bufferSize, ?_⟩, hkeep.toLeaves⟩
    have hall : d.flatten ++ k = σ.moved .consumer := h.all
    rw [Readers.all, ← List.append_assoc, hall]
    exact (List.prefix_append_drop (hcall.moved_prefix .consumer)).symm
  | stops hp =>
    refine ⟨⟨h.own.replace hp, trivial, h.bufferSize, ?_⟩, hrefl⟩
    have hall := h.all
    simpa [Readers.all] using hall

/-- A server that has set its segment up owns the producer's end, and the next client the other. -/
theorem own_serverStart (m : Segment) (s : Side) :
    Own (L.outbound 0) s (serverStart L.bufferSize now m) {} := by
  have hlt := L.header_lt
  have hfit := L.fits
  have hnow := now.2
  have hstart := own_start (r := L.outbound 0) s (m :=
    (m.memset 0 (Server.requestedSize L.sizeofPtime L.bufferSize)).storeWord
      (L.header 0).bufferSize L.bufferSize)
  have hp : (L.header 0).serverTimestamp = 0 + BitVec.ofNat 64 0 := by rw [L.header_eq]
  refine own_leaves _ _ _ hstart (hstart.sound.leaves_same ?_ s)
  change (L.outbound 0).Same _ (Memory.write _ (L.header 0).serverTimestamp now.1)
  rw [hp]
  exact Ring.same_write (L.outbound_eq 0) L.outbound_end (by omega) (.inl (by omega))

/-- However the clients' attaches and reads fall between the server's accesses, its stream reaches
them whole and in order. -/
theorem stream_survives_attaches (L : Layout) (now : Ptime L.sizeofPtime) (m : Segment)
    {x : ReaderState}
    (h : ReaderReach L.sizeofPtime L.bufferSize ⟨{}, {}, serverStart L.bufferSize now m⟩ x) :
    StreamSurvives (L.outbound 0) x := by
  obtain ⟨hp, hc⟩ := Reach.of_rely (ringStep_guarantees (L.outbound 0) .producer)
    (readerStep_guarantees L) (fun p σ σ' => own_leaves p σ σ') readersOwn_stable h
    ⟨own_serverStart m .producer,
      ⟨own_serverStart m .consumer, trivial, L.loadWord_bufferSize 0 now m, rfl⟩⟩
  have hfifo := fifoSafe_of_own (x := ⟨x.left, x.right.slot.party, x.shared⟩) hp hc.own
  exact ⟨hc.all ▸ hfifo.delivered, hc.all, hfifo⟩

theorem Attach.next_sound {sizeofPtime : U64} {now : Ptime sizeofPtime} {a a' : Attach}
    {m m' : Segment} (h : a.next now m = some (a', m')) : ClientInit now (a, m) (a', m') := by
  unfold Attach.next at h
  split at h
  · cases h
    exact .load rfl
  · cases h
    exact .store
  · cases h

theorem Readers.choose_sound {sizeofPtime : U64} {now : Ptime sizeofPtime} (v : Visit)
    (x y : Readers × Shared) (h : Readers.choose now v x = some y) :
    ReaderStep sizeofPtime x y := by
  unfold Readers.choose at h
  split at h
  · cases h
    exact .opens
  · obtain ⟨q, hq, rfl⟩ := Option.map_eq_some_iff.1 h
    exact .attach (Attach.next_sound hq)
  · cases h
    exact .returns
  · obtain ⟨q, hq, rfl⟩ := Option.map_eq_some_iff.1 h
    exact .call (Party.choose_sound _ _ _ hq)
  · split_ifs at h with hp
    cases h
    exact .stops hp
  · cases h

theorem ReaderState.run_reach {sizeofPtime bufferSize : U64} {now : Ptime sizeofPtime}
    {x y : ReaderState} {schedule : List (Choice ⊕ Visit)}
    (h : x.run bufferSize now schedule = some y) : ReaderReach sizeofPtime bufferSize x y :=
  State.play_reach Party.choose_sound Readers.choose_sound h

end Readers

section Example

/-- Rings of eight cells. -/
def smallLayout : Layout :=
  ⟨8, 40, bundledLayout.sizeofPtime_pos, smallRing.reserve_lt, by decide⟩

/-- A call of the server, all of it. -/
def serverCall {ι : Type} (ch : Choice) (moves : ℕ) : List (Choice ⊕ ι) :=
  .inl ch :: List.replicate moves (.inl .move)

/-- A call of the client. -/
def clientCall {ι : Type} (ch : Choice) (moves : ℕ) : List (ι ⊕ Visit) :=
  .inr (.call ch) :: List.replicate moves (.inr (.call .move))

/-- A client opens the segment and runs `SetMemoryID`. -/
def clientAttach {ι : Type} : List (ι ⊕ Visit) :=
  .inr .opens :: List.replicate 6 (.inr .attach) ++ [.inr .returns]

/-- Two clients, the first attaching in the middle of the server's write. -/
def twoReaders : List (Choice ⊕ Visit) :=
  serverCall .count 4 ++ serverCall (.write [7, 9]) 3 ++ clientAttach
    ++ List.replicate 4 (.inl .move) ++ clientCall .count 4 ++ clientCall (.read 1) 6
    ++ .inr .stops :: clientAttach ++ clientCall .count 4 ++ clientCall (.read 1) 6

/-- The server's and every client's timestamp. -/
def smallNow : Ptime smallLayout.sizeofPtime := .zero _

theorem twoReaders_run :
    (ReaderState.run smallLayout.bufferSize smallNow
      ⟨{}, {}, serverStart smallLayout.bufferSize smallNow fun _ => 0⟩ twoReaders).map
        (fun y => (y.right.delivered, y.right.sink)) = some ([[7]], [9]) := by
  decide +kernel

theorem stream_survives_two : ∃ y : ReaderState, (y.right.delivered, y.right.sink) = ([[7]], [9])
    ∧ StreamSurvives (smallLayout.outbound 0) y := by
  obtain ⟨y, hy, hd⟩ := Option.map_eq_some_iff.1 twoReaders_run
  exact ⟨y, hd, stream_survives_attaches smallLayout smallNow _ (ReaderState.run_reach hy)⟩

/-- The server writes a byte before the client attaches and one after, and the client reads. -/
def lateReader : List (Choice ⊕ Visit) :=
  serverCall .count 4 ++ serverCall (.write [7]) 6 ++ clientAttach
    ++ serverCall .count 4 ++ serverCall (.write [9]) 6
    ++ clientCall .count 4 ++ clientCall (.read 1) 6

theorem lateReader_run :
    (ReaderState.run 0 smallNow ⟨{}, {}, serverStart 0 smallNow fun _ => 0⟩ lateReader).map
        (fun y => (y.right.all, y.shared.sent)) = some ([9], [7, 9]) := by
  decide +kernel

/-- With no room for the cursors both rings have the same ones, and an attach takes a byte away. -/
theorem stream_lost_no_room : ¬∀ (sizeofPtime bufferSize : U64) (now : Ptime sizeofPtime)
    (m : Segment) (x : ReaderState),
    ReaderReach sizeofPtime bufferSize ⟨{}, {}, serverStart bufferSize now m⟩ x →
      x.right.all <+: x.shared.sent := by
  intro h
  obtain ⟨y, hy, hd⟩ := Option.map_eq_some_iff.1 lateReader_run
  obtain ⟨hall, hsent⟩ := Prod.mk.inj hd
  have hp := h _ _ smallNow _ _ (ReaderState.run_reach hy)
  rw [hall, hsent] at hp
  exact absurd hp (by decide)

end Example

end MemMapIPC
