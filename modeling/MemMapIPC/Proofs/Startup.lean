import MemMapIPC.Proofs.Layout
import MemMapIPC.Startup

/-!
# When attaching is safe

Once the buffer size is stored the segment is `Ready`: the size is there and every cursor word of
both rings is zero. No store either side then still has to make undoes that, if the client has
loaded the size. A client that loads it earlier reads zero from the cleared segment, and takes the
two rings for something else.
-/

namespace MemMapIPC

open ByteMemory Interleaving

variable {L : Layout} {now now' : Ptime L.sizeofPtime} {m : Segment}

structure Ready (L : Layout) (m : Segment) : Prop where
  bufferSize : m.loadWord (L.header 0).bufferSize = L.bufferSize
  inbound : ∀ s b, (L.inbound 0).word m s b = 0
  outbound : ∀ s b, (L.outbound 0).word m s b = 0

theorem Layout.inbound_end : headerSize L.sizeofPtime + (L.inbound 0).size.toNat ≤ 2 ^ 64 := by
  have hfit := L.fits
  change _ + L.bufferSize.toNat ≤ _
  omega

theorem Layout.outbound_end :
    headerSize L.sizeofPtime + L.bufferSize.toNat + (L.outbound 0).size.toNat ≤ 2 ^ 64 := by
  have hfit := L.fits
  change _ + L.bufferSize.toNat ≤ _
  omega

/-! ## Stores that leave the buffer size -/

theorem Layout.bufferSize_write (L : Layout) (m : Segment) {x : ℕ} {l : List U8}
    (hx : x + l.length + 8 ≤ headerSize L.sizeofPtime) :
    Segment.loadWord (m.write (0 + BitVec.ofNat 64 x) l) (L.header 0).bufferSize
      = m.loadWord (L.header 0).bufferSize := by
  have hfit := L.fits
  rw [L.header_eq]
  exact loadWord_write_of_disjoint m 0 (by omega) (by omega) (.inr (by omega))

theorem Layout.bufferSize_outside (L : Layout) {r : Ring} {X : ℕ} {m m' : Segment}
    (hr : r.location = 0 + BitVec.ofNat 64 X) (hX : X + r.size.toNat ≤ 2 ^ 64)
    (hle : headerSize L.sizeofPtime ≤ X) (hm : r.Outside m m') :
    m'.loadWord (L.header 0).bufferSize = m.loadWord (L.header 0).bufferSize := by
  have hH : 8 ≤ headerSize L.sizeofPtime := by
    unfold headerSize
    omega
  have hread :
      Memory.read m' (L.header 0).bufferSize 8 = Memory.read m (L.header 0).bufferSize 8 := by
    rw [L.header_eq, Memory.read_offset, Memory.read_offset]
    refine List.map_congr_left fun i hi => ?_
    rw [List.mem_range] at hi
    have hp : (0 : U64) + BitVec.ofNat 64 (headerSize L.sizeofPtime - 8 + i)
        = r.location + BitVec.ofNat 64 (2 ^ 64 - X + (headerSize L.sizeofPtime - 8 + i)) := by
      rw [hr, BitVec.add_assoc, ← BitVec.ofNat_add]
      congr 1
      apply BitVec.eq_of_toNat_eq
      rw [BitVec.toNat_ofNat, BitVec.toNat_ofNat]
      omega
    rw [hp]
    exact hm _ (by omega) (by omega)
  rw [Segment.loadWord, Segment.loadWord, Memory.load, hread]
  rfl

theorem Ready.write_header (h : Ready L m) {x : ℕ} {l : List U8}
    (hx : x + l.length + 8 ≤ headerSize L.sizeofPtime) :
    Ready L (m.write (0 + BitVec.ofNat 64 x) l) := by
  have hfit := L.fits
  have hin := Ring.same_write (m := m) (L.inbound_eq 0) L.inbound_end
    (show x + l.length ≤ 2 ^ 64 by omega) (.inl (by omega))
  have hout := Ring.same_write (m := m) (L.outbound_eq 0) L.outbound_end
    (show x + l.length ≤ 2 ^ 64 by omega) (.inl (by omega))
  refine ⟨?_, fun s b => ?_, fun s b => ?_⟩
  · rw [L.bufferSize_write m hx, h.bufferSize]
  · rw [hin.word, h.inbound]
  · rw [hout.word, h.outbound]

theorem Ready.clear_inbound (h : Ready L m) (s : Side) (b : Bool) :
    Ready L (m.storeWord ((L.inbound 0).buffer.pointer s b) 0) := by
  refine ⟨?_, fun s' b' => ?_, fun s' b' => ?_⟩
  · rw [L.bufferSize_outside (L.inbound_eq 0) L.inbound_end le_rfl Ring.outside_storeWord,
      h.bufferSize]
  · exact Ring.word_clear_of_zero (h.inbound s' b')
  · rw [(Ring.same_storeWord (L.outbound_eq 0) (L.inbound_eq 0) L.outbound_end L.inbound_end
      (.inl le_rfl)).word, h.outbound]

theorem Ready.clear_outbound (h : Ready L m) (s : Side) (b : Bool) :
    Ready L (m.storeWord ((L.outbound 0).buffer.pointer s b) 0) := by
  refine ⟨?_, fun s' b' => ?_, fun s' b' => ?_⟩
  · rw [L.bufferSize_outside (L.outbound_eq 0) L.outbound_end (Nat.le_add_right _ _)
      Ring.outside_storeWord, h.bufferSize]
  · rw [(Ring.same_storeWord (L.inbound_eq 0) (L.outbound_eq 0) L.inbound_end L.outbound_end
      (.inr le_rfl)).word, h.inbound]
  · exact Ring.word_clear_of_zero (h.outbound s' b')

/-- A store that leaves the segment ready. -/
def Harmless (L : Layout) (w : Store) : Prop := ∀ m, Ready L m → Ready L (w.apply m)

theorem Layout.header_lt : L.sizeofPtime.toNat * L.sizeofPtime.toNat + L.sizeofPtime.toNat + 8
    ≤ headerSize L.sizeofPtime := by
  unfold headerSize
  omega

theorem harmless_setup : ∀ w ∈ Server.setup L.bufferSize now, Harmless L w := by
  intro w hw m h
  have hlt := L.header_lt
  have hnow := now.2
  simp only [Server.setup, CircularBuffer.clearing, List.cons_append, List.nil_append,
    List.mem_cons, List.not_mem_nil, or_false] at hw
  rcases hw with rfl | rfl | rfl | rfl | rfl
  · exact h.clear_outbound .producer false
  · exact h.clear_outbound .producer true
  · exact h.clear_outbound .consumer false
  · exact h.clear_outbound .consumer true
  · have hp : (L.header 0).serverTimestamp = 0 + BitVec.ofNat 64 0 := by rw [L.header_eq]
    change Ready L (m.write (L.header 0).serverTimestamp now.1)
    rw [hp]
    exact h.write_header (by omega)

/-- What a client with the right size stores: a zero in each cursor word of its write ring, then its
timestamp. -/
theorem client_store_cases {w : Store} (hw : w ∈ Client.stores L.bufferSize now') :
    (∃ s b, w = .word ((L.inbound 0).buffer.pointer s b) 0)
      ∨ w = ⟨(L.header 0).clientTimestamp, now'.1⟩ := by
  simp only [Client.stores, CircularBuffer.clearing, List.cons_append, List.nil_append,
    List.mem_cons, List.not_mem_nil, or_false] at hw
  rcases hw with rfl | rfl | rfl | rfl | rfl
  · exact .inl ⟨.producer, false, rfl⟩
  · exact .inl ⟨.producer, true, rfl⟩
  · exact .inl ⟨.consumer, false, rfl⟩
  · exact .inl ⟨.consumer, true, rfl⟩
  · exact .inr rfl

theorem Layout.clientTimestamp_eq (L : Layout) : (L.header 0).clientTimestamp
    = 0 + BitVec.ofNat 64 (L.sizeofPtime.toNat * L.sizeofPtime.toNat) := by
  rw [L.header_eq]

theorem harmless_client : ∀ w ∈ Client.stores L.bufferSize now', Harmless L w := by
  intro w hw m h
  have hlt := L.header_lt
  have hnow := now'.2
  rcases client_store_cases hw with ⟨s, b, rfl⟩ | rfl
  · exact h.clear_inbound s b
  · change Ready L (m.write (L.header 0).clientTimestamp now'.1)
    rw [L.clientTimestamp_eq]
    exact h.write_header (by omega)

theorem harmless_all {l : List Store} (hl : ∀ w ∈ l, Harmless L w) (h : Ready L m) :
    Ready L (Store.applyAll m l) := by
  induction l generalizing m with
  | nil => exact h
  | cons w l ih =>
    exact ih (fun w' hw' => hl w' (List.mem_cons_of_mem _ hw')) (hl w List.mem_cons_self m h)

/-! ## The segment just created -/

theorem loadWord_zero (p : U64) : Segment.loadWord (fun _ => 0) p = 0 := by
  have h : Memory.read (fun _ => 0 : Segment) p 8 = List.replicate 8 0 := by
    simp [Memory.read]
  rw [Segment.loadWord, Memory.load, h]
  decide

/-- The buffer size stored in a segment of zeros makes it ready. -/
theorem ready_sizeStore (L : Layout) :
    Ready L ((Server.sizeStore L.bufferSize L.sizeofPtime).apply fun _ => 0) := by
  have hfit := L.fits
  have hlt := L.header_lt
  have hp : (L.header 0).bufferSize = 0 + BitVec.ofNat 64 (headerSize L.sizeofPtime - 8) := by
    rw [L.header_eq]
  change Ready L (Segment.storeWord (fun _ => 0) (L.header 0).bufferSize L.bufferSize)
  rw [hp]
  have hlen : (toBytes 8 L.bufferSize.toNat).length = 8 := length_toBytes _ _
  have hin := Ring.same_write (m := fun _ => 0) (x := headerSize L.sizeofPtime - 8)
    (l := toBytes 8 L.bufferSize.toNat) (L.inbound_eq 0) L.inbound_end (by omega) (.inl (by omega))
  have hout := Ring.same_write (m := fun _ => 0) (x := headerSize L.sizeofPtime - 8)
    (l := toBytes 8 L.bufferSize.toNat) (L.outbound_eq 0) L.outbound_end (by omega)
    (.inl (by omega))
  refine ⟨?_, fun s b => ?_, fun s b => ?_⟩
  · rw [hp, loadWord_storeWord_same _ _ _ (by omega)]
  · exact (hin.word s b).trans (loadWord_zero _)
  · exact (hout.word s b).trans (loadWord_zero _)

theorem ready_setMemoryID (L : Layout) (now : Ptime L.sizeofPtime) :
    Ready L (Server.setMemoryID 0 L.bufferSize now fun _ => 0).2 := by
  have hclear : Segment.memset (fun _ => 0) 0 (Server.requestedSize L.sizeofPtime L.bufferSize)
      = fun _ => 0 := by
    funext x
    simp [Segment.memset, Memory.write]
  have hsnd : (Server.setMemoryID 0 L.bufferSize now fun _ => 0).2
      = Server.updateTimestamp (L.header 0) now ((L.outbound 0).buffer.clear
        ((Segment.memset (fun _ => 0) 0 (Server.requestedSize L.sizeofPtime L.bufferSize)).storeWord
          (L.header 0).bufferSize L.bufferSize)) := rfl
  rw [hsnd, hclear]
  exact harmless_all harmless_setup (ready_sizeStore L)

theorem clearing_zero {w : Store} (hw : w ∈ Server.clearing L.bufferSize L.sizeofPtime) :
    w.apply (fun _ => 0) = fun _ => 0 := by
  obtain ⟨i, -, rfl⟩ := List.mem_map.1 hw
  funext x
  simp only [Store.apply, Memory.write]
  rcases Nat.eq_zero_or_pos (x - BitVec.ofNat 64 i).toNat with h0 | h0
  · rw [h0]
    rfl
  · exact List.getD_eq_default _ _ h0

/-- Until the client has loaded the buffer size, the segment is as the server's stores so far have
left it: all zeros, or ready. -/
theorem before_load {x : InitState} (h : L.InitReach now' (L.initStart now) x)
    (hload : x.right = .load) :
    (∃ c, c <:+ Server.clearing L.bufferSize L.sizeofPtime
        ∧ x.left = c ++ Server.sizeStore L.bufferSize L.sizeofPtime
          :: Server.setup L.bufferSize now
        ∧ x.shared = fun _ => 0)
      ∨ x.left <:+ Server.setup L.bufferSize now ∧ Ready L x.shared := by
  induction h with
  | refl => exact .inl ⟨_, List.suffix_refl _, rfl, rfl⟩
  | tail _ hstep ih =>
    cases hstep with
    | right hs => cases hs <;> cases hload
    | left hs =>
      cases hs with
      | store =>
        rcases ih hload with ⟨c, hc, hl, hm⟩ | ⟨hl, hr⟩
        · simp only at hl hm
          subst hm
          rcases c with _ | ⟨w, c⟩
          · obtain ⟨rfl, rfl⟩ := List.cons.inj hl
            exact .inr ⟨List.suffix_refl _, ready_sizeStore L⟩
          · obtain ⟨rfl, rfl⟩ := List.cons.inj hl
            refine .inl ⟨c, (List.suffix_cons _ c).trans hc, rfl, ?_⟩
            exact clearing_zero (hc.subset List.mem_cons_self)
        · simp only at hl hr
          exact .inr ⟨(List.suffix_cons _ _).trans hl,
            harmless_setup _ (hl.subset List.mem_cons_self) _ hr⟩

/-- What the client loaded stays what it works with. -/
theorem after_load {x y : InitState} {b : U64} {rest : List Store} (h : L.InitReach now' y x)
    (hy : y.right = .storing b rest) : ∃ rest', x.right = .storing b rest' ∧ rest' <:+ rest := by
  induction h with
  | refl => exact ⟨rest, hy, List.suffix_refl _⟩
  | tail _ hstep ih =>
    obtain ⟨rest', hr, hs⟩ := ih
    cases hstep with
    | left _ => exact ⟨rest', hr, hs⟩
    | right hstep =>
      cases hstep with
      | load _ => cases hr
      | store =>
        cases hr
        exact ⟨_, rfl, (List.suffix_cons _ _).trans hs⟩

/-- From there on a ready segment stays ready, the client having loaded its size. -/
theorem ready_after_load {x y : InitState} (h : L.InitReach now' y x)
    (hleft : y.left <:+ Server.setup L.bufferSize now)
    (hright : y.right = .storing L.bufferSize (Client.stores L.bufferSize now'))
    (hy : Ready L y.shared) :
    x.left <:+ Server.setup L.bufferSize now ∧ Ready L x.shared := by
  induction h with
  | refl => exact ⟨hleft, hy⟩
  | tail hreach hstep ih =>
    obtain ⟨rest, hr, hs⟩ := after_load hreach hright
    cases hstep with
    | left hstep =>
      cases hstep with
      | store =>
        exact ⟨(List.suffix_cons _ _).trans ih.1,
          harmless_setup _ (ih.1.subset List.mem_cons_self) _ ih.2⟩
    | right hstep =>
      cases hstep with
      | load _ => cases hr
      | store =>
        cases hr
        exact ⟨ih.1, harmless_client _ (hs.subset List.mem_cons_self) _ ih.2⟩

/-! ## What a client with the right size stores -/

theorem Ring.pointer_mem_controlWords (r : Ring) (s : Side) (b : Bool) {i : ℕ} (hi : i < 8) :
    r.buffer.controlWords.Holds (r.buffer.pointer s b + BitVec.ofNat 64 i) := by
  have hlt := r.cells_lt
  have hslot := Ring.slot_lt s b
  have hp : r.buffer.producerPointer = r.location + BitVec.ofNat 64 r.cells :=
    r.pointer_eq .producer false
  rw [CircularBuffer.controlWords, hp, r.pointer_eq, BitVec.add_assoc, ← BitVec.ofNat_add,
    Ring.toNat_reserveSize]
  exact Region.holds_of_le (by unfold Ring.wordOffset; omega) (by unfold Ring.wordOffset; omega)
    (by unfold Ring.wordOffset; omega)

theorem client_stores_inside (L : Layout) (now' : Ptime L.sizeofPtime) :
    ∀ w ∈ Client.stores L.bufferSize now', ∀ i < w.bytes.length,
      (⟨(L.header 0).clientTimestamp, L.sizeofPtime.toNat⟩ : Region 64).Holds
          (w.address + BitVec.ofNat 64 i)
        ∨ (L.inbound 0).buffer.controlWords.Holds (w.address + BitVec.ofNat 64 i) := by
  intro w hw i hi
  have hnow := now'.2
  rcases client_store_cases hw with ⟨s, b, rfl⟩ | rfl
  · exact .inr ((L.inbound 0).pointer_mem_controlWords s b (by simpa [Store.word] using hi))
  · refine .inl ?_
    have hlt := L.sizeofPtime.isLt
    change i < now'.1.length at hi
    have hsub : (L.header 0).clientTimestamp + BitVec.ofNat 64 i - (L.header 0).clientTimestamp
        = BitVec.ofNat 64 i := by ring
    change ((L.header 0).clientTimestamp + BitVec.ofNat 64 i - (L.header 0).clientTimestamp).toNat
      < L.sizeofPtime.toNat
    rw [hsub, BitVec.toNat_ofNat, Nat.mod_eq_of_lt (by omega)]
    omega

/-- A client whose load of the buffer size does not find it there cannot end up safe. -/
theorem not_attachedSafely (hy : m = fun _ => 0) {m' : Segment} :
    ¬L.AttachedSafely now' (m.loadWord (L.header 0).bufferSize) m' := by
  intro h
  have hb := h.bufferSize
  have hgt := L.bufferSize_gt
  rw [hy, loadWord_zero] at hb
  rw [← hb] at hgt
  exact absurd hgt (by decide)

/-- Where the client's load comes after the server's store of the buffer size, and only there, the
two calls leave the segment as they should, whatever the order of their other stores. -/
theorem attach_safe_iff (L : Layout) (now now' : Ptime L.sizeofPtime) {x y : InitState} {b : U64}
    (hy : L.InitReach now' (L.initStart now) y) (hload : y.right = .load)
    (hb : b = y.shared.loadWord (L.header 0).bufferSize)
    (hx : L.InitReach now' ⟨y.left, .storing b (Client.stores b now'), y.shared⟩ x)
    (_ : x.left = []) (_ : x.right = .storing b []) :
    L.AttachedSafely now' b x.shared ↔ y.left <:+ Server.setup L.bufferSize now := by
  constructor
  · intro h
    rcases before_load hy hload with ⟨c, -, -, hm⟩ | ⟨hl, -⟩
    · exact absurd (hb ▸ h) (not_attachedSafely hm)
    · exact hl
  · intro hl
    have hready : Ready L y.shared := by
      rcases before_load hy hload with ⟨c, -, hc, -⟩ | ⟨-, hr⟩
      · have hlen := hl.length_le
        rw [hc, List.length_append, List.length_cons] at hlen
        omega
      · exact hr
    obtain rfl : b = L.bufferSize := hb.trans hready.bufferSize
    obtain ⟨-, hr⟩ := ready_after_load hx hl rfl hready
    exact ⟨rfl, ⟨rfl, rfl⟩, client_stores_inside L now', hr.bufferSize, hr.inbound, hr.outbound⟩

/-! ## The two orders, run -/

section Runs

theorem server_run (L : Layout) (now' : Ptime L.sizeofPtime) (rest : List Store) (c : Attach) :
    ∀ (l : List Store) (m : Segment),
      L.InitReach now' ⟨l ++ rest, c, m⟩ ⟨rest, c, Store.applyAll m l⟩
  | [], _ => .refl
  | _ :: l, _ => .head (.left .store) (server_run L now' rest c l _)

theorem client_run (L : Layout) (now' : Ptime L.sizeofPtime) (l : List Store) (b : U64) :
    ∀ (rest : List Store) (m : Segment),
      L.InitReach now' ⟨l, .storing b rest, m⟩ ⟨l, .storing b [], Store.applyAll m rest⟩
  | [], _ => .refl
  | _ :: rest, _ => .head (.right .store) (client_run L now' l b rest _)

theorem finish_run (L : Layout) (now' : Ptime L.sizeofPtime) (l rest : List Store) (b : U64)
    (m : Segment) : ∃ m', L.InitReach now' ⟨l, .storing b rest, m⟩ ⟨[], .storing b [], m'⟩ := by
  have hserver := server_run L now' [] (.storing b []) l (Store.applyAll m rest)
  rw [List.append_nil] at hserver
  exact ⟨_, (client_run L now' l b rest m).trans hserver⟩

def bundledNow : Ptime bundledLayout.sizeofPtime := .zero _

/-- The client attaches right after the size is stored. -/
theorem attach_safe_iff_after : ∃ m b, bundledLayout.AttachedSafely bundledNow b m := by
  have hy := server_run bundledLayout bundledNow
    (Server.setup bundledLayout.bufferSize bundledNow) .load
    (Server.clearing bundledLayout.bufferSize bundledLayout.sizeofPtime
      ++ [Server.sizeStore bundledLayout.bufferSize bundledLayout.sizeofPtime]) fun _ => 0
  rw [List.append_assoc] at hy
  obtain ⟨m', hx⟩ := finish_run bundledLayout bundledNow _ _ _ _
  exact ⟨m', _, (attach_safe_iff bundledLayout bundledNow bundledNow hy rfl rfl hx rfl rfl).2
    (List.suffix_refl _)⟩

/-- The client attaches as soon as the segment can be opened. -/
theorem attach_unsafe_before : ¬∀ (x y : InitState) (b : U64),
    bundledLayout.InitReach bundledNow (bundledLayout.initStart bundledNow) y → y.right = .load →
    b = y.shared.loadWord (bundledLayout.header 0).bufferSize →
    bundledLayout.InitReach bundledNow
      ⟨y.left, .storing b (Client.stores b bundledNow), y.shared⟩ x →
    x.left = [] → x.right = .storing b [] →
      bundledLayout.AttachedSafely bundledNow b x.shared := by
  intro h
  obtain ⟨m', hx⟩ := finish_run bundledLayout bundledNow _ _ _ _
  exact not_attachedSafely rfl (h _ (bundledLayout.initStart bundledNow) _ .refl rfl rfl hx rfl rfl)

end Runs

end MemMapIPC
