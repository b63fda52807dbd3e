import MemMapIPC.Proofs.Queue
import MemMapIPC.Proofs.Succession
import MemMapIPC.TwoRings

/-!
# The two rings do not interfere

A transfer changes the cells it writes and its own side's two words (`changedOnly_put`,
`changedOnly_setCursor`), all of them in its ring, and nothing else of the segment lies there. So
both rings go on representing a queue each (`Held`), and what the operations on one of them return
is what those on its queue do, whatever is done on the other in between.
-/

namespace MemMapIPC

open ByteMemory

section Effects

variable {r : Ring} {m : Segment} {s : Side} {v : U64}

theorem holds_singleton {p a : U64} : (⟨p, 1⟩ : Region 64).Holds a ↔ a = p := by
  constructor
  · intro h
    exact sub_eq_zero.1 (BitVec.eq_of_toNat_eq (Nat.lt_one_iff.1 h))
  · rintro rfl
    simp [Region.Holds]

theorem ChangedOnly.trans {R R' : List (Region 64)} {m₁ m₂ m₃ : Segment}
    (h : ChangedOnly R m₁ m₂) (h' : ChangedOnly R' m₂ m₃) : ChangedOnly (R ++ R') m₁ m₃ := by
  intro a ha
  rw [h' a fun S hS => ha S (List.mem_append_right _ hS),
    h a fun S hS => ha S (List.mem_append_left _ hS)]

theorem Ring.cellsFrom_cons (pos n : ℕ) : r.cellsFrom pos (n + 1)
    = ⟨r.location + BitVec.ofNat 64 (pos % r.cells), 1⟩ :: r.cellsFrom (pos + 1) n := by
  simp only [cellsFrom, List.range_succ_eq_map, List.map_cons, List.map_map, Nat.add_zero,
    List.cons.injEq, true_and]
  refine List.map_congr_left fun i _ => ?_
  rw [Function.comp_apply, Nat.succ_eq_add_one, show pos + (i + 1) = pos + 1 + i by omega]

theorem Ring.changedOnly_put : ∀ (l : List U8) (m : Segment) (pos : ℕ),
    ChangedOnly (r.cellsFrom pos l.length) m (r.put m pos l)
  | [], _, _ => fun _ _ => rfl
  | b :: l, m, pos => by
    intro a ha
    rw [List.length_cons, cellsFrom_cons] at ha
    have hne : ¬a = r.location + BitVec.ofNat 64 (pos % r.cells) := fun he =>
      ha _ List.mem_cons_self (holds_singleton.2 he)
    rw [put, changedOnly_put l _ _ a fun S hS => ha S (List.mem_cons_of_mem _ hS)]
    refine Memory.write_outside m ?_
    rw [List.length_singleton, Nat.one_le_iff_ne_zero]
    intro h0
    exact hne (holds_singleton.1 (Nat.lt_one_iff.2 h0))

theorem Ring.changedOnly_setCursor : ChangedOnly (r.words s) m (r.setCursor m s v) := by
  intro a ha
  have hword : ∀ b, 8 ≤ (a - r.buffer.pointer s b).toNat := fun b =>
    not_lt.1 (ha ⟨r.buffer.pointer s b, 8⟩ (by cases b <;> simp [words]))
  have hstore : ∀ (m : Segment) (b : Bool), m.storeWord (r.buffer.pointer s b) v a = m a :=
    fun m b => Memory.write_outside m (by rw [length_toBytes]; exact hword b)
  rw [setCursor, hstore, hstore]

theorem Ring.outside_put : ∀ (l : List U8) (m : Segment) (pos : ℕ), r.Outside m (r.put m pos l)
  | [], _, _ => outside_refl
  | b :: l, m, pos => by
    intro y hy hlt
    have hcell := Nat.mod_lt pos r.cells_pos
    rw [put, outside_put l _ _ y hy hlt]
    exact outside_write (by rw [List.length_singleton]; omega) y hy hlt

theorem Ring.outside_setCursor : r.Outside m (r.setCursor m s v) := by
  intro y hy hlt
  rw [setCursor, outside_storeWord y hy hlt, outside_storeWord y hy hlt]

theorem Ring.Outside.trans {m₁ m₂ m₃ : Segment} (h : r.Outside m₁ m₂) (h' : r.Outside m₂ m₃) :
    r.Outside m₁ m₃ := fun y hy hlt => (h' y hy hlt).trans (h y hy hlt)

theorem Represents.congr {q : BoundedQueue U8 (r.cells - 1)} {m' : Segment}
    (h : Represents r m q) (hm : r.Same m m') : Represents r m' q := by
  refine ⟨?_, ?_, ?_, ?_, ?_, fun i hi => ?_⟩
  · rw [hm.word, hm.word]
    exact h.producer_second
  · rw [hm.word]
    exact h.producer_lt
  · rw [hm.word, hm.word]
    exact h.consumer_second
  · rw [hm.word]
    exact h.consumer_lt
  · rw [hm.word, hm.word]
    exact h.length
  · rw [hm.word, hm.cell (Nat.mod_lt _ r.cells_pos)]
    exact h.contents i hi

theorem Represents.outside {q : BoundedQueue U8 (r.cells - 1)} (h : Represents r m q) {op : Op}
    (hop : (op.apply q).isSome) {reply : Reply} {m' : Segment}
    (he : op.exec r.buffer m = some (reply, m')) : r.Outside m m' := by
  have hfree := q.available_add_free
  have hlt := h.available_lt
  cases op with
  | free =>
    simp only [Op.exec, Option.map_eq_some_iff, Prod.mk.injEq] at he
    obtain ⟨n, -, -, rfl⟩ := he
    exact Ring.outside_refl
  | available =>
    simp only [Op.exec, Option.map_eq_some_iff, Prod.mk.injEq] at he
    obtain ⟨n, -, -, rfl⟩ := he
    exact Ring.outside_refl
  | write l =>
    rw [Op.apply] at hop
    split_ifs at hop with hl
    · rw [Op.exec, Ring.writeData_eq h.producer_lt (by omega)] at he
      cases he
      exact (Ring.outside_put _ _ _).trans Ring.outside_setCursor
    · cases hop
  | read n =>
    rw [Op.apply] at hop
    split_ifs at hop with hl
    · rw [Op.exec, Ring.readData_eq h.consumer_lt (by omega)] at he
      cases he
      exact Ring.outside_setCursor
    · cases hop

end Effects

section Held

variable {L : Layout} {m m' : Segment}

/-- The size is where clients look for it, and each ring represents its queue. -/
structure Held (L : Layout) (q : ∀ c, BoundedQueue U8 ((L.ring c).cells - 1)) (m : Segment) :
    Prop where
  bufferSize : m.loadWord (L.header 0).bufferSize = L.bufferSize
  represents : ∀ c, Represents (L.ring c) m (q c)

/-- Where ring `c` is from the start of the segment. -/
def Layout.offset (L : Layout) : Channel → ℕ
  | .inbound => headerSize L.sizeofPtime
  | .outbound => headerSize L.sizeofPtime + L.bufferSize.toNat

theorem Layout.ring_eq (L : Layout) (c : Channel) :
    (L.ring c).location = 0 + BitVec.ofNat 64 (L.offset c) := by
  cases c with
  | inbound => exact L.inbound_eq 0
  | outbound => exact L.outbound_eq 0

theorem Layout.ring_size (L : Layout) (c : Channel) : (L.ring c).size = L.bufferSize := by
  cases c <;> rfl

theorem Layout.ring_end (L : Layout) (c : Channel) :
    L.offset c + (L.ring c).size.toNat ≤ 2 ^ 64 := by
  cases c with
  | inbound => exact L.inbound_end
  | outbound => exact L.outbound_end

theorem Layout.headerSize_le (L : Layout) (c : Channel) :
    headerSize L.sizeofPtime ≤ L.offset c := by
  cases c with
  | inbound => exact le_rfl
  | outbound => exact Nat.le_add_right _ _

/-- What is outside ring `c` is the byte at its offset from the start of the segment. -/
theorem Layout.outside_offset (L : Layout) {c : Channel} (h : (L.ring c).Outside m m') {y : ℕ}
    (hy : y < L.offset c ∨ L.offset c + (L.ring c).size.toNat ≤ y) (hlt : y < 2 ^ 64) :
    m' (BitVec.ofNat 64 y) = m (BitVec.ofNat 64 y) := by
  have hend := L.ring_end c
  have hp : BitVec.ofNat 64 y = (L.ring c).location
      + BitVec.ofNat 64 ((2 ^ 64 + y - L.offset c) % 2 ^ 64) := by
    rw [L.ring_eq, zero_add, ← BitVec.ofNat_add]
    apply BitVec.eq_of_toNat_eq
    rw [BitVec.toNat_ofNat, BitVec.toNat_ofNat]
    omega
  rw [hp]
  exact h _ (by omega) (Nat.mod_lt _ (by omega))

theorem Layout.other_same (L : Layout) {c : Channel} (h : (L.ring c).Outside m m') :
    (L.ring c.other).Same m m' := by
  intro y hy
  have hend := L.ring_end c.other
  have hsize := congrArg BitVec.toNat (L.ring_size c)
  have hsize' := congrArg BitVec.toNat (L.ring_size c.other)
  rw [L.ring_eq, zero_add, ← BitVec.ofNat_add]
  refine L.outside_offset h ?_ (by omega)
  cases c <;> simp only [Channel.other, offset] at hy hend hsize hsize' ⊢ <;> omega

theorem Held.header_write {q : ∀ c, BoundedQueue U8 ((L.ring c).cells - 1)} (h : Held L q m)
    {x : ℕ} {l : List U8} (hx : x + l.length + 8 ≤ headerSize L.sizeofPtime) :
    Held L q (m.write (0 + BitVec.ofNat 64 x) l) := by
  refine ⟨by rw [L.bufferSize_write m hx, h.bufferSize], fun c => (h.represents c).congr ?_⟩
  have hle := L.headerSize_le c
  have hend := L.ring_end c
  exact Ring.same_write (L.ring_eq c) hend (by omega) (.inl (by omega))

/-- An operation on ring `c`, done on its queue. -/
theorem Held.exec {q : ∀ c, BoundedQueue U8 ((L.ring c).cells - 1)} (h : Held L q m) {c : Channel}
    {op : Op} {reply : Reply} {q' : BoundedQueue U8 ((L.ring c).cells - 1)}
    (hop : op.apply (q c) = some (reply, q')) :
    ∃ m', op.exec (L.ring c).buffer m = some (reply, m') ∧ (L.ring c).Outside m m'
      ∧ Held L (Function.update q c q') m' := by
  obtain ⟨m', he, hr⟩ := (h.represents c).exec hop
  have hout := (h.represents c).outside (by rw [hop]; rfl) he
  refine ⟨m', he, hout, ?_, fun c' => ?_⟩
  · rw [L.bufferSize_outside (L.ring_eq c) (L.ring_end c) (L.headerSize_le c) hout, h.bufferSize]
  · rcases eq_or_ne c' c with rfl | hne
    · rw [Function.update_self]
      exact hr
    · have hother : c' = c.other := by
        revert hne
        cases c <;> cases c' <;> simp [Channel.other]
      subst hother
      rw [Function.update_of_ne hne]
      exact (h.represents c.other).congr (L.other_same hout)

theorem held_created (L : Layout) (now : Ptime L.sizeofPtime) :
    Held L (fun _ => .empty) (Server.setMemoryID 0 L.bufferSize now fun _ => 0).2 := by
  have hready := ready_setMemoryID L now
  refine ⟨hready.bufferSize, fun c => ?_⟩
  cases c with
  | inbound => exact represents_zero hready.inbound
  | outbound => exact represents_zero hready.outbound

/-- A client's `SetMemoryID` empties the ring it writes to and leaves the other alone. -/
theorem Held.attached {q : ∀ c, BoundedQueue U8 ((L.ring c).cells - 1)} (h : Held L q m)
    (now : Ptime L.sizeofPtime) :
    Held L (Function.update q .inbound .empty) (Client.setMemoryID 0 now m).2 := by
  have hsnd : (Client.setMemoryID 0 now m).2
      = Store.applyAll m (Client.stores (m.loadWord (L.header 0).bufferSize) now) := rfl
  have hclear : Store.applyAll m (Client.stores L.bufferSize now)
      = Memory.write ((L.inbound 0).buffer.clear m) (L.header 0).clientTimestamp now.1 := rfl
  have hlt := L.header_lt
  have hnow := now.2
  have hend := L.ring_end .inbound
  have hle := L.headerSize_le .inbound
  rw [hsnd, h.bufferSize]
  refine ⟨?_, fun c => ?_⟩
  · have hall : ∀ l : List Store, l ⊆ Client.stores L.bufferSize now → ∀ m : Segment,
        (Store.applyAll m l).loadWord (L.header 0).bufferSize
          = m.loadWord (L.header 0).bufferSize := by
      intro l
      induction l with
      | nil => exact fun _ _ => rfl
      | cons w l ih =>
        intro hl m
        rw [Store.applyAll, List.foldl_cons, ← Store.applyAll,
          ih (fun _ hw => hl (List.mem_cons_of_mem _ hw)),
          bufferSize_client (hl List.mem_cons_self)]
    rw [hall _ (List.Subset.refl _), h.bufferSize]
  · cases c with
    | inbound =>
      rw [Function.update_self, hclear, L.clientTimestamp_eq]
      refine represents_zero fun s b => ?_
      rw [(Ring.same_write (r := L.ring .inbound) (L.ring_eq .inbound) hend (by omega)
        (.inl (by omega))).word]
      exact Ring.word_clear s b
    | outbound =>
      rw [Function.update_of_ne (by decide)]
      have hall : ∀ l : List Store, l ⊆ Client.stores L.bufferSize now → ∀ m : Segment,
          (L.outbound 0).Same m (Store.applyAll m l) := by
        intro l
        induction l with
        | nil => exact fun _ _ _ _ => rfl
        | cons w l ih =>
          intro hl m y hy
          rw [Store.applyAll, List.foldl_cons, ← Store.applyAll]
          exact (ih (fun _ hw => hl (List.mem_cons_of_mem _ hw)) _ y hy).trans
            (outbound_same (hl List.mem_cons_self) m y hy)
      exact (h.represents .outbound).congr (hall _ (List.Subset.refl _) m)

theorem Layout.Content.held (h : L.Content m) : ∃ q, Held L q m := by
  induction h with
  | created now => exact ⟨_, held_created L now⟩
  | attached now _ ih =>
    obtain ⟨q, hq⟩ := ih
    exact ⟨_, hq.attached now⟩
  | header _ hx ih =>
    obtain ⟨q, hq⟩ := ih
    exact ⟨q, hq.header_write hx⟩
  | operation c _ hop he ih =>
    obtain ⟨q, hq⟩ := ih
    obtain ⟨⟨reply, q'⟩, ha⟩ := Option.isSome_iff_exists.1 ((hq.represents c).permitted_iff.1 hop)
    obtain ⟨m', he', -, hq'⟩ := hq.exec ha
    cases he'.symm.trans he
    exact ⟨_, hq'⟩

theorem Layout.Spared.of_outside {c : Channel} {s : Side}
    {q : BoundedQueue U8 ((L.ring c).cells - 1)} (hr : Represents (L.ring c) m q)
    (hout : (L.ring c).Outside m m')
    (hw : ∀ b, (L.ring c).word m' s.peer b = (L.ring c).word m s.peer b)
    (hcell : ∀ i < q.available,
      (L.ring c).cell m' ((((L.ring c).word m .consumer false).toNat + i) % (L.ring c).cells)
        = (L.ring c).cell m ((((L.ring c).word m .consumer false).toNat + i) % (L.ring c).cells)) :
    L.Spared c s m m' := by
  refine ⟨fun n hn i hi => ?_, hw, L.other_same hout, fun y hy => ?_⟩
  · obtain ⟨n', hn', hav⟩ := hr.count .consumer 0
    obtain rfl : n' = n := Option.some_inj.1 (hn'.symm.trans hn)
    exact hcell i (hi.trans_eq hav)
  · have hle := L.headerSize_le c
    have hend := L.ring_end c
    exact L.outside_offset hout (.inl (by omega)) (by omega)

/-- A write of what is permitted changes the cells it writes and the producer's words. -/
theorem Layout.Content.write (h : L.Content m) {c : Channel} {l : List U8}
    (hop : (Op.write l).Permitted (L.ring c).buffer m) :
    ∃ m', (L.ring c).buffer.writeData l m = some m'
      ∧ ChangedOnly ((L.ring c).cellsFrom ((L.ring c).word m .producer false).toNat l.length
          ++ (L.ring c).words .producer) m m'
      ∧ L.Spared c .producer m m' := by
  obtain ⟨q, hq⟩ := h.held
  have hr := hq.represents c
  have hsome := hr.permitted_iff.1 hop
  have hl : l.length ≤ (q c).free := by
    by_contra hl
    rw [Op.apply, dif_neg hl] at hsome
    cases hsome
  have hfree := (q c).available_add_free
  have hlt := hr.available_lt
  have hw := Ring.writeData_eq hr.producer_lt (l := l) (by omega)
  obtain ⟨m', hm', hr'⟩ := hr.writeData hl
  obtain rfl := Option.some_inj.1 (hw.symm.trans hm')
  have hwords : ∀ v b, (L.ring c).word ((L.ring c).setCursor ((L.ring c).put m
      ((L.ring c).word m .producer false).toNat l) .producer v) Side.consumer b
        = (L.ring c).word m .consumer b :=
    fun v b => (Ring.word_setCursor_of_ne (by decide) b).trans (Ring.word_put _ _ _ _ _)
  refine ⟨_, hw, (Ring.changedOnly_put l m _).trans Ring.changedOnly_setCursor,
    .of_outside hr ((Ring.outside_put _ _ _).trans Ring.outside_setCursor) (hwords _)
      fun i hi => ?_⟩
  have hi' : i < ((q c).push l hl).contents.length := by
    rw [BoundedQueue.contents_push, List.length_append]
    exact Nat.lt_add_right _ hi
  have hcell := hr'.contents i hi'
  rw [hwords] at hcell
  rw [hcell, hr.contents i hi]
  exact List.getElem_append_left hi

/-- A read of what is permitted changes the consumer's words. -/
theorem Layout.Content.read (h : L.Content m) {c : Channel} {n : U64}
    (hop : (Op.read n).Permitted (L.ring c).buffer m) :
    ∃ dataSink m', (L.ring c).buffer.readData n m = some (dataSink, m')
      ∧ ChangedOnly ((L.ring c).words .consumer) m m' ∧ L.Spared c .consumer m m' := by
  obtain ⟨q, hq⟩ := h.held
  have hr := hq.represents c
  have hsome := hr.permitted_iff.1 hop
  have hl : n.toNat ≤ (q c).available := by
    by_contra hl
    rw [Op.apply, if_neg hl] at hsome
    cases hsome
  have hlt := hr.available_lt
  exact ⟨_, _, Ring.readData_eq hr.consumer_lt (by omega), Ring.changedOnly_setCursor,
    .of_outside hr Ring.outside_setCursor (fun b => Ring.word_setCursor_of_ne (by decide) b)
      fun i _ => Ring.cell_setCursor (Nat.mod_lt _ (L.ring c).cells_pos)⟩

end Held

section Runs

variable {L : Layout} {m m' : Segment}

theorem Channel.on_cons_self {α : Type*} (c : Channel) (a : α) (l : List (Channel × α)) :
    c.on ((c, a) :: l) = a :: c.on l := by
  simp [Channel.on]

theorem Channel.on_cons_of_ne {α : Type*} {c c' : Channel} (h : c' ≠ c) (a : α)
    (l : List (Channel × α)) : c.on ((c', a) :: l) = c.on l := by
  simp [Channel.on, h]

/-- On each ring a run does what its operations there do to the ring's queue. -/
theorem Held.runOps : ∀ {ops : List (Channel × Op)} {m : Segment}
    {q : ∀ c, BoundedQueue U8 ((L.ring c).cells - 1)}, Held L q m → L.Session ops m →
      ∃ replies m' q', L.runOps ops m = some (replies, m') ∧ Held L q' m'
        ∧ ∀ c, MemMapIPC.runOps Op.apply (c.on ops) (q c) = some (c.on replies, q' c)
  | [], m, q, h, _ => ⟨[], m, q, rfl, h, fun _ => rfl⟩
  | (d, op) :: ops, m, q, h, hs => by
    obtain ⟨hop, hrest⟩ := hs
    obtain ⟨⟨reply, q₁⟩, ha⟩ := Option.isSome_iff_exists.1 ((h.represents d).permitted_iff.1 hop)
    obtain ⟨m₁, he, -, h₁⟩ := h.exec ha
    obtain ⟨replies, m₂, q₂, he₂, h₂, ha₂⟩ := Held.runOps h₁ (hrest _ _ he)
    refine ⟨(d, reply) :: replies, m₂, q₂, ?_, h₂, fun c => ?_⟩
    · simp [Layout.runOps, he, he₂]
    · have hc := ha₂ c
      rcases eq_or_ne d c with rfl | hne
      · rw [Function.update_self] at hc
        rw [Channel.on_cons_self, Channel.on_cons_self]
        simp [MemMapIPC.runOps, ha, hc]
      · rw [Function.update_of_ne hne.symm] at hc
        rw [Channel.on_cons_of_ne hne, Channel.on_cons_of_ne hne]
        exact hc

/-- Operations the queues permit are permitted on the rings. -/
theorem Held.session : ∀ {ops : List (Channel × Op)} {m : Segment}
    {q : ∀ c, BoundedQueue U8 ((L.ring c).cells - 1)}, Held L q m →
      (∀ c, (MemMapIPC.runOps Op.apply (c.on ops) (q c)).isSome) → L.Session ops m
  | [], _, _, _, _ => trivial
  | (d, op) :: ops, m, q, h, hops => by
    have hd := hops d
    rw [Channel.on_cons_self] at hd
    rcases ha : op.apply (q d) with _ | ⟨reply, q₁⟩
    · simp [MemMapIPC.runOps, ha] at hd
    · refine ⟨(h.represents d).permitted_iff.2 (by rw [ha]; rfl), fun reply' m' he => ?_⟩
      obtain ⟨m₁, he₁, -, h₁⟩ := h.exec ha
      obtain ⟨-, rfl⟩ := Prod.mk.inj (Option.some_inj.1 (he₁.symm.trans he))
      refine h₁.session fun c => ?_
      rcases eq_or_ne d c with rfl | hne
      · rw [Function.update_self]
        rcases hr : MemMapIPC.runOps Op.apply (d.on ops) q₁ with _ | _
        · simp [MemMapIPC.runOps, ha, hr] at hd
        · rfl
      · have hc := hops c
        rw [Channel.on_cons_of_ne hne] at hc
        rwa [Function.update_of_ne hne.symm]

theorem Layout.Content.runOps : ∀ {ops : List (Channel × Op)} {m m' : Segment}
    {replies : List (Channel × Reply)}, L.Content m → L.Session ops m →
      L.runOps ops m = some (replies, m') → L.Content m'
  | [], m, m', replies, h, _, hrun => by
    obtain ⟨-, rfl⟩ := Prod.mk.inj (Option.some_inj.1 hrun)
    exact h
  | (c, op) :: ops, m, m', replies, h, ⟨hop, hrest⟩, hrun => by
    obtain ⟨⟨reply, m₁⟩, he, hrun⟩ := Option.bind_eq_some_iff.1 hrun
    obtain ⟨⟨rest, m₂⟩, hops, hm⟩ := Option.bind_eq_some_iff.1 hrun
    obtain ⟨-, rfl⟩ := Prod.mk.inj (Option.some_inj.1 hm)
    exact Layout.Content.runOps (h.operation c hop he) (hrest _ _ he) hops

/-- Whatever the segment holds, a transfer changes the cells it writes, if any, and its own side's
words, and leaves all else; so of two runs that do the same on one ring, whatever they do on the
other, both get the same there. -/
theorem rings_do_not_interfere (L : Layout) {m : Segment} (h : L.Content m) :
    (∀ c l, (Op.write l).Permitted (L.ring c).buffer m →
      ∃ m', (L.ring c).buffer.writeData l m = some m'
        ∧ ChangedOnly ((L.ring c).cellsFrom ((L.ring c).word m .producer false).toNat l.length
            ++ (L.ring c).words .producer) m m'
        ∧ L.Spared c .producer m m')
      ∧ (∀ c n, (Op.read n).Permitted (L.ring c).buffer m →
        ∃ dataSink m', (L.ring c).buffer.readData n m = some (dataSink, m')
          ∧ ChangedOnly ((L.ring c).words .consumer) m m' ∧ L.Spared c .consumer m m')
      ∧ ∀ c ops ops' m', L.Content m' → (L.ring c).Same m m' → c.on ops = c.on ops' →
        L.Session ops m → L.Session ops' m' →
          ∃ replies replies' m₁ m₁', L.runOps ops m = some (replies, m₁)
            ∧ L.runOps ops' m' = some (replies', m₁') ∧ c.on replies = c.on replies' := by
  refine ⟨fun c l hop => h.write hop, fun c n hop => h.read hop,
    fun c ops ops' m' h' hsame hops hs hs' => ?_⟩
  obtain ⟨q, hq⟩ := h.held
  obtain ⟨q', hq'⟩ := h'.held
  have hq'' : Held L (Function.update q' c (q c)) m' := by
    refine ⟨hq'.bufferSize, fun d => ?_⟩
    rcases eq_or_ne d c with rfl | hne
    · rw [Function.update_self]
      exact (hq.represents d).congr hsame
    · rw [Function.update_of_ne hne]
      exact hq'.represents d
  obtain ⟨replies, m₁, q₁, hr, -, ha⟩ := hq.runOps hs
  obtain ⟨replies', m₁', q₁', hr', -, ha'⟩ := hq''.runOps hs'
  refine ⟨replies, replies', m₁, m₁', hr, hr', ?_⟩
  have hc := ha c
  have hc' := ha' c
  rw [Function.update_self, ← hops, hc, Option.some_inj, Prod.mk.injEq] at hc'
  exact hc'.1

def smallContent : Segment :=
  (Server.setMemoryID 0 smallLayout.bufferSize (.zero smallLayout.sizeofPtime) fun _ => 0).2

/-- Both cursors of the outbound ring come near the end of its cells. -/
def smallOps : List (Channel × Op) :=
  [(.outbound, .write [1, 2, 3, 4, 5, 6]), (.outbound, .read 6), (.inbound, .write [7]),
    (.outbound, .write [8])]

theorem smallOps_run : (smallLayout.runOps smallOps smallContent).map (fun q =>
    (((smallLayout.ring .outbound).word q.2 .producer false).toNat,
      ((smallLayout.ring .outbound).word q.2 .consumer false).toNat)) = some (7, 6) := by
  decide +kernel

/-- A write and a read that both go around the end of the cells. -/
theorem rings_do_not_interfere_small : ∃ m m' : Segment, smallLayout.Content m
    ∧ ((smallLayout.ring .outbound).word m .producer false).toNat = 7
    ∧ (smallLayout.ring .outbound).buffer.writeData [9, 10, 11] m = some m'
    ∧ smallLayout.Spared .outbound .producer m m'
    ∧ (∃ dataSink m₁, (smallLayout.ring .outbound).buffer.readData 4 m' = some (dataSink, m₁)
      ∧ smallLayout.Spared .outbound .consumer m' m₁)
    ∧ ∃ replies replies' m₁ m₁',
      smallLayout.runOps [(.outbound, .write [9, 10, 11]), (.inbound, .read 1)] m
          = some (replies, m₁)
        ∧ smallLayout.runOps [(.inbound, .read 1), (.outbound, .read 4)] m' = some (replies', m₁')
        ∧ Channel.inbound.on replies = Channel.inbound.on replies' := by
  obtain ⟨⟨replies₀, m⟩, hrun, hwords⟩ := Option.map_eq_some_iff.1 smallOps_run
  have hcreated := held_created smallLayout (.zero _)
  have hsession : smallLayout.Session smallOps smallContent :=
    hcreated.session fun c => by cases c <;> decide
  have hcontent : smallLayout.Content m := .runOps (.created _) hsession hrun
  obtain ⟨replies₁, m₁, q, hrun₁, hq, hops⟩ := hcreated.runOps hsession
  obtain ⟨-, rfl⟩ := Prod.mk.inj (Option.some_inj.1 (hrun.symm.trans hrun₁))
  have hout : q .outbound = ⟨[8], by decide⟩ :=
    (Prod.mk.inj (Option.some_inj.1 (hops .outbound))).2.symm
  have hin : q .inbound = ⟨[7], by decide⟩ :=
    (Prod.mk.inj (Option.some_inj.1 (hops .inbound))).2.symm
  have hwrite : (Op.write [9, 10, 11]).Permitted (smallLayout.ring .outbound).buffer m :=
    (hq.represents .outbound).permitted_iff.2 (by rw [hout]; decide)
  obtain ⟨hw, -, hboth⟩ := rings_do_not_interfere smallLayout hcontent
  obtain ⟨m', hm', -, hspared⟩ := hw .outbound [9, 10, 11] hwrite
  have hpush : (Op.write [9, 10, 11]).apply (q .outbound)
      = some (.written, ⟨[8, 9, 10, 11], by decide⟩) := by
    rw [hout]
    rfl
  obtain ⟨m₂, he, -, hq'⟩ := hq.exec hpush
  obtain rfl : m' = m₂ := by
    rw [Op.exec, hm'] at he
    exact (Prod.mk.inj (Option.some_inj.1 he)).2
  have hcontent' : smallLayout.Content m' := hcontent.operation .outbound hwrite he
  have hread : (Op.read 4).Permitted (smallLayout.ring .outbound).buffer m' :=
    (hq'.represents .outbound).permitted_iff.2 (by rw [Function.update_self]; decide)
  obtain ⟨-, hr, -⟩ := rings_do_not_interfere smallLayout hcontent'
  obtain ⟨dataSink, m₃, hm₃, -, hspared'⟩ := hr .outbound 4 hread
  refine ⟨m, m', hcontent, (Prod.mk.inj hwords).1, hm', hspared, ⟨dataSink, m₃, hm₃, hspared'⟩,
    hboth .inbound _ _ m' hcontent' hspared.other rfl (hq.session fun c => ?_)
      (hq'.session fun c => ?_)⟩
  · cases c
    · rw [hin]
      decide
    · rw [hout]
      decide
  · cases c
    · rw [Function.update_of_ne (by decide), hin]
      decide
    · rw [Function.update_self]
      decide

end Runs

end MemMapIPC
