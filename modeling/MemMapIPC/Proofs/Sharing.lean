import MemMapIPC.Proofs.Cursor

/-!
# What each side of a ring may rely on

`Sound` is what holds of a ring's words, cells and history whoever moves next: each first word is
its side's position, and every byte copied in and not yet released is in its cell. `Own` adds what
a side knows at each point of its calls, and `Keeps` is what the other side's steps leave it. Each
side keeps its own `Own` and the other's `Keeps` (`ringStep_guarantees`), and `Own` stands under
`Keeps` (`own_stable`), so both sides' hold through every interleaving.
-/

namespace MemMapIPC

open ByteMemory Interleaving

theorem Side.peer_ne (s : Side) : s.peer ≠ s := by cases s <;> decide

section Invariant

variable (r : Ring)

def limit (σ : Shared) (s : Side) : ℕ := r.reach s (σ.advanced s.peer)

structure Sound (σ : Shared) : Prop where
  first : ∀ s, (r.word σ.mem s false).toNat = σ.advanced s % r.cells
  second : ∀ s, (r.word σ.mem s true).toNat < r.cells
  advanced_le : ∀ s, σ.advanced s ≤ (σ.moved s).length
  moved_le : ∀ s, (σ.moved s).length ≤ limit r σ s
  delivered : σ.moved .consumer <+: σ.moved .producer
  data : ∀ j (h : j < (σ.moved .producer).length), σ.advanced .consumer ≤ j →
    r.cell σ.mem (j % r.cells) = (σ.moved .producer)[j]

variable (s : Side) (σ : Shared)

/-- Side `s` has copied nothing its cursor is not past, and its two words agree. -/
def Settled : Prop :=
  (σ.moved s).length = σ.advanced s ∧ (r.word σ.mem s true).toNat = σ.advanced s % r.cells

/-- `v` is a position the peer has been at, and one the side is within reach of. -/
def Seen (v : U64) : Prop :=
  ∃ q ≤ σ.advanced s.peer, v.toNat = q % r.cells ∧ σ.advanced s ≤ r.reach s q

/-- The transfer of `now` bytes up to the end of the cells at most, and `later` after wrapping. -/
def Chunk (now later : U64) : Prop :=
  σ.advanced s + now.toNat + later.toNat ≤ limit r σ s
    ∧ σ.advanced s % r.cells + now.toNat ≤ r.cells
    ∧ (later ≠ 0 → σ.advanced s % r.cells + now.toNat = r.cells)

def Remains (source : List U8) (n : ℕ) : Prop := s = .producer → source.length = n

/-- What side `s` knows where it is in its call. -/
def At (source : List U8) : Option Call → Prop
  | none => Settled r s σ ∧ Remains s source 0
  | some .loadSecond => Settled r s σ ∧ Remains s source 0
  | some (.loadFirst _) => Settled r s σ ∧ Remains s source 0
  | some (.compare v) => Settled r s σ ∧ Remains s source 0 ∧ Seen r s σ v
  | some (.subtract v isAhead) => Settled r s σ ∧ Remains s source 0 ∧ Seen r s σ v
      ∧ isAhead = CircularBuffer.ahead s v (r.word σ.mem s false)
  | some (.span n) => Settled r s σ ∧ Remains s source n.toNat
      ∧ σ.advanced s + n.toNat ≤ limit r σ s
  | some (.address now later) => Settled r s σ ∧ Remains s source (now.toNat + later.toNat)
      ∧ Chunk r s σ now later
  | some (.copy cell i now later) =>
      cell = r.location + BitVec.ofNat 64 (σ.advanced s % r.cells) ∧ i ≤ now.toNat
        ∧ (σ.moved s).length = σ.advanced s + i
        ∧ Remains s source (now.toNat - i + later.toNat) ∧ Chunk r s σ now later
  | some (.publish v later) => v.toNat = (σ.moved s).length % r.cells
      ∧ Remains s source later.toNat ∧ (σ.moved s).length + later.toNat ≤ limit r σ s
      ∧ (later ≠ 0 → v = 0)
  | some (.publishSecond v later) => (σ.moved s).length = σ.advanced s
      ∧ v.toNat = σ.advanced s % r.cells ∧ Remains s source later.toNat
      ∧ σ.advanced s + later.toNat ≤ limit r σ s ∧ (later ≠ 0 → v = 0)

/-- The call is past the count, in a transfer. -/
def Call.transfers : Call → Bool
  | .loadSecond | .loadFirst _ | .compare _ | .subtract _ _ => false
  | _ => true

/-- What side `s` knows, its locals being `p`. -/
structure Own (p : Party) : Prop where
  sound : Sound r σ
  last : σ.advanced s + p.last.toNat ≤ limit r σ s
  spent : ∀ c, p.call = some c → c.transfers → p.last = 0
  sent : s = .producer → σ.sent = σ.moved .producer ++ p.source
  at_call : At r s σ p.source p.call

/-- What a change from `σ` to `σ'` has to leave side `s` for what it knows to stand. -/
structure Leaves (σ' : Shared) : Prop where
  sound : Sound r σ'
  word : ∀ b, r.word σ'.mem s b = r.word σ.mem s b
  moved : σ'.moved s = σ.moved s
  advanced : σ'.advanced s = σ.advanced s
  advanced_peer : σ.advanced s.peer ≤ σ'.advanced s.peer
  sent : s = .producer → σ'.sent = σ.sent

/-- What the change from `σ` to `σ'` by the other side leaves side `s`. -/
structure Keeps (σ' : Shared) : Prop extends Leaves r s σ σ' where
  outside : r.Outside σ.mem σ'.mem

end Invariant

variable {r : Ring} {s : Side} {σ σ' : Shared} {p p' : Party}

section Access

variable {cb : CircularBuffer} {c c' : Call}

theorem Party.move_resume (hm : p.move cb s c σ = some (p', σ')) :
    ∃ v source, { p with source := source }.resume (c.next cb s v) = some p' := by
  rcases hacc : c.access cb s with a | ⟨a, v⟩ | a | a
  · simp only [Party.move_of_load hacc, Option.map_eq_some_iff, Prod.mk.injEq] at hm
    obtain ⟨q, hq, rfl, -⟩ := hm
    exact ⟨_, p.source, hq⟩
  · simp only [Party.move_of_store hacc, Option.map_eq_some_iff, Prod.mk.injEq] at hm
    obtain ⟨q, hq, rfl, -⟩ := hm
    exact ⟨_, p.source, hq⟩
  · simp only [Party.move_of_get hacc, Option.map_eq_some_iff, Prod.mk.injEq] at hm
    obtain ⟨q, hq, rfl, -⟩ := hm
    exact ⟨_, p.source, hq⟩
  · rcases hb : p.source with _ | ⟨b, rest⟩
    · simp [Party.move, hacc, hb] at hm
    · simp only [Party.move_of_put hacc hb, Option.map_eq_some_iff, Prod.mk.injEq] at hm
      obtain ⟨q, hq, rfl, -⟩ := hm
      exact ⟨_, rest, hq⟩

theorem Call.transfers_next {v : U64} (h : c.next cb s v = .more c') :
    c'.transfers = c.transfers := by
  cases c <;> simp only [Call.next] at h
  case copy cell i now later =>
    split_ifs at h
    · cases h
      rfl
    · split at h <;> cases h
      rfl
  case publishSecond v later =>
    split_ifs at h
    cases h
    rfl
  case loadFirst w =>
    obtain rfl := Outcome.more.inj h
    split_ifs
    · rfl
    · rfl
  case span n =>
    obtain rfl := Outcome.more.inj h
    split_ifs
    · rfl
    · rfl
  case subtract w isAhead => cases h
  all_goals
    obtain rfl := Outcome.more.inj h
    rfl

theorem Party.move_of_not_transfers (hc : c.transfers = false)
    (hm : p.move cb s c σ = some (p', σ')) : σ' = σ := by
  have hload : ∃ a, c.access cb s = .load a := by
    cases c <;> first | exact ⟨_, rfl⟩ | cases hc
  obtain ⟨a, ha⟩ := hload
  simp only [Party.move_of_load ha, Option.map_eq_some_iff, Prod.mk.injEq] at hm
  obtain ⟨q, -, -, rfl⟩ := hm
  rfl

end Access

theorem Sound.limit_le (h : Sound r σ) (s : Side) :
    limit r σ s ≤ σ.advanced s + (r.cells - 1) := by
  have hc := h.moved_le .consumer
  have hp := h.moved_le .producer
  have hc' := h.advanced_le .consumer
  have hp' := h.advanced_le .producer
  simp only [limit, Ring.reach, Side.peer] at hc hp
  cases s <;> simp only [limit, Ring.reach, Side.peer] <;> omega

theorem Sound.first_lt (h : Sound r σ) (s : Side) :
    (r.word σ.mem s false).toNat < r.cells := by
  rw [h.first]
  exact Nat.mod_lt _ r.cells_pos

/-! ## What the other side's steps leave -/

section Stable

theorem Leaves.limit_le (h : Leaves r s σ σ') : limit r σ s ≤ limit r σ' s :=
  r.reach_mono s h.advanced_peer

theorem Leaves.settled (h : Leaves r s σ σ') (hs : Settled r s σ) : Settled r s σ' := by
  simpa only [Settled, h.moved, h.advanced, h.word] using hs

theorem Leaves.seen (h : Leaves r s σ σ') {v : U64} (hv : Seen r s σ v) : Seen r s σ' v := by
  obtain ⟨q, hq, hv, hle⟩ := hv
  exact ⟨q, hq.trans h.advanced_peer, hv, h.advanced ▸ hle⟩

theorem Leaves.chunk (h : Leaves r s σ σ') {now later : U64} (hc : Chunk r s σ now later) :
    Chunk r s σ' now later := by
  have hl := h.limit_le
  simp only [Chunk, h.advanced]
  exact ⟨hc.1.trans hl, hc.2⟩

theorem own_leaves : Stable (fun p σ => Own r s σ p) (Leaves r s) := by
  intro p σ σ' h k
  have hl := k.limit_le
  refine ⟨k.sound, ?_, h.spent, fun hs => ?_, ?_⟩
  · rw [k.advanced]
    exact h.last.trans hl
  · subst hs
    rw [k.sent rfl, k.moved]
    exact h.sent rfl
  · have ha := h.at_call
    revert ha
    rcases p.call with _ | c
    · exact fun ⟨h1, h2⟩ => ⟨k.settled h1, h2⟩
    cases c with
    | loadSecond => exact fun ⟨h1, h2⟩ => ⟨k.settled h1, h2⟩
    | loadFirst v => exact fun ⟨h1, h2⟩ => ⟨k.settled h1, h2⟩
    | compare v => exact fun ⟨h1, h2, h3⟩ => ⟨k.settled h1, h2, k.seen h3⟩
    | subtract v isAhead =>
      exact fun ⟨h1, h2, h3, h4⟩ => ⟨k.settled h1, h2, k.seen h3, by rw [k.word]; exact h4⟩
    | span n =>
      exact fun ⟨h1, h2, h3⟩ => ⟨k.settled h1, h2, by rw [k.advanced]; exact h3.trans hl⟩
    | address now later => exact fun ⟨h1, h2, h3⟩ => ⟨k.settled h1, h2, k.chunk h3⟩
    | copy cell i now later =>
      rintro ⟨h1, h2, h3, h4, h5⟩
      exact ⟨by rw [k.advanced]; exact h1, h2, by rw [k.moved, k.advanced]; exact h3, h4,
        k.chunk h5⟩
    | publish v later =>
      rintro ⟨h1, h2, h3, h4⟩
      exact ⟨by rw [k.moved]; exact h1, h2, by rw [k.moved]; exact h3.trans hl, h4⟩
    | publishSecond v later =>
      rintro ⟨h1, h2, h3, h4, h5⟩
      exact ⟨by rw [k.moved, k.advanced]; exact h1, by rw [k.advanced]; exact h2, h3,
        by rw [k.advanced]; exact h4.trans hl, h5⟩

theorem own_stable : Stable (fun p σ => Own r s σ p) (Keeps r s) :=
  fun p σ σ' h k => own_leaves p σ σ' h k.toLeaves

/-- A change to the rest of the segment leaves the ring as it is. -/
theorem Sound.leaves_congr (h : Sound r σ) {m : Segment}
    (hw : ∀ s b, r.word m s b = r.word σ.mem s b) (hc : ∀ i < r.cells, r.cell m i = r.cell σ.mem i)
    (s : Side) : Leaves r s σ { σ with mem := m } := by
  refine ⟨⟨fun t => ?_, fun t => ?_, h.advanced_le, h.moved_le, h.delivered, fun j hj hle => ?_⟩,
    fun b => hw s b, rfl, rfl, le_rfl, fun _ => rfl⟩
  · rw [hw]
    exact h.first t
  · rw [hw]
    exact h.second t
  · rw [hc _ (Nat.mod_lt _ r.cells_pos)]
    exact h.data j hj hle

theorem Sound.leaves_same (h : Sound r σ) {m : Segment} (hm : r.Same σ.mem m) (s : Side) :
    Leaves r s σ { σ with mem := m } :=
  h.leaves_congr hm.word (fun _ hi => hm.cell hi) s

end Stable

/-! ## What a side's own steps do -/

section Steps

theorem Sound.keeps_refl (h : Sound r σ) : Keeps r s σ σ :=
  ⟨⟨h, fun _ => rfl, rfl, rfl, le_rfl, fun _ => rfl⟩, Ring.outside_refl⟩

theorem Sound.publish (h : Sound r σ) {v : U64} (later : U64)
    (hv : v.toNat = (σ.moved s).length % r.cells) :
    Keeps r s.peer σ { σ.advance s (.publish v later) with
      mem := σ.mem.storeWord (r.buffer.pointer s false) v } := by
  have hadv : ∀ t, σ.advanced t ≤ Function.update σ.advanced s (σ.moved s).length t := by
    intro t
    rcases eq_or_ne t s with rfl | ht
    · rw [Function.update_self]
      exact h.advanced_le t
    · rw [Function.update_of_ne ht]
  have hpeer : Function.update σ.advanced s (σ.moved s).length s.peer = σ.advanced s.peer :=
    Function.update_of_ne s.peer_ne _ _
  refine ⟨⟨⟨fun t => ?_, fun t => ?_, fun t => ?_, fun t => ?_, h.delivered, fun j hj hle => ?_⟩,
    fun b => ?_, rfl, hpeer, hadv _, fun _ => rfl⟩, Ring.outside_storeWord⟩
  · rcases eq_or_ne t s with rfl | ht
    · simpa [Shared.advance] using hv
    · simpa [Shared.advance, Function.update_of_ne ht, Ring.word_storeWord_of_ne, ht]
        using h.first t
  · simpa [Shared.advance, Ring.word_storeWord_of_ne] using h.second t
  · rcases eq_or_ne t s with rfl | ht
    · simp [Shared.advance]
    · simpa [Shared.advance, Function.update_of_ne ht] using h.advanced_le t
  · exact (h.moved_le t).trans (r.reach_mono t (hadv t.peer))
  · rw [Ring.cell_storeWord (Nat.mod_lt _ r.cells_pos)]
    exact h.data j hj ((hadv .consumer).trans hle)
  · exact Ring.word_storeWord_of_ne fun he => s.peer_ne (Prod.ext_iff.1 he).1

theorem Sound.publishSecond (h : Sound r σ) {v : U64} (hv : v.toNat < r.cells) :
    Keeps r s.peer σ { σ with mem := σ.mem.storeWord (r.buffer.pointer s true) v } := by
  refine ⟨⟨⟨fun t => ?_, fun t => ?_, h.advanced_le, h.moved_le, h.delivered, fun j hj hle => ?_⟩,
    fun b => ?_, rfl, rfl, le_rfl, fun _ => rfl⟩, Ring.outside_storeWord⟩
  · rw [Ring.word_storeWord_of_ne (by simp)]
    exact h.first t
  · rcases eq_or_ne t s with rfl | ht
    · rw [Ring.word_storeWord_same]
      exact hv
    · rw [Ring.word_storeWord_of_ne (by simp [ht])]
      exact h.second t
  · rw [Ring.cell_storeWord (Nat.mod_lt _ r.cells_pos)]
    exact h.data j hj hle
  · exact Ring.word_storeWord_of_ne fun he => s.peer_ne (Prod.ext_iff.1 he).1

theorem Sound.copyIn (h : Sound r σ) (b : U8)
    (hlt : (σ.moved .producer).length < limit r σ .producer) :
    Keeps r .consumer σ { σ.copied .producer b with
      mem := σ.mem.write
        (r.location + BitVec.ofNat 64 ((σ.moved .producer).length % r.cells)) [b] } := by
  have hpos := r.cells_pos
  have hcell : (σ.moved .producer).length % r.cells < r.cells := Nat.mod_lt _ hpos
  have hword : ∀ t k, r.word (Memory.write σ.mem
      (r.location + BitVec.ofNat 64 ((σ.moved .producer).length % r.cells)) [b]) t k
        = r.word σ.mem t k := fun t k => Ring.word_write (by simpa using hcell)
  refine ⟨⟨⟨fun t => ?_, fun t => ?_, fun t => ?_, fun t => ?_, ?_, fun j hj hle => ?_⟩,
    fun k => hword _ _, by simp [Shared.copied], rfl, le_rfl, fun _ => rfl⟩,
    Ring.outside_write (by simpa using hcell)⟩
  · rw [hword]
    exact h.first t
  · rw [hword]
    exact h.second t
  · have := h.advanced_le t
    cases t <;> simp [Shared.copied] <;> omega
  · have := h.moved_le t
    cases t
    · simpa [Shared.copied, limit] using hlt
    · simpa [Shared.copied, limit] using this
  · simpa [Shared.copied] using h.delivered.trans (List.prefix_append _ [b])
  · change σ.advanced .consumer ≤ j at hle
    simp only [Shared.copied, Function.update_self] at hj ⊢
    rw [Ring.cell_write (by simpa using hcell) (Nat.mod_lt _ hpos)]
    simp only [List.length_append, List.length_singleton] at hj
    rcases Nat.lt_or_ge j (σ.moved .producer).length with hj' | hj'
    · have hne : j % r.cells ≠ (σ.moved .producer).length % r.cells := by
        simp only [limit, Ring.reach, Side.peer] at hlt
        exact Cyclic.mod_ne_of_lt hj' (by omega)
      rw [List.getElem_append_left hj', h.data j hj' hle]
      split_ifs with hc
      · exact List.getD_eq_default _ _ (by simp; omega)
      · rfl
    · obtain rfl : j = (σ.moved .producer).length := by omega
      simp

theorem Sound.copyOut (h : Sound r σ)
    (hlt : (σ.moved .consumer).length < limit r σ .consumer) :
    Keeps r .producer σ
      (σ.copied .consumer (r.cell σ.mem ((σ.moved .consumer).length % r.cells))) := by
  have hle : (σ.moved .consumer).length < (σ.moved .producer).length := by
    have := h.advanced_le .producer
    simp only [limit, Ring.reach, Side.peer] at hlt
    omega
  refine ⟨⟨⟨h.first, h.second, fun t => ?_, fun t => ?_, ?_, fun j hj hc => ?_⟩, fun _ => rfl,
    by simp [Shared.copied], rfl, le_rfl, fun _ => rfl⟩, Ring.outside_refl⟩
  · have := h.advanced_le t
    cases t <;> simp [Shared.copied] <;> omega
  · have := h.moved_le t
    cases t
    · simpa [Shared.copied, limit] using this
    · simpa [Shared.copied, limit] using hlt
  · rw [h.data _ hle (h.advanced_le .consumer)]
    obtain ⟨rest, hrest⟩ := h.delivered
    simp only [Shared.copied, Function.update_self, ne_eq, reduceCtorEq, not_false_eq_true,
      Function.update_of_ne]
    rw [List.prefix_iff_eq_take, List.length_append, List.length_singleton]
    rw [← List.take_append_getElem hle, ← List.prefix_iff_eq_take.1 h.delivered]
  · simpa [Shared.copied] using h.data j (by simpa [Shared.copied] using hj) hc

theorem Own.goto (h : Own r s σ p) {c c' : Call} (hc : p.call = some c)
    (ht : c'.transfers = c.transfers) (ha : At r s σ p.source (some c')) :
    Own r s σ { p with call := some c' } ∧ Keeps r s.peer σ σ := by
  refine ⟨⟨h.sound, h.last, fun d hd => ?_, h.sent, ha⟩, h.sound.keeps_refl⟩
  cases hd
  rw [ht]
  exact h.spent c hc

theorem Own.move_load (h : Own r s σ p) {c : Call} (hc : p.call = some c) {a : U64}
    (ha : c.access r.buffer s = .load a)
    (hm : (p.resume (c.next r.buffer s (σ.mem.loadWord a))).map (fun p' => (p', σ))
      = some (p', σ')) : Own r s σ' p' ∧ Keeps r s.peer σ σ' := by
  have hat := h.at_call
  rw [hc] at hat
  cases c with
  | loadSecond =>
    simp only [Call.next, Party.resume, Option.map_some, Option.some.injEq, Prod.mk.injEq] at hm
    obtain ⟨rfl, rfl⟩ := hm
    exact h.goto hc rfl hat
  | loadFirst v =>
    simp only [Call.access, Access.load.injEq] at ha
    subst ha
    simp only [Call.next, Party.resume, Option.map_some, Option.some.injEq, Prod.mk.injEq] at hm
    obtain ⟨rfl, rfl⟩ := hm
    split_ifs with hv
    · exact h.goto hc rfl hat
    · rw [not_not] at hv
      refine h.goto hc rfl ⟨hat.1, hat.2, σ.advanced s.peer, le_rfl, ?_, ?_⟩
      · rw [hv]
        exact h.sound.first s.peer
      · exact (Nat.le_add_right _ _).trans h.last
  | compare v =>
    simp only [Call.access, Access.load.injEq] at ha
    subst ha
    simp only [Call.next, Party.resume, Option.map_some, Option.some.injEq, Prod.mk.injEq] at hm
    obtain ⟨rfl, rfl⟩ := hm
    exact h.goto hc rfl ⟨hat.1, hat.2.1, hat.2.2, rfl⟩
  | subtract v isAhead =>
    simp only [Call.access, Access.load.injEq] at ha
    subst ha
    simp only [Call.next, Party.resume, Option.map_some, Option.some.injEq, Prod.mk.injEq] at hm
    obtain ⟨rfl, rfl⟩ := hm
    obtain ⟨h1, h2, ⟨q, hq, hv, hle⟩, rfl⟩ := hat
    have hlim : r.reach s q ≤ limit r σ s := r.reach_mono s hq
    have hcount := Ring.toNat_difference hv (h.sound.first s) hle
      (hlim.trans (h.sound.limit_le s))
    refine ⟨⟨h.sound, ?_, (fun _ hd => by cases hd), h.sent, h1, h2⟩, h.sound.keeps_refl⟩
    simp only [Ring.loadWord_pointer, hcount]
    omega
  | span n =>
    simp only [Call.access, Access.load.injEq] at ha
    subst ha
    rw [Ring.loadWord_pointer] at hm
    simp only [Call.next, Party.resume, Option.map_some, Option.some.injEq, Prod.mk.injEq] at hm
    obtain ⟨rfl, rfl⟩ := hm
    obtain ⟨h1, h2, h3⟩ := hat
    have hbefore := Ring.toNat_numberOfBytesBeforeWraparound (s := s) (h.sound.first_lt s)
    have hcell := h.sound.first_lt s
    rw [h.sound.first s] at hbefore hcell
    by_cases hge : r.buffer.numberOfBytesBeforeWraparound s (r.word σ.mem s false) ≥ n
    · rw [if_pos hge]
      rw [ge_iff_le, BitVec.le_def, hbefore] at hge
      exact h.goto hc rfl ⟨h1, by simpa using h2, by simpa using h3, by omega, by simp⟩
    · rw [if_neg hge]
      rw [ge_iff_le, BitVec.le_def, hbefore] at hge
      have hsub : (n - r.buffer.numberOfBytesBeforeWraparound s (r.word σ.mem s false)).toNat
          = n.toNat - (r.cells - σ.advanced s % r.cells) := by
        rw [BitVec.toNat_sub_of_le (by rw [BitVec.le_def, hbefore]; omega), hbefore]
      refine h.goto hc rfl ⟨h1, fun hs => ?_, ?_, ?_, fun _ => ?_⟩
      · rw [h2 hs, hsub, hbefore]
        omega
      · rw [hsub, hbefore]
        omega
      · rw [hbefore]
        omega
      · rw [hbefore]
        omega
  | address now later =>
    simp only [Call.access, Access.load.injEq] at ha
    subst ha
    simp only [Call.next, Party.resume, Option.map_some, Option.some.injEq, Prod.mk.injEq] at hm
    obtain ⟨rfl, rfl⟩ := hm
    obtain ⟨h1, h2, h3⟩ := hat
    refine h.goto hc rfl ⟨?_, Nat.zero_le _, h1.1, by simpa using h2, h3⟩
    rw [Ring.loadWord_pointer, ← h.sound.first s, BitVec.ofNat_toNat, BitVec.setWidth_eq]
    rfl
  | copy cell i now later =>
    obtain ⟨-, h2, h3, h4, h5⟩ := hat
    by_cases hi : i < now.toNat
    · cases s <;> simp [Call.access, hi, Call.byteAccess] at ha
    · obtain rfl : i = now.toNat := by omega
      simp only [Call.access, hi, if_false, Access.load.injEq] at ha
      subst ha
      have hw := Ring.wrap_eq (h.sound.first s) h5.2.1
      rw [← h3] at hw
      have hlt : (σ.moved s).length % r.cells < 2 ^ 64 :=
        (Nat.mod_lt _ r.cells_pos).trans (by have := r.cells_lt; omega)
      simp only [Call.next, hi, if_false, Ring.loadWord_pointer, hw, Party.resume, Option.map_some,
        Option.some.injEq, Prod.mk.injEq] at hm
      obtain ⟨rfl, rfl⟩ := hm
      refine h.goto hc rfl ⟨?_, by simpa using h4, ?_, fun hl => ?_⟩
      · rw [BitVec.toNat_ofNat, Nat.mod_eq_of_lt hlt]
      · rw [h3]
        exact h5.1
      · rw [h3, Cyclic.add_mod_of_eq (h5.2.2 hl)]
        rfl
  | publish v later => simp [Call.access] at ha
  | publishSecond v later => simp [Call.access] at ha

theorem Own.move_store (h : Own r s σ p) {c : Call} (hc : p.call = some c) {a v : U64}
    (ha : c.access r.buffer s = .store a v)
    (hm : (p.resume (c.next r.buffer s 0)).map
      (fun p' => (p', { σ.advance s c with mem := σ.mem.storeWord a v })) = some (p', σ')) :
    Own r s σ' p' ∧ Keeps r s.peer σ σ' := by
  have hat := h.at_call
  rw [hc] at hat
  cases c with
  | publish w later =>
    simp only [Call.access, Access.store.injEq] at ha
    obtain ⟨rfl, rfl⟩ := ha
    simp only [Call.next, Party.resume, Option.map_some, Option.some.injEq, Prod.mk.injEq] at hm
    obtain ⟨rfl, rfl⟩ := hm
    obtain ⟨h1, h2, h3, h4⟩ := hat
    have hk := h.sound.publish (s := s) later h1
    have hlim : ∀ mem, limit r { σ.advance s (.publish w later) with mem := mem } s
        = limit r σ s := fun mem => by
      simp only [limit, Shared.advance, Function.update_of_ne s.peer_ne]
    have hlast := h.spent _ hc rfl
    refine ⟨⟨hk.sound, ?_, fun _ _ _ => hlast, h.sent, ?_, ?_, h2, ?_, h4⟩, hk⟩
    · rw [hlim, hlast]
      have h0 : (0 : U64).toNat = 0 := rfl
      simp only [Shared.advance, Function.update_self, h0]
      omega
    · simp [Shared.advance]
    · simpa [Shared.advance] using h1
    · rw [hlim]
      simpa [Shared.advance] using h3
  | publishSecond w later =>
    simp only [Call.access, Access.store.injEq] at ha
    obtain ⟨rfl, rfl⟩ := ha
    obtain ⟨h1, h2, h3, h4, h5⟩ := hat
    have hk := h.sound.publishSecond (s := s) (v := w)
      (by rw [h2]; exact Nat.mod_lt _ r.cells_pos)
    have hset : Settled r s { σ with mem := σ.mem.storeWord (r.buffer.pointer s true) w } :=
      ⟨h1, by simpa using h2⟩
    by_cases hl : later = 0
    · simp only [Call.next, hl, if_true, Party.resume, Option.map_some, Option.some.injEq,
        Prod.mk.injEq] at hm
      obtain ⟨rfl, rfl⟩ := hm
      exact ⟨⟨hk.sound, h.last, (fun _ hd => by cases hd), h.sent, hset,
        by simpa [hl] using h3⟩, hk⟩
    · simp only [Call.next, hl, if_false, Party.resume, Option.map_some, Option.some.injEq,
        Prod.mk.injEq] at hm
      obtain ⟨rfl, rfl⟩ := hm
      have h0 : σ.advanced s % r.cells = 0 := by
        rw [← h2, h5 hl]
        rfl
      have hlim := h.sound.limit_le s
      refine ⟨⟨hk.sound, h.last, fun _ _ _ => h.spent _ hc rfl, h.sent, hset, by simpa using h3,
        ?_, ?_, by simp⟩, hk⟩
      · exact h4
      · simp only [Shared.advance, h0]
        omega
  | loadSecond => simp [Call.access] at ha
  | loadFirst v => simp [Call.access] at ha
  | compare v => simp [Call.access] at ha
  | subtract v isAhead => simp [Call.access] at ha
  | span n => simp [Call.access] at ha
  | address now later => simp [Call.access] at ha
  | copy cell i now later =>
    by_cases hi : i < now.toNat <;> cases s <;> simp [Call.access, hi, Call.byteAccess] at ha

theorem Chunk.cell {now later : U64} {i : ℕ} (h : Chunk r s σ now later) (hi : i < now.toNat)
    (hm : (σ.moved s).length = σ.advanced s + i) :
    (σ.moved s).length < limit r σ s
      ∧ r.location + BitVec.ofNat 64 (σ.advanced s % r.cells) + BitVec.ofNat 64 i
        = r.location + BitVec.ofNat 64 ((σ.moved s).length % r.cells) := by
  obtain ⟨h1, h2, -⟩ := h
  refine ⟨by omega, ?_⟩
  have hlt : i < r.cells := by omega
  rw [hm, Cyclic.add_mod_of_lt hlt, if_pos (by omega), BitVec.ofNat_add, BitVec.add_assoc]

theorem At.copied {now later : U64} {cell : U64} {i : ℕ} {source : List U8} (b : U8)
    (rest : List U8) (mem : Segment) (hi : i < now.toNat)
    (h : At r s σ source (some (.copy cell i now later)))
    (hs : s = .producer → source = b :: rest) :
    At r s { σ.copied s b with mem := mem } rest (some (.copy cell (i + 1) now later)) := by
  obtain ⟨h1, h2, h3, h4, h5⟩ := h
  refine ⟨h1, hi, ?_, fun hp => ?_, h5⟩
  · simp only [Shared.copied, Function.update_self, List.length_append, List.length_singleton, h3]
    omega
  · have hlen := h4 hp
    rw [hs hp, List.length_cons] at hlen
    omega

theorem Own.move_get (h : Own r .consumer σ p) {c : Call} (hc : p.call = some c) {a : U64}
    (ha : c.access r.buffer .consumer = .get a)
    (hm : (p.resume (c.next r.buffer .consumer 0)).map
      (fun p' => (p', σ.copied .consumer (σ.mem a))) = some (p', σ')) :
    Own r .consumer σ' p' ∧ Keeps r .producer σ σ' := by
  obtain ⟨cell, i, now, later, rfl, hi, rfl⟩ := Call.access_byte (.inl ha)
  have hat := h.at_call
  rw [hc] at hat
  simp only [Call.next, hi, if_true, Party.resume, Option.map_some, Option.some.injEq,
    Prod.mk.injEq] at hm
  obtain ⟨rfl, rfl⟩ := hm
  obtain ⟨hlt, hcell⟩ := hat.2.2.2.2.cell hi hat.2.2.1
  rw [hat.1, hcell]
  have hk := h.sound.copyOut hlt
  have hat' := At.copied (r.cell σ.mem ((σ.moved .consumer).length % r.cells)) p.source σ.mem hi
    hat fun hs => by cases hs
  rw [hat.1] at hat'
  exact ⟨⟨hk.sound, h.last, fun _ _ _ => h.spent _ hc rfl, (fun hs => by cases hs), hat'⟩, hk⟩

theorem Own.move_put (h : Own r .producer σ p) {c : Call} (hc : p.call = some c) {a : U64}
    (ha : c.access r.buffer .producer = .put a) {b : U8} {rest : List U8}
    (hb : p.source = b :: rest)
    (hm : ({ p with source := rest }.resume (c.next r.buffer .producer 0)).map
      (fun p' => (p', { σ.copied .producer b with mem := σ.mem.write a [b] })) = some (p', σ')) :
    Own r .producer σ' p' ∧ Keeps r .consumer σ σ' := by
  obtain ⟨cell, i, now, later, rfl, hi, rfl⟩ := Call.access_byte (.inr ha)
  have hat := h.at_call
  rw [hc] at hat
  simp only [Call.next, hi, if_true, Party.resume, Option.map_some, Option.some.injEq,
    Prod.mk.injEq] at hm
  obtain ⟨rfl, rfl⟩ := hm
  obtain ⟨hlt, hcell⟩ := hat.2.2.2.2.cell hi hat.2.2.1
  rw [hat.1, hcell]
  have hk := h.sound.copyIn b hlt
  have hat' := At.copied b rest (σ.mem.write
    (r.location + BitVec.ofNat 64 ((σ.moved .producer).length % r.cells)) [b]) hi hat fun _ => hb
  rw [hat.1] at hat'
  refine ⟨⟨hk.sound, h.last, fun _ _ _ => h.spent _ hc rfl, fun hs => ?_, hat'⟩, hk⟩
  simp [Shared.copied, h.sent hs, hb]

theorem Own.start (h : Own r s σ p) {data : List U8} (hp : p.Starts s p' data) :
    Own r s { σ with sent := σ.sent ++ data } p'
      ∧ Keeps r s.peer σ { σ with sent := σ.sent ++ data } := by
  have hat := h.at_call
  have hk : s = .producer ∨ data = [] → Keeps r s.peer σ { σ with sent := σ.sent ++ data } := by
    intro hs
    refine ⟨⟨⟨h.sound.first, h.sound.second, h.sound.advanced_le, h.sound.moved_le,
      h.sound.delivered, h.sound.data⟩, fun _ => rfl, rfl, rfl, le_rfl, fun hp => ?_⟩,
      Ring.outside_refl⟩
    rcases hs with rfl | rfl
    · cases hp
    · simp
  cases hp with
  | count hc =>
    rw [hc] at hat
    have hk := hk (.inr rfl)
    refine ⟨⟨hk.sound, h.last, fun c hd => ?_, fun hs => ?_, hat⟩, hk⟩
    · cases hd
      simp [Call.transfers]
    · simpa using h.sent hs
  | write hc hle =>
    rw [hc] at hat
    have hk := hk (.inl rfl)
    have hlen : (BitVec.ofNat 64 data.length).toNat = data.length := by
      have := p.last.isLt
      rw [BitVec.toNat_ofNat, Nat.mod_eq_of_lt (by omega)]
    have hlast := h.last
    refine ⟨⟨hk.sound, ?_, fun _ _ _ => rfl, fun hs => ?_, hat.1, fun _ => hlen.symm, ?_⟩, hk⟩
    · change σ.advanced .producer + 0 ≤ limit r σ .producer
      omega
    · have hsrc : p.source = [] := List.length_eq_zero_iff.1 (hat.2 hs)
      simp [h.sent hs, hsrc]
    · rw [hlen]
      change σ.advanced .producer + data.length ≤ limit r σ .producer
      omega
  | read hc hle =>
    rw [hc] at hat
    have hk := hk (.inr rfl)
    have hlast := h.last
    rw [BitVec.le_def] at hle
    refine ⟨⟨hk.sound, ?_, fun _ _ _ => rfl, (fun hs => nomatch hs), hat.1, (fun hs => nomatch hs),
      ?_⟩, hk⟩
    · change σ.advanced .consumer + 0 ≤ limit r σ .consumer
      omega
    · change σ.advanced .consumer + _ ≤ limit r σ .consumer
      omega

/-- An access of a call keeps what its side knows and leaves the other side what it relies on. -/
theorem Own.move (h : Own r s σ p) {c : Call} (hc : p.call = some c)
    (hm : p.move r.buffer s c σ = some (p', σ')) : Own r s σ' p' ∧ Keeps r s.peer σ σ' := by
  unfold Party.move at hm
  split at hm
  · rename_i a ha
    exact h.move_load hc ha hm
  · rename_i a v ha
    exact h.move_store hc ha hm
  · rename_i a ha
    cases s with
    | producer =>
      cases c <;> simp [Call.access, Call.byteAccess] at ha
      split at ha <;> cases ha
    | consumer => exact h.move_get hc ha hm
  · rename_i a ha
    split at hm
    · cases hm
    · rename_i b rest hb
      cases s with
      | producer => exact h.move_put hc ha hb hm
      | consumer =>
        cases c <;> simp [Call.access, Call.byteAccess] at ha
        split at ha <;> cases ha

/-- No call faults: its next access can be taken. -/
theorem Own.move_isSome (h : Own r s σ p) {c : Call} (hc : p.call = some c) :
    (p.move r.buffer s c σ).isSome := by
  have hat := h.at_call
  rw [hc] at hat
  cases c with
  | copy cell i now later =>
    obtain ⟨-, h2, -, h4, h5⟩ := hat
    by_cases hi : i < now.toNat
    · cases s with
      | consumer => simp [Party.move, Call.access, hi, Call.byteAccess, Call.next, Party.resume]
      | producer =>
        have hlen := h4 rfl
        rcases hsrc : p.source with _ | ⟨b, rest⟩
        · rw [hsrc] at hlen
          simp only [List.length_nil] at hlen
          omega
        · simp [Party.move, Call.access, hi, Call.byteAccess, Call.next, Party.resume, hsrc]
    · have hw := Ring.wrap_eq (h.sound.first s) h5.2.1
      simp [Party.move, Call.access, hi, Call.next, Ring.loadWord_pointer, hw, Party.resume]
  | publishSecond v later =>
    rw [Party.move_publishSecond]
    rfl
  | _ => rfl

theorem ringStep_guarantees (r : Ring) (s : Side) :
    Guarantees (RingStep r.buffer s) (fun p σ => Own r s σ p) (Keeps r s.peer) := by
  rintro p σ p' σ' h hstep
  cases hstep with
  | start hp => exact h.start hp
  | move hc hm => exact h.move hc hm

end Steps

end MemMapIPC
