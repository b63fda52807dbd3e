import MemMapIPC.Proofs.Torn

/-!
# Torn words that do not fit in their low part

With more cells than the low part of a word can number, two loads of the retry loop can agree on a
value the other side has never stored, and the count is of bytes that are not there. The run that
shows it is put together from what one side does on its own (`Does`), of which only the cursor
words and the number of bytes copied matter.
-/

namespace MemMapIPC

open ByteMemory Interleaving

variable {r : Ring} {k : ℕ} {s : Side} {σ : Shared} {p p' : Party} {c : Call}

/-- What the four cursor words hold. -/
structure Words where
  producer : ℕ
  secondProducer : ℕ
  consumer : ℕ
  secondConsumer : ℕ

namespace Words

def get (w : Words) : Side → Bool → ℕ
  | .producer, false => w.producer
  | .producer, true => w.secondProducer
  | .consumer, false => w.consumer
  | .consumer, true => w.secondConsumer

def set (w : Words) : Side → Bool → ℕ → Words
  | .producer, false, v => { w with producer := v }
  | .producer, true, v => { w with secondProducer := v }
  | .consumer, false, v => { w with consumer := v }
  | .consumer, true, v => { w with secondConsumer := v }

variable {w : Words} {s s' : Side} {b b' : Bool} {v v' : ℕ}

theorem get_set_same : (w.set s b v).get s b = v := by
  cases s <;> cases b <;> rfl

theorem get_set_of_ne (h : (s', b') ≠ (s, b)) : (w.set s b v).get s' b' = w.get s' b' := by
  cases s <;> cases b <;> cases s' <;> cases b' <;> first | rfl | exact absurd rfl h

theorem set_set : (w.set s b v).set s b v' = w.set s b v' := by
  cases s <;> cases b <;> rfl

end Words

/-- How many bytes each side has copied. -/
structure Copied where
  producer : ℕ
  consumer : ℕ

namespace Copied

def get (n : Copied) : Side → ℕ
  | .producer => n.producer
  | .consumer => n.consumer

def add (n : Copied) : Side → ℕ → Copied
  | .producer, j => { n with producer := n.producer + j }
  | .consumer, j => { n with consumer := n.consumer + j }

variable {n : Copied} {s t : Side} {i j : ℕ}

theorem get_add_same : (n.add s j).get s = n.get s + j := by
  cases s <;> rfl

theorem get_add_of_ne (h : t ≠ s) : (n.add s j).get t = n.get t := by
  cases s <;> cases t <;> first | rfl | exact absurd rfl h

theorem add_zero : n.add s 0 = n := by
  cases s <;> rfl

theorem add_add : (n.add s i).add s j = n.add s (i + j) := by
  cases s <;> simp only [add, Nat.add_assoc]

end Copied

variable {w w' : Words} {n n' : Copied} {t t' : TornParty}

structure Shows (r : Ring) (w : Words) (n : Copied) (σ : Shared) : Prop where
  word : ∀ s b, (r.word σ.mem s b).toNat = w.get s b
  moved : ∀ s, (σ.moved s).length = n.get s

/-- Side `s` can get from `t` to `t'` on its own, the words and numbers going from `w` and `n` to
`w'` and `n'`. -/
def Does (r : Ring) (k : ℕ) (s : Side) (t : TornParty) (w : Words) (n : Copied) (t' : TornParty)
    (w' : Words) (n' : Copied) : Prop :=
  ∀ σ, Shows r w n σ → ∃ σ', Relation.ReflTransGen (TornStep r.buffer s k) (t, σ) (t', σ')
    ∧ Shows r w' n' σ'

theorem Does.trans {t'' : TornParty} {w'' : Words} {n'' : Copied}
    (h : Does r k s t w n t' w' n') (h' : Does r k s t' w' n' t'' w'' n'') :
    Does r k s t w n t'' w'' n'' := by
  intro σ hσ
  obtain ⟨σ', hrun, hσ'⟩ := h σ hσ
  obtain ⟨σ'', hrun', hσ''⟩ := h' σ' hσ'
  exact ⟨σ'', hrun.trans hrun', hσ''⟩

/-! ## One part of an access -/

section Parts

variable {m : Segment} {b b' : Bool} {s' : Side} {v : ℕ}

theorem load_low (hk : k ≤ 8) :
    m.load (r.buffer.pointer s b) k = (r.word m s b).toNat % 256 ^ k := by
  rw [load_parts hk, Nat.add_mul_mod_self_left, Nat.mod_eq_of_lt (Memory.load_lt m _ k)]

theorem load_high (hk : k ≤ 8) : m.load (r.buffer.pointer s b + BitVec.ofNat 64 k) (8 - k)
    = (r.word m s b).toNat / 256 ^ k := by
  rw [load_parts hk, Nat.add_mul_div_left _ _ (by positivity),
    Nat.div_eq_of_lt (Memory.load_lt m _ k), Nat.zero_add]

theorem word_storeLow (hk : k ≤ 8) : (r.word (m.store (r.buffer.pointer s b) k v) s b).toNat
    = v % 256 ^ k + 256 ^ k * ((r.word m s b).toNat / 256 ^ k) := by
  have h1 := r.wordOffset_add_le s b
  have h2 := r.cells_lt
  rw [load_parts hk, ← load_high hk, word_offset, Ring.pointer_eq,
    Memory.load_store_same m _ (by omega), Memory.store,
    Memory.load_write_of_disjoint m _ (by simp; omega) (by omega) (.inr (by simp))]

theorem word_storeHigh (hk : k ≤ 8) (hv : v < 256 ^ (8 - k)) :
    (r.word (m.store (r.buffer.pointer s b + BitVec.ofNat 64 k) (8 - k) v) s b).toNat
      = (r.word m s b).toNat % 256 ^ k + 256 ^ k * v := by
  have h1 := r.wordOffset_add_le s b
  have h2 := r.cells_lt
  rw [load_parts hk, ← load_low hk, word_offset, Memory.load_store_same m _ (by omega),
    Nat.mod_eq_of_lt hv, Ring.pointer_eq, Memory.store,
    Memory.load_write_of_disjoint m _ (by simp; omega) (by omega) (.inl (by omega))]

theorem word_storePart {i j : ℕ} (hij : i + j ≤ 8) (h : (s', b') ≠ (s, b)) :
    r.word (m.store (r.buffer.pointer s b + BitVec.ofNat 64 i) j v) s' b' = r.word m s' b' := by
  have h1 := r.wordOffset_add_le s b
  have h1' := r.wordOffset_add_le s' b'
  have h2 := r.cells_lt
  have hne : Ring.slot s' b' ≠ Ring.slot s b := fun he => h (by
    obtain ⟨rfl, rfl⟩ := Ring.slot_inj he
    rfl)
  rw [Ring.word, Ring.word, word_offset, Ring.pointer_eq, Memory.store]
  refine loadWord_write_of_disjoint m _ (by simp; omega) (by omega) ?_
  simp only [Ring.wordOffset, length_toBytes]
  omega

end Parts

/-! ## One access -/

section Accesses

variable {u : Side} {b : Bool} {last : U64} {source : List U8} {q : Party}

theorem Does.of_step (h : ∀ σ, Shows r w n σ → ∃ σ', TornStep r.buffer s k (t, σ) (t', σ')
    ∧ Shows r w' n' σ') : Does r k s t w n t' w' n' := by
  intro σ hσ
  obtain ⟨σ', hstep, hσ'⟩ := h σ hσ
  exact ⟨σ', .single hstep, hσ'⟩

theorem does_loadLow (hk : k ≤ 8) (hc : p.call = some c)
    (ha : c.access r.buffer s = .load (r.buffer.pointer u b)) :
    Does r k s ⟨p, none⟩ w n ⟨p, some (w.get u b % 256 ^ k)⟩ w n := by
  refine .of_step fun σ hσ => ⟨σ, .move hc ?_, hσ⟩
  simp only [TornParty.move, ha, load_low hk, hσ.word]

theorem does_loadHigh {low : ℕ} (hk : k ≤ 8) (hc : p.call = some c)
    (ha : c.access r.buffer s = .load (r.buffer.pointer u b))
    (hr : p.resume (c.next r.buffer s (BitVec.ofNat 64 (low + 256 ^ k * (w.get u b / 256 ^ k))))
      = some q) : Does r k s ⟨p, some low⟩ w n ⟨q, none⟩ w n := by
  refine .of_step fun σ hσ => ⟨σ, .move hc ?_, hσ⟩
  simp only [TornParty.move, ha, load_high hk, hσ.word, hr, Option.map_some]

theorem does_load (hk : k ≤ 8) (hc : p.call = some c)
    (ha : c.access r.buffer s = .load (r.buffer.pointer u b))
    (hr : p.resume (c.next r.buffer s (BitVec.ofNat 64 (w.get u b))) = some q) :
    Does r k s ⟨p, none⟩ w n ⟨q, none⟩ w n := by
  refine (does_loadLow hk hc ha).trans (does_loadHigh hk hc ha ?_)
  rw [Nat.mod_add_div]
  exact hr

theorem does_storeLow {v : U64} (hk : k ≤ 8) (hc : p.call = some c)
    (ha : c.access r.buffer s = .store (r.buffer.pointer s b) v) :
    Does r k s ⟨p, none⟩ w n ⟨p, some 0⟩
      (w.set s b (v.toNat % 256 ^ k + 256 ^ k * (w.get s b / 256 ^ k))) n := by
  refine .of_step fun σ hσ =>
    ⟨{ σ.advance s c with mem := σ.mem.store (r.buffer.pointer s b) k v.toNat },
      .move hc (by simp only [TornParty.move, ha]), fun s' b' => ?_, ?_⟩
  · by_cases he : (s', b') = (s, b)
    · obtain ⟨rfl, rfl⟩ := Prod.mk.inj he
      rw [Words.get_set_same, word_storeLow hk, hσ.word]
    · rw [Words.get_set_of_ne he]
      have hpart :=
        word_storePart (r := r) (m := σ.mem) (i := 0) (j := k) (v := v.toNat) (by omega) he
      rw [BitVec.add_zero] at hpart
      exact (congrArg BitVec.toNat hpart).trans (hσ.word s' b')
  · obtain ⟨_, later, -, rfl | rfl⟩ := Call.access_store ha <;> exact hσ.moved

theorem does_storeHigh {v : U64} {half : ℕ} (hk : k ≤ 8) (hc : p.call = some c)
    (ha : c.access r.buffer s = .store (r.buffer.pointer s b) v)
    (hr : p.resume (c.next r.buffer s 0) = some q) :
    Does r k s ⟨p, some half⟩ w n ⟨q, none⟩
      (w.set s b (w.get s b % 256 ^ k + 256 ^ k * (v.toNat / 256 ^ k))) n := by
  refine .of_step fun σ hσ =>
    ⟨{ σ with
        mem := σ.mem.store (r.buffer.pointer s b + BitVec.ofNat 64 k) (8 - k) (v.toNat / 256 ^ k) },
      .move hc (by simp only [TornParty.move, ha, hr, Option.map_some]), fun s' b' => ?_, hσ.moved⟩
  have hv : v.toNat / 256 ^ k < 256 ^ (8 - k) := by
    rw [Nat.div_lt_iff_lt_mul (by positivity), ← Nat.pow_add, Nat.sub_add_cancel hk]
    exact v.isLt
  by_cases he : (s', b') = (s, b)
  · obtain ⟨rfl, rfl⟩ := Prod.mk.inj he
    rw [Words.get_set_same, word_storeHigh hk hv, hσ.word]
  · rw [Words.get_set_of_ne he, word_storePart (by omega) he, hσ.word]

theorem does_store {v : U64} (hk : k ≤ 8) (hc : p.call = some c)
    (ha : c.access r.buffer s = .store (r.buffer.pointer s b) v)
    (hr : p.resume (c.next r.buffer s 0) = some q) :
    Does r k s ⟨p, none⟩ w n ⟨q, none⟩ (w.set s b v.toNat) n := by
  have h := (does_storeLow (w := w) (n := n) hk hc ha).trans (does_storeHigh hk hc ha hr)
  rwa [Words.set_set, Words.get_set_same, Nat.add_mul_mod_self_left, Nat.mod_mod,
    Nat.mod_add_div] at h

/-- What a writer of zeros has left, or a reader. -/
def zeros : Side → ℕ → List U8
  | .producer, j => List.replicate j 0
  | .consumer, _ => []

/-- Where a side is in a transfer of zeros. -/
def inTransfer (s : Side) (c : Call) (left : ℕ) : TornParty := ⟨⟨some c, 0, zeros s left⟩, none⟩

def idle (last : ℕ) : TornParty := ⟨⟨none, BitVec.ofNat 64 last, []⟩, none⟩

theorem does_byte {x i left : ℕ} {now later : U64} (hx : x + i < r.cells) (hi : i < now.toNat) :
    Does r k s (inTransfer s (.copy (r.location + BitVec.ofNat 64 x) i now later) (left + 1)) w n
      (inTransfer s (.copy (r.location + BitVec.ofNat 64 x) (i + 1) now later) left) w
      (n.add s 1) := by
  have hmoved : ∀ {σ : Shared} {y : U8}, Shows r w n σ →
      ∀ t, ((σ.copied s y).moved t).length = (n.add s 1).get t := by
    intro σ y hσ t
    rcases eq_or_ne t s with rfl | ht
    · simp [Shared.copied, hσ.moved, Copied.get_add_same]
    · simp [Shared.copied, Function.update_of_ne ht, hσ.moved, Copied.get_add_of_ne ht]
  cases s with
  | consumer =>
    refine .of_step fun σ hσ =>
      ⟨σ.copied .consumer (σ.mem (r.location + BitVec.ofNat 64 x + BitVec.ofNat 64 i)),
        .move rfl ?_, hσ.word, hmoved hσ⟩
    simp only [TornParty.move, inTransfer, zeros, Call.access, hi, if_true, Call.byteAccess,
      Party.move, Call.next, Party.resume, Option.map_some]
  | producer =>
    refine .of_step fun σ hσ =>
      ⟨{ σ.copied .producer 0 with
          mem := σ.mem.write (r.location + BitVec.ofNat 64 x + BitVec.ofNat 64 i) [0] },
        .move rfl ?_, fun s' b' => ?_, hmoved hσ⟩
    · simp only [TornParty.move, inTransfer, zeros, Call.access, hi, if_true, Call.byteAccess,
        Party.move, Call.next, Party.resume, Option.map_some, List.replicate_succ]
    · rw [← hσ.word, BitVec.add_assoc, ← BitVec.ofNat_add]
      exact congrArg BitVec.toNat (Ring.word_write (by simpa using hx))

end Accesses

/-! ## Transfers -/

section Transfers

variable {last len left x y : ℕ} {v now later : U64}

theorem toNat_cell (hx : x ≤ r.cells) : (BitVec.ofNat 64 x).toNat = x := by
  have hlt := r.cells_lt
  rw [BitVec.toNat_ofNat, Nat.mod_eq_of_lt (by omega)]

theorem does_copy (j : ℕ) {i left : ℕ} (hx : x + (i + j) ≤ r.cells) (hj : i + j ≤ now.toNat) :
    Does r k s (inTransfer s (.copy (r.location + BitVec.ofNat 64 x) i now later) (left + j)) w n
      (inTransfer s (.copy (r.location + BitVec.ofNat 64 x) (i + j) now later) left) w
      (n.add s j) := by
  induction j generalizing i n with
  | zero =>
    intro σ hσ
    exact ⟨σ, .refl, Copied.add_zero.symm ▸ hσ⟩
  | succ j ih =>
    have hbyte : Does r k s
        (inTransfer s (.copy (r.location + BitVec.ofNat 64 x) i now later) (left + j + 1)) w n
        (inTransfer s (.copy (r.location + BitVec.ofNat 64 x) (i + 1) now later) (left + j)) w
        (n.add s 1) := does_byte (by omega) (by omega)
    have hrest := ih (i := i + 1) (n := n.add s 1) (by omega) (by omega)
    rw [Copied.add_add, Nat.add_assoc, Nat.add_comm 1 j] at hrest
    exact hbyte.trans hrest

/-- What is copied between two visits to the cursor. -/
theorem does_chunk (hk : k ≤ 8) (hw : w.get s false < r.cells) (hn : w.get s false + x ≤ r.cells)
    (hy : (w.get s false + x) % r.cells = y) :
    Does r k s (inTransfer s (.address (BitVec.ofNat 64 x) later) (later.toNat + x)) w n
      (inTransfer s (.publish (BitVec.ofNat 64 y) later) later.toNat) w (n.add s x) := by
  subst hy
  have hown := toNat_cell hw.le
  have hto := toNat_cell (r := r) (x := x) (by omega)
  have haddress : Does r k s (inTransfer s (.address (BitVec.ofNat 64 x) later) (later.toNat + x))
      w n (inTransfer s (.copy (r.location + BitVec.ofNat 64 (w.get s false)) 0
        (BitVec.ofNat 64 x) later) (later.toNat + x)) w n := does_load hk rfl rfl rfl
  have hcopy : Does r k s (inTransfer s (.copy (r.location + BitVec.ofNat 64 (w.get s false)) 0
      (BitVec.ofNat 64 x) later) (later.toNat + x)) w n
      (inTransfer s (.copy (r.location + BitVec.ofNat 64 (w.get s false)) (0 + x)
        (BitVec.ofNat 64 x) later) later.toNat) w (n.add s x) :=
    does_copy x (by omega) (by omega)
  rw [Nat.zero_add] at hcopy
  have hwrap : r.buffer.wrap (BitVec.ofNat 64 (w.get s false) + BitVec.ofNat 64 x)
      = some (BitVec.ofNat 64 ((w.get s false + (BitVec.ofNat 64 x).toNat) % r.cells)) :=
    r.wrap_eq (by rw [hown, Nat.mod_eq_of_lt hw]) (by rw [Nat.mod_eq_of_lt hw, hto]; exact hn)
  rw [hto] at hwrap
  refine haddress.trans (hcopy.trans (does_load (u := s) (b := false) hk rfl ?_ ?_))
  · simp only [Call.access, hto, lt_irrefl, if_false]
  · simp only [Call.next, hto, lt_irrefl, if_false, hwrap]
    rfl

theorem does_start (hlen : len ≤ last) (hlast : last < r.cells) :
    Does r k s (idle last) w n (inTransfer s (.span (BitVec.ofNat 64 len)) len) w n := by
  have hto := toNat_cell hlast.le
  refine .of_step fun σ hσ => ?_
  cases s with
  | producer =>
    refine ⟨{ σ with sent := σ.sent ++ List.replicate len 0 }, ?_, hσ.word, hσ.moved⟩
    have hstart : (idle last).party.Starts .producer
        { call := some (.span (BitVec.ofNat 64 (List.replicate len (0 : U8)).length)), last := 0,
          source := List.replicate len 0 } (List.replicate len 0) := by
      refine .write rfl ?_
      rw [List.length_replicate]
      exact hlen.trans_eq hto.symm
    rw [List.length_replicate] at hstart
    exact .start hstart
  | consumer =>
    refine ⟨{ σ with sent := σ.sent ++ [] }, .start (.read rfl ?_), hσ.word, hσ.moved⟩
    rw [BitVec.le_def]
    change (BitVec.ofNat 64 len).toNat ≤ (BitVec.ofNat 64 last).toNat
    rwa [hto, toNat_cell (r := r) (by omega)]

theorem toNat_before (hw : w.get s false < r.cells) :
    (r.buffer.numberOfBytesBeforeWraparound s (BitVec.ofNat 64 (w.get s false))).toNat
      = r.cells - w.get s false := by
  have hto := toNat_cell hw.le
  rw [Ring.toNat_numberOfBytesBeforeWraparound (by rwa [hto]), hto]

/-- A transfer that stays in front of the end of the cells, up to the store of the cursor. -/
theorem does_transfer (hk : k ≤ 8) (hlen : len ≤ last) (hlast : last < r.cells)
    (hw : w.get s false < r.cells) (hn : w.get s false + len ≤ r.cells)
    (hy : (w.get s false + len) % r.cells = y) :
    Does r k s (idle last) w n (inTransfer s (.publish (BitVec.ofNat 64 y) 0) 0) w
      (n.add s len) := by
  have hspan : Does r k s (inTransfer s (.span (BitVec.ofNat 64 len)) len) w n
      (inTransfer s (.address (BitVec.ofNat 64 len) 0) len) w n := by
    refine does_load (u := s) (b := false) hk rfl rfl ?_
    have hge : r.buffer.numberOfBytesBeforeWraparound s (BitVec.ofNat 64 (w.get s false))
        ≥ BitVec.ofNat 64 len := by
      rw [ge_iff_le, BitVec.le_def, toNat_before hw, toNat_cell (r := r) (by omega)]
      omega
    simp only [Call.next, hge, if_true]
    rfl
  have hchunk : Does r k s (inTransfer s (.address (BitVec.ofNat 64 len) 0) (0 + len)) w n
      (inTransfer s (.publish (BitVec.ofNat 64 y) 0) 0) w (n.add s len) := does_chunk hk hw hn hy
  rw [Nat.zero_add] at hchunk
  exact (does_start hlen hlast).trans (hspan.trans hchunk)

/-- One that goes off the end, up to the first store of the cursor. -/
theorem does_transfer_wrap (hk : k ≤ 8) (hlen : len ≤ last) (hlast : last < r.cells)
    (hw : w.get s false < r.cells) (hy : w.get s false + len = r.cells + y) (hpos : 0 < y) :
    Does r k s (idle last) w n (inTransfer s (.publish (BitVec.ofNat 64 0) (BitVec.ofNat 64 y)) y) w
      (n.add s (r.cells - w.get s false)) := by
  have hlenTo := toNat_cell (r := r) (x := len) (by omega)
  have hyTo := toNat_cell (r := r) (x := y) (by omega)
  have hbefore := toNat_before (r := r) (s := s) hw
  have hspan : Does r k s (inTransfer s (.span (BitVec.ofNat 64 len)) len) w n
      (inTransfer s (.address (BitVec.ofNat 64 (r.cells - w.get s false)) (BitVec.ofNat 64 y))
        len) w n := by
    refine does_load (u := s) (b := false) hk rfl rfl ?_
    have hnow : r.buffer.numberOfBytesBeforeWraparound s (BitVec.ofNat 64 (w.get s false))
        = BitVec.ofNat 64 (r.cells - w.get s false) := by
      apply BitVec.eq_of_toNat_eq
      rw [hbefore, toNat_cell (r := r) (by omega)]
    have hto := toNat_cell (r := r) (x := r.cells - w.get s false) (by omega)
    have hge : ¬BitVec.ofNat 64 (r.cells - w.get s false) ≥ BitVec.ofNat 64 len := by
      rw [ge_iff_le, BitVec.le_def, hto, hlenTo]
      omega
    have hlater : BitVec.ofNat 64 len - BitVec.ofNat 64 (r.cells - w.get s false)
        = BitVec.ofNat 64 y := by
      apply BitVec.eq_of_toNat_eq
      rw [BitVec.toNat_sub_of_le (by rw [BitVec.le_def, hto, hlenTo]; omega), hto, hlenTo, hyTo]
      omega
    simp only [Call.next, hnow, hge, if_false, hlater]
    rfl
  have hchunk : Does r k s (inTransfer s (.address (BitVec.ofNat 64 (r.cells - w.get s false))
      (BitVec.ofNat 64 y)) ((BitVec.ofNat 64 y).toNat + (r.cells - w.get s false))) w n
      (inTransfer s (.publish (BitVec.ofNat 64 0) (BitVec.ofNat 64 y)) (BitVec.ofNat 64 y).toNat) w
      (n.add s (r.cells - w.get s false)) :=
    does_chunk hk hw (by omega) (by rw [Nat.add_sub_cancel' hw.le, Nat.mod_self])
  rw [hyTo, show y + (r.cells - w.get s false) = len by omega] at hchunk
  exact (does_start hlen hlast).trans (hspan.trans hchunk)

theorem does_publish (hk : k ≤ 8) (hy : y < r.cells) :
    Does r k s (inTransfer s (.publish (BitVec.ofNat 64 y) later) left) w n
      (inTransfer s (.publishSecond (BitVec.ofNat 64 y) later) left) (w.set s false y) n := by
  have h : Does r k s (inTransfer s (.publish (BitVec.ofNat 64 y) later) left) w n
      (inTransfer s (.publishSecond (BitVec.ofNat 64 y) later) left)
      (w.set s false (BitVec.ofNat 64 y).toNat) n := does_store hk rfl rfl rfl
  rwa [toNat_cell hy.le] at h

theorem does_publishSecond (hk : k ≤ 8) (hy : y < r.cells) :
    Does r k s (inTransfer s (.publishSecond (BitVec.ofNat 64 y) 0) 0) w n (idle 0)
      (w.set s true y) n := by
  have h : Does r k s (inTransfer s (.publishSecond (BitVec.ofNat 64 y) 0) 0) w n (idle 0)
      (w.set s true (BitVec.ofNat 64 y).toNat) n := by
    refine does_store hk rfl rfl ?_
    cases s <;> rfl
  rwa [toNat_cell hy.le] at h

/-- The whole of a transfer that stays in front of the end of the cells. -/
theorem does_complete (hk : k ≤ 8) (hlen : len ≤ last) (hlast : last < r.cells)
    (hw : w.get s false < r.cells) (hn : w.get s false + len ≤ r.cells)
    (hy : (w.get s false + len) % r.cells = y) :
    Does r k s (idle last) w n (idle 0) ((w.set s false y).set s true y) (n.add s len) := by
  have hlt : y < r.cells := hy ▸ Nat.mod_lt _ r.cells_pos
  exact (does_transfer hk hlen hlast hw hn hy).trans
    ((does_publish hk hlt).trans (does_publishSecond hk hlt))

theorem does_wrap (hk : k ≤ 8) (hy : 0 < y) (hy' : y < r.cells) (hw : w.get s false = 0) :
    Does r k s (inTransfer s (.publishSecond (BitVec.ofNat 64 0) (BitVec.ofNat 64 y)) y) w n
      (inTransfer s (.publishSecond (BitVec.ofNat 64 y) 0) 0) ((w.set s true 0).set s false y)
      (n.add s y) := by
  have hto := toNat_cell hy'.le
  have hne : BitVec.ofNat 64 y ≠ 0 := by
    intro h0
    rw [h0] at hto
    change 0 = y at hto
    omega
  have hsecond : Does r k s
      (inTransfer s (.publishSecond (BitVec.ofNat 64 0) (BitVec.ofNat 64 y)) y) w n
      (inTransfer s (.address (BitVec.ofNat 64 y) 0) y) (w.set s true 0) n := by
    refine does_store (v := BitVec.ofNat 64 0) hk rfl rfl ?_
    simp only [Call.next, hne, if_false]
    rfl
  have hget : (w.set s true 0).get s false = 0 := by
    rw [Words.get_set_of_ne (by simp), hw]
  have hchunk : Does r k s (inTransfer s (.address (BitVec.ofNat 64 y) 0) (0 + y)) (w.set s true 0)
      n (inTransfer s (.publish (BitVec.ofNat 64 y) 0) 0) (w.set s true 0) (n.add s y) :=
    does_chunk hk (by rw [hget]; exact r.cells_pos) (by rw [hget]; omega)
      (by rw [hget, Nat.zero_add, Nat.mod_eq_of_lt hy'])
  rw [Nat.zero_add] at hchunk
  exact hsecond.trans (hchunk.trans (does_publish hk hy'))

theorem does_complete_wrap (hk : k ≤ 8) (hlen : len ≤ last) (hlast : last < r.cells)
    (hw : w.get s false < r.cells) (hy : w.get s false + len = r.cells + y) (hpos : 0 < y) :
    Does r k s (idle last) w n (idle 0) ((w.set s false y).set s true y) (n.add s len) := by
  have hy' : y < r.cells := by omega
  have hend := (does_wrap (r := r) (k := k) (s := s) (w := w.set s false 0)
    (n := n.add s (r.cells - w.get s false)) hk hpos hy' Words.get_set_same).trans
    (does_publishSecond hk hy')
  have hwords : (((w.set s false 0).set s true 0).set s false y).set s true y
      = (w.set s false y).set s true y := by
    cases s <;> rfl
  rw [Copied.add_add, show r.cells - w.get s false + y = len by omega, hwords] at hend
  exact (does_transfer_wrap hk hlen hlast hw hy hpos).trans
    ((does_publish hk r.cells_pos).trans hend)

end Transfers

/-! ## Counts -/

section Counts

variable {last v count : ℕ}

def inCount (c : Call) (last : ℕ) : TornParty := ⟨⟨some c, BitVec.ofNat 64 last, []⟩, none⟩

/-- What a count comes to. -/
def Ring.tally (r : Ring) : Side → (v own : ℕ) → ℕ
  | .producer, v, own => (if own < v then v else v + r.cells) - own - 1
  | .consumer, v, own => (if own ≤ v then v else v + r.cells) - own

theorem tally_free (v own : ℕ) (h : v ≤ own) (hc : v + r.cells - own - 1 = count) :
    r.tally .producer v own = count := by
  rw [Ring.tally, if_neg (by omega), hc]

theorem tally_available (v own : ℕ) (h : own ≤ v) (hc : v - own = count) :
    r.tally .consumer v own = count := by
  rw [Ring.tally, if_pos h, hc]

theorem tally_wrapped (v own : ℕ) (h : v < own) (hc : v + r.cells - own = count) :
    r.tally .consumer v own = count := by
  rw [Ring.tally, if_neg (by omega), hc]

theorem difference_eq {own : ℕ} (hv : v < r.cells) (hown : own < r.cells) :
    r.buffer.difference s (CircularBuffer.ahead s (BitVec.ofNat 64 v) (BitVec.ofNat 64 own))
      (BitVec.ofNat 64 v) (BitVec.ofNat 64 own) = BitVec.ofNat 64 (r.tally s v own) := by
  have hlap : ∃ q pos, q % r.cells = v ∧ pos % r.cells = own ∧ pos ≤ r.reach s q
      ∧ r.reach s q ≤ pos + (r.cells - 1) ∧ r.reach s q - pos = r.tally s v own := by
    cases s with
    | producer =>
      by_cases h : own < v
      · refine ⟨v, own + r.cells, Nat.mod_eq_of_lt hv, ?_, ?_⟩
        · rw [Nat.add_mod_right, Nat.mod_eq_of_lt hown]
        · simp only [Ring.reach, Ring.tally, if_pos h]
          omega
      · refine ⟨v, own, Nat.mod_eq_of_lt hv, Nat.mod_eq_of_lt hown, ?_⟩
        simp only [Ring.reach, Ring.tally, if_neg h]
        omega
    | consumer =>
      by_cases h : own ≤ v
      · refine ⟨v, own, Nat.mod_eq_of_lt hv, Nat.mod_eq_of_lt hown, h, ?_, ?_⟩
        · simp only [Ring.reach]
          omega
        · rw [Ring.tally, if_pos h, Ring.reach]
      · refine ⟨v + r.cells, own, ?_, Nat.mod_eq_of_lt hown, ?_, ?_, ?_⟩
        · rw [Nat.add_mod_right, Nat.mod_eq_of_lt hv]
        · simp only [Ring.reach]
          omega
        · simp only [Ring.reach]
          omega
        · rw [Ring.tally, if_neg h, Ring.reach]
  obtain ⟨q, pos, hq, hpos, hle, hlt, htally⟩ := hlap
  have hE := r.cells_lt
  apply BitVec.eq_of_toNat_eq
  rw [Ring.toNat_difference ((toNat_cell hv.le).trans hq.symm)
    ((toNat_cell hown.le).trans hpos.symm) hle hlt, htally, toNat_cell (r := r) (by omega)]

theorem does_startCount : Does r k s (idle last) w n (inCount .loadSecond last) w n := by
  refine .of_step fun σ hσ => ⟨{ σ with sent := σ.sent ++ [] }, .start (.count rfl), ?_⟩
  exact ⟨hσ.word, hσ.moved⟩

theorem does_loadSecond (hk : k ≤ 8) : Does r k s (inCount .loadSecond last) w n
    (inCount (.loadFirst (BitVec.ofNat 64 (w.get s.peer true))) last) w n :=
  does_load hk rfl rfl rfl

theorem does_loadFirst (hk : k ≤ 8) (hv : v = w.get s.peer false) :
    Does r k s (inCount (.loadFirst (BitVec.ofNat 64 v)) last) w n
      (inCount (.compare (BitVec.ofNat 64 v)) last) w n := by
  refine does_load (u := s.peer) (b := false) hk rfl rfl ?_
  subst hv
  simp only [Call.next, ne_eq, not_true_eq_false, if_false]
  rfl

theorem does_tally (hk : k ≤ 8) (hv : v < r.cells) (hw : w.get s false < r.cells) :
    Does r k s (inCount (.compare (BitVec.ofNat 64 v)) last) w n
      (idle (r.tally s v (w.get s false))) w n := by
  have hcompare : Does r k s (inCount (.compare (BitVec.ofNat 64 v)) last) w n
      (inCount (.subtract (BitVec.ofNat 64 v) (CircularBuffer.ahead s (BitVec.ofNat 64 v)
        (BitVec.ofNat 64 (w.get s false)))) last) w n := does_load hk rfl rfl rfl
  refine hcompare.trans (does_load (u := s) (b := false) hk rfl rfl ?_)
  simp only [Call.next, difference_eq hv hw]
  rfl

theorem does_second (hk : k ≤ 8) (hv : w.get s.peer true = v) :
    Does r k s (idle last) w n (inCount (.loadFirst (BitVec.ofNat 64 v)) last) w n := by
  subst hv
  exact does_startCount.trans (does_loadSecond hk)

theorem does_first (hk : k ≤ 8) (hv : w.get s.peer false = v) (hlt : v < r.cells)
    (hw : w.get s false < r.cells) (ht : r.tally s v (w.get s false) = count) :
    Does r k s (inCount (.loadFirst (BitVec.ofNat 64 v)) last) w n (idle count) w n := by
  subst ht
  exact (does_loadFirst hk hv.symm).trans (does_tally hk hlt hw)

/-- A count that finds the peer between two calls. -/
theorem does_count (hk : k ≤ 8) (hpeer : w.get s.peer true = v) (hv : w.get s.peer false = v)
    (hlt : v < r.cells) (hw : w.get s false < r.cells) (ht : r.tally s v (w.get s false) = count) :
    Does r k s (idle last) w n (idle count) w n :=
  (does_second hk hpeer).trans (does_first hk hv hlt hw ht)

end Counts

/-! ## Stopping between the parts of an access -/

section Halves

variable {left last x v : ℕ} {later : U64}

/-- With the first part of the next access done, `x` the part loaded. -/
def half (t : TornParty) (x : ℕ) : TornParty := ⟨t.party, some x⟩

theorem does_publish_low (hk : k ≤ 8) (hv : v < r.cells)
    (hx : v % 256 ^ k + 256 ^ k * (w.get s false / 256 ^ k) = x) :
    Does r k s (inTransfer s (.publish (BitVec.ofNat 64 v) later) left) w n
      (half (inTransfer s (.publish (BitVec.ofNat 64 v) later) left) 0) (w.set s false x) n := by
  rw [← toNat_cell hv.le] at hx
  subst hx
  exact does_storeLow hk rfl rfl

theorem does_publishSecond_low (hk : k ≤ 8) (hv : v < r.cells)
    (hx : v % 256 ^ k + 256 ^ k * (w.get s true / 256 ^ k) = x) :
    Does r k s (inTransfer s (.publishSecond (BitVec.ofNat 64 v) later) left) w n
      (half (inTransfer s (.publishSecond (BitVec.ofNat 64 v) later) left) 0)
      (w.set s true x) n := by
  rw [← toNat_cell hv.le] at hx
  subst hx
  exact does_storeLow hk rfl rfl

theorem does_publishSecond_high (hk : k ≤ 8) (hv : v < r.cells)
    (hx : w.get s true % 256 ^ k + 256 ^ k * (v / 256 ^ k) = x) :
    Does r k s (half (inTransfer s (.publishSecond (BitVec.ofNat 64 v) 0) 0) 0) w n (idle 0)
      (w.set s true x) n := by
  rw [← toNat_cell hv.le] at hx
  subst hx
  refine does_storeHigh hk rfl rfl ?_
  cases s <;> rfl

theorem does_second_low (hk : k ≤ 8) (hx : w.get s.peer true % 256 ^ k = x) :
    Does r k s (idle last) w n (half (inCount .loadSecond last) x) w n := by
  subst hx
  exact does_startCount.trans (does_loadLow hk rfl rfl)

theorem does_second_high (hk : k ≤ 8) (hv : x + 256 ^ k * (w.get s.peer true / 256 ^ k) = v) :
    Does r k s (half (inCount .loadSecond last) x) w n
      (inCount (.loadFirst (BitVec.ofNat 64 v)) last) w n := by
  subst hv
  exact does_loadHigh hk rfl rfl rfl

theorem does_first_low (hk : k ≤ 8) (hx : w.get s.peer false % 256 ^ k = x) :
    Does r k s (inCount (.loadFirst (BitVec.ofNat 64 v)) last) w n
      (half (inCount (.loadFirst (BitVec.ofNat 64 v)) last) x) w n := by
  subst hx
  exact does_loadLow hk rfl rfl

theorem does_first_high (hk : k ≤ 8) (hv : x + 256 ^ k * (w.get s.peer false / 256 ^ k) = v) :
    Does r k s (half (inCount (.loadFirst (BitVec.ofNat 64 v)) last) x) w n
      (inCount (.compare (BitVec.ofNat 64 v)) last) w n := by
  refine does_loadHigh (u := s.peer) (b := false) hk rfl rfl ?_
  subst hv
  simp only [Call.next, ne_eq, not_true_eq_false, if_false]
  rfl

end Halves

/-! ## Runs of both sides -/

section Runs

variable {m : Segment} {tp tp' tc tc' : TornParty} {last v count : ℕ}

/-- Some run gets the two sides to `tp` and `tc`, with these words and numbers. -/
def Gets (r : Ring) (k : ℕ) (m : Segment) (tp tc : TornParty) (w : Words) (n : Copied) : Prop :=
  ∃ σ, TornReach r k (tornStart r m) ⟨tp, tc, σ⟩ ∧ Shows r w n σ

theorem gets_start : Gets r k m (idle 0) (idle 0) ⟨0, 0, 0, 0⟩ ⟨0, 0⟩ := by
  refine ⟨_, .refl, fun s b => ?_, fun s => ?_⟩
  · have hword := Ring.word_clear (r := r) (m := m) s b
    cases s <;> cases b <;> exact congrArg BitVec.toNat hword
  · cases s <;> rfl

theorem Gets.producer (h : Gets r k m tp tc w n) (hd : Does r k .producer tp w n tp' w' n') :
    Gets r k m tp' tc w' n' := by
  obtain ⟨σ, hreach, hσ⟩ := h
  obtain ⟨σ', hrun, hσ'⟩ := hd σ hσ
  exact ⟨σ', hreach.trans (Reach.left tc hrun), hσ'⟩

theorem Gets.consumer (h : Gets r k m tp tc w n) (hd : Does r k .consumer tc w n tc' w' n') :
    Gets r k m tp tc' w' n' := by
  obtain ⟨σ, hreach, hσ⟩ := h
  obtain ⟨σ', hrun, hσ'⟩ := hd σ hσ
  exact ⟨σ', hreach.trans (Reach.right tp hrun), hσ'⟩

/-- A run to where the consumer counts more than there is. -/
theorem Gets.not_countsSafe
    (h : Gets r k m tp (inCount (.compare (BitVec.ofNat 64 v)) last) w n) (hv : v < r.cells)
    (hw : w.consumer < r.cells)
    (ht : r.tally .consumer v w.consumer = count) (hlt : n.producer < n.consumer + count) :
    ¬TornSafe r k m := by
  intro hsafe
  subst ht
  obtain ⟨σ, hreach, hσ⟩ := h
  have havail := (hsafe _ hreach).available (BitVec.ofNat 64 v) rfl
  have hp := hσ.moved .producer
  have hc := hσ.moved .consumer
  simp only [Copied.get] at hp hc
  have hcount : r.countOf .consumer (BitVec.ofNat 64 v) σ.mem
      = BitVec.ofNat 64 (r.tally .consumer v w.consumer) := by
    have hword : r.word σ.mem .consumer false = BitVec.ofNat 64 w.consumer := by
      apply BitVec.eq_of_toNat_eq
      rw [toNat_cell hw.le]
      exact hσ.word .consumer false
    rw [Ring.countOf, hword]
    exact difference_eq hv hw
  have htally : r.tally .consumer v w.consumer < 2 ^ 64 := by
    have hcells := r.cells_lt
    simp only [Ring.tally]
    split_ifs <;> omega
  simp only [hcount, BitVec.toNat_ofNat, Nat.mod_eq_of_lt htally] at havail
  omega

theorem Gets.counts (h : Gets r k m tp tc w n) {i j : ℕ} (hi : n.producer = i)
    (hj : n.consumer = j) : Gets r k m tp tc w ⟨i, j⟩ := by
  subst hi hj
  exact h

theorem gets_two (hk : k ≤ 8) (hE : 2 < r.cells) :
    Gets r k m (idle (r.cells - 1)) (idle 0) ⟨2, 2, 2, 2⟩ ⟨2, 2⟩ := by
  have h0 : 0 < r.cells := r.cells_pos
  have hfree : Gets r k m (idle (r.cells - 1)) (idle 0) ⟨0, 0, 0, 0⟩ _ :=
    gets_start.producer (does_count hk rfl rfl h0 h0 (tally_free 0 0 le_rfl (by omega)))
  have hwritten : Gets r k m (idle 0) (idle 0) ⟨2, 2, 0, 0⟩ _ :=
    hfree.producer (does_complete hk (by omega : 2 ≤ r.cells - 1) (by omega) h0
      (by omega : 0 + 2 ≤ r.cells) (Nat.mod_eq_of_lt hE))
  have havailable : Gets r k m (idle 0) (idle 2) ⟨2, 2, 0, 0⟩ _ :=
    hwritten.consumer (does_count hk rfl rfl hE h0 (tally_available 2 0 (by omega) rfl))
  have hread : Gets r k m (idle 0) (idle 0) ⟨2, 2, 2, 2⟩ _ :=
    havailable.consumer (does_complete hk le_rfl hE h0 (by omega : 0 + 2 ≤ r.cells)
      (Nat.mod_eq_of_lt hE))
  exact (hread.producer (does_count hk rfl rfl hE hE (tally_free 2 2 le_rfl (by omega)))).counts
    rfl rfl

/-! With room to spare, one lap is enough. The producer stores `256 ^ k + 1` over 2 and the consumer
takes its low part 1 for the second word. A lap later the producer has stored 0, and that word's
high part over the low one from before makes 1 again. -/

theorem gets_lap (hk : k ≤ 8) (hB : 2 < 256 ^ k) (hE : 256 ^ k + 2 ≤ r.cells) :
    Gets r k m (inTransfer .producer (.publishSecond (BitVec.ofNat 64 0) 0) 0)
      (inCount (.compare (BitVec.ofNat 64 1)) 0) ⟨0, 256 ^ k + 1, 2, 2⟩ ⟨r.cells, 2⟩ := by
  have h2 : 2 < r.cells := by omega
  have hlt : 256 ^ k + 1 < r.cells := by omega
  have hmod : (256 ^ k + 1) % 256 ^ k = 1 := by
    rw [Nat.add_mod_left, Nat.mod_eq_of_lt (by omega)]
  have hdiv : (256 ^ k + 1) / 256 ^ k = 1 := by
    rw [Nat.add_div_left _ (by omega), Nat.div_eq_of_lt (by omega)]
  have hold : 2 / 256 ^ k = 0 := Nat.div_eq_of_lt hB
  have hcopied : Gets r k m
      (inTransfer .producer (.publish (BitVec.ofNat 64 (256 ^ k + 1)) 0) 0) (idle 0)
      ⟨2, 2, 2, 2⟩ _ :=
    (gets_two hk h2).producer (does_transfer hk (by omega : 256 ^ k - 1 ≤ r.cells - 1) (by omega) h2
      (by omega : 2 + (256 ^ k - 1) ≤ r.cells)
      ((Nat.mod_eq_of_lt (by omega : 2 + (256 ^ k - 1) < r.cells)).trans (by omega)))
  have hlow : Gets r k m
      (half (inTransfer .producer (.publishSecond (BitVec.ofNat 64 (256 ^ k + 1)) 0) 0) 0) (idle 0)
      ⟨256 ^ k + 1, 1, 2, 2⟩ _ :=
    (hcopied.producer (does_publish hk hlt)).producer
      (does_publishSecond_low hk hlt (by rw [hmod]; exact congrArg (1 + 256 ^ k * ·) hold))
  have hsecond : Gets r k m
      (half (inTransfer .producer (.publishSecond (BitVec.ofNat 64 (256 ^ k + 1)) 0) 0) 0)
      (inCount (.loadFirst (BitVec.ofNat 64 1)) 0) ⟨256 ^ k + 1, 1, 2, 2⟩ _ :=
    hlow.consumer (does_second hk rfl)
  have hhigh : Gets r k m (idle 0) (inCount (.loadFirst (BitVec.ofNat 64 1)) 0)
      ⟨256 ^ k + 1, 256 ^ k + 1, 2, 2⟩ _ :=
    hsecond.producer (does_publishSecond_high (x := 256 ^ k + 1) hk hlt (by
      rw [hdiv]
      change 1 % 256 ^ k + _ = _
      rw [Nat.mod_eq_of_lt (by omega)]
      omega))
  have hfirst : Gets r k m (idle 0) (half (inCount (.loadFirst (BitVec.ofNat 64 1)) 0) 1)
      ⟨256 ^ k + 1, 256 ^ k + 1, 2, 2⟩ _ :=
    hhigh.consumer (does_first_low hk hmod)
  have hfree : Gets r k m (idle (r.cells - 256 ^ k))
      (half (inCount (.loadFirst (BitVec.ofNat 64 1)) 0) 1)
      ⟨256 ^ k + 1, 256 ^ k + 1, 2, 2⟩ _ :=
    hfirst.producer (does_count hk rfl rfl h2 hlt
      (tally_free 2 (256 ^ k + 1) (by omega) (by omega)))
  have hlapped : Gets r k m (inTransfer .producer (.publishSecond (BitVec.ofNat 64 0) 0) 0)
      (half (inCount (.loadFirst (BitVec.ofNat 64 1)) 0) 1) ⟨0, 256 ^ k + 1, 2, 2⟩ _ :=
    (hfree.producer (does_transfer hk
      (by omega : r.cells - 256 ^ k - 1 ≤ r.cells - 256 ^ k) (by omega) hlt
      (by omega : 256 ^ k + 1 + (r.cells - 256 ^ k - 1) ≤ r.cells)
      (by
        change (256 ^ k + 1 + (r.cells - 256 ^ k - 1)) % r.cells = 0
        rw [show 256 ^ k + 1 + (r.cells - 256 ^ k - 1) = r.cells by omega, Nat.mod_self]))).producer
      (does_publish hk r.cells_pos)
  have hcompare := hlapped.consumer (does_first_high hk (by
    change 1 + 256 ^ k * (0 / 256 ^ k) = 1
    rw [Nat.zero_div, Nat.mul_zero]))
  exact hcompare.counts (by simp only [Copied.add]; omega) rfl

/-! With one cell more than the low part can number, `256 ^ k` is the last cell and the only one
whose high part is not 0. The consumer is led to take 0 for the producer's second word after a lap
and a half, and its cursor has passed cell 0 three times by then. -/

section Tight

variable {tc : TornParty}

theorem gets_zero (hk : k ≤ 8) (hB : 2 < 256 ^ k) (hE : r.cells = 256 ^ k + 1) :
    Gets r k m (idle 0) (inCount (.loadFirst (BitVec.ofNat 64 0)) 0)
      ⟨256 ^ k, 256 ^ k, 2, 2⟩ ⟨256 ^ k, 2⟩ := by
  have h2 : 2 < r.cells := by omega
  have hlt : 256 ^ k < r.cells := by omega
  have hdiv : 256 ^ k / 256 ^ k = 1 := Nat.div_self (by omega)
  have hcopied : Gets r k m (inTransfer .producer (.publish (BitVec.ofNat 64 (256 ^ k)) 0) 0)
      (idle 0) ⟨2, 2, 2, 2⟩ _ :=
    (gets_two hk h2).producer (does_transfer hk (by omega : 256 ^ k - 2 ≤ r.cells - 1) (by omega) h2
      (by omega : 2 + (256 ^ k - 2) ≤ r.cells)
      ((Nat.mod_eq_of_lt (by omega : 2 + (256 ^ k - 2) < r.cells)).trans (by omega)))
  have hlow : Gets r k m
      (half (inTransfer .producer (.publishSecond (BitVec.ofNat 64 (256 ^ k)) 0) 0) 0) (idle 0)
      ⟨256 ^ k, 0, 2, 2⟩ _ :=
    (hcopied.producer (does_publish hk hlt)).producer (does_publishSecond_low hk hlt (by
      change 256 ^ k % 256 ^ k + 256 ^ k * (2 / 256 ^ k) = 0
      rw [Nat.mod_self, Nat.div_eq_of_lt hB]
      rfl))
  have hsecond : Gets r k m
      (half (inTransfer .producer (.publishSecond (BitVec.ofNat 64 (256 ^ k)) 0) 0) 0)
      (inCount (.loadFirst (BitVec.ofNat 64 0)) 0) ⟨256 ^ k, 0, 2, 2⟩ _ :=
    hlow.consumer (does_second hk rfl)
  have hhigh := hsecond.producer (does_publishSecond_high (x := 256 ^ k) hk hlt (by
    change 0 % 256 ^ k + 256 ^ k * (256 ^ k / 256 ^ k) = 256 ^ k
    rw [Nat.zero_mod, hdiv, Nat.mul_one, Nat.zero_add]))
  exact hhigh.counts (by simp only [Copied.add]; omega) rfl

/-- The producer stops between the two stores of a wrapped cursor, and the consumer takes the old
second word. -/
theorem gets_wrapped (hk : k ≤ 8) (hB : 2 < 256 ^ k) (hE : r.cells = 256 ^ k + 1) :
    Gets r k m
      (inTransfer .producer (.publishSecond (BitVec.ofNat 64 0) (BitVec.ofNat 64 1)) 1)
      (inCount (.loadFirst (BitVec.ofNat 64 (256 ^ k))) 0)
      ⟨0, 256 ^ k, 0, 0⟩ ⟨256 ^ k + 1, 256 ^ k + 1⟩ := by
  have h2 : 2 < r.cells := by omega
  have hlt : 256 ^ k < r.cells := by omega
  have hfree : Gets r k m (idle 2) (inCount (.loadFirst (BitVec.ofNat 64 0)) 0)
      ⟨256 ^ k, 256 ^ k, 2, 2⟩ _ :=
    (gets_zero hk hB hE).producer (does_count hk rfl rfl h2 hlt
      (tally_free 2 (256 ^ k) hB.le (by omega)))
  have hpublished : Gets r k m
      (inTransfer .producer (.publishSecond (BitVec.ofNat 64 0) (BitVec.ofNat 64 1)) 1)
      (inCount (.loadFirst (BitVec.ofNat 64 0)) 0) ⟨0, 256 ^ k, 2, 2⟩ _ :=
    (hfree.producer (does_transfer_wrap hk le_rfl h2 hlt
      (by change 256 ^ k + 2 = r.cells + 1; omega) Nat.one_pos)).producer
      (does_publish hk r.cells_pos)
  have havailable : Gets r k m
      (inTransfer .producer (.publishSecond (BitVec.ofNat 64 0) (BitVec.ofNat 64 1)) 1)
      (idle (256 ^ k - 1)) ⟨0, 256 ^ k, 2, 2⟩ _ :=
    hpublished.consumer (does_first hk rfl r.cells_pos h2 (tally_wrapped 0 2 (by omega) (by omega)))
  have hread : Gets r k m
      (inTransfer .producer (.publishSecond (BitVec.ofNat 64 0) (BitVec.ofNat 64 1)) 1)
      (idle 0) ⟨0, 256 ^ k, 0, 0⟩ _ :=
    havailable.consumer (does_complete hk le_rfl (by omega) h2
      (by omega : 2 + (256 ^ k - 1) ≤ r.cells) (by
        change (2 + (256 ^ k - 1)) % r.cells = 0
        rw [show 2 + (256 ^ k - 1) = r.cells by omega, Nat.mod_self]))
  have hsecond := hread.consumer (does_second hk rfl)
  exact hsecond.counts (by simp only [Copied.add, Words.get]; omega) (by
    simp only [Copied.add]
    omega)

/-- Having taken it the consumer counts up to the last cell, which the producer has by then stored
in its first word alone. It stops within its next load of the second word. -/
theorem gets_last (hk : k ≤ 8) (hB : 2 < 256 ^ k) (hE : r.cells = 256 ^ k + 1) :
    Gets r k m (idle 0) (half (inCount .loadSecond 0) 1) ⟨256 ^ k, 256 ^ k, 2, 2⟩
      ⟨2 * 256 ^ k + 1, 256 ^ k + 3⟩ := by
  have h1 : 1 < r.cells := by omega
  have h2 : 2 < r.cells := by omega
  have hlt : 256 ^ k < r.cells := by omega
  have hwritten : Gets r k m (idle 0) (inCount (.loadFirst (BitVec.ofNat 64 (256 ^ k))) 0)
      ⟨1, 1, 0, 0⟩ _ :=
    ((gets_wrapped hk hB hE).producer (does_wrap hk Nat.one_pos h1 rfl)).producer
      (does_publishSecond hk h1)
  have hfree : Gets r k m (idle (256 ^ k - 1)) (inCount (.loadFirst (BitVec.ofNat 64 (256 ^ k))) 0)
      ⟨1, 1, 0, 0⟩ _ :=
    hwritten.producer (does_count hk rfl rfl r.cells_pos h1
      (tally_free 0 1 (by omega) (by omega)))
  have hpublished : Gets r k m
      (inTransfer .producer (.publishSecond (BitVec.ofNat 64 (256 ^ k)) 0) 0)
      (inCount (.loadFirst (BitVec.ofNat 64 (256 ^ k))) 0) ⟨256 ^ k, 1, 0, 0⟩ _ :=
    (hfree.producer (does_transfer hk le_rfl (by omega) h1
      (by omega : 1 + (256 ^ k - 1) ≤ r.cells)
      ((Nat.mod_eq_of_lt (by omega : 1 + (256 ^ k - 1) < r.cells)).trans (by omega)))).producer
      (does_publish hk hlt)
  have havailable : Gets r k m
      (inTransfer .producer (.publishSecond (BitVec.ofNat 64 (256 ^ k)) 0) 0) (idle (256 ^ k))
      ⟨256 ^ k, 1, 0, 0⟩ _ :=
    hpublished.consumer (does_first hk rfl hlt r.cells_pos
      (tally_available (256 ^ k) 0 (Nat.zero_le _) rfl))
  have hread : Gets r k m
      (inTransfer .producer (.publishSecond (BitVec.ofNat 64 (256 ^ k)) 0) 0) (idle 0)
      ⟨256 ^ k, 1, 2, 2⟩ _ :=
    havailable.consumer (does_complete hk hB.le hlt r.cells_pos (by omega : 0 + 2 ≤ r.cells)
      (Nat.mod_eq_of_lt h2))
  have hlow := hread.consumer (does_second_low hk (Nat.mod_eq_of_lt (by omega : 1 < 256 ^ k)))
  exact (hlow.producer (does_publishSecond hk hlt)).counts
    (by simp only [Copied.add]; omega) (by simp only [Copied.add])

/-- The other part of that load is of a second word that has been 0 for a while. -/
theorem gets_passed (hk : k ≤ 8) (hB : 2 < 256 ^ k) (hE : r.cells = 256 ^ k + 1) :
    Gets r k m (inTransfer .producer (.publishSecond (BitVec.ofNat 64 1) 0) 0)
      (inCount (.loadFirst (BitVec.ofNat 64 0)) 0) ⟨1, 0, 1, 1⟩
      ⟨2 * 256 ^ k + 3, 2 * 256 ^ k + 3⟩ := by
  have h1 : 1 < r.cells := by omega
  have h2 : 2 < r.cells := by omega
  have hlt : 256 ^ k < r.cells := by omega
  have hfree : Gets r k m (idle 2) (half (inCount .loadSecond 0) 1) ⟨256 ^ k, 256 ^ k, 2, 2⟩ _ :=
    (gets_last hk hB hE).producer (does_count hk rfl rfl h2 hlt
      (tally_free 2 (256 ^ k) hB.le (by omega)))
  have hpublished : Gets r k m
      (inTransfer .producer (.publishSecond (BitVec.ofNat 64 0) (BitVec.ofNat 64 1)) 1)
      (half (inCount .loadSecond 0) 1) ⟨0, 256 ^ k, 2, 2⟩ _ :=
    (hfree.producer (does_transfer_wrap hk le_rfl h2 hlt
      (by change 256 ^ k + 2 = r.cells + 1; omega) Nat.one_pos)).producer
      (does_publish hk r.cells_pos)
  have hwrapped : Gets r k m (inTransfer .producer (.publishSecond (BitVec.ofNat 64 1) 0) 0)
      (half (inCount .loadSecond 0) 1) ⟨1, 0, 2, 2⟩ _ :=
    hpublished.producer (does_wrap hk Nat.one_pos h1 rfl)
  have hsecond : Gets r k m (inTransfer .producer (.publishSecond (BitVec.ofNat 64 1) 0) 0)
      (inCount (.loadFirst (BitVec.ofNat 64 1)) 0) ⟨1, 0, 2, 2⟩ _ :=
    hwrapped.consumer (does_second_high hk (by
      change 1 + 256 ^ k * (0 / 256 ^ k) = 1
      rw [Nat.zero_div, Nat.mul_zero]))
  have havailable : Gets r k m (inTransfer .producer (.publishSecond (BitVec.ofNat 64 1) 0) 0)
      (idle (256 ^ k)) ⟨1, 0, 2, 2⟩ _ :=
    hsecond.consumer (does_first hk rfl h1 h2 (tally_wrapped 1 2 (by omega) (by omega)))
  have hread : Gets r k m (inTransfer .producer (.publishSecond (BitVec.ofNat 64 1) 0) 0) (idle 0)
      ⟨1, 0, 1, 1⟩ _ :=
    havailable.consumer (does_complete_wrap hk le_rfl hlt h2
      (by change 2 + 256 ^ k = r.cells + 1; omega) Nat.one_pos)
  exact (hread.consumer (does_second hk rfl)).counts
    (by simp only [Copied.add, Words.get]; omega) (by simp only [Copied.add]; omega)

theorem gets_past (hk : k ≤ 8) (hB : 2 < 256 ^ k) (hE : r.cells = 256 ^ k + 1) :
    Gets r k m (half (inTransfer .producer (.publish (BitVec.ofNat 64 (256 ^ k)) 0) 0) 0)
      (inCount (.compare (BitVec.ofNat 64 0)) 0) ⟨0, 1, 1, 1⟩
      ⟨3 * 256 ^ k + 2, 2 * 256 ^ k + 3⟩ := by
  have h1 : 1 < r.cells := by omega
  have hlt : 256 ^ k < r.cells := by omega
  have hwritten : Gets r k m (idle 0) (inCount (.loadFirst (BitVec.ofNat 64 0)) 0) ⟨1, 1, 1, 1⟩ _ :=
    (gets_passed hk hB hE).producer (does_publishSecond hk h1)
  have hfree : Gets r k m (idle (256 ^ k)) (inCount (.loadFirst (BitVec.ofNat 64 0)) 0)
      ⟨1, 1, 1, 1⟩ _ :=
    hwritten.producer (does_count hk rfl rfl h1 h1 (tally_free 1 1 le_rfl (by omega)))
  have hcopied : Gets r k m (inTransfer .producer (.publish (BitVec.ofNat 64 (256 ^ k)) 0) 0)
      (inCount (.loadFirst (BitVec.ofNat 64 0)) 0) ⟨1, 1, 1, 1⟩ _ :=
    hfree.producer (does_transfer hk (by omega : 256 ^ k - 1 ≤ 256 ^ k) hlt h1
      (by omega : 1 + (256 ^ k - 1) ≤ r.cells)
      ((Nat.mod_eq_of_lt (by omega : 1 + (256 ^ k - 1) < r.cells)).trans (by omega)))
  have hlow : Gets r k m
      (half (inTransfer .producer (.publish (BitVec.ofNat 64 (256 ^ k)) 0) 0) 0)
      (inCount (.loadFirst (BitVec.ofNat 64 0)) 0) ⟨0, 1, 1, 1⟩ _ :=
    hcopied.producer (does_publish_low hk hlt (by
      change 256 ^ k % 256 ^ k + 256 ^ k * (1 / 256 ^ k) = 0
      rw [Nat.mod_self, Nat.div_eq_of_lt (by omega)]
      rfl))
  exact (hlow.consumer (does_loadFirst hk rfl)).counts
    (by simp only [Copied.add]; omega) rfl

end Tight

/-- With more cells than the low part of a word can number, some run counts bytes that are not
there. -/
theorem torn_unsafe (hk : 1 ≤ k) (hk' : k ≤ 7) (hE : 256 ^ k < r.cells) : ¬TornSafe r k m := by
  have hB : 2 < 256 ^ k := by
    have hpow : 256 ^ 1 ≤ 256 ^ k := Nat.pow_le_pow_right (by omega) hk
    omega
  have hk8 : k ≤ 8 := by omega
  have hE' : r.cells = 256 ^ k + 1 ∨ 256 ^ k + 2 ≤ r.cells := by omega
  rcases hE' with htight | hspare
  · exact (gets_past hk8 hB htight).not_countsSafe r.cells_pos (by change 1 < r.cells; omega)
      (tally_wrapped 0 1 Nat.one_pos rfl) (by simp only; omega)
  · exact (gets_lap hk8 hB hspare).not_countsSafe (by omega) (by change 2 < r.cells; omega)
      (tally_wrapped 1 2 (by omega) rfl) (by simp only; omega)

/-- The second word of a cursor makes up for a torn load exactly when every cell can be numbered by
the low part alone. -/
theorem torn_counts_safe_iff (hk : 1 ≤ k) (hk' : k ≤ 7) : TornSafe r k m ↔ r.cells ≤ 256 ^ k := by
  constructor
  · intro hsafe
    by_contra hE
    exact torn_unsafe hk hk' (not_le.1 hE) hsafe
  · intro hE x hreach
    exact torn_countsSafe (by omega) hE hreach

theorem torn_counts_safe_iff_small : TornSafe smallRing 1 fun _ => 0 :=
  (torn_counts_safe_iff le_rfl (by decide)).2 (by decide)

/-- 258 cells, the low byte of every word stored and loaded apart. -/
theorem torn_counts_unsafe : ¬TornSafe ⟨144, 290, by decide⟩ 1 fun _ => 0 :=
  torn_unsafe le_rfl (by decide) (by decide)

end Runs

end MemMapIPC
