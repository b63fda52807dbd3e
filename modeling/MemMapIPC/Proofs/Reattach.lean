import Mathlib.Algebra.Order.BigOperators.Group.List
import MemMapIPC.Proofs.Succession

/-!
# The stream from one client after another

An attach takes effect at its store of the consumer's word. Up to there the server goes by the ring
as it was: of what the attach has already stored it would only see the producer's words, and it
sees those in its retry loop alone. So in between, what the server knows is known of a state that
is `Alike`: the same but for the words the attach is ahead or behind with.
-/

namespace MemMapIPC

open ByteMemory Interleaving

variable {r : Ring} {σ σ' τ : Shared} {p p' : Party} {D : Side → Bool → Prop}

/-! ## States that differ in some cursor words -/

/-- `τ` is `σ` with other values, if at all, in the words `D` only. -/
structure Alike (r : Ring) (D : Side → Bool → Prop) (σ τ : Shared) : Prop where
  word : ∀ s b, ¬D s b → r.word τ.mem s b = r.word σ.mem s b
  cell : ∀ i < r.cells, r.cell τ.mem i = r.cell σ.mem i
  sent : τ.sent = σ.sent
  moved : τ.moved = σ.moved
  advanced : τ.advanced = σ.advanced

theorem Alike.refl : Alike r D σ σ := ⟨fun _ _ _ => rfl, fun _ _ => rfl, rfl, rfl, rfl⟩

theorem Alike.storeWord (h : Alike r D σ τ) {s : Side} {b : Bool} (hD : D s b) (v : U64) :
    Alike r D { σ with mem := σ.mem.storeWord (r.buffer.pointer s b) v } τ := by
  refine ⟨fun t c hc => ?_, fun i hi => ?_, h.sent, h.moved, h.advanced⟩
  · have hne : (t, c) ≠ (s, b) := by
      rintro he
      obtain ⟨rfl, rfl⟩ := Prod.mk.inj he
      exact hc hD
    rw [Ring.word_storeWord_of_ne hne, h.word t c hc]
  · rw [Ring.cell_storeWord hi, h.cell i hi]

theorem Own.alike {s : Side} (h : Own r s τ p) (ha : Alike r (fun _ _ => False) σ τ) :
    Own r s σ p := by
  have hmem := own_leaves _ _ _ h (h.sound.leaves_congr (m := σ.mem)
    (fun s b => (ha.word s b not_false).symm) (fun i hi => (ha.cell i hi).symm) s)
  obtain ⟨mem, sent, moved, advanced⟩ := σ
  obtain ⟨h1, h2, h3⟩ := And.intro ha.sent (And.intro ha.moved ha.advanced)
  simp only at h1 h2 h3
  subst h1 h2 h3
  exact hmem

/-! ## The server's accesses -/

/-- What the server holds apart from its last count. -/
def Party.forget (p : Party) : Party := { p with last := 0 }

theorem Own.forget {s : Side} (h : Own r s σ p) : Own r s σ p.forget :=
  ⟨h.sound, (Nat.add_le_add_left (Nat.zero_le _) _).trans h.last, fun _ _ _ => rfl, h.sent,
    h.at_call⟩

/-- An access that loads no word of `D` goes in `τ` as in `σ`. -/
theorem Alike.move (ha : Alike r D σ τ) {c : Call}
    (hload : ∀ t b, c.access r.buffer .consumer = .load (r.buffer.pointer t b) → ¬D t b)
    (hget : ∀ a, c.access r.buffer .consumer = .get a → τ.mem a = σ.mem a)
    (hm : p.move r.buffer .consumer c σ = some (p', σ')) :
    ∃ τ', p.move r.buffer .consumer c τ = some (p', τ') ∧ Alike r D σ' τ' := by
  rcases hacc : c.access r.buffer .consumer with a | ⟨a, v⟩ | a | a
  · obtain ⟨t, b, rfl⟩ := Call.access_load hacc
    have hw : τ.mem.loadWord (r.buffer.pointer t b) = σ.mem.loadWord (r.buffer.pointer t b) :=
      ha.word t b (hload t b hacc)
    simp only [Party.move_of_load hacc, Option.map_eq_some_iff, Prod.mk.injEq] at hm ⊢
    obtain ⟨q, hq, rfl, rfl⟩ := hm
    refine ⟨τ, ⟨q, ?_, rfl, rfl⟩, ha⟩
    rw [hw]
    exact hq
  · obtain ⟨b, later, rfl, hc⟩ := Call.access_store hacc
    simp only [Party.move_of_store hacc, Option.map_eq_some_iff, Prod.mk.injEq] at hm ⊢
    obtain ⟨q, hq, rfl, rfl⟩ := hm
    refine ⟨_, ⟨q, hq, rfl, rfl⟩, fun t k hk => ?_, fun i hi => ?_, ?_, ?_, ?_⟩
    · by_cases he : (t, k) = (.consumer, b)
      · obtain ⟨rfl, rfl⟩ := Prod.mk.inj he
        rw [Ring.word_storeWord_same, Ring.word_storeWord_same]
      · rw [Ring.word_storeWord_of_ne he, Ring.word_storeWord_of_ne he, ha.word t k hk]
    · rw [Ring.cell_storeWord hi, Ring.cell_storeWord hi, ha.cell i hi]
    · rcases hc with rfl | rfl <;> exact ha.sent
    · rcases hc with rfl | rfl <;> exact ha.moved
    · rcases hc with rfl | rfl
      · simp only [Shared.advance, ha.advanced, ha.moved]
      · exact ha.advanced
  · simp only [Party.move_of_get hacc, Option.map_eq_some_iff, Prod.mk.injEq] at hm ⊢
    obtain ⟨q, hq, rfl, rfl⟩ := hm
    refine ⟨_, ⟨q, hq, rfl, rfl⟩, ha.word, ha.cell, ha.sent, ?_, ha.advanced⟩
    simp only [Shared.copied, ha.moved, hget a hacc]
  · exact absurd hacc Call.access_ne_put

theorem Party.move_forget {cb : CircularBuffer} {s : Side} {c : Call}
    (hm : p.move cb s c σ = some (p', σ')) :
    ∃ q, p.forget.move cb s c σ = some (q, σ') ∧ q.forget = p'.forget
      ∧ (p'.last = p.last ∨ p'.last = q.last) := by
  have hresume : ∀ {o : Outcome} {p p' : Party}, p.resume o = some p' → ∃ q,
      p.forget.resume o = some q ∧ q.forget = p'.forget
        ∧ (p'.last = p.last ∨ p'.last = q.last) := by
    intro o p p' h
    cases o <;> simp only [Party.resume, Option.some.injEq, reduceCtorEq] at h
    · subst h
      exact ⟨_, rfl, rfl, .inl rfl⟩
    · subst h
      exact ⟨_, rfl, rfl, .inr rfl⟩
    · subst h
      exact ⟨_, rfl, rfl, .inl rfl⟩
  rcases hacc : c.access cb s with a | ⟨a, v⟩ | a | a
  · simp only [Party.move_of_load hacc, Option.map_eq_some_iff, Prod.mk.injEq] at hm ⊢
    obtain ⟨p', hp', rfl, rfl⟩ := hm
    obtain ⟨q, hq, h⟩ := hresume hp'
    exact ⟨q, ⟨q, hq, rfl, rfl⟩, h⟩
  · simp only [Party.move_of_store hacc, Option.map_eq_some_iff, Prod.mk.injEq] at hm ⊢
    obtain ⟨p', hp', rfl, rfl⟩ := hm
    obtain ⟨q, hq, h⟩ := hresume hp'
    exact ⟨q, ⟨q, hq, rfl, rfl⟩, h⟩
  · simp only [Party.move_of_get hacc, Option.map_eq_some_iff, Prod.mk.injEq] at hm ⊢
    obtain ⟨p', hp', rfl, rfl⟩ := hm
    obtain ⟨q, hq, h⟩ := hresume hp'
    exact ⟨q, ⟨q, hq, rfl, rfl⟩, h⟩
  · rcases hb : p.source with _ | ⟨b, rest⟩
    · simp [Party.move, hacc, hb] at hm
    · have hb' : p.forget.source = b :: rest := hb
      simp only [Party.move_of_put hacc hb, Party.move_of_put hacc hb', Option.map_eq_some_iff,
        Prod.mk.injEq] at hm ⊢
      obtain ⟨p', hp', rfl, rfl⟩ := hm
      obtain ⟨q, hq, h⟩ := hresume hp'
      exact ⟨q, ⟨q, hq, rfl, rfl⟩, h⟩

def Party.Spent (p : Party) : Prop := ∀ c, p.call = some c → c.transfers → p.last = 0

theorem Party.Spent.move {cb : CircularBuffer} {s : Side} {c : Call} (h : p.Spent)
    (hc : p.call = some c) (hm : p.move cb s c σ = some (p', σ')) : p'.Spent := by
  obtain ⟨v, source, hres⟩ := Party.move_resume hm
  intro c' hc' ht
  rcases hn : c.next cb s v with c'' | n | _ | _ <;> rw [hn] at hres
  · obtain rfl := Option.some.inj hres
    obtain rfl := Option.some.inj hc'
    exact h c hc ((Call.transfers_next hn).symm.trans ht)
  · obtain rfl := Option.some.inj hres
    cases hc'
  · obtain rfl := Option.some.inj hres
    cases hc'
  · cases hres

/-- The server counts no byte that is not there to be read. -/
def Counted (p p' : Party) (σ σ' : Shared) : Prop :=
  p'.last.toNat + (σ'.moved .consumer).length ≤ p.last.toNat + (σ.moved .consumer).length
    ∨ p'.last.toNat + (σ'.moved .consumer).length ≤ (σ'.moved .producer).length

/-- An access of the server keeps what it knows of the state it goes by, unless it leaves its retry
loop with a producer's word that is not the one there. -/
theorem Own.server_move (h : Own r .consumer τ p.forget) (ha : Alike r D σ τ)
    (hD : ¬D .consumer false) (hspent : p.Spent) {c : Call} (hc : p.call = some c)
    (hm : p.move r.buffer .consumer c σ = some (p', σ'))
    (hseen : ∀ v, c = .loadFirst v → p'.call = some (.compare v) →
      v = r.word σ.mem .producer false → D .producer false → Seen r .consumer τ v) :
    ∃ τ', Own r .consumer τ' p'.forget ∧ Alike r D σ' τ' ∧ Leaves r .producer τ τ'
      ∧ Counted p p' τ τ' := by
  have hc' : p.forget.call = some c := hc
  have hat := h.at_call
  rw [hc'] at hat
  have hto : ∀ c', c'.transfers = c.transfers → At r .consumer τ p.forget.source (some c') →
      ∃ τ', Own r .consumer τ' { p with call := some c' }.forget ∧ Alike r D σ τ'
        ∧ Leaves r .producer τ τ' ∧ Counted p { p with call := some c' } τ τ' := by
    intro c' ht hat'
    obtain ⟨hown, hk⟩ := h.goto hc' ht hat'
    exact ⟨τ, hown, ha, hk.toLeaves, .inl le_rfl⟩
  by_cases hloop : c = .loadSecond ∨ ∃ v, c = .loadFirst v ∧ D .producer false
  · rcases hloop with rfl | ⟨v, rfl, hDp⟩
    · have hacc : Call.access r.buffer .consumer .loadSecond
          = .load (r.buffer.pointer .producer true) := rfl
      simp only [Party.move_of_load hacc, Call.next, Party.resume, Option.map_some,
        Option.some.injEq, Prod.mk.injEq] at hm
      obtain ⟨rfl, rfl⟩ := hm
      exact hto _ rfl hat
    · have hacc : Call.access r.buffer .consumer (.loadFirst v)
          = .load (r.buffer.pointer .producer false) := rfl
      simp only [Party.move_of_load hacc, Call.next, Party.resume, Option.map_some,
        Option.some.injEq, Prod.mk.injEq] at hm
      obtain ⟨rfl, rfl⟩ := hm
      split_ifs at hseen ⊢ with hv
      · exact hto _ rfl hat
      · exact hto _ rfl ⟨hat.1, hat.2, hseen v rfl rfl (not_not.1 hv) hDp⟩
  · have hload : ∀ t b, c.access r.buffer .consumer = .load (r.buffer.pointer t b) → ¬D t b := by
      intro t b hacc hDtb
      rcases Call.access_load_cases hacc with ⟨rfl, -⟩ | ⟨v, rfl, he⟩ | he
      · exact hloop (.inl rfl)
      · obtain ⟨rfl, rfl⟩ := r.pointer_inj he
        exact hloop (.inr ⟨v, rfl, hDtb⟩)
      · obtain ⟨rfl, rfl⟩ := r.pointer_inj he
        exact hD hDtb
    have hget : ∀ a, c.access r.buffer .consumer = .get a → τ.mem a = σ.mem a := by
      intro a hacc
      obtain ⟨cell, i, now, later, rfl, hi, rfl⟩ := Call.access_byte (.inl hacc)
      obtain ⟨-, hcell⟩ := hat.2.2.2.2.cell hi hat.2.2.1
      rw [hat.1, hcell]
      exact ha.cell _ (Nat.mod_lt _ r.cells_pos)
    obtain ⟨τ', hm', ha'⟩ := ha.move hload hget hm
    obtain ⟨q, hq, hforget, hlast⟩ := Party.move_forget hm'
    obtain ⟨hown, hk⟩ := h.move hc' hq
    refine ⟨τ', hforget ▸ hown.forget, ha', hk.toLeaves, ?_⟩
    have hbound := hown.moved_add_last
    have hadv := hown.sound.advanced_le .producer
    simp only [limit, Ring.reach, Side.peer] at hbound
    rcases hlast with hlast | hlast
    · rcases ht : c.transfers with _ | _
      · obtain rfl := Party.move_of_not_transfers ht hm'
        exact .inl (by rw [hlast])
      · have h0 := hspent c hc ht
        refine .inr ?_
        rw [hlast, h0]
        change 0 + _ ≤ _
        omega
    · refine .inr ?_
      rw [hlast]
      omega

theorem Own.server_start (h : Own r .consumer τ p.forget) (ha : Alike r D σ τ) {data : List U8}
    (hp : p.Starts .consumer p' data)
    (hread : ∀ n, p.call = none → p'.call = some (.span n) →
      τ.advanced .consumer + n.toNat ≤ τ.advanced .producer) :
    ∃ τ', Own r .consumer τ' p'.forget ∧ Alike r D { σ with sent := σ.sent ++ data } τ'
      ∧ Leaves r .producer τ τ' ∧ Counted p p' τ τ' := by
  have ha' : Alike r D { σ with sent := σ.sent ++ [] } { τ with sent := τ.sent ++ [] } :=
    ⟨ha.word, ha.cell, congrArg (· ++ []) ha.sent, ha.moved, ha.advanced⟩
  cases hp with
  | count hc =>
    obtain ⟨hown, hk⟩ := h.start (.count hc)
    exact ⟨_, hown, ha', hk.toLeaves, .inl le_rfl⟩
  | @read p n hc hle =>
    have hlast : Own r .consumer τ { p.forget with last := n } :=
      ⟨h.sound, hread n hc rfl, (fun c hc' => nomatch hc.symm.trans hc'), h.sent,
        h.at_call⟩
    obtain ⟨hown, hk⟩ := hlast.start (.read hc (BitVec.le_refl n))
    refine ⟨_, hown, ha', hk.toLeaves, .inl ?_⟩
    change 0 + (τ.moved .consumer).length ≤ p.last.toNat + (τ.moved .consumer).length
    omega

theorem Own.server_step (h : Own r .consumer τ p.forget) (ha : Alike r D σ τ)
    (hD : ¬D .consumer false) (hspent : p.Spent)
    (hstep : RingStep r.buffer .consumer (p, σ) (p', σ'))
    (hseen : ∀ v, p.call = some (.loadFirst v) → p'.call = some (.compare v) →
      v = r.word σ.mem .producer false → D .producer false → Seen r .consumer τ v)
    (hread : ∀ n, p.call = none → p'.call = some (.span n) →
      τ.advanced .consumer + n.toNat ≤ τ.advanced .producer) :
    ∃ τ', Own r .consumer τ' p'.forget ∧ Alike r D σ' τ' ∧ Leaves r .producer τ τ'
      ∧ Counted p p' τ τ' := by
  cases hstep with
  | start hp => exact h.server_start ha hp hread
  | @move p c σ q hc hm =>
    exact h.server_move ha hD hspent hc hm fun v hv => hseen v (hv ▸ hc)

theorem Party.Spent.step {cb : CircularBuffer} (h : p.Spent)
    (hstep : RingStep cb .consumer (p, σ) (p', σ')) : p'.Spent := by
  cases hstep with
  | start hp =>
    cases hp with
    | count _ =>
      rintro c hc ht
      obtain rfl := Option.some.inj hc
      cases ht
    | read _ _ => exact fun _ _ _ => rfl
  | move hc hm => exact h.move hc hm

theorem RingStep.consumer_mem (hstep : RingStep r.buffer .consumer (p, σ) (p', σ')) :
    σ'.mem = σ.mem ∨ ∃ b v, σ'.mem = σ.mem.storeWord (r.buffer.pointer .consumer b) v := by
  cases hstep with
  | start _ => exact .inl rfl
  | @move p c σ q hc hm =>
    rcases hacc : c.access r.buffer .consumer with a | ⟨a, v⟩ | a | a
    · simp only [Party.move_of_load hacc, Option.map_eq_some_iff, Prod.mk.injEq] at hm
      obtain ⟨_, -, -, rfl⟩ := hm
      exact .inl rfl
    · obtain ⟨b, -, rfl, -⟩ := Call.access_store hacc
      simp only [Party.move_of_store hacc, Option.map_eq_some_iff, Prod.mk.injEq] at hm
      obtain ⟨_, -, -, rfl⟩ := hm
      exact .inr ⟨b, v, rfl⟩
    · simp only [Party.move_of_get hacc, Option.map_eq_some_iff, Prod.mk.injEq] at hm
      obtain ⟨_, -, -, rfl⟩ := hm
      exact .inl rfl
    · exact absurd hacc Call.access_ne_put

theorem RingStep.word_producer (hstep : RingStep r.buffer .consumer (p, σ) (p', σ')) (b : Bool) :
    r.word σ'.mem .producer b = r.word σ.mem .producer b := by
  rcases hstep.consumer_mem with h | ⟨c, v, h⟩ <;> rw [h]
  exact Ring.word_storeWord_of_ne (by simp)

theorem RingStep.consumer_outside (hstep : RingStep r.buffer .consumer (p, σ) (p', σ')) :
    r.Outside σ.mem σ'.mem := by
  rcases hstep.consumer_mem with h | ⟨c, v, h⟩ <;> rw [h]
  · exact Ring.outside_refl
  · exact Ring.outside_storeWord

/-! ## The ring emptied -/

theorem Party.Waits.at_settled (hp : p.Waits) (hset : Settled r .consumer σ) :
    At r .consumer σ p.source p.call := by
  have hrem : Remains .consumer p.source 0 := fun hs => nomatch hs
  unfold Party.Waits at hp
  split at hp
  · rename_i hc
    rw [hc]
    exact ⟨hset, hrem⟩
  · rename_i hc
    rw [hc]
    exact ⟨hset, hrem⟩
  · rename_i hc
    rw [hc]
    exact ⟨hset, hrem⟩
  · exact hp.elim

/-- With both cursors at the first cell the ring is empty, and whatever the server is at is of no
bytes. -/
theorem Own.at_first (h : Own r .consumer τ p.forget) {m : Segment}
    (hm : ∀ s b, r.word m s b = 0) (hp : ∀ s, r.position τ s = 0) :
    At r .consumer { mem := m } p.source p.call := by
  have hset := settled_zero hm .consumer
  have hrem : ∀ source n, Remains .consumer source n := fun _ _ hs => nomatch hs
  have hat := h.at_call
  have hpos := r.cells_pos
  have hle := h.sound.advanced_le .consumer
  have hmoved := h.sound.moved_le .consumer
  have hlimit := h.sound.limit_le .consumer
  simp only [limit, Ring.reach, Side.peer] at hmoved hlimit
  have heq : τ.advanced .consumer = τ.advanced .producer := by
    by_contra hne
    exact Cyclic.mod_ne_of_lt (n := r.cells) (by omega) (by omega)
      ((hp .consumer).trans (hp .producer).symm)
  have hzero : ∀ {v : U64}, v.toNat = 0 → v = 0 := fun hv => BitVec.eq_of_toNat_eq hv
  have hcell : τ.advanced .consumer % r.cells = 0 := hp .consumer
  have hlast : (τ.moved .consumer).length = τ.advanced .consumer := by omega
  have hseen : ∀ {v}, Seen r .consumer τ v → Seen r .consumer { mem := m } v := by
    rintro v ⟨q, hq, hv, hq'⟩
    obtain rfl : q = τ.advanced .consumer := by
      simp only [Side.peer, Ring.reach] at hq hq'
      omega
    exact ⟨0, le_rfl, by rw [hv, hcell, Nat.zero_mod], le_rfl⟩
  have hchunk : ∀ {now later}, Chunk r .consumer τ now later →
      Chunk r .consumer { mem := m } now later ∧ now = 0 ∧ later = 0 := by
    rintro now later ⟨h1, -, -⟩
    simp only [limit, Ring.reach, Side.peer] at h1
    obtain rfl : now = 0 := hzero (by omega)
    obtain rfl : later = 0 := hzero (by omega)
    refine ⟨⟨le_rfl, ?_, fun hl => absurd rfl hl⟩, rfl, rfl⟩
    change 0 % r.cells + 0 ≤ r.cells
    rw [Nat.zero_mod]
    omega
  change At r .consumer τ p.source p.call at hat
  rcases hc : p.call with _ | c
  · exact ⟨hset, hrem _ _⟩
  rw [hc] at hat
  cases c with
  | loadSecond => exact ⟨hset, hrem _ _⟩
  | loadFirst v => exact ⟨hset, hrem _ _⟩
  | compare v => exact ⟨hset, hrem _ _, hseen hat.2.2⟩
  | subtract v isAhead =>
    refine ⟨hset, hrem _ _, hseen hat.2.2.1, ?_⟩
    have hword : r.word τ.mem .consumer false = 0 :=
      hzero ((h.sound.first .consumer).trans hcell)
    rw [hat.2.2.2, hword, hm]
  | span n =>
    obtain ⟨-, -, hn⟩ := hat
    simp only [limit, Ring.reach, Side.peer] at hn
    obtain rfl : n = 0 := hzero (by omega)
    exact ⟨hset, hrem _ _, le_rfl⟩
  | address now later => exact ⟨hset, hrem _ _, (hchunk hat.2.2).1⟩
  | copy cell i now later =>
    obtain ⟨h1, h2, -, -, h5⟩ := hat
    obtain ⟨hchunk, rfl, rfl⟩ := hchunk h5
    obtain rfl : i = 0 := Nat.le_zero.1 h2
    refine ⟨?_, le_rfl, rfl, hrem _ _, hchunk⟩
    rw [h1, hcell]
    simp
  | publish v later =>
    obtain ⟨h1, -, h3, -⟩ := hat
    simp only [limit, Ring.reach, Side.peer] at h3
    obtain rfl : later = 0 := hzero (by omega)
    refine ⟨?_, hrem _ _, le_rfl, fun hl => absurd rfl hl⟩
    rw [h1, hlast, hcell]
    exact (Nat.zero_mod _).symm
  | publishSecond v later =>
    obtain ⟨-, h2, -, h4, -⟩ := hat
    simp only [limit, Ring.reach, Side.peer] at h4
    obtain rfl : later = 0 := hzero (by omega)
    refine ⟨rfl, ?_, hrem _ _, le_rfl, fun hl => absurd rfl hl⟩
    rw [h2, hcell]
    exact (Nat.zero_mod _).symm

/-- With all words zeroed the server starts on a new stream, if it waits or had both cursors at the
first cell. -/
theorem Own.renew (h : Own r .consumer τ p.forget) {m : Segment} (hm : ∀ s b, r.word m s b = 0)
    (hp : p.Waits ∨ ∀ s, r.position τ s = 0) : Own r .consumer { mem := m } p.forget := by
  refine ⟨sound_zero hm, Nat.zero_le _, fun _ _ _ => rfl, (fun hs => nomatch hs), ?_⟩
  change At r .consumer _ p.source p.call
  rcases hp with hp | hp
  · exact hp.at_settled (settled_zero hm .consumer)
  · exact h.at_first hm hp

/-- Zeroing the consumer's second word agrees with a cursor at the first cell. -/
theorem Own.settle (h : Own r .consumer τ p) (h0 : r.position τ .consumer = 0) :
    Own r .consumer { τ with mem := τ.mem.storeWord (r.buffer.pointer .consumer true) 0 } p := by
  have hk := h.sound.publishSecond (s := .consumer) (v := 0) r.cells_pos
  refine ⟨hk.sound, h.last, h.spent, (fun hs => nomatch hs), ?_⟩
  have hset : Settled r .consumer τ → Settled r .consumer
      { τ with mem := τ.mem.storeWord (r.buffer.pointer .consumer true) 0 } := by
    rintro ⟨h1, -⟩
    refine ⟨h1, ?_⟩
    rw [Ring.word_storeWord_same]
    exact h0.symm
  have hat := h.at_call
  rcases hc : p.call with _ | c <;> rw [hc] at hat
  · exact ⟨hset hat.1, hat.2⟩
  cases c with
  | subtract v isAhead =>
    refine ⟨hset hat.1, hat.2.1, hat.2.2.1, ?_⟩
    rw [Ring.word_storeWord_of_ne (by simp)]
    exact hat.2.2.2
  | copy cell i now later => exact hat
  | publish v later => exact hat
  | publishSecond v later => exact hat
  | _ => exact ⟨hset hat.1, hat.2⟩

/-! ## What is known at each point of an attach -/

/-- The attach has zeroed the producer's first word and not yet the consumer's: the server goes by
the ring as it was. -/
structure Half (r : Ring) (p : Party) (σ : Shared) : Prop where
  first : r.word σ.mem .producer false = 0
  own : ∃ τ, Alike r (fun s _ => s = .producer) σ τ ∧ Own r .consumer τ p

/-- It has zeroed the consumer's first word and not its second: the server goes by the ring as it
will be. -/
structure Emptied (r : Ring) (p : Party) (σ : Shared) : Prop where
  second : r.word σ.mem .producer true = 0
  sent : σ.sent = []
  moved : σ.moved .producer = []
  advanced : σ.advanced .producer = 0
  own : ∃ τ, Alike r (fun s b => s = .consumer ∧ b = true) σ τ ∧ Own r .consumer τ p

/-- What is known once `n` of the stores of an attach are done. -/
def Stage (r : Ring) (p : Party) (σ : Shared) : ℕ → Prop
  | 1 => Half r p σ
  | 2 => Half r p σ ∧ r.word σ.mem .producer true = 0
  | 3 => Emptied r p σ
  | _ => Own r .consumer σ p ∧ Own r .producer σ {}

/-- What is known of the server and the clients, by where the client is. -/
def Standing (L : Layout) (p : Party) (σ : Shared) : Slot → Prop
  | .attaching (.storing b rest) => b = L.bufferSize ∧ ∃ (now : Ptime L.sizeofPtime) (n : ℕ),
      n ≤ 5 ∧ rest = (Client.stores L.bufferSize now).drop n ∧ Stage (L.inbound 0) p σ n
  | .attached b q => b = L.bufferSize ∧ Own (L.inbound 0) .consumer σ p
      ∧ Own (L.inbound 0) .producer σ q
  | _ => Own (L.inbound 0) .consumer σ p ∧ Own (L.inbound 0) .producer σ {}

section Attach

variable {L : Layout} {now : Ptime L.sizeofPtime} {slot : Slot} {q : Party} {m : Segment}

theorem Alike.counted {τ' : Shared} (ha : Alike r D σ τ) (ha' : Alike r D σ' τ')
    (h : Counted p p' τ τ') : Counted p p' σ σ' := by
  unfold Counted at h ⊢
  rwa [← ha.moved, ← ha'.moved]

theorem Alike.moved_producer {τ' : Shared} (ha : Alike r D σ τ) (ha' : Alike r D σ' τ')
    (h : Leaves r .producer τ τ') : σ'.moved .producer = σ.moved .producer := by
  rw [← ha'.moved, h.moved, ha.moved]

theorem Own.server_whole (hc : Own r .consumer σ p.forget) (hp : Own r .producer σ q)
    (hspent : p.Spent) (hstep : RingStep r.buffer .consumer (p, σ) (p', σ'))
    (hread : ∀ n, p.call = none → p'.call = some (.span n) →
      σ.advanced .consumer + n.toNat ≤ σ.advanced .producer) :
    (Own r .consumer σ' p'.forget ∧ Own r .producer σ' q) ∧ Counted p p' σ σ'
      ∧ σ'.moved .producer = σ.moved .producer := by
  obtain ⟨τ', hown, ha, hl, hcount⟩ := hc.server_step (Alike.refl (D := fun _ _ => False))
    not_false hspent hstep (fun _ _ _ _ hD => hD.elim) hread
  exact ⟨⟨hown.alike ha, (own_leaves _ _ _ hp hl).alike ha⟩, Alike.refl.counted ha hcount,
    Alike.refl.moved_producer ha hl⟩

/-- Zero is a position the producer has been at within the server's reach. -/
theorem Sound.seen_zero (h : Sound r τ)
    (hpos : r.position τ .consumer = 0 ∨ r.position τ .producer < r.position τ .consumer) :
    Seen r .consumer τ 0 := by
  have hle := h.advanced_le .consumer
  have hmoved := h.moved_le .consumer
  simp only [limit, Ring.reach, Side.peer] at hmoved
  rcases hpos with h0 | hlt
  · exact ⟨τ.advanced .consumer, hle.trans hmoved, h0.symm, le_rfl⟩
  · exact ⟨r.cells * (τ.advanced .producer / r.cells), Nat.mul_div_le _ _,
      (Nat.mul_mod_right _ _).symm, Cyclic.le_lap (hle.trans hmoved) hlt⟩

theorem Half.server (h : Half r p.forget σ) (hspent : p.Spent)
    (hstep : RingStep r.buffer .consumer (p, σ) (p', σ'))
    (hleave : ∀ v, p.call = some (.loadFirst v) → p'.call = some (.compare v) →
      r.position σ .consumer = 0 ∨ r.position σ .producer < r.position σ .consumer)
    (hread : ∀ n, p.call = none → p'.call = some (.span n) →
      σ.advanced .consumer + n.toNat ≤ σ.advanced .producer) :
    Half r p'.forget σ' ∧ Counted p p' σ σ' ∧ σ'.moved .producer = σ.moved .producer := by
  obtain ⟨hfirst, τ, ha, hown⟩ := h
  have hpos : r.position τ = r.position σ := by
    unfold Ring.position
    rw [ha.advanced]
  obtain ⟨τ', hown', ha', hl, hcount⟩ := hown.server_step ha (by simp) hspent hstep
    (fun v hv hv' hw _ => by
      rw [hw, hfirst]
      exact hown.sound.seen_zero (hpos ▸ hleave v hv hv'))
    (by rw [ha.advanced]; exact hread)
  exact ⟨⟨(hstep.word_producer false).trans hfirst, τ', ha', hown'⟩, ha.counted ha' hcount,
    ha.moved_producer ha' hl⟩

theorem Emptied.server (h : Emptied r p.forget σ) (hspent : p.Spent)
    (hstep : RingStep r.buffer .consumer (p, σ) (p', σ'))
    (hread : ∀ n, p.call = none → p'.call = some (.span n) →
      σ.advanced .consumer + n.toNat ≤ σ.advanced .producer) :
    Emptied r p'.forget σ' ∧ Counted p p' σ σ' ∧ σ'.moved .producer = σ.moved .producer := by
  obtain ⟨τ, ha, hown⟩ := h.own
  obtain ⟨τ', hown', ha', hl, hcount⟩ := hown.server_step ha (by simp) hspent hstep
    (fun _ _ _ _ hD => nomatch hD.1) (by rw [ha.advanced]; exact hread)
  have hmoved := ha.moved_producer ha' hl
  refine ⟨⟨(hstep.word_producer true).trans h.second, ?_, hmoved.trans h.moved, ?_, τ', ha', hown'⟩,
    ha.counted ha' hcount, hmoved⟩
  · rw [← ha'.sent, hl.sent rfl, ha.sent, h.sent]
  · rw [← ha'.advanced, hl.advanced, ha.advanced, h.advanced]

theorem client_stores_eq (L : Layout) (now : Ptime L.sizeofPtime) :
    Client.stores L.bufferSize now
      = [.word ((L.inbound 0).buffer.pointer .producer false) 0,
        .word ((L.inbound 0).buffer.pointer .producer true) 0,
        .word ((L.inbound 0).buffer.pointer .consumer false) 0,
        .word ((L.inbound 0).buffer.pointer .consumer true) 0,
        ⟨(L.header 0).clientTimestamp, now.1⟩] := rfl

theorem Layout.clientTimestamp_ne (L : Layout) (s : Side) (b : Bool) :
    (L.header 0).clientTimestamp ≠ (L.inbound 0).buffer.pointer s b := by
  have hoff := (L.inbound 0).wordOffset_add_le s b
  have hsize := (L.inbound 0).size_eq
  have hend := L.inbound_end
  have hlt := L.header_lt
  rw [L.clientTimestamp_eq, Ring.pointer_offset (L.inbound_eq 0), Ne, BitVec.add_right_inj,
    ← BitVec.toNat_inj, BitVec.toNat_ofNat, BitVec.toNat_ofNat, Nat.mod_eq_of_lt (by omega),
    Nat.mod_eq_of_lt (by omega)]
  omega

theorem halfEmptied (L : Layout) (now : Ptime L.sizeofPtime) {n : ℕ} (hn : n = 1 ∨ n = 2) :
    (Slot.attaching (.storing L.bufferSize ((Client.stores L.bufferSize now).drop n))).HalfEmptied
      L.sizeofPtime := by
  have hne : ∀ s b, (s, b) ≠ (Side.producer, false) →
      (Store.word ((L.inbound 0).buffer.pointer s b) 0).address
        ≠ (L.inbound 0).buffer.pointer .producer false := by
    intro s b hsb he
    obtain ⟨rfl, rfl⟩ := (L.inbound 0).pointer_inj he
    exact hsb rfl
  have hrest : ∀ w ∈ (Client.stores L.bufferSize now).drop 1,
      w.address ≠ (L.inbound 0).buffer.pointer .producer false := by
    rw [client_stores_eq]
    simp only [List.drop_succ_cons, List.drop_zero, List.mem_cons, List.not_mem_nil, or_false,
      forall_eq_or_imp, forall_eq]
    exact ⟨hne .producer true (by simp), hne .consumer false (by simp),
      hne .consumer true (by simp), L.clientTimestamp_ne _ _⟩
  have hdrop : (Client.stores L.bufferSize now).drop n
      ⊆ (Client.stores L.bufferSize now).drop 1 := by
    rcases hn with rfl | rfl
    · exact fun _ h => h
    · rw [← List.drop_drop (i := 1) (j := 1)]
      exact List.drop_subset _ _
  refine ⟨fun w hw => hrest w (hdrop hw), .word ((L.inbound 0).buffer.pointer .consumer false) 0,
    ?_, rfl⟩
  rcases hn with rfl | rfl <;> simp [client_stores_eq]

theorem Standing.server (h : Standing L p.forget σ slot) (hspent : p.Spent)
    (hstep : RingStep (L.inbound 0).buffer .consumer (p, σ) (p', σ'))
    (hleave : ∀ v, p.call = some (.loadFirst v) → p'.call = some (.compare v) →
      slot.HalfEmptied L.sizeofPtime → (L.inbound 0).position σ .consumer = 0
        ∨ (L.inbound 0).position σ .producer < (L.inbound 0).position σ .consumer)
    (hread : ∀ n, p.call = none → p'.call = some (.span n) →
      σ.advanced .consumer + n.toNat ≤ σ.advanced .producer) :
    Standing L p'.forget σ' slot ∧ Counted p p' σ σ'
      ∧ σ'.moved .producer = σ.moved .producer := by
  rcases slot with _ | (_ | ⟨b, rest⟩) | ⟨b, q⟩
  · exact h.1.server_whole h.2 hspent hstep hread
  · exact h.1.server_whole h.2 hspent hstep hread
  · obtain ⟨rfl, now, n, hn, rfl, hstage⟩ := h
    have hkeep : Stage (L.inbound 0) p'.forget σ' n ∧ Counted p p' σ σ'
        ∧ σ'.moved .producer = σ.moved .producer := by
      rcases n with _ | _ | _ | _ | n
      · exact hstage.1.server_whole hstage.2 hspent hstep hread
      · exact hstage.server hspent hstep
          (fun v hv hv' => hleave v hv hv' (halfEmptied L now (.inl rfl))) hread
      · obtain ⟨hh, hrest⟩ := hstage.1.server hspent hstep
          (fun v hv hv' => hleave v hv hv' (halfEmptied L now (.inr rfl))) hread
        exact ⟨⟨hh, (hstep.word_producer true).trans hstage.2⟩, hrest⟩
      · exact hstage.server hspent hstep hread
      · exact hstage.1.server_whole hstage.2 hspent hstep hread
    exact ⟨⟨rfl, now, n, hn, rfl, hkeep.1⟩, hkeep.2⟩
  · obtain ⟨rfl, hc, hp⟩ := h
    obtain ⟨hown, hrest⟩ := hc.server_whole hp hspent hstep hread
    exact ⟨⟨rfl, hown⟩, hrest⟩

theorem Half.of_whole (h : Own r .consumer σ p) :
    Half r p { σ with mem := σ.mem.storeWord (r.buffer.pointer .producer false) 0 } :=
  ⟨Ring.word_storeWord_same, σ, Alike.refl.storeWord rfl 0, h⟩

theorem Half.storeSecond (h : Half r p σ) :
    Half r p { σ with mem := σ.mem.storeWord (r.buffer.pointer .producer true) 0 } := by
  obtain ⟨hfirst, τ, ha, hown⟩ := h
  refine ⟨?_, τ, ha.storeWord rfl 0, hown⟩
  rw [Ring.word_storeWord_of_ne (by simp)]
  exact hfirst

/-- The third store of an attach, at which it takes effect. -/
theorem Half.empty (h : Half r p.forget σ) (hsecond : r.word σ.mem .producer true = 0)
    (hp : p.Waits ∨ ∀ s, r.position σ s = 0) :
    Emptied r p.forget { mem := σ.mem.storeWord (r.buffer.pointer .consumer false) 0 } := by
  obtain ⟨hfirst, τ, ha, hown⟩ := h
  have hword : ∀ b, r.word (σ.mem.storeWord (r.buffer.pointer .consumer false) 0) .producer b
      = r.word σ.mem .producer b := fun b => Ring.word_storeWord_of_ne (by simp)
  have hpos : r.position τ = r.position σ := by
    unfold Ring.position
    rw [ha.advanced]
  have hzero : ∀ s b, r.word ((σ.mem.storeWord (r.buffer.pointer .consumer false) 0).storeWord
      (r.buffer.pointer .consumer true) 0) s b = 0 := by
    rintro (_ | _) b
    · rw [Ring.word_storeWord_of_ne (by simp), hword]
      cases b with
      | false => exact hfirst
      | true => exact hsecond
    · cases b with
      | false => rw [Ring.word_storeWord_of_ne (by simp), Ring.word_storeWord_same]
      | true => rw [Ring.word_storeWord_same]
  refine ⟨(hword true).trans hsecond, rfl, rfl, rfl, _, ?_, hown.renew hzero (hpos ▸ hp)⟩
  refine ⟨fun s b hsb => ?_, fun i hi => ?_, rfl, rfl, rfl⟩
  · exact Ring.word_storeWord_of_ne fun he => hsb (Prod.mk.inj he)
  · exact Ring.cell_storeWord hi

theorem Emptied.whole (h : Emptied r p σ) :
    Own r .consumer { σ with mem := σ.mem.storeWord (r.buffer.pointer .consumer true) 0 } p
      ∧ Own r .producer
          { σ with mem := σ.mem.storeWord (r.buffer.pointer .consumer true) 0 } {} := by
  obtain ⟨hsecond, hsent, hmoved, hadvanced, τ, ha, hown⟩ := h
  have hzero : r.position τ .consumer = 0 := by
    have hle := hown.sound.advanced_le .consumer
    have hlim := hown.sound.moved_le .consumer
    simp only [limit, Ring.reach, Side.peer, ha.advanced, hadvanced] at hle hlim
    unfold Ring.position
    rw [ha.advanced, show σ.advanced .consumer = 0 by omega, Nat.zero_mod]
  have halike : Alike r (fun _ _ => False)
      { σ with mem := σ.mem.storeWord (r.buffer.pointer .consumer true) 0 }
      { τ with mem := τ.mem.storeWord (r.buffer.pointer .consumer true) 0 } := by
    refine ⟨fun s b _ => ?_, fun i hi => ?_, ha.sent, ha.moved, ha.advanced⟩
    · by_cases he : (s, b) = (.consumer, true)
      · obtain ⟨rfl, rfl⟩ := Prod.mk.inj he
        rw [Ring.word_storeWord_same, Ring.word_storeWord_same]
      · rw [Ring.word_storeWord_of_ne he, Ring.word_storeWord_of_ne he]
        exact ha.word s b fun hsb => he (Prod.ext hsb.1 hsb.2)
    · rw [Ring.cell_storeWord hi, Ring.cell_storeWord hi]
      exact ha.cell i hi
  have hset := (hown.settle hzero).alike halike
  refine ⟨hset, hset.sound, ?_, (fun _ hc => by cases hc), fun _ => ?_, ⟨?_, ?_⟩, fun _ => rfl⟩
  · change σ.advanced .producer + 0 ≤ _
    omega
  · change σ.sent = σ.moved .producer ++ []
    rw [hsent, hmoved, List.append_nil]
  · change (σ.moved .producer).length = σ.advanced .producer
    rw [hmoved, hadvanced, List.length_nil]
  · change (r.word (σ.mem.storeWord _ _) .producer true).toNat = σ.advanced .producer % r.cells
    rw [Ring.word_storeWord_of_ne (by simp), hsecond, hadvanced, Nat.zero_mod]
    rfl

theorem Standing.attach {a a' : Attach} (h : Standing L p σ (.attaching a))
    (hinit : ClientInit now (a, σ.mem) (a', m))
    (hsize : σ.mem.loadWord (L.header 0).bufferSize = L.bufferSize)
    (ha : ¬a.Empties L.sizeofPtime) : Standing L p { σ with mem := m } (.attaching a') := by
  cases hinit with
  | load hb =>
    obtain rfl := hb.trans hsize
    exact ⟨rfl, now, 0, Nat.zero_le _, rfl, h⟩
  | @store b w rest =>
    obtain ⟨rfl, now', n, hn, hrest, hstage⟩ := h
    rw [client_stores_eq] at hrest
    rcases n with _ | _ | _ | _ | _ | _ | n
    · obtain ⟨rfl, rfl⟩ := List.cons.inj hrest
      exact ⟨rfl, now', 1, by omega, rfl, .of_whole hstage.1⟩
    · obtain ⟨rfl, rfl⟩ := List.cons.inj hrest
      exact ⟨rfl, now', 2, by omega, rfl, hstage.storeSecond, Ring.word_storeWord_same⟩
    · obtain ⟨rfl, rfl⟩ := List.cons.inj hrest
      exact absurd rfl ha
    · obtain ⟨rfl, rfl⟩ := List.cons.inj hrest
      exact ⟨rfl, now', 4, by omega, rfl, hstage.whole⟩
    · obtain ⟨rfl, rfl⟩ := List.cons.inj hrest
      refine ⟨rfl, now', 5, le_rfl, rfl, ?_⟩
      have hlt := L.header_lt
      have hfit := L.fits
      have hnow := now'.2
      have hsame : (L.inbound 0).Same σ.mem
          (Store.apply σ.mem ⟨(L.header 0).clientTimestamp, now'.1⟩) := by
        change (L.inbound 0).Same σ.mem (σ.mem.write (L.header 0).clientTimestamp now'.1)
        rw [L.clientTimestamp_eq]
        exact Ring.same_write (L.inbound_eq 0) L.inbound_end (by omega) (.inl (by omega))
      exact ⟨own_leaves _ _ _ hstage.1 (hstage.1.sound.leaves_same hsame _),
        own_leaves _ _ _ hstage.2 (hstage.1.sound.leaves_same hsame _)⟩
    · cases hrest
    · omega

theorem Standing.empties {a a' : Attach} (h : Standing L p.forget σ (.attaching a))
    (hinit : ClientInit now (a, σ.mem) (a', m)) (ha : a.Empties L.sizeofPtime)
    (hp : p.Waits ∨ ∀ s, (L.inbound 0).position σ s = 0) :
    Standing L p.forget { mem := m } (.attaching a') := by
  cases hinit with
  | load hb => exact ha.elim
  | @store b w rest =>
    obtain ⟨rfl, now', n, hn, hrest, hstage⟩ := h
    have hne : ∀ s b, (s, b) ≠ (Side.consumer, false) →
        (L.inbound 0).buffer.pointer s b ≠ (L.inbound 0).buffer.pointer .consumer false := by
      intro s b hsb he
      obtain ⟨rfl, rfl⟩ := (L.inbound 0).pointer_inj he
      exact hsb rfl
    rw [client_stores_eq] at hrest
    rcases n with _ | _ | _ | _ | _ | _ | n
    · obtain ⟨rfl, rfl⟩ := List.cons.inj hrest
      exact absurd ha (hne .producer false (by simp))
    · obtain ⟨rfl, rfl⟩ := List.cons.inj hrest
      exact absurd ha (hne .producer true (by simp))
    · obtain ⟨rfl, rfl⟩ := List.cons.inj hrest
      exact ⟨rfl, now', 3, by omega, rfl, hstage.1.empty hstage.2 hp⟩
    · obtain ⟨rfl, rfl⟩ := List.cons.inj hrest
      exact absurd ha (hne .consumer true (by simp))
    · obtain ⟨rfl, rfl⟩ := List.cons.inj hrest
      exact absurd ha (L.clientTimestamp_ne .consumer false)
    · cases hrest
    · omega

theorem Standing.sized {a : Attach} (h : Standing L p σ (.attaching a)) :
    (Slot.attaching a).Sized L := by
  rcases a with _ | ⟨b, rest⟩
  · trivial
  · obtain ⟨rfl, now, n, -, rfl, -⟩ := h
    exact ⟨rfl, now, List.drop_suffix _ _⟩

theorem Standing.delivered (h : Standing L p σ slot) :
    σ.moved .consumer <+: σ.moved .producer := by
  rcases slot with _ | (_ | ⟨b, rest⟩) | ⟨b, q⟩
  · exact h.1.sound.delivered
  · exact h.1.sound.delivered
  · obtain ⟨-, now, n, -, -, hstage⟩ := h
    have halike : ∀ {D τ}, Alike (L.inbound 0) D σ τ → Own (L.inbound 0) .consumer τ p →
        σ.moved .consumer <+: σ.moved .producer := by
      intro D τ ha hown
      rw [← ha.moved]
      exact hown.sound.delivered
    rcases n with _ | _ | _ | _ | n
    · exact hstage.1.sound.delivered
    · obtain ⟨-, τ, ha, hown⟩ := hstage
      exact halike ha hown
    · obtain ⟨⟨-, τ, ha, hown⟩, -⟩ := hstage
      exact halike ha hown
    · obtain ⟨τ, ha, hown⟩ := hstage.own
      exact halike ha hown
    · exact hstage.1.sound.delivered
  · exact h.2.1.sound.delivered

theorem Own.replace_producer (h : Own r .producer σ q) (hq : q.call = none) :
    Own r .producer σ {} := by
  have hat := h.at_call
  rw [hq] at hat
  have hlast := h.last
  have hsource : q.source = [] := List.length_eq_zero_iff.1 (hat.2 rfl)
  refine ⟨h.sound, ?_, (fun _ hc => nomatch hc), fun hs => ?_, hat.1, fun _ => rfl⟩
  · change σ.advanced .producer + 0 ≤ _
    omega
  · rw [h.sent hs, hsource]

/-- With no attach under way and neither side in a call, the count is of what is in the ring. -/
theorem Own.count_settled (hc : Own r .consumer σ p) (hp : Own r .producer σ q)
    (hpc : p.call = none) (hqc : q.call = none) :
    r.word σ.mem .producer true = r.word σ.mem .producer false
      ∧ ∃ n, r.buffer.numberOfBytesAvailableToRead 1 σ.mem = some n
        ∧ (σ.moved .consumer).length + n.toNat = (σ.moved .producer).length := by
  have hatc := hc.at_call
  have hatp := hp.at_call
  rw [hpc] at hatc
  rw [hqc] at hatp
  have hword : r.word σ.mem .producer true = r.word σ.mem .producer false := by
    apply BitVec.eq_of_toNat_eq
    rw [hatp.1.2, hc.sound.first]
  have hle := hc.sound.advanced_le .consumer
  have hmoved := hc.sound.moved_le .consumer
  have hlim := hc.sound.limit_le .consumer
  have hsc := hatc.1.1
  have hsp := hatp.1.1
  refine ⟨hword, r.buffer.difference .consumer (CircularBuffer.ahead .consumer
    (r.word σ.mem .producer false) (r.word σ.mem .consumer false)) (r.word σ.mem .producer false)
    (r.word σ.mem .consumer false), ?_, ?_⟩
  · simp only [CircularBuffer.numberOfBytesAvailableToRead, CircularBuffer.count,
      CircularBuffer.nonvolatilePointer, Side.peer, Ring.loadWord_pointer, hword, ne_eq,
      not_true_eq_false, if_false, Option.bind_eq_bind, Option.bind_some, Option.pure_def]
  · rw [Ring.toNat_difference (hc.sound.first .producer) (hc.sound.first .consumer)
      (hle.trans hmoved) hlim]
    simp only [limit, Ring.reach, Side.peer] at hmoved ⊢
    omega

end Attach

/-! ## Every orderly run -/

section Runs

variable {L : Layout} {x y : WriterState}

structure WritersInv (L : Layout) (x : WriterState) : Prop where
  bufferSize : x.shared.mem.loadWord (L.header 0).bufferSize = L.bufferSize
  available : x.left.last.toNat + x.right.consumed x.shared ≤ x.right.written x.shared
  past : ∀ e ∈ x.right.past, e.2 <+: e.1
  spent : x.left.Spent
  standing : Standing L x.left.forget x.shared x.right.slot

theorem past_le {past : List (List U8 × List U8)} (h : ∀ e ∈ past, e.2 <+: e.1) :
    (past.map fun e => e.2.length).sum ≤ (past.map fun e => e.1.length).sum :=
  List.sum_le_sum fun e he => (h e he).length_le

theorem WritersInv.server (h : WritersInv L x) {p : Party} {σ : Shared}
    (hstep : RingStep (L.inbound 0).buffer .consumer (x.left, x.shared) (p, σ))
    (ho : Orderly L x ⟨p, x.right, σ⟩) : WritersInv L ⟨p, x.right, σ⟩ := by
  obtain ⟨hstanding, hcount, hmoved⟩ := h.standing.server h.spent hstep ho.leaves ho.reads
  have hsize := L.bufferSize_outside (L.inbound_eq 0) L.inbound_end le_rfl hstep.consumer_outside
  have hpast := past_le h.past
  have havail := h.available
  refine ⟨hsize.trans h.bufferSize, ?_, h.past, h.spent.step hstep, hstanding⟩
  unfold Writers.consumed Writers.written at havail ⊢
  rw [← hmoved] at havail
  rcases hcount with hcount | hcount
  · simp only
    omega
  · simp only
    omega

theorem WritersInv.client (h : WritersInv L x) {c : Writers} {σ : Shared}
    (hstep : WriterStep L.sizeofPtime (x.right, x.shared) (c, σ))
    (ho : Orderly L x ⟨x.left, c, σ⟩) : WritersInv L ⟨x.left, c, σ⟩ := by
  obtain ⟨p, c₀, σ₀⟩ := x
  obtain ⟨hsize, havail, hpast, hspent, hstanding⟩ := h
  simp only at hsize havail hpast hspent hstanding hstep ho ⊢
  cases hstep with
  | opens => exact ⟨hsize, havail, hpast, hspent, hstanding⟩
  | attach hinit ha =>
    exact ⟨hinit.bufferSize hstanding.sized hsize, havail, hpast, hspent,
      hstanding.attach hinit hsize ha⟩
  | @empties now a a' past σ m hinit ha =>
    have hp := ho.empties (by simp)
    refine ⟨hinit.bufferSize hstanding.sized hsize, ?_, fun e he => ?_, hspent,
      hstanding.empties hinit ha hp⟩
    · unfold Writers.consumed Writers.written at havail ⊢
      simp only [List.map_append, List.map_cons, List.map_nil, List.sum_append, List.sum_cons,
        List.sum_nil, List.length_nil] at havail ⊢
      omega
    · rcases List.mem_append.1 he with he | he
      · exact hpast e he
      · obtain rfl := List.mem_singleton.1 he
        exact hstanding.delivered
  | returns =>
    obtain ⟨rfl, now, n, hn, hrest, hstage⟩ := hstanding
    refine ⟨hsize, havail, hpast, hspent, rfl, ?_⟩
    rw [client_stores_eq] at hrest
    rcases n with _ | _ | _ | _ | _ | n
    · cases hrest
    · cases hrest
    · cases hrest
    · cases hrest
    · cases hrest
    · exact hstage
  | @call b q q' past _ _ hcall =>
    obtain ⟨rfl, hc, hp⟩ := hstanding
    obtain ⟨hown, hk⟩ := ringStep_guarantees (L.inbound 0) .producer _ _ _ _ hp hcall
    have hsize' := L.bufferSize_outside (L.inbound_eq 0) L.inbound_end le_rfl hk.outside
    refine ⟨hsize'.trans hsize, ?_, hpast, hspent, rfl, own_stable _ _ _ hc hk, hown⟩
    have hlen := (hcall.moved_prefix .producer).length_le
    have hcons := hk.moved
    simp only [Side.peer] at hcons
    unfold Writers.consumed Writers.written at havail ⊢
    simp only [hcons] at havail ⊢
    omega
  | stops hq =>
    obtain ⟨rfl, hc, hp⟩ := hstanding
    exact ⟨hsize, havail, hpast, hspent, hc, hp.replace_producer hq⟩

theorem WritersInv.step (h : WritersInv L x) (hstep : WriterSystem L.sizeofPtime L.bufferSize x y)
    (ho : Orderly L x y) : WritersInv L y := by
  cases hstep with
  | left hs => exact WritersInv.server (x := ⟨_, _, _⟩) h hs ho
  | right hs => exact WritersInv.client (x := ⟨_, _, _⟩) h hs ho

theorem writersInv_start (L : Layout) (now : Ptime L.sizeofPtime) :
    WritersInv L ⟨{}, {}, serverStart L.bufferSize now fun _ => 0⟩ := by
  have hready := ready_setMemoryID L now
  exact ⟨hready.bufferSize, le_rfl, (fun e he => nomatch he), (fun c hc => nomatch hc),
    (own_zero hready.inbound .consumer).forget, own_zero hready.inbound .producer⟩

/-- In every orderly run the server reads what clients have written and nothing else. -/
theorem attaches_safe (L : Layout) (now : Ptime L.sizeofPtime)
    (h : OrderlyReach L ⟨{}, {}, serverStart L.bufferSize now fun _ => 0⟩ x) :
    ReadsWritten (L.inbound 0) x := by
  have hinv : WritersInv L x := by
    induction h with
    | refl => exact writersInv_start L now
    | tail _ hs ih => exact ih.step hs.1 hs.2
  have hwhole : x.right.slot.Settled → Own (L.inbound 0) .consumer x.shared x.left.forget
      ∧ Own (L.inbound 0) .producer x.shared x.right.slot.party := by
    intro hs
    have hst := hinv.standing
    rcases hslot : x.right.slot with _ | a | ⟨b, q⟩ <;> rw [hslot] at hs hst
    · exact hst
    · exact hs.elim
    · exact hst.2
  refine ⟨hinv.available, hinv.standing.delivered, hinv.past, fun hs hc => ⟨fun s b => ?_, ?_⟩,
    fun hs hc hq => ?_⟩
  · cases b with
    | false => exact (hwhole hs).1.sound.first_lt s
    | true => exact (hwhole hs).1.sound.second s
  · have hown := (hwhole hs).1
    have hat := hown.at_call
    have hc' : x.left.forget.call = none := hc
    rw [hc'] at hat
    apply BitVec.eq_of_toNat_eq
    rw [hat.1.2, hown.sound.first]
  · exact (hwhole hs).1.count_settled (hwhole hs).2 hc hq

theorem Writers.choose_sound {sizeofPtime : U64} {now : Ptime sizeofPtime} (v : Visit)
    (x y : Writers × Shared) (h : Writers.choose now v x = some y) :
    WriterStep sizeofPtime x y := by
  unfold Writers.choose at h
  split at h
  · cases h
    exact .opens
  · obtain ⟨q, hq, rfl⟩ := Option.map_eq_some_iff.1 h
    split_ifs with ha
    · exact .empties (Attach.next_sound hq) ha
    · exact .attach (Attach.next_sound hq) ha
  · cases h
    exact .returns
  · obtain ⟨q, hq, rfl⟩ := Option.map_eq_some_iff.1 h
    exact .call (Party.choose_sound _ _ _ hq)
  · split_ifs at h with hp
    cases h
    exact .stops hp
  · cases h

theorem WriterState.run_step {sizeofPtime bufferSize : U64} {now : Ptime sizeofPtime}
    {i : Choice ⊕ Visit} (h : x.run bufferSize now [i] = some y) :
    WriterSystem sizeofPtime bufferSize x y := by
  cases i with
  | inl i =>
    obtain ⟨q, hq, h⟩ := Option.bind_eq_some_iff.1 h
    cases h
    exact .left (Party.choose_sound _ _ _ hq)
  | inr i =>
    obtain ⟨q, hq, h⟩ := Option.bind_eq_some_iff.1 h
    cases h
    exact .right (Writers.choose_sound _ _ _ hq)

theorem WriterState.run_reach {sizeofPtime bufferSize : U64} {now : Ptime sizeofPtime}
    {schedule : List (Choice ⊕ Visit)} (h : x.run bufferSize now schedule = some y) :
    Relation.ReflTransGen (WriterSystem sizeofPtime bufferSize) x y :=
  State.play_reach Party.choose_sound Writers.choose_sound h

theorem WriterState.orderlyRun_reach {now : Ptime L.sizeofPtime} :
    ∀ {schedule : List (Choice ⊕ Visit)} {x y : WriterState},
      x.orderlyRun L now schedule = some y → OrderlyReach L x y
  | [], x, y, h => by
    cases h
    exact .refl
  | i :: rest, x, y, h => by
    obtain ⟨z, hz, h⟩ := Option.bind_eq_some_iff.1 h
    split_ifs at h with hcheck
    refine .head ⟨?_, Orderly.of_check hcheck⟩ (orderlyRun_reach h)
    exact WriterState.run_step hz

end Runs

section Example

/-- A client writes a byte, which the server reads, and stops. -/
def firstWriter : List (Choice ⊕ Visit) :=
  clientAttach ++ clientCall .count 4 ++ clientCall (.write [7]) 6 ++ .inr .stops
    :: serverCall .count 4 ++ serverCall (.read 1) 6

/-- The next has zeroed the producer's words when the server counts. -/
def hastyWriter : List (Choice ⊕ Visit) :=
  firstWriter ++ .inr .opens :: List.replicate 3 (.inr .attach) ++ serverCall .count 4

theorem hastyWriter_run :
    (WriterState.run smallLayout.bufferSize smallNow
      ⟨{}, {}, serverStart smallLayout.bufferSize smallNow fun _ => 0⟩ hastyWriter).map
        (fun y => (y.left.last, y.right.written y.shared, y.right.consumed y.shared))
      = some (7, 1, 1) := by
  decide +kernel

/-- The server counts bytes nobody wrote. -/
theorem attach_makes_bytes_up : ¬∀ (L : Layout) (now : Ptime L.sizeofPtime) (x : WriterState),
    Relation.ReflTransGen (WriterSystem L.sizeofPtime L.bufferSize)
      ⟨{}, {}, serverStart L.bufferSize now fun _ => 0⟩ x → ReadsWritten (L.inbound 0) x := by
  intro h
  obtain ⟨y, hy, hd⟩ := Option.map_eq_some_iff.1 hastyWriter_run
  obtain ⟨hlast, hrest⟩ := Prod.mk.inj hd
  obtain ⟨hwritten, hconsumed⟩ := Prod.mk.inj hrest
  have ha := (h smallLayout smallNow y (WriterState.run_reach hy)).available
  rw [hlast, hwritten, hconsumed] at ha
  exact absurd ha (by decide)

/-- The next has returned from its attach when the server counts. -/
def patientWriter : List (Choice ⊕ Visit) :=
  firstWriter ++ clientAttach ++ clientCall .count 4 ++ clientCall (.write [9]) 6
    ++ serverCall .count 4 ++ serverCall (.read 1) 6

theorem patientWriter_run :
    (WriterState.orderlyRun smallLayout smallNow patientWriter
      ⟨{}, {}, serverStart smallLayout.bufferSize smallNow fun _ => 0⟩).map
        (fun y => (y.right.past, y.shared.moved .consumer))
      = some ([([], []), ([7], [7])], [9]) := by
  decide +kernel

theorem attaches_safe_patient : ∃ y : WriterState,
    (y.right.past, y.shared.moved .consumer) = ([([], []), ([7], [7])], [9])
      ∧ ReadsWritten (smallLayout.inbound 0) y := by
  obtain ⟨y, hy, hd⟩ := Option.map_eq_some_iff.1 patientWriter_run
  exact ⟨y, hd, attaches_safe smallLayout smallNow (WriterState.orderlyRun_reach hy)⟩

end Example

end MemMapIPC