import MemMapIPC.Pipes
import MemMapIPC.Proofs.Outcome

/-!
# Two programs end as they would at two pipes

One process's step at a pipe leaves the other's what it was (`Pipes.commutes`), so at pipes there is
one place where two programs can end. An access by which a cursor moves over bytes is that many
steps at a pipe, the return of a call is one and every other access none (`Acts.shows`), and a
system at rest shows pipes where nobody can go on.
-/

namespace MemMapIPC

open ByteMemory Interleaving Relation Commuting

/-! ## At one pipe -/

section Pipe

variable {capacity : ℕ} {q q₁ q₂ q' : BoundedQueue U8 capacity} {s : Side} {b c c' : U8}
  {l l' : List U8} {w w' v v' : Partner} {buffer : Buffer} {next : List U8 → Program}

/-- The bytes `l` have gone through the side. -/
def Side.Passes (s : Side) (l : List U8) (q q' : BoundedQueue U8 capacity) : Prop :=
  match s with
  | producer => q'.contents = q.contents ++ l
  | consumer => q.contents = l ++ q'.contents

theorem Side.pass_eq_some :
    s.pass q b = some (c, q') ↔ (s = .producer → c = b) ∧ s.Passes [c] q q' := by
  unfold pass Passes
  cases s with
  | producer =>
    have hq := q.available_add_free
    have hlen := q'.length_le
    unfold BoundedQueue.available at hq
    simp only [Option.dite_none_right_eq_some, Option.some.injEq, Prod.mk.injEq, true_imp_iff,
      BoundedQueue.ext_iff, BoundedQueue.contents_push]
    constructor
    · rintro ⟨-, rfl, hq'⟩
      exact ⟨rfl, hq'.symm⟩
    · rintro ⟨rfl, hq'⟩
      rw [hq', List.length_append] at hlen
      exact ⟨by omega, rfl, hq'.symm⟩
  | consumer =>
    simp only [Option.map_eq_some_iff, Prod.mk.injEq, BoundedQueue.ext_iff,
      BoundedQueue.contents_pop]
    constructor
    · rintro ⟨c, hc, rfl, hq'⟩
      rw [List.head?_eq_some_iff] at hc
      obtain ⟨l, hl⟩ := hc
      refine ⟨fun h => (by cases h), ?_⟩
      rw [← hq', hl]
      rfl
    · rintro ⟨-, hq'⟩
      exact ⟨c, by rw [hq']; rfl, rfl, by rw [hq']; rfl⟩

theorem Side.Passes.split (h : s.Passes (l ++ l') q q') :
    ∃ q₁, s.Passes l q q₁ ∧ s.Passes l' q₁ q' := by
  have hlen := q.length_le
  have hlen' := q'.length_le
  unfold Passes at *
  cases s with
  | producer =>
    simp only at h
    refine ⟨⟨q.contents ++ l, ?_⟩, rfl, h.trans (List.append_assoc _ _ _).symm⟩
    rw [h, ← List.append_assoc, List.length_append] at hlen'
    omega
  | consumer =>
    simp only at h
    refine ⟨⟨l' ++ q'.contents, ?_⟩, h.trans (List.append_assoc _ _ _), rfl⟩
    rw [h, List.append_assoc, List.length_append] at hlen
    omega

theorem Side.Passes.eq_of_nil (h : s.Passes [] q q') : q' = q := by
  unfold Passes at h
  ext1
  cases s with
  | producer => simpa using h
  | consumer => exact h.symm

theorem Side.Passes.room_le (h : s.peer.Passes l q q') : s.room q ≤ s.room q' := by
  have hq := q.available_add_free
  have hq' := q'.available_add_free
  unfold Passes at h
  unfold room
  unfold BoundedQueue.available at *
  cases s with
  | producer =>
    simp only [Side.peer] at h
    rw [h, List.length_append] at hq
    simp only
    omega
  | consumer =>
    simp only [Side.peer] at h
    simp only [h, List.length_append]
    omega

theorem Side.pass_eq_none (h : s.room q = 0) : s.pass q b = none := by
  unfold room at h
  unfold pass
  cases s with
  | producer =>
    simp only at h
    exact dif_neg (by simp [h])
  | consumer =>
    simp only [BoundedQueue.available, List.length_eq_zero_iff] at h
    simp [h]

/-- A byte put in and one taken out are the same in either order. -/
theorem Side.pass_pass {b' : U8} (h : s.pass q b = some (c, q₁))
    (h' : s.peer.pass q b' = some (c', q₂)) :
    ∃ r, s.peer.pass q₁ b' = some (c', r) ∧ s.pass q₂ b = some (c, r) := by
  simp only [pass_eq_some] at *
  obtain ⟨hb, h⟩ := h
  obtain ⟨hb', h'⟩ := h'
  suffices hr : ∃ r, s.peer.Passes [c'] q₁ r ∧ s.Passes [c] q₂ r by
    obtain ⟨r, hr, hr'⟩ := hr
    exact ⟨r, ⟨hb', hr⟩, ⟨hb, hr'⟩⟩
  have hlen := q.length_le
  unfold Passes at *
  cases s with
  | producer =>
    simp only [Side.peer] at *
    rw [h'] at h hlen
    exact ⟨⟨q₂.contents ++ [c], by simpa [Nat.add_comm] using hlen⟩, by simpa using h, rfl⟩
  | consumer =>
    simp only [Side.peer] at *
    rw [h] at h' hlen
    exact ⟨⟨q₁.contents ++ [c'], by simpa [Nat.add_comm] using hlen⟩, rfl, by simpa using h'⟩

/-- A step is the end of a call, which goes by no more of the queue than its room, or one byte
through it. -/
theorem Partner.step_local (hw : w.program.side = some s) (h : w.step q = some (w', q')) :
    (q' = q ∧ ∀ r : BoundedQueue U8 capacity, s.room q ≤ s.room r → w.step r = some (w', r))
      ∨ ∃ b c, s.pass q b = some (c, q')
        ∧ ∀ r r' : BoundedQueue U8 capacity,
          s.pass r b = some (c, r') → w.step r = some (w', r') := by
  unfold step at *
  rcases hp : w.program with _ | ⟨t, n, next⟩ | ⟨t, buffer, next⟩ <;> rw [hp] at h hw
  · cases h
  · obtain rfl := Option.some.inj hw
    simp only at h
    split_ifs at h with hn
    obtain ⟨rfl, rfl⟩ := Prod.mk.inj (Option.some.inj h)
    exact .inl ⟨rfl, fun r hr => if_pos (hn.trans hr)⟩
  · obtain rfl := Option.some.inj hw
    rcases hl : buffer.1.drop w.moved.length with _ | ⟨b, l⟩ <;> simp only [hl] at h
    · obtain ⟨rfl, rfl⟩ := Prod.mk.inj (Option.some.inj h)
      refine .inl ⟨rfl, fun r _ => ?_⟩
      simp only [hl]
    · obtain ⟨⟨c, q₁⟩, hpass, hq⟩ := Option.map_eq_some_iff.1 h
      obtain ⟨rfl, rfl⟩ := Prod.mk.inj hq
      refine .inr ⟨b, c, hpass, fun r r' hr => ?_⟩
      simp only [hl, hr, Option.map_some]

/-- What either end of a pipe does leaves the other its step. -/
theorem Partner.step_peer (hw : w.program.side = some s) (hv : v.program.side = some s.peer)
    (h : w.step q = some (w', q₁)) (h' : v.step q = some (v', q₂)) :
    ∃ r, v.step q₁ = some (v', r) ∧ w.step q₂ = some (w', r) := by
  rcases w.step_local hw h with ⟨rfl, hstep⟩ | ⟨b, c, hpass, hstep⟩
  · refine ⟨q₂, h', hstep _ ?_⟩
    rcases v.step_local hv h' with ⟨rfl, -⟩ | ⟨b', c', hpass', -⟩
    · exact le_rfl
    · exact (Side.pass_eq_some.1 hpass').2.room_le
  · rcases v.step_local hv h' with ⟨rfl, hstep'⟩ | ⟨b', c', hpass', hstep'⟩
    · refine ⟨q₁, hstep' _ ?_, h⟩
      have hroom := (Side.pass_eq_some.1 hpass).2
      rw [← s.peer_peer] at hroom
      exact hroom.room_le
    · obtain ⟨r, hr, hr'⟩ := Side.pass_pass hpass hpass'
      exact ⟨r, hstep' _ _ hr, hstep _ _ hr'⟩

end Pipe

/-! ## At both pipes -/

section Pipes

variable {capacity : ℕ} {X Y Z : Pipes capacity} {p q : Process} {s t : Side} {l : List U8}
  {buffer : Buffer} {next : List U8 → Program} {r r' : Partner × BoundedQueue U8 capacity}

namespace Pipes

theorem step_eq_some : step p X = some Y ↔ ∃ s r, (X.partner p).program.side = some s
    ∧ (X.partner p).step (X.queue (p.channel s)) = some r ∧ Y = X.set p s r := by
  simp only [step, Option.bind_eq_some_iff, Option.map_eq_some_iff, eq_comm (a := Y)]
  constructor
  · rintro ⟨s, hs, r, hr, rfl⟩
    exact ⟨s, r, hs, hr, rfl⟩
  · rintro ⟨s, r, hs, hr, rfl⟩
    exact ⟨s, hs, r, hr, rfl⟩

@[simp] theorem partner_set_self : (X.set p s r).partner p = r.1 := by simp [set]

theorem partner_set_of_ne (h : q ≠ p) : (X.set p s r).partner q = X.partner q := by simp [set, h]

@[simp] theorem queue_set_self : (X.set p s r).queue (p.channel s) = r.2 := by simp [set]

theorem queue_set_of_ne {c : Channel} (h : c ≠ p.channel s) :
    (X.set p s r).queue c = X.queue c := by simp [set, h]

@[simp] theorem set_set : (X.set p s r).set p s r' = X.set p s r' := by simp [set]

theorem set_comm (h : p ≠ q) (hc : q.channel t ≠ p.channel s) :
    (X.set p s r).set q t r' = (X.set q t r').set p s r := by
  simp only [set, Pipes.mk.injEq]
  exact ⟨Function.update_comm h _ _ _, Function.update_comm (Ne.symm hc) _ _ _⟩

theorem commutes : Commutes (step : Process → Pipes capacity → Option (Pipes capacity)) := by
  intro p q X Y Z hpq hY hZ
  obtain ⟨s, ⟨w, q₁⟩, hs, hw, rfl⟩ := step_eq_some.1 hY
  obtain ⟨t, ⟨v, q₂⟩, ht, hv, rfl⟩ := step_eq_some.1 hZ
  have hp : (X.set q t (v, q₂)).partner p = X.partner p := partner_set_of_ne hpq
  have hq : (X.set p s (w, q₁)).partner q = X.partner q := partner_set_of_ne hpq.symm
  by_cases hc : q.channel t = p.channel s
  · obtain ⟨rfl, rfl⟩ := Process.channel_eq hc fun he => hpq (Prod.mk.inj he).1.symm
    rw [hc] at hv
    obtain ⟨r, hr, hr'⟩ := Partner.step_peer hs ht hw hv
    refine ⟨_, step_eq_some.2 ⟨s.peer, (v, r), by rw [hq, ht], ?_, rfl⟩,
      step_eq_some.2 ⟨s, (w, r), by rw [hp, hs], ?_, ?_⟩⟩
    · rw [hq, hc, queue_set_self, hr]
    · rw [hp, ← hc, queue_set_self, hr']
    · simp only [set, Pipes.mk.injEq, hc, Function.update_idem, and_true]
      exact Function.update_comm hpq _ _ _
  · refine ⟨_, step_eq_some.2 ⟨t, (v, q₂), by rw [hq, ht], ?_, rfl⟩,
      step_eq_some.2 ⟨s, (w, q₁), by rw [hp, hs], ?_, ?_⟩⟩
    · rw [hq, queue_set_of_ne hc, hv]
    · rw [hp, queue_set_of_ne (Ne.symm hc), hw]
    · exact set_comm hpq hc

theorem step_of_stop (hp : (X.partner p).program = .stop) : step p X = none := by
  unfold step
  rw [hp]
  rfl

/-- A process waits for more than there is. -/
theorem step_of_await {n : U64} {next : Program} (hp : (X.partner p).program = .await s n next)
    (hlt : s.room (X.queue (p.channel s)) < n.toNat) : step p X = none := by
  unfold step Partner.step
  simp only [hp, Program.side, Option.bind_some]
  rw [if_neg (Nat.not_le.2 hlt)]
  rfl

/-- A call has bytes to move, and the queue none for it. -/
theorem step_of_transfer (hp : (X.partner p).program = .transfer s buffer next)
    (hlt : (X.partner p).moved.length < buffer.1.length)
    (hfull : s.room (X.queue (p.channel s)) = 0) : step p X = none := by
  unfold step Partner.step
  simp only [hp, Program.side, Option.bind_some]
  rw [List.drop_eq_getElem_cons hlt]
  simp only [Side.pass_eq_none hfull, Option.map_none]

/-- Bytes of a call that the queue has room for. -/
theorem passes {q' : BoundedQueue U8 capacity}
    (hp : (X.partner p).program = .transfer s buffer next)
    (hlen : (X.partner p).moved.length + l.length ≤ buffer.1.length)
    (hl : s = .producer → (X.partner p).moved ++ l <+: buffer.1)
    (hq : s.Passes l (X.queue (p.channel s)) q') :
    Reach X (X.set p s ({ X.partner p with moved := (X.partner p).moved ++ l }, q')) := by
  induction l generalizing X with
  | nil =>
    rw [hq.eq_of_nil, List.append_nil]
    simp only [set, Function.update_eq_self]
    exact .refl
  | cons b l ih =>
    obtain ⟨q₁, hb, hq⟩ := hq.split (l := [b])
    obtain ⟨b', rest, hrest⟩ :
        ∃ b' rest, buffer.1.drop (X.partner p).moved.length = b' :: rest := by
      rw [List.length_cons] at hlen
      refine ⟨_, _, List.drop_eq_getElem_cons (by omega)⟩
    have hsame : s = .producer → b = b' := by
      intro hs
      obtain ⟨l', hl'⟩ := hl hs
      rw [← hl', List.append_assoc, List.drop_left, List.cons_append] at hrest
      exact (List.cons.inj hrest).1
    have hstep : step p X = some (X.set p s
        ({ X.partner p with moved := (X.partner p).moved ++ [b] }, q₁)) := by
      refine step_eq_some.2 ⟨s, _, by rw [hp]; rfl, ?_, rfl⟩
      unfold Partner.step
      simp only [hp, hrest, Side.pass_eq_some.2 ⟨hsame, hb⟩, Option.map_some]
    refine .head ⟨p, hstep⟩ ?_
    have hrun := ih (X := X.set p s
      ({ X.partner p with moved := (X.partner p).moved ++ [b] }, q₁)) ?_ ?_ ?_ ?_
    · simpa using hrun
    · simpa using hp
    · simp only [partner_set_self, List.length_append, List.length_cons, List.length_nil]
      rw [List.length_cons] at hlen
      omega
    · intro hs
      simpa using hl hs
    · simpa using hq

end Pipes

end Pipes

/-! ## What a system shows -/

section Shows

variable {L : Layout} {m : Segment} {program : Process → Program} {x y : System}
  {X : Pipes L.capacity} {p q : Process} {s t : Side} {below : Bool} {k : ℕ} {buffer : Buffer}
  {next : List U8 → Program}

theorem Layout.cells_sub_one (c : Channel) : (L.ring c).cells - 1 = L.capacity := by
  unfold Ring.cells capacity
  rw [L.ring_size]
  omega

theorem Process.exists_channel (c : Channel) (t : Side) : ∃ q : Process, q.channel t = c := by
  cases c <;> cases t
  · exact ⟨.client, rfl⟩
  · exact ⟨.server, rfl⟩
  · exact ⟨.server, rfl⟩
  · exact ⟨.client, rfl⟩

theorem Sound.length_passed {r : Ring} {σ : Shared} (h : Sound r σ) (s : Side) :
    (σ.passed s).length = σ.advanced s := by
  unfold Shared.passed
  rw [List.length_take, Nat.min_eq_left (h.advanced_le s)]

theorem System.Shows.available (hX : x.Shows X) (h : SystemInv L m x) (p : Process) (s : Side) :
    (X.queue (p.channel s)).available
      = (x.shared p s).advanced .producer - (x.shared p s).advanced .consumer := by
  have hlen := (System.firm h.duplex p s).ring.sound.length_passed .producer
  unfold BoundedQueue.available
  rw [hX.queue, Shared.outstanding, List.length_drop]
  exact congrArg (· - _) hlen

/-- A count at a pipe is the ring's, by its cursors. -/
theorem System.Shows.room (hX : x.Shows X) (h : SystemInv L m x) (p : Process) (s : Side) :
    s.room (X.queue (p.channel s)) = x.room L p s := by
  have havailable := hX.available h p s
  have hfree := (X.queue (p.channel s)).available_add_free
  have hcells := L.cells_sub_one (p.channel s)
  cases s with
  | producer =>
    show BoundedQueue.free _ = (L.ring (p.channel .producer)).cells - 1
      - ((x.shared p .producer).advanced .producer - (x.shared p .producer).advanced .consumer)
    omega
  | consumer => exact havailable

/-- A cursor that does not move leaves the bytes it is past. -/
theorem Acts.passed_eq (h : SystemInv L m x) (ha : Acts L below p x y)
    (hpos : y.position q t = x.position q t) :
    (y.shared q t).passed t = (x.shared q t).passed t := by
  obtain ⟨l, hl⟩ := ha.moved_prefix h q t
  have hle := (System.firm h.duplex q t).ring.sound.advanced_le t
  unfold Shared.passed
  unfold System.position at hpos
  rw [hpos, ← hl]
  exact List.take_append_of_le_length hle

theorem Acts.outstanding_eq (h : SystemInv L m x) (ha : Acts L below p x y) {c : Channel}
    (hpos : ∀ q t, q.channel t = c → y.position q t = x.position q t) :
    (y.duplex.shared c).outstanding = (x.duplex.shared c).outstanding := by
  obtain ⟨q, hq⟩ := Process.exists_channel c .producer
  obtain ⟨q', hq'⟩ := Process.exists_channel c .consumer
  have hpassed := ha.passed_eq h (hpos q _ hq)
  have hadv := hpos q' _ hq'
  unfold System.position at hadv
  unfold System.shared at hpassed hadv
  rw [hq] at hpassed
  rw [hq'] at hadv
  unfold Shared.outstanding
  rw [hpassed, hadv]

/-- Where no cursor has moved and no call has returned the same is shown. -/
theorem Acts.shows_still (h : SystemInv L m x) (ha : Acts L below p x y) (hX : x.Shows X)
    (hpos : ∀ t, y.position p t = x.position p t)
    (hprogram : (y.worker p).program = (x.worker p).program)
    (hlog : (y.worker p).log = (x.worker p).log)
    (hmoved : y.passedInCall p = x.passedInCall p) : y.Shows X := by
  have hpos' : ∀ q t, y.position q t = x.position q t := by
    intro q t
    by_cases hq : q = p
    · rw [hq]
      exact hpos t
    · exact ha.position_of_ne h hq t
  have hother : ∀ q, q ≠ p → y.passedInCall q = x.passedInCall q := by
    intro q hq
    unfold System.passedInCall
    rw [ha.worker_of_ne hq]
    simp only [ha.passed_eq h (hpos' q _)]
  refine ⟨fun q => ?_, fun q => ?_, fun q => ?_, fun c => ?_⟩
  · by_cases hq : q = p
    · rw [hq, hprogram, hX.program]
    · rw [ha.worker_of_ne hq, hX.program]
  · by_cases hq : q = p
    · rw [hq, hmoved, hX.moved]
    · rw [hother q hq, hX.moved]
  · by_cases hq : q = p
    · rw [hq, hlog, hX.log]
    · rw [ha.worker_of_ne hq, hX.log]
  · rw [hX.queue, ha.outstanding_eq h fun q t _ => hpos' q t]

/-- Where one side of a process has moved the bytes `r` says. -/
theorem Acts.shows_set (h : SystemInv L m x) (ha : Acts L below p x y) (hX : x.Shows X)
    {r : Partner × BoundedQueue U8 L.capacity}
    (hpos : ∀ t, t ≠ s → y.position p t = x.position p t)
    (hprogram : r.1.program = (y.worker p).program) (hlog : r.1.log = (y.worker p).log)
    (hmoved : r.1.moved = y.passedInCall p)
    (hqueue : r.2.contents = (y.shared p s).outstanding) : y.Shows (X.set p s r) := by
  have hother : ∀ q, q ≠ p → y.passedInCall q = x.passedInCall q := by
    intro q hq
    unfold System.passedInCall
    rw [ha.worker_of_ne hq]
    simp only [ha.passed_eq h (ha.position_of_ne h hq _)]
  refine ⟨fun q => ?_, fun q => ?_, fun q => ?_, fun c => ?_⟩
  · by_cases hq : q = p
    · rw [hq, Pipes.partner_set_self, hprogram]
    · rw [Pipes.partner_set_of_ne hq, ha.worker_of_ne hq, hX.program]
  · by_cases hq : q = p
    · rw [hq, Pipes.partner_set_self, hmoved]
    · rw [Pipes.partner_set_of_ne hq, hother q hq, hX.moved]
  · by_cases hq : q = p
    · rw [hq, Pipes.partner_set_self, hlog]
    · rw [Pipes.partner_set_of_ne hq, ha.worker_of_ne hq, hX.log]
  · by_cases hc : c = p.channel s
    · rw [hc, Pipes.queue_set_self, hqueue]
      rfl
    · rw [Pipes.queue_set_of_ne hc, hX.queue]
      refine (ha.outstanding_eq h fun q t hqt => ?_).symm
      by_cases hq : q = p
      · subst hq
        exact hpos t fun ht => hc (by rw [← hqt, ht])
      · exact ha.position_of_ne h hq t

theorem System.passedInCall_await {n : U64} {next : Program}
    (hp : (x.worker p).program = .await s n next) : x.passedInCall p = [] := by
  unfold passedInCall
  rw [hp]

theorem System.passedInCall_none (hk : (x.worker p).calling = none) : x.passedInCall p = [] := by
  unfold passedInCall
  rw [hk]
  cases (x.worker p).program <;> rfl

theorem System.passedInCall_calling (hp : (x.worker p).program = .transfer s buffer next)
    (hk : (x.worker p).calling = some k) :
    x.passedInCall p = ((x.shared p s).passed s).drop k := by
  unfold passedInCall
  rw [hp, hk]

/-- A call that has just begun has moved nothing. -/
theorem System.passedInCall_begun (h : SystemInv L m x)
    (hp : (x.worker p).program = .transfer s buffer next)
    (hk : (x.worker p).calling = some (x.position p s)) : x.passedInCall p = [] := by
  have hlen := (System.firm h.duplex p s).ring.sound.length_passed s
  rw [passedInCall_calling hp hk, List.drop_eq_nil_iff]
  exact hlen.le

/-- The end of a wait is a step at the pipes. -/
theorem System.Shows.await_step {n : U64} {next : Program} (hX : x.Shows X) (h : SystemInv L m x)
    (hp : (x.worker p).program = .await s n next) (hn : n.toNat ≤ x.room L p s) :
    Pipes.step p X = some (X.set p s ((X.partner p).goOn s [] next, X.queue (p.channel s))) := by
  have hprogram := (hX.program p).trans hp
  refine Pipes.step_eq_some.2 ⟨s, _, by rw [hprogram]; rfl, ?_, rfl⟩
  unfold Partner.step
  rw [hprogram]
  exact if_pos (by rwa [hX.room h])

/-- So is the return of a call. -/
theorem System.Shows.return_step (hX : x.Shows X)
    (hp : (x.worker p).program = .transfer s buffer next)
    (hlen : (X.partner p).moved.length = buffer.1.length) :
    Pipes.step p X = some (X.set p s
      ((X.partner p).goOn s (X.partner p).moved (next (X.partner p).moved),
        X.queue (p.channel s))) := by
  have hprogram := (hX.program p).trans hp
  refine Pipes.step_eq_some.2 ⟨s, _, by rw [hprogram]; rfl, ?_, rfl⟩
  unfold Partner.step
  simp only [hprogram, hlen, List.drop_length]

theorem Sound.outstanding_le {σ : Shared} {c : Channel} (h : Sound (L.ring c) σ) :
    σ.outstanding.length ≤ L.capacity := by
  have hlimit := h.moved_le .producer
  have hle := h.advanced_le .producer
  have hcells := L.cells_sub_one c
  rw [Shared.outstanding, List.length_drop, h.length_passed]
  unfold limit Ring.reach at hlimit
  simp only [Side.peer] at hlimit
  omega

/-- Where one side's cursor has moved over the bytes `l`. -/
theorem Sound.passes {r : Ring} {σ σ' : Shared} {l : List U8} {q q' : BoundedQueue U8 L.capacity}
    (h : Sound r σ) (h' : Sound r σ') (hq : q.contents = σ.outstanding)
    (hq' : q'.contents = σ'.outstanding) (hself : σ'.passed s = σ.passed s ++ l)
    (hpeer : σ'.passed s.peer = σ.passed s.peer) : s.Passes l q q' := by
  have hlen := h.length_passed .consumer
  have hlen' := h'.length_passed .consumer
  unfold Side.Passes
  rw [hq, hq']
  unfold Shared.outstanding
  rw [← hlen, ← hlen']
  cases s with
  | producer =>
    have hle := h.advanced_le .consumer
    have hlimit := h.moved_le .consumer
    simp only [Side.peer] at hpeer ⊢
    rw [hself, hpeer, List.drop_append_of_le_length]
    rw [hlen, h.length_passed]
    unfold limit Ring.reach at hlimit
    simp only [Side.peer] at hlimit
    omega
  | consumer =>
    have hdelivered : σ'.passed .consumer <+: σ'.passed .producer := by
      refine List.prefix_take_iff.2 ⟨(List.take_prefix _ _).trans h'.delivered, ?_⟩
      have hle := h'.advanced_le .consumer
      have hlimit := h'.moved_le .consumer
      rw [hlen']
      unfold limit Ring.reach at hlimit
      simp only [Side.peer] at hlimit
      omega
    simp only [Side.peer] at hpeer ⊢
    obtain ⟨rest, hrest⟩ := hdelivered
    rw [← hpeer, ← hrest, hself, List.drop_left, List.append_assoc, List.drop_left]

/-- An access by which the cursor moves is a step at the pipes for each byte. -/
theorem Acts.shows_call (h : RecordInv L m program x) (h' : PatientInv L m x)
    (ha : Acts L true p x y) (hX : x.Shows X)
    (hp : (x.worker p).program = .transfer s buffer next) (hk : (x.worker p).calling = some k)
    (hw : y.worker p = x.worker p) (hother : ∀ t, t ≠ s → y.position p t = x.position p t) :
    ∃ Y, Pipes.Reach X Y ∧ y.Shows Y := by
  have hy := ha.record h
  have hy' := ha.patient h'
  have hpy : (y.worker p).program = .transfer s buffer next := hw ▸ hp
  have hky : (y.worker p).calling = some k := hw ▸ hk
  obtain ⟨hdata, hcall⟩ := hy.calls hpy hky
  have hend := hcall.advanced_le (System.firm hy.duplex p s).toEndpointOwn
    (hy'.patient p s buffer next k hpy hky)
  rw [hdata] at hend
  have hxsound := (System.firm h.duplex p s).ring.sound
  have hysound := (System.firm hy.duplex p s).ring.sound
  have hstart := (h.calls hp hk).2.start_le
  obtain ⟨l, hl⟩ : (x.shared p s).passed s <+: (y.shared p s).passed s := by
    have hle := ha.position_le h.toSystemInv p s
    have hmoved := ha.moved_prefix h.toSystemInv p s
    refine List.prefix_take_iff.2 ⟨(List.take_prefix _ _).trans hmoved, ?_⟩
    rw [hxsound.length_passed]
    exact hle
  have hmoved : (X.partner p).moved = ((x.shared p s).passed s).drop k := by
    rw [hX.moved, System.passedInCall_calling hp hk]
  have hmovedy : y.passedInCall p = (X.partner p).moved ++ l := by
    rw [System.passedInCall_calling hpy hky, hmoved, ← hl, List.drop_append_of_le_length]
    rw [hxsound.length_passed]
    exact hstart
  have hadvx := hxsound.length_passed s
  have hadvy := hysound.length_passed s
  rw [← hl, List.length_append] at hadvy
  have hqueue : s.Passes l (X.queue (p.channel s)) ⟨_, hysound.outstanding_le⟩ := by
    have hpeer := ha.passed_eq h.toSystemInv
      (ha.position_of_ne h.toSystemInv p.other_ne s.peer)
    rw [System.shared_peer, System.shared_peer] at hpeer
    exact hxsound.passes hysound (hX.queue _) rfl hl.symm hpeer
  refine ⟨_, Pipes.passes ((hX.program p).trans hp) ?_ (fun hs => ?_) hqueue,
    ha.shows_set h.toSystemInv hX hother ?_ ?_ hmovedy.symm rfl⟩
  · rw [hmoved, List.length_drop]
    omega
  · subst hs
    rw [← hmovedy, System.passedInCall_calling hpy hky]
    have hflow := (hy.moved_calling hpy hky).2
    have hprefix : (y.shared p .producer).passed .producer
        <+: flow .producer (y.worker p).log ++ buffer.1 :=
      (List.take_prefix _ _).trans (hy.moved_prefix hpy)
    have hdrop := hprefix.drop k
    rwa [List.drop_left' hflow] at hdrop
  · rw [hX.program, hw]
  · rw [hX.log, hw]

theorem Acts.shows (h : RecordInv L m program x) (h' : PatientInv L m x)
    (ha : Acts L true p x y) (hX : x.Shows X) : ∃ Y, Pipes.Reach X Y ∧ y.Shows Y := by
  have hact := ha
  have hinv := h.toSystemInv
  cases ha with
  | stopped hp => exact ⟨X, .refl, hX⟩
  | @ask s n next hp hk =>
    have hpos := Stamped.position_eq hinv (h.idle hk s).ask (.inl rfl) rfl rfl
    refine ⟨X, .refl, hact.shows_still hinv hX hpos ?_ ?_ ?_⟩
    · rw [System.worker_setWorker_self]
    · rw [System.worker_setWorker_self]
    · rw [System.passedInCall_await hp, System.passedInCall_await]
      rw [System.worker_setWorker_self]
      exact hp
  | @count s n next k c party σ hp hk hc hm =>
    obtain ⟨ht, hkind⟩ := h.awaits hp hk
    obtain rfl := Party.move_of_not_transfers (hkind c hc) hm
    have hpos := Stamped.position_eq hinv (.direct ht (.move hc hm)) (.inl rfl) rfl rfl
    refine ⟨X, .refl, hact.shows_still hinv hX hpos rfl rfl ?_⟩
    rw [System.passedInCall_await hp]
    exact System.passedInCall_await hp
  | @enough s n next k hp hk hc hn =>
    have hlast := (System.firm h.duplex p s).ring.last
    have hroom := h.room_add p s
    rw [BitVec.le_def] at hn
    unfold System.position at hroom
    refine ⟨_, .single ⟨p, hX.await_step hinv hp (by omega)⟩,
      hact.shows_set hinv hX (fun _ _ => rfl) ?_ ?_ ?_ (hX.queue _)⟩
    · rw [System.worker_setWorker_self]
      rfl
    · rw [System.worker_setWorker_self]
      exact congrArg (· ++ _) (hX.log p)
    · rw [System.passedInCall_none]
      · rfl
      · rw [System.worker_setWorker_self]
  | @tooFew s n next k hp hk hc hn =>
    refine ⟨X, .refl, hact.shows_still hinv hX (fun _ => rfl) ?_ ?_ ?_⟩
    · rw [System.worker_setWorker_self]
    · rw [System.worker_setWorker_self]
    · rw [System.passedInCall_await hp, System.passedInCall_await]
      rw [System.worker_setWorker_self]
      exact hp
  | @begin s buffer next hp hk =>
    have hpos := Stamped.position_eq hinv (.begin (h.idle hk s) buffer.2) (.inl rfl) rfl rfl
    obtain ⟨hlen, -⟩ := (System.firm h.duplex p s).toEndpointOwn.settled (h.idle hk s).2
    refine ⟨X, .refl, hact.shows_still hinv hX hpos ?_ ?_ ?_⟩
    · rw [System.worker_setWorker_self]
    · rw [System.worker_setWorker_self]
    · rw [System.passedInCall_none hk]
      refine System.passedInCall_begun (hact.inv hinv)
        ((congrArg Worker.program System.worker_setWorker_self).trans hp) ?_
      rw [System.worker_setWorker_self]
      exact congrArg some (hlen.trans (hpos s).symm)
  | @call s buffer next k w e σ _ hp hk ht hs hz =>
    refine hact.shows_call h h' hX hp hk (by rw [hz.worker]; rfl) fun t ht' => ?_
    exact (hz.leaves_of_ne hinv (.step true hs) rfl fun he => ht' (Prod.mk.inj he).2).2.advanced
  | @returned s buffer next k hp hk ht hresult =>
    obtain ⟨hmoved, hpos, hlen, -⟩ := h.filled hp hk ht hresult
    have hstart := (h.moved_calling hp hk).2
    have hdata : (X.partner p).moved = x.filled p s k buffer := by
      rw [hX.moved, System.passedInCall_calling hp hk, Shared.passed, hmoved,
        show (x.shared p s).advanced s = _ from hpos, List.take_of_length_le,
        List.drop_left' hstart]
      rw [List.length_append, hstart, hlen]
    refine ⟨_, .single ⟨p, hX.return_step hp (by rw [hdata, hlen])⟩,
      hact.shows_set hinv hX (fun _ _ => rfl) ?_ ?_ ?_ (hX.queue _)⟩
    · rw [System.worker_setWorker_self, hdata]
      rfl
    · rw [System.worker_setWorker_self, hdata]
      exact congrArg (· ++ _) (hX.log p)
    · rw [System.passedInCall_none]
      · rfl
      · rw [System.worker_setWorker_self]
  | fails hp hk ht hresult => exact absurd (h'.patient _ _ _ _ _ hp hk ht) hresult

/-- At rest nobody can go on at the pipes. -/
theorem System.Shows.ended (hX : x.Shows X) (h : SystemInv L m x) (hrest : x.AtRest L) :
    X.Ended := by
  intro p
  have hresty := (hrest p).1
  have hroom := hX.room h p
  have hprogram := hX.program p
  unfold System.Rests at hresty
  rcases hp : (x.worker p).program with _ | ⟨s, n, next⟩ | ⟨s, buffer, next⟩ <;>
    rw [hp] at hresty hprogram
  · exact Pipes.step_of_stop hprogram
  · exact Pipes.step_of_await hprogram ((hroom s).trans_lt hresty)
  · obtain ⟨hfull, howed⟩ := hresty
    refine Pipes.step_of_transfer hprogram ?_ ((hroom s).trans hfull)
    rw [hX.moved]
    rcases hk : (x.worker p).calling with _ | k
    · unfold System.owed at howed
      simp only [hp, hk] at howed
      rwa [System.passedInCall_none hk]
    · have hlen := (System.firm h.duplex p s).ring.sound.length_passed s
      have hstart := (h.calls hp hk).2.start_le
      rw [System.owed_calling hp hk] at howed
      rw [System.passedInCall_calling hp hk, List.length_drop, hlen]
      unfold System.position at howed
      omega

end Shows

/-! ## Every fair run -/

section End

variable {L : Layout} {m : Segment} {program : Process → Program} {X Y : Pipes L.capacity}
  {ρ : PatientRun L}

theorem shows_start (now now' : Ptime L.sizeofPtime) (program : Process → Program) :
    (systemStart L now now' program).Shows (.start L.capacity program) := by
  refine ⟨fun p => rfl, fun p => ?_, fun p => rfl, fun c => rfl⟩
  rw [System.passedInCall_none rfl]
  rfl

theorem RecordInv.run (h : RecordInv L m program (ρ.state 0)) (i : ℕ) :
    RecordInv L m program (ρ.state i) := h.reach (PatientRun.reach ρ i)

theorem PatientRun.shows (h : RecordInv L m program (ρ.state 0)) (h' : PatientInv L m (ρ.state 0))
    (hX : (ρ.state 0).Shows X) (i : ℕ) : ∃ Y, Pipes.Reach X Y ∧ (ρ.state i).Shows Y := by
  induction i with
  | zero => exact ⟨X, .refl, hX⟩
  | succ i ih =>
    obtain ⟨Y, hY, hshows⟩ := ih
    obtain ⟨Z, hZ, hshows'⟩ := (PatientRun.acts ρ i).shows (h.run i) (h'.run i) hshows
    exact ⟨Z, hY.trans hZ, hshows'⟩

/-- A place where the pipes end is where every fair run of the system ends. -/
theorem PatientRun.shows_end (h : RecordInv L m program (ρ.state 0))
    (h' : PatientInv L m (ρ.state 0)) (hoften : ∀ p, ρ.Often p) (hX : (ρ.state 0).Shows X)
    (hY : Pipes.Reach X Y) (hended : Y.Ended) : ∃ i, ∀ j ≥ i, (ρ.state j).Shows Y := by
  obtain ⟨i, hi⟩ := h'.settles hoften
  refine ⟨i, fun j hj => ?_⟩
  obtain ⟨Z, hZ, hshows⟩ := PatientRun.shows h h' hX j
  have hend := hshows.ended (h.run j).toSystemInv (hi j hj).1
  rwa [Stuck.eq hend (Pipes.commutes.reaches_stuck hZ hY hended)]

/-- Two programs at a segment do as they would at two pipes. At any time they have got as far as
some run at the pipes gets. And the pipes have one place where nobody can go on. However they have
gone on so far, they can still come there, and it is where every run of the system ends in which
both processes go on taking their steps and no timer reaches its limit. -/
theorem processes_end_as_pipes (L : Layout) (now now' : Ptime L.sizeofPtime)
    (program : Process → Program) (ρ : PatientRun L)
    (h : ρ.state 0 = systemStart L now now' program) (hoften : ∀ p, ρ.Often p) :
    (∀ i, ∃ X, Pipes.Reach (.start L.capacity program) X ∧ (ρ.state i).Shows X)
      ∧ ∃ X, Pipes.Reach (.start L.capacity program) X ∧ X.Ended
        ∧ (∀ Y, Pipes.Reach (.start L.capacity program) Y → Pipes.Reach Y X)
        ∧ (∀ Y, Pipes.Reach (.start L.capacity program) Y → Y.Ended → Y = X)
        ∧ ∃ i, ∀ j ≥ i, (ρ.state j).Shows X := by
  have hrecord := recordInv_start now now' program
  have hpatient := patientInv_start now now' program
  have hshows := shows_start now now' program
  rw [← h] at hrecord hpatient hshows
  have hrun := PatientRun.shows hrecord hpatient hshows
  refine ⟨hrun, ?_⟩
  obtain ⟨i, hi⟩ := hpatient.settles hoften
  obtain ⟨X, hX, hXi⟩ := hrun i
  have hended := hXi.ended (hrecord.run i).toSystemInv (hi i le_rfl).1
  have hreaches : ∀ Y, Pipes.Reach (.start L.capacity program) Y → Pipes.Reach Y X :=
    fun Y hY => Pipes.commutes.reaches_stuck hY hX hended
  refine ⟨X, hX, hended, hreaches, fun Y hY hend => ?_,
    PatientRun.shows_end hrecord hpatient hoften hshows hX hended⟩
  exact (Stuck.eq hend (hreaches Y hY)).symm

theorem processes_end_as_pipes_small : ∃ ρ : PatientRun smallLayout,
    (∀ i, ∃ X, Pipes.Reach (.start smallLayout.capacity askAndAnswer) X ∧ (ρ.state i).Shows X)
      ∧ ∃ X, Pipes.Reach (.start smallLayout.capacity askAndAnswer) X ∧ X.Ended
        ∧ (∀ Y, Pipes.Reach (.start smallLayout.capacity askAndAnswer) Y → Pipes.Reach Y X)
        ∧ (∀ Y, Pipes.Reach (.start smallLayout.capacity askAndAnswer) Y → Y.Ended → Y = X)
        ∧ ∃ i, ∀ j ≥ i, (ρ.state j).Shows X := by
  obtain ⟨ρ, hρ, hoften⟩ := exists_patientRun (L := smallLayout) (.zero _) (.zero _) askAndAnswer
  exact ⟨ρ, processes_end_as_pipes smallLayout (.zero _) (.zero _) askAndAnswer ρ hρ hoften⟩

end End

end MemMapIPC
