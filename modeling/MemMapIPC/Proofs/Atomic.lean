import MemMapIPC.Atomic
import MemMapIPC.Proofs.Fifo

/-!
# The ring behaves as the queue

The queue a ring stands for holds the bytes between the two first words (`StandsFor`). A store of a
side's first word is a piece of its transfer, and the load that finds the peer's two words the same
is where a count looks at the queue; every other access shows nothing and changes nothing there
(`Own.move_behaves`). What the other side does leaves a side's errand where it was (`Keeps.runs`).
-/

namespace MemMapIPC

open ByteMemory Interleaving Simulation

/-- The bytes a transfer has still to move its cursor over. -/
def Call.left (s : Side) (σ : Shared) : Call → ℕ
  | span n => n.toNat
  | address now later => now.toNat + later.toNat
  | copy _ _ now later => now.toNat + later.toNat
  | publish _ later => (σ.moved s).length - σ.advanced s + later.toNat
  | publishSecond _ later => later.toNat
  | _ => 0

/-- The stores of the first word a transfer has at most still to make. -/
def Call.pieces : Call → ℕ
  | span _ => 2
  | address _ later => if later = 0 then 1 else 2
  | copy _ _ _ later => if later = 0 then 1 else 2
  | publish _ later => if later = 0 then 1 else 2
  | publishSecond _ later => if later = 0 then 0 else 1
  | _ => 0

section StandsFor

variable (r : Ring)

structure StandsFor (σ : Shared) (q : Stream (r.cells - 1)) : Prop where
  accepted : q.accepted = (σ.moved .producer).take (σ.advanced .producer)
  delivered : q.delivered = (σ.moved .consumer).take (σ.advanced .consumer)
  contents : q.queue.contents = q.accepted.drop (σ.advanced .consumer)

/-- The queue's caller is where side `s` of the ring is. -/
def Runs (s : Side) (σ : Shared) (w : Watched) (q : QueueCaller) : Prop :=
  q.last = w.party.last.toNat ∧
    match w.party.call with
    | none => q.errand = .idle
    | some .loadSecond => q.errand = .count
    | some (.loadFirst _) => q.errand = .count
    | some (.compare v) =>
      let own := r.word σ.mem s false
      q.errand = .counted (r.buffer.difference s (CircularBuffer.ahead s v own) v own).toNat
    | some (.subtract v isAhead) =>
      q.errand = .counted (r.buffer.difference s isAhead v (r.word σ.mem s false)).toNat
    | some c => w.since ≤ σ.advanced s ∧ ∃ pieces, c.pieces ≤ pieces ∧
      q.errand = match s with
        | .producer =>
          .write pieces ((σ.moved .producer).drop (σ.advanced .producer) ++ w.party.source)
        | .consumer => .read pieces (c.left .consumer σ)
          (((σ.moved .consumer).take (σ.advanced .consumer)).drop w.since)

end StandsFor

variable {r : Ring} {s : Side} {σ σ' : Shared} {p p' : Party} {q : Stream (r.cells - 1)}
  {w : Watched} {u : QueueCaller} {k : ℕ}

theorem StandsFor.room (h : StandsFor r σ q) (hσ : Sound r σ) (s : Side) :
    q.room s + σ.advanced s = limit r σ s := by
  have hp := hσ.advanced_le .producer
  have hc := hσ.advanced_le .consumer
  have hp' := hσ.moved_le .producer
  have hc' := hσ.moved_le .consumer
  have hlen : q.queue.available = σ.advanced .producer - σ.advanced .consumer := by
    rw [BoundedQueue.available, h.contents, h.accepted, List.length_drop, List.length_take,
      Nat.min_eq_left hp]
  simp only [limit, Ring.reach, Side.peer] at hp' hc'
  cases s with
  | producer =>
    simp only [Stream.room, BoundedQueue.free, hlen, limit, Ring.reach, Side.peer]
    omega
  | consumer =>
    simp only [Stream.room, hlen, limit, Ring.reach, Side.peer]
    omega

theorem Keeps.runs (h : Keeps r s σ σ') (hr : Runs r s σ w u) : Runs r s σ' w u := by
  unfold Runs at hr ⊢
  rcases w with ⟨⟨_ | c, last, source⟩, k⟩
  · exact hr
  · cases s with
    | producer => cases c <;> simpa only [h.word, h.moved, h.advanced, Call.left] using hr
    | consumer => cases c <;> simpa only [h.word, h.moved, h.advanced, Call.left] using hr

/-! ## What a side's own steps do to the queue -/

theorem Own.start_calls (h : Own r s σ p) (hq : StandsFor r σ q) (hr : Runs r s σ ⟨p, k⟩ u)
    {data : List U8} (hp : p.Starts s p' data) :
    ∃ u', QueueCall s (u, q) (some (.begins (p'.begun data s))) (u', q)
      ∧ StandsFor r { σ with sent := σ.sent ++ data } q
      ∧ Runs r s { σ with sent := σ.sent ++ data } ⟨p', (σ.moved s).length⟩ u' := by
  have hq' : StandsFor r { σ with sent := σ.sent ++ data } q :=
    ⟨hq.accepted, hq.delivered, hq.contents⟩
  have hat := h.at_call
  obtain ⟨errand, last⟩ := u
  obtain ⟨rfl, hr⟩ := hr
  cases hp with
  | count hc =>
    simp only [hc] at hr
    subst hr
    exact ⟨_, .count, hq', rfl, rfl⟩
  | write hc hle =>
    rw [hc] at hat
    simp only [hc] at hr
    subst hr
    refine ⟨_, .write hle, hq', rfl, hat.1.1.le, 2, le_rfl, ?_⟩
    simp [← hat.1.1]
  | @read p n hc hle =>
    rw [hc] at hat
    simp only [hc] at hr
    subst hr
    refine ⟨_, .read (BitVec.le_def.1 hle), hq', rfl, hat.1.1.le, 2, le_rfl, ?_⟩
    simp [Call.left, ← hat.1.1]

/-- A store of the first word puts in, or takes out, what has been copied. -/
theorem Own.publish_calls (h : Own r s σ p) (hq : StandsFor r σ q) (hr : Runs r s σ ⟨p, k⟩ u)
    {v later : U64} (hc : p.call = some (.publish v later)) {m : Segment} :
    ∃ u' q', QueueCall s (u, q) none (u', q')
      ∧ StandsFor r { σ.advance s (.publish v later) with mem := m } q'
      ∧ Runs r s { σ.advance s (.publish v later) with mem := m }
        ⟨{ p with call := some (.publishSecond v later) }, k⟩ u' := by
  have hroom := hq.room h.sound s
  have hle := h.sound.moved_le s
  have hadv := h.sound.advanced_le s
  obtain ⟨errand, last⟩ := u
  obtain ⟨rfl, hr⟩ := hr
  simp only [hc] at hr
  obtain ⟨hsince, pieces, hpieces, rfl⟩ := hr
  obtain ⟨n, rfl⟩ : ∃ n, pieces = n + 1 := by
    simp only [Call.pieces] at hpieces
    split_ifs at hpieces
    · exact ⟨pieces - 1, by omega⟩
    · exact ⟨pieces - 1, by omega⟩
  have hn : (Call.publishSecond v later).pieces ≤ n := by
    simp only [Call.pieces] at hpieces ⊢
    split_ifs at hpieces ⊢ <;> omega
  cases s with
  | producer =>
    simp only [Stream.room] at hroom
    have hc' := h.sound.advanced_le .consumer
    have hcm := h.sound.moved_le .consumer
    simp only [limit, Ring.reach, Side.peer] at hcm
    have hfree : ((σ.moved .producer).drop (σ.advanced .producer)).length ≤ q.queue.free := by
      rw [List.length_drop]
      omega
    have hacc : q.accepted ++ (σ.moved .producer).drop (σ.advanced .producer)
        = σ.moved .producer := by
      rw [hq.accepted, List.take_append_drop]
    refine ⟨_, _, .push hfree, ⟨?_, ?_, ?_⟩, rfl, ?_, n, hn, ?_⟩
    · simp [Stream.push, Shared.advance, hacc]
    · simpa [Stream.push, Shared.advance] using hq.delivered
    · have hlen : σ.advanced .consumer ≤ q.accepted.length := by
        rw [hq.accepted, List.length_take]
        omega
      simp only [Stream.push, Shared.advance, BoundedQueue.contents_push, hq.contents, ne_eq,
        reduceCtorEq, not_false_eq_true, Function.update_of_ne]
      rw [List.drop_append_of_le_length hlen]
    · simpa [Shared.advance] using hsince.trans hadv
    · simp [Shared.advance]
  | consumer =>
    simp only [Stream.room] at hroom
    have hpm := h.sound.advanced_le .producer
    simp only [limit, Ring.reach, Side.peer] at hroom hle
    have hi : (σ.moved .consumer).length - σ.advanced .consumer ≤ q.queue.available := by omega
    have htake : q.queue.contents.take ((σ.moved .consumer).length - σ.advanced .consumer)
        = (σ.moved .consumer).drop (σ.advanced .consumer) := by
      have hpre := List.prefix_iff_eq_take.1 h.sound.delivered
      rw [hq.contents, hq.accepted, ← List.drop_take, List.take_take, Nat.min_eq_left (by omega),
        ← hpre]
    refine ⟨_, _, .pop hi, ⟨?_, ?_, ?_⟩, rfl, ?_, n, hn, ?_⟩
    · simpa [Stream.pop, Shared.advance] using hq.accepted
    · simp only [Stream.pop, Shared.advance, Function.update_self, htake, hq.delivered,
        List.take_append_drop, List.take_length]
    · simp only [Stream.pop, Shared.advance, Function.update_self, BoundedQueue.contents_pop,
        hq.contents, List.drop_drop]
      congr 1
      omega
    · simpa [Shared.advance] using hsince.trans hadv
    · simp only [Call.left, htake, Shared.advance, Function.update_self, List.take_length,
        Errand.read.injEq, true_and]
      rw [← List.drop_append_of_le_length (by rw [List.length_take]; omega),
        List.take_append_drop]

/-- A copied byte is still to be published, as it was while in the source. -/
theorem Own.copied_runs (h : Own r s σ p) (hr : Runs r s σ ⟨p, k⟩ u) {cell : U64} {i : ℕ}
    {now later : U64} (hc : p.call = some (.copy cell i now later)) (b : U8) {m : Segment}
    (hm : r.word m s false = r.word σ.mem s false) (source : List U8)
    (hb : s = .producer → p.source = b :: source) :
    Runs r s { σ.copied s b with mem := m }
      ⟨{ p with source := source, call := some (.copy cell (i + 1) now later) }, k⟩ u := by
  have hadv := h.sound.advanced_le s
  obtain ⟨hlast, hr⟩ := hr
  simp only [hc] at hr
  obtain ⟨hsince, pieces, hpieces, he⟩ := hr
  refine ⟨hlast, hsince, pieces, hpieces, ?_⟩
  rw [he]
  cases s with
  | producer =>
    simp only [Shared.copied, Function.update_self, hb rfl, Errand.write.injEq, true_and]
    rw [List.drop_append_of_le_length hadv, List.append_assoc, List.singleton_append]
  | consumer =>
    simp only [Shared.copied, Function.update_self, Call.left, Errand.read.injEq, true_and]
    rw [List.take_append_of_le_length hadv]

theorem StandsFor.copied (h : StandsFor r σ q) (hσ : Sound r σ) (s : Side) (b : U8) (m : Segment) :
    StandsFor r { σ.copied s b with mem := m } q := by
  have htake : ∀ t, (Function.update σ.moved s (σ.moved s ++ [b]) t).take (σ.advanced t)
      = (σ.moved t).take (σ.advanced t) := by
    intro t
    rcases eq_or_ne t s with rfl | ht
    · rw [Function.update_self, List.take_append_of_le_length (hσ.advanced_le t)]
    · rw [Function.update_of_ne ht]
  exact ⟨h.accepted.trans (htake .producer).symm, h.delivered.trans (htake .consumer).symm,
    h.contents⟩

/-- The count a side ends its loop with is what the queue holds, or has room for, at that moment. -/
theorem Own.look (h : Own r s σ p) (hq : StandsFor r σ q) {v : U64}
    (hv : v = r.word σ.mem s.peer false) :
    (r.buffer.difference s (CircularBuffer.ahead s v (r.word σ.mem s false)) v
      (r.word σ.mem s false)).toNat = q.room s := by
  have hroom := hq.room h.sound s
  have hle := h.sound.limit_le s
  have hpeer : v.toNat = σ.advanced s.peer % r.cells := hv ▸ h.sound.first s.peer
  rw [Ring.toNat_difference hpeer (h.sound.first s) (by unfold limit at hroom; omega) hle]
  unfold limit at hroom
  omega

/-- What an access of a call shows, its queue can show from where it is. -/
theorem Own.move_behaves (h : Own r s σ p) (hq : StandsFor r σ q) (hr : Runs r s σ ⟨p, k⟩ u)
    {c : Call} (hc : p.call = some c) (hm : p.move r.buffer s c σ = some (p', σ')) :
    ∃ u' q', Behaves (QueueCall s) (u, q)
        (if p'.call = none then some (.returns (Watched.reply ⟨p', k⟩ σ' c s)) else none).toList
        (u', q')
      ∧ StandsFor r σ' q' ∧ Runs r s σ' ⟨p', k⟩ u' := by
  have hat := h.at_call
  rw [hc] at hat
  have hr' := hr
  obtain ⟨errand, last⟩ := u
  obtain ⟨hlast, hr⟩ := hr
  simp only at hlast
  subst hlast
  cases c with
  | loadSecond =>
    simp only [Party.move_loadSecond, Option.some.injEq, Prod.mk.injEq] at hm
    obtain ⟨rfl, rfl⟩ := hm
    simp only [hc] at hr
    exact ⟨_, q, .refl, hq, rfl, hr⟩
  | loadFirst v =>
    simp only [Party.move_loadFirst, Ring.loadWord_pointer, Option.some.injEq,
      Prod.mk.injEq] at hm
    obtain ⟨rfl, rfl⟩ := hm
    simp only [hc] at hr
    subst hr
    by_cases hv : v = r.word σ.mem s.peer false
    · simp only [hv, ne_eq, not_true, if_false]
      refine ⟨_, q, .single .look, hq, rfl, ?_⟩
      simp only [h.look hq rfl]
    · simp only [ne_eq, hv, not_false_iff, if_true]
      exact ⟨_, q, .refl, hq, rfl, rfl⟩
  | compare v =>
    simp only [Party.move_compare, Option.some.injEq, Prod.mk.injEq] at hm
    obtain ⟨rfl, rfl⟩ := hm
    simp only [hc] at hr
    exact ⟨_, q, .refl, hq, rfl, hr⟩
  | subtract v isAhead =>
    simp only [Party.move_subtract, Option.some.injEq, Prod.mk.injEq] at hm
    obtain ⟨rfl, rfl⟩ := hm
    simp only [hc] at hr
    subst hr
    refine ⟨_, q, .single .counted, hq, rfl, rfl⟩
  | span n =>
    rw [Party.move_span, Ring.loadWord_pointer] at hm
    simp only [Option.some.injEq, Prod.mk.injEq] at hm
    obtain ⟨rfl, rfl⟩ := hm
    simp only [hc] at hr
    obtain ⟨hsince, pieces, hpieces, rfl⟩ := hr
    by_cases hge : r.buffer.numberOfBytesBeforeWraparound s (r.word σ.mem s false) ≥ n
    · simp only [hge, if_true]
      refine ⟨_, q, .refl, hq, rfl, hsince, pieces, ?_, ?_⟩
      · exact le_trans (by simp [Call.pieces]) hpieces
      · simp [Call.left]
    · simp only [hge, if_false]
      have hsub := BitVec.toNat_sub_of_le (BitVec.le_of_lt (BitVec.not_le.1 hge))
      rw [ge_iff_le, BitVec.le_def] at hge
      refine ⟨_, q, .refl, hq, rfl, hsince, pieces, ?_, ?_⟩
      · have htwo : 2 ≤ pieces := hpieces
        simp only [Call.pieces]
        split_ifs <;> omega
      · cases s with
        | producer => rfl
        | consumer =>
          simp only [Call.left, hsub]
          rw [Nat.add_sub_cancel' (not_le.1 hge).le]
  | address now later =>
    simp only [Party.move_address, Option.some.injEq, Prod.mk.injEq] at hm
    obtain ⟨rfl, rfl⟩ := hm
    simp only [hc] at hr
    exact ⟨_, q, .refl, hq, rfl, hr⟩
  | copy cell i now later =>
    have hat' := hat
    obtain ⟨rfl, hi, hmoved, hremains, hchunk⟩ := hat'
    by_cases hlt : i < now.toNat
    · obtain ⟨hlim, hcell⟩ := hchunk.cell hlt hmoved
      cases s with
      | producer =>
        have hlen := hremains rfl
        rcases hb : p.source with _ | ⟨b, rest⟩
        · rw [hb, List.length_nil] at hlen
          omega
        simp only [Party.move, Call.access, hlt, if_true, Call.byteAccess, hb, Call.next,
          Party.resume, Option.map_some, Option.some.injEq, Prod.mk.injEq] at hm
        obtain ⟨rfl, rfl⟩ := hm
        refine ⟨_, q, .refl, hq.copied h.sound _ b _, h.copied_runs hr' hc b ?_ rest fun _ => hb⟩
        rw [hcell]
        exact Ring.word_write (by simpa using Nat.mod_lt _ r.cells_pos)
      | consumer =>
        simp only [Party.move, Call.access, hlt, if_true, Call.byteAccess, Call.next,
          Party.resume, Option.map_some, Option.some.injEq, Prod.mk.injEq] at hm
        obtain ⟨rfl, rfl⟩ := hm
        exact ⟨_, q, .refl, hq.copied h.sound _ _ σ.mem,
          h.copied_runs hr' hc _ rfl p.source fun hs => by cases hs⟩
    · obtain rfl : i = now.toNat := by omega
      have hw := Ring.wrap_eq (h.sound.first s) hchunk.2.1
      simp only [Party.move, Call.access, hlt, if_false, Call.next, Ring.loadWord_pointer, hw,
        Party.resume, Option.map_some, Option.some.injEq, Prod.mk.injEq] at hm
      obtain ⟨rfl, rfl⟩ := hm
      simp only [hc] at hr
      obtain ⟨hsince, pieces, hpieces, rfl⟩ := hr
      refine ⟨_, q, .refl, hq, rfl, hsince, pieces, hpieces, ?_⟩
      cases s with
      | producer => rfl
      | consumer => simp [Call.left, hmoved]
  | publish v later =>
    simp only [Party.move_publish, Option.some.injEq, Prod.mk.injEq] at hm
    obtain ⟨rfl, rfl⟩ := hm
    obtain ⟨u', q', hs, hq', hr⟩ := h.publish_calls hq hr' hc
    exact ⟨u', q', .single hs, hq', hr⟩
  | publishSecond v later =>
    simp only [Party.move_publishSecond, Option.some.injEq, Prod.mk.injEq] at hm
    obtain ⟨rfl, rfl⟩ := hm
    have hq' : StandsFor r { σ with mem := σ.mem.storeWord (r.buffer.pointer s true) v } q :=
      ⟨hq.accepted, hq.delivered, hq.contents⟩
    obtain ⟨hmoved, -, hremains, -⟩ := hat
    simp only [hc] at hr
    obtain ⟨hsince, pieces, hpieces, rfl⟩ := hr
    by_cases hl : later = 0
    · subst hl
      cases s with
      | producer =>
        have hsource : p.source = [] := List.length_eq_zero_iff.1 (hremains rfl)
        simp only [← hmoved, List.drop_length, hsource, List.append_nil]
        exact ⟨_, q, .single .written, hq', rfl, rfl⟩
      | consumer =>
        simp only [← hmoved, List.take_length, Call.left]
        exact ⟨_, q, .single .gotten, hq', rfl, rfl⟩
    · simp only [hl, if_false]
      refine ⟨_, q, .refl, hq', rfl, hsince, pieces, ?_, ?_⟩
      · refine le_trans ?_ hpieces
        simp only [Call.pieces, hl, if_true, if_false]
        exact le_rfl
      · cases s with
        | producer => rfl
        | consumer => simp [Call.left]

/-! ## Both sides -/

/-- The queue and its two callers are where the ring and its two sides are. -/
structure Implements (r : Ring) (x : WatchedState) (y : QueueState (r.cells - 1)) : Prop where
  left : Own r .producer x.shared x.left.party
  right : Own r .consumer x.shared x.right.party
  stands : StandsFor r x.shared y.shared
  leftRuns : Runs r .producer x.shared x.left y.left
  rightRuns : Runs r .consumer x.shared x.right y.right

theorem RingCall.behaves {w' : Watched} {e : Option CallEvent} (h : Own r s σ w.party)
    (hq : StandsFor r σ q) (hr : Runs r s σ w u) (hs : RingCall r.buffer s (w, σ) e (w', σ')) :
    Own r s σ' w'.party ∧ Keeps r s.peer σ σ'
      ∧ ∃ u' q', Behaves (QueueCall s) (u, q) e.toList (u', q') ∧ StandsFor r σ' q'
        ∧ Runs r s σ' w' u' := by
  cases hs with
  | start hp =>
    obtain ⟨hown, hkeep⟩ := h.start hp
    obtain ⟨u', hs, hq', hr'⟩ := h.start_calls hq hr hp
    exact ⟨hown, hkeep, u', q, .single hs, hq', hr'⟩
  | move hc hm =>
    obtain ⟨hown, hkeep⟩ := h.move hc hm
    exact ⟨hown, hkeep, h.move_behaves hq hr hc hm⟩

theorem implements_simulates (r : Ring) :
    Simulates (PartyStep (RingCall r.buffer .producer) (RingCall r.buffer .consumer))
      (PartyStep (QueueCall .producer) (QueueCall .consumer)) (Implements r) := by
  intro x y e x' h hs
  cases hs with
  | @left l l' w s s' e hs =>
    obtain ⟨hown, hkeep, u', q', hb, hq', hr'⟩ := hs.behaves h.left h.stands h.leftRuns
    refine ⟨⟨u', y.right, q'⟩, ?_, hown, own_stable _ _ _ h.right hkeep, hq', hr',
      hkeep.runs h.rightRuns⟩
    have hb' := PartyStep.behaves_left (B := QueueCall .consumer) y.right hb
    cases e with
    | none => exact hb'
    | some e => exact hb'
  | @right l w w' s s' e hs =>
    obtain ⟨hown, hkeep, u', q', hb, hq', hr'⟩ := hs.behaves h.right h.stands h.rightRuns
    refine ⟨⟨y.left, u', q'⟩, ?_, own_stable _ _ _ h.left hkeep, hown, hq',
      hkeep.runs h.leftRuns, hr'⟩
    have hb' := PartyStep.behaves_right (A := QueueCall .producer) y.left hb
    cases e with
    | none => exact hb'
    | some e => exact hb'

theorem implements_start (r : Ring) (m : Segment) :
    Implements r (watchedStart r m) (queueStart (r.cells - 1)) :=
  ⟨own_start .producer, own_start .consumer, ⟨rfl, rfl, rfl⟩, ⟨rfl, rfl⟩, ⟨rfl, rfl⟩⟩

/-- Whatever calls and returns are seen of a ring, its two sides' accesses interleaved in any way,
are calls and returns of a queue of all but one of its cells, where a count is exact at one moment
of its call and a transfer takes effect at one or two. -/
theorem ring_behaves_as_queue (r : Ring) (m : Segment) {t : List (CallEvent ⊕ CallEvent)}
    {x : WatchedState} (h : RingBehaves r m t x) :
    ∃ y, QueueBehaves (r.cells - 1) t y ∧ Implements r x y :=
  (implements_simulates r).behaves (implements_start r m) h

theorem Watched.choose_sound {cb : CircularBuffer} {ch : Choice} {w' : Watched}
    {e : Option CallEvent} (h : Watched.choose cb s ch (w, σ) = some (e, w', σ')) :
    RingCall cb s (w, σ) e (w', σ') := by
  obtain ⟨p, k⟩ := w
  obtain ⟨⟨p', σ₁⟩, hq, h⟩ := Option.map_eq_some_iff.1 h
  cases ch with
  | count =>
    simp only [Party.choose, Option.ite_none_right_eq_some, Option.some.injEq, Prod.mk.injEq] at hq
    obtain ⟨hc, rfl, rfl⟩ := hq
    cases h
    have hstart : RingCall cb s (⟨p, k⟩, σ) _ (_, { σ with sent := σ.sent ++ [] }) :=
      .start (.count hc)
    simpa using hstart
  | write data =>
    simp only [Party.choose, Option.ite_none_right_eq_some, Option.some.injEq, Prod.mk.injEq] at hq
    obtain ⟨⟨rfl, hc, hle⟩, rfl, rfl⟩ := hq
    cases h
    exact .start (.write hc hle)
  | read n =>
    simp only [Party.choose, Option.ite_none_right_eq_some, Option.some.injEq, Prod.mk.injEq] at hq
    obtain ⟨⟨rfl, hc, hle⟩, rfl, rfl⟩ := hq
    cases h
    have hstart : RingCall cb .consumer (⟨p, k⟩, σ) _ (_, { σ with sent := σ.sent ++ [] }) :=
      .start (.read hc hle)
    simpa using hstart
  | move =>
    obtain ⟨c, hc, hm⟩ := Option.bind_eq_some_iff.1 hq
    simp only at hc
    simp only [hc] at h
    cases h
    exact .move hc hm

theorem WatchedState.run_behaves : ∀ {schedule : List (Choice ⊕ Choice)} {x y : WatchedState}
    {t : List (CallEvent ⊕ CallEvent)}, x.run r schedule = some (t, y) →
      Behaves (PartyStep (RingCall r.buffer .producer) (RingCall r.buffer .consumer)) x t y
  | [], x, y, t, h => by
    cases h
    exact .refl
  | .inl ch :: rest, x, y, t, h => by
    obtain ⟨⟨e, w, σ⟩, hw, h⟩ := Option.bind_eq_some_iff.1 h
    obtain ⟨⟨t', z⟩, hz, h⟩ := Option.bind_eq_some_iff.1 h
    cases h
    exact (Behaves.single (.left (Watched.choose_sound hw))).trans (run_behaves hz)
  | .inr ch :: rest, x, y, t, h => by
    obtain ⟨⟨e, w, σ⟩, hw, h⟩ := Option.bind_eq_some_iff.1 h
    obtain ⟨⟨t', z⟩, hz, h⟩ := Option.bind_eq_some_iff.1 h
    cases h
    exact (Behaves.single (.right (Watched.choose_sound hw))).trans (run_behaves hz)

section Example

/-- What is seen of two bytes written and read back. -/
def smallEvents : List (CallEvent ⊕ CallEvent) :=
  [.inl (.begins .free), .inl (.returns (.count 7)), .inl (.begins (.write [7, 9])),
    .inl (.returns .written), .inr (.begins .available), .inr (.returns (.count 2)),
    .inr (.begins (.read 2)), .inr (.returns (.read [7, 9]))]

theorem small_events :
    ((watchedStart smallRing fun _ => 0).run smallRing smallSchedule).map Prod.fst
      = some smallEvents := by
  decide +kernel

theorem ring_behaves_as_queue_small : ∃ y, QueueBehaves (smallRing.cells - 1) smallEvents y := by
  obtain ⟨⟨t, x⟩, hx, rfl⟩ := Option.map_eq_some_iff.1 small_events
  obtain ⟨y, hy, -⟩ := ring_behaves_as_queue smallRing _ (WatchedState.run_behaves hx)
  exact ⟨y, hy⟩

end Example

end MemMapIPC
