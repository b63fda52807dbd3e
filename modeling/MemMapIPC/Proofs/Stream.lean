import MemMapIPC.Proofs.Fifo
import MemMapIPC.Stream

/-!
# The stream contract of an entity

What an entity knows at each point of a call (`CallerOwn`) its own steps keep, and no step of the
other end takes it away: that end only makes more room (`Stream.Keeps`). So the contract holds
against any other end, and of two entities at the two ends of one queue it holds for both.
-/

namespace MemMapIPC

open Interleaving

section Streams

variable {capacity : ℕ}

namespace Stream

/-- What was in the queue at first, `l`, and what has gone in since are what has come out and what
is in it. -/
def Conserves (l : List U8) (σ : Stream capacity) : Prop :=
  l ++ σ.accepted = σ.delivered ++ σ.queue.contents

/-- What a change by the other side leaves side `s`. -/
structure Keeps (s : Side) (σ σ' : Stream capacity) : Prop where
  history : σ'.history s = σ.history s
  room : σ.room s ≤ σ'.room s
  conserves : ∀ l, Conserves l σ → Conserves l σ'

variable {s : Side} {σ : Stream capacity}

theorem keeps_refl : Keeps s σ σ := ⟨rfl, le_rfl, fun _ h => h⟩

theorem push_keeps {l : List U8} (h : l.length ≤ σ.queue.free) :
    Keeps .consumer σ (σ.push l h) := by
  refine ⟨rfl, ?_, fun l' hl => ?_⟩
  · simp only [room, push, BoundedQueue.available_push]
    omega
  · simp only [Conserves, push, BoundedQueue.contents_push] at hl ⊢
    rw [← List.append_assoc, hl, List.append_assoc]

theorem pop_keeps (n : ℕ) : Keeps .producer σ (σ.pop n) := by
  refine ⟨rfl, ?_, fun l hl => ?_⟩
  · simp only [room, pop, BoundedQueue.free, BoundedQueue.available_pop]
    omega
  · simp only [Conserves, pop, BoundedQueue.contents_pop] at hl ⊢
    rw [hl, List.append_assoc, List.take_append_drop]

end Stream

end Streams

section Calls

variable {r : Ring}

/-- What the entity knows where it is in a call for `length` bytes, `done` of them transferred. -/
def CallerAt (length done room : ℕ) : Option Transfer → Prop
  | none => True
  | some .updateTimestamp | some .check | some .timeoutTimer => done = 0
  | some .whole => done = 0 ∧ length ≤ room
  | some (.elapsed moved) => moved.toNat = done
  | some (.poll moved) => moved.toNat = done ∧ done < length
  | some (.restart moved count) | some (.chunk moved count) =>
    moved.toNat = done ∧ done < length ∧ 0 < count.toNat ∧ count.toNat ≤ room

theorem CallerAt.mono {length done room room' : ℕ} (h : room ≤ room') {t : Option Transfer}
    (hat : CallerAt length done room t) : CallerAt length done room' t := by
  rcases t with _ | t
  · trivial
  cases t with
  | whole => exact ⟨hat.1, hat.2.trans h⟩
  | restart moved count => exact ⟨hat.1, hat.2.1, hat.2.2.1, hat.2.2.2.trans h⟩
  | chunk moved count => exact ⟨hat.1, hat.2.1, hat.2.2.1, hat.2.2.2.trans h⟩
  | updateTimestamp => exact hat
  | check => exact hat
  | timeoutTimer => exact hat
  | elapsed moved => exact hat
  | poll moved => exact hat

structure CallerOwn (s : Side) (c : Caller) (σ : Stream (r.cells - 1)) : Prop where
  returned : ∀ d ∈ c.log, d.Kept s
  history : σ.history s = (c.log.map fun d => d.data.take d.moved).flatten ++ c.current
  length_lt : c.original.length < 2 ^ 64
  length_eq : c.data.length = c.original.length
  rest : c.data.drop c.moved = c.original.drop c.moved
  source : s = .producer → c.data = c.original
  moved_le : c.moved ≤ c.original.length
  at_call : CallerAt c.original.length c.moved (σ.room s) c.call

variable {s : Side} {c c' : Caller} {σ σ' : Stream (r.cells - 1)} {t : Transfer}

theorem CallerOwn.toNat_numberOfBytes (h : CallerOwn s c σ) :
    c.numberOfBytes.toNat = c.original.length := by
  rw [Caller.numberOfBytes, BitVec.toNat_ofNat, Nat.mod_eq_of_lt h.length_lt]

theorem Stream.room_lt (σ : Stream (r.cells - 1)) (s : Side) : σ.room s < 2 ^ 64 := by
  have hE := r.cells_lt
  have hq := σ.queue.length_le
  cases s <;> simp only [room, BoundedQueue.free, BoundedQueue.available] <;> omega

theorem CallerOwn.stable : Stable (CallerOwn (r := r) s) (Stream.Keeps s) := by
  intro c σ σ' h k
  exact ⟨h.returned, by rw [k.history]; exact h.history, h.length_lt, h.length_eq, h.rest,
    h.source, h.moved_le, h.at_call.mono k.room⟩

theorem CallerOwn.goto (h : CallerOwn s c σ) (hc : c.call = some t) {t' : Transfer}
    (hat : CallerAt c.original.length c.moved (σ.room s) (some t')) :
    CallerOwn s { c with call := some t' } σ := by
  refine ⟨h.returned, ?_, h.length_lt, h.length_eq, h.rest, h.source, h.moved_le, hat⟩
  have hh := h.history
  simp only [Caller.current, hc, reduceCtorEq, if_false] at hh ⊢
  exact hh

/-- A call returns, having transferred all of it if and only if it says so. -/
theorem CallerOwn.finish (h : CallerOwn s c σ) (hc : c.call = some t) {success : Bool}
    (hs : success = true ↔ c.moved = c.original.length) :
    CallerOwn s (c.resume (.returned success)) σ := by
  refine ⟨?_, ?_, h.length_lt, h.length_eq, h.rest, h.source, h.moved_le, trivial⟩
  · intro d hd
    rcases List.mem_append.1 hd with hd | hd
    · exact h.returned d hd
    · rw [List.mem_singleton] at hd
      subst hd
      exact ⟨h.moved_le, hs, h.length_eq, h.rest, h.source⟩
  · have hh := h.history
    simp only [Caller.current, hc, reduceCtorEq, if_false] at hh
    simp [Caller.resume, Caller.current, hh]

/-- A transfer of bytes there is room for, from where the call has got to. -/
theorem CallerOwn.transfer (h : CallerOwn s c σ) (hc : c.call = some t) {amount : ℕ}
    (hroom : amount ≤ σ.room s) (hle : c.moved + amount ≤ c.original.length) :
    ∃ c' σ', c.transfer c.moved amount σ s = some (c', σ')
      ∧ c'.call = c.call ∧ c'.original = c.original ∧ c'.moved = c.moved + amount
      ∧ Stream.Keeps s.peer σ σ'
      ∧ ∀ t', CallerAt c'.original.length c'.moved (σ'.room s) (some t') →
        CallerOwn s { c' with call := some t' } σ' := by
  have hlen := h.length_eq
  have hh := h.history
  simp only [Caller.current, hc, reduceCtorEq, if_false] at hh
  have htake : c.data.take (c.moved + amount)
      = c.data.take c.moved ++ (c.data.drop c.moved).take amount := List.take_add
  cases s with
  | producer =>
    have hl : ((c.data.drop c.moved).take amount).length = amount := by
      rw [List.length_take, List.length_drop]
      omega
    have hfit : c.moved + amount ≤ c.data.length
        ∧ ((c.data.drop c.moved).take amount).length ≤ σ.queue.free :=
      ⟨by omega, by rw [hl]; exact hroom⟩
    refine ⟨_, _, dif_pos hfit, rfl, rfl, rfl, Stream.push_keeps _, fun t' hat => ?_⟩
    refine ⟨h.returned, ?_, h.length_lt, h.length_eq, ?_, h.source, hle, hat⟩
    · simp only [Caller.current, reduceCtorEq, if_false, Stream.history, Stream.push] at hh ⊢
      rw [hh, htake, List.append_assoc]
    · simp only [h.source rfl]
  | consumer =>
    have hfit : c.moved + amount ≤ c.data.length ∧ amount ≤ σ.queue.available :=
      ⟨by omega, hroom⟩
    have hl : (σ.queue.contents.take amount).length = amount := by
      rw [List.length_take]
      exact Nat.min_eq_left hroom
    have hm : (c.data.take c.moved).length = c.moved := by
      rw [List.length_take]
      omega
    refine ⟨_, _, if_pos hfit, rfl, rfl, rfl, Stream.pop_keeps _, fun t' hat => ?_⟩
    have hpre :
        (c.data.take c.moved ++ σ.queue.contents.take amount).length = c.moved + amount := by
      rw [List.length_append, hl, hm]
    refine ⟨h.returned, ?_, h.length_lt, ?_, ?_, (fun hs => nomatch hs), hle, hat⟩
    · simp only [Caller.current, reduceCtorEq, if_false, Stream.history, Stream.pop] at hh ⊢
      rw [hh, List.take_append_of_le_length hpre.ge, List.take_of_length_le hpre.le,
        List.append_assoc]
    · simp only [List.length_append, List.length_drop, hl, hm]
      omega
    · have hd := congrArg (List.drop amount) h.rest
      rw [List.drop_drop, List.drop_drop] at hd
      simp only
      rw [List.drop_append_of_le_length hpre.ge, List.drop_of_length_le hpre.le, List.nil_append]
      exact hd

theorem CallerOwn.toNat_sub_moved (h : CallerOwn s c σ) {moved : U64} (hm : moved.toNat = c.moved) :
    (c.numberOfBytes - moved).toNat = c.original.length - c.moved := by
  have hn := h.toNat_numberOfBytes
  have hle := h.moved_le
  rw [BitVec.toNat_sub_of_le (by rw [BitVec.le_def]; omega), hn, hm]

/-- A transfer is asked for at where the call has got to, for no more than is left and no more than
there is room for. -/
theorem CallerOwn.transfer_room (h : CallerOwn s c σ) (hc : c.call = some t) {offset amount : U64}
    (ha : t.ask c.numberOfBytes = .transfer offset amount) :
    offset.toNat = c.moved ∧ amount.toNat ≤ σ.room s
      ∧ c.moved + amount.toNat ≤ c.original.length := by
  have hat := h.at_call
  have hn := h.toNat_numberOfBytes
  rw [hc] at hat
  cases t with
  | whole =>
    simp only [Transfer.ask, Ask.transfer.injEq] at ha
    obtain ⟨rfl, rfl⟩ := ha
    obtain ⟨hm, hle⟩ := hat
    refine ⟨hm.symm, by omega, by omega⟩
  | chunk moved count =>
    simp only [Transfer.ask, Ask.transfer.injEq] at ha
    obtain ⟨rfl, rfl⟩ := ha
    obtain ⟨hm, hlt, hpos, hle⟩ := hat
    have hsub := h.toNat_sub_moved hm
    have hmin : (Transfer.amount c.numberOfBytes moved count).toNat ≤ count.toNat
        ∧ (Transfer.amount c.numberOfBytes moved count).toNat ≤ c.original.length - c.moved := by
      unfold Transfer.amount
      split_ifs with hgt
      · rw [gt_iff_lt, BitVec.lt_def, hsub] at hgt
        omega
      · rw [gt_iff_lt, BitVec.lt_def, hsub] at hgt
        omega
    exact ⟨hm, by omega, by omega⟩
  | updateTimestamp => cases ha
  | check => cases ha
  | timeoutTimer => cases ha
  | elapsed moved => cases ha
  | poll moved => cases ha
  | restart moved count => cases ha

/-- Every step of a call can be taken, whatever the timer says, and keeps what the entity knows. -/
theorem CallerOwn.step (h : CallerOwn s c σ) (hc : c.call = some t) (below : Bool) :
    ∃ c' σ', c.step s t below σ = some (c', σ') ∧ CallerOwn s c' σ'
      ∧ Stream.Keeps s.peer σ σ' := by
  have hat := h.at_call
  have hn := h.toNat_numberOfBytes
  have hroom : (BitVec.ofNat 64 (σ.room s)).toNat = σ.room s := by
    rw [BitVec.toNat_ofNat, Nat.mod_eq_of_lt (σ.room_lt s)]
  rw [hc] at hat
  cases t with
  | updateTimestamp => exact ⟨_, σ, rfl, h.goto hc hat, Stream.keeps_refl⟩
  | check =>
    refine ⟨_, σ, rfl, h.goto hc ?_, Stream.keeps_refl⟩
    split_ifs with hlt
    · exact hat
    · rw [BitVec.lt_def, hroom, hn] at hlt
      exact ⟨hat, by omega⟩
  | whole =>
    obtain ⟨-, hr, hle⟩ := h.transfer_room hc rfl
    obtain ⟨c', σ', htr, hcall, horig, hmoved, hkeep, hown⟩ := h.transfer hc hr hle
    have hm : c'.moved = c'.original.length := by
      rw [hmoved, horig, hat.1, hn, Nat.zero_add]
    have hoff : (0 : U64).toNat = c.moved := hat.1.symm
    refine ⟨c'.resume (.returned true), σ', ?_, ?_, hkeep⟩
    · simp only [Caller.step, Transfer.ask, hoff, htr, Option.map_some, Transfer.next]
    · have hown' := hown (.elapsed (BitVec.ofNat 64 c'.moved)) (by
        simp only [CallerAt, BitVec.toNat_ofNat]
        refine Nat.mod_eq_of_lt ?_
        rw [hm, horig]
        exact h.length_lt)
      exact hown'.finish rfl (by simpa using hm)
  | timeoutTimer => exact ⟨_, σ, rfl, h.goto hc hat.symm, Stream.keeps_refl⟩
  | elapsed moved =>
    have hiff : moved = c.numberOfBytes ↔ c.moved = c.original.length := by
      rw [← BitVec.toNat_inj, hn, hat]
    by_cases hcond : below ∧ moved ≠ c.numberOfBytes
    · refine ⟨_, σ, rfl, ?_, Stream.keeps_refl⟩
      have hlt : c.moved < c.original.length :=
        lt_of_le_of_ne h.moved_le fun he => hcond.2 (hiff.2 he)
      simp only [Transfer.next, if_pos hcond]
      exact h.goto hc ⟨hat, hlt⟩
    · refine ⟨_, σ, rfl, ?_, Stream.keeps_refl⟩
      simp only [Transfer.next, if_neg hcond]
      exact h.finish hc (by simpa using hiff)
  | poll moved =>
    refine ⟨_, σ, rfl, h.goto hc ?_, Stream.keeps_refl⟩
    split_ifs with hpos
    · rw [BitVec.lt_def, hroom] at hpos
      exact ⟨hat.1, hat.2, by rwa [hroom], hroom.le⟩
    · exact hat.1
  | restart moved count => exact ⟨_, σ, rfl, h.goto hc hat, Stream.keeps_refl⟩
  | chunk moved count =>
    obtain ⟨hoff, hr, hle⟩ := h.transfer_room hc rfl
    obtain ⟨c', σ', htr, hcall, horig, hmoved, hkeep, hown⟩ := h.transfer hc hr hle
    refine ⟨_, σ', ?_, hown (.elapsed (if count > c.numberOfBytes - moved then c.numberOfBytes
      else moved + count)) ?_, hkeep⟩
    · simp only [Caller.step, Transfer.ask, hoff, htr, Option.map_some, Transfer.next]
      rfl
    · have hsub := h.toNat_sub_moved hat.1
      simp only [CallerAt, hmoved]
      unfold Transfer.amount at hle ⊢
      split_ifs at hle ⊢ with hgt
      · rw [hsub, hn]
        omega
      · rw [BitVec.toNat_add, hat.1, Nat.mod_eq_of_lt (by have := h.length_lt; omega)]

theorem CallerOwn.begin (h : CallerOwn s c σ) (hc : c.call = none) {data : List U8}
    (hlt : data.length < 2 ^ 64) : CallerOwn s (c.begin data) σ := by
  have hh := h.history
  simp only [Caller.current, hc, if_true] at hh
  exact ⟨h.returned, by simpa [Caller.current, Caller.begin] using hh, hlt, rfl, rfl, fun _ => rfl,
    Nat.zero_le _, rfl⟩

theorem callerStep_guarantees (l : List U8) (s : Side) :
    Guarantees (CallerStep (r.cells - 1) s) (fun c σ => CallerOwn s c σ ∧ σ.Conserves l)
      (fun σ σ' => Stream.Keeps s.peer σ σ' ∧ σ'.Conserves l) := by
  rintro c σ c' σ' ⟨h, hl⟩ hstep
  cases hstep with
  | begin hc hlt => exact ⟨⟨h.begin hc hlt, hl⟩, Stream.keeps_refl, hl⟩
  | step below hc hs =>
    obtain ⟨c'', σ'', hs', hown, hkeep⟩ := h.step hc below
    obtain ⟨rfl, rfl⟩ := Prod.mk.inj (Option.some_inj.1 (hs'.symm.trans hs))
    exact ⟨⟨hown, hkeep.conserves l hl⟩, hkeep, hkeep.conserves l hl⟩

theorem otherStep_guarantees (l : List U8) (s : Side) :
    Guarantees (OtherStep (r.cells - 1) s) (fun _ σ => σ.Conserves l)
      (fun σ σ' => Stream.Keeps s.peer σ σ' ∧ σ'.Conserves l) := by
  rintro c σ c' σ' hl hstep
  cases hstep with
  | fill h =>
    have hk := Stream.push_keeps h
    exact ⟨hk.conserves l hl, hk, hk.conserves l hl⟩
  | @drain _ n _ =>
    have hk : Stream.Keeps .producer σ (σ.pop n) := Stream.pop_keeps n
    exact ⟨hk.conserves l hl, hk, hk.conserves l hl⟩

theorem CallerOwn.stable_conserves (l : List U8) :
    Stable (fun c (σ : Stream (r.cells - 1)) => CallerOwn s c σ ∧ σ.Conserves l)
      (fun σ σ' => Stream.Keeps s σ σ' ∧ σ'.Conserves l) :=
  fun c σ σ' h k => ⟨CallerOwn.stable c σ σ' h.1 k.1, k.2⟩

theorem CallerOwn.kept (h : CallerOwn s c σ) : CallsKept (r.cells - 1) s c σ := by
  refine ⟨h.returned, h.history, fun t ht offset amount ha => (h.transfer_room ht ha).2.1,
    fun t ht below => ?_⟩
  obtain ⟨c', σ', hs, -⟩ := h.step ht below
  rw [hs]
  rfl

theorem callerOwn_start (s : Side) (q : BoundedQueue U8 (r.cells - 1)) :
    CallerOwn s {} (⟨q, [], []⟩ : Stream (r.cells - 1)) :=
  ⟨fun _ hd => absurd hd List.not_mem_nil, by cases s <;> rfl, by simp, rfl, rfl, fun _ => rfl,
    le_rfl, trivial⟩

end Calls

/-- From a queue with any contents: an entity that writes keeps its contract whatever drains the
queue, one that reads whatever fills it, and where one writes and one reads, what has come out and
what is still in the queue are what was in it and what has gone in, in order. -/
theorem entity_stream_contract (r : Ring) (q : BoundedQueue U8 (r.cells - 1)) :
    (∀ x : State Caller Unit (Stream (r.cells - 1)),
      Reach (CallerStep _ .producer) (OtherStep _ .consumer) ⟨{}, (), ⟨q, [], []⟩⟩ x →
        CallsKept _ .producer x.left x.shared
          ∧ q.contents ++ x.shared.accepted = x.shared.delivered ++ x.shared.queue.contents)
      ∧ (∀ x : State Unit Caller (Stream (r.cells - 1)),
        Reach (OtherStep _ .producer) (CallerStep _ .consumer) ⟨(), {}, ⟨q, [], []⟩⟩ x →
          CallsKept _ .consumer x.right x.shared
            ∧ q.contents ++ x.shared.accepted = x.shared.delivered ++ x.shared.queue.contents)
      ∧ ∀ x : State Caller Caller (Stream (r.cells - 1)),
        Reach (CallerStep _ .producer) (CallerStep _ .consumer) ⟨{}, {}, ⟨q, [], []⟩⟩ x →
          CallsKept _ .producer x.left x.shared ∧ CallsKept _ .consumer x.right x.shared
            ∧ q.contents ++ x.shared.accepted = x.shared.delivered ++ x.shared.queue.contents := by
  have hq : (⟨q, [], []⟩ : Stream (r.cells - 1)).Conserves q.contents := by
    simp [Stream.Conserves]
  refine ⟨fun x hx => ?_, fun x hx => ?_, fun x hx => ?_⟩
  · obtain ⟨⟨hown, hl⟩, -⟩ := Reach.of_rely (callerStep_guarantees q.contents .producer)
      (otherStep_guarantees q.contents .consumer) (CallerOwn.stable_conserves _)
      (fun _ _ _ _ k => k.2) hx ⟨⟨callerOwn_start .producer q, hq⟩, hq⟩
    exact ⟨hown.kept, hl⟩
  · obtain ⟨-, hown, hl⟩ := Reach.of_rely (otherStep_guarantees q.contents .producer)
      (callerStep_guarantees q.contents .consumer) (fun _ _ _ _ k => k.2)
      (CallerOwn.stable_conserves _) hx ⟨hq, callerOwn_start .consumer q, hq⟩
    exact ⟨hown.kept, hl⟩
  · obtain ⟨⟨hp, hl⟩, hc, -⟩ := Reach.of_rely (callerStep_guarantees q.contents .producer)
      (callerStep_guarantees q.contents .consumer) (CallerOwn.stable_conserves _)
      (CallerOwn.stable_conserves _) hx
      ⟨⟨callerOwn_start .producer q, hq⟩, callerOwn_start .consumer q, hq⟩
    exact ⟨hp.kept, hc.kept, hl⟩

theorem Caller.choose_sound {capacity : ℕ} {s : Side} (ch : List U8 ⊕ Bool)
    (x y : Caller × Stream capacity) (h : Caller.choose capacity s ch x = some y) :
    CallerStep capacity s x y := by
  obtain ⟨c, σ⟩ := x
  rcases ch with data | below
  · simp only [Caller.choose, Option.ite_none_right_eq_some, Option.some.injEq] at h
    obtain ⟨⟨hc, hlt⟩, rfl⟩ := h
    exact .begin hc hlt
  · obtain ⟨t, hc, hs⟩ := Option.bind_eq_some_iff.1 h
    exact .step below hc hs

/-- Two bytes written at once, then three asked for: the reader takes the two and gives up. -/
def smallCalls : List ((List U8 ⊕ Bool) ⊕ (List U8 ⊕ Bool)) :=
  .inl (.inl [7, 9]) :: List.replicate 3 (.inl (.inr true))
    ++ .inr (.inl [0, 0, 0]) :: List.replicate 7 (.inr (.inr true)) ++ [.inr (.inr false)]

theorem small_calls : ((⟨{}, {}, ⟨.empty, [], []⟩⟩ :
      State Caller Caller (Stream (smallRing.cells - 1))).play
        (Caller.choose _ .producer) (Caller.choose _ .consumer) smallCalls).map
      (fun x => x.right.log) = some [⟨[0, 0, 0], [7, 9, 0], 2, false⟩] := by
  decide +kernel

theorem entity_stream_contract_small :
    ∃ x : State Caller Caller (Stream (smallRing.cells - 1)),
      x.right.log = [⟨[0, 0, 0], [7, 9, 0], 2, false⟩]
        ∧ CallsKept _ .producer x.left x.shared ∧ CallsKept _ .consumer x.right x.shared := by
  obtain ⟨x, hx, hlog⟩ := Option.map_eq_some_iff.1 small_calls
  obtain ⟨hp, hc, -⟩ := (entity_stream_contract smallRing .empty).2.2 x
    (State.play_reach Caller.choose_sound Caller.choose_sound hx)
  exact ⟨x, hlog, hp, hc⟩

end MemMapIPC
