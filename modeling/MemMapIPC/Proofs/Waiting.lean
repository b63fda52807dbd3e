import MemMapIPC.Library.Halting
import MemMapIPC.Waiting

/-!
# Waiting makes progress and ends

A call never counts more bytes than it was asked for (`Transfer.Within`), an iteration that finds
bytes moves some, and one that finds none leaves the timer one test closer to its limit; so the
iterations are bounded by the bytes and the tests together (`Loop.Spent`). What a call that gives up
says of the other side depends on how long its last copy took (`gave_up_idle_iff`).
-/

namespace MemMapIPC

open Halting Relation

variable {n : U64}

section Within

/-- What a call for `n` bytes knows of its count where it is. -/
def Transfer.Within (n : U64) : Transfer → Prop
  | updateTimestamp | check | whole | timeoutTimer => True
  | elapsed moved => moved ≤ n
  | poll moved => moved < n
  | restart moved count | chunk moved count => moved < n ∧ 0 < count

variable {t t' : Transfer} {count : U64} {below : Bool}

theorem Transfer.Within.moved_le (h : t.Within n) : t.moved ≤ n := by
  cases t with
  | elapsed moved => exact h
  | poll moved => exact BitVec.le_of_lt h
  | restart moved count => exact BitVec.le_of_lt h.1
  | chunk moved count => exact BitVec.le_of_lt h.1
  | _ => exact BitVec.le_def.2 (Nat.zero_le _)

theorem Transfer.Within.next (h : t.Within n) (ht : t.next n count below = .more t') :
    t'.Within n := by
  cases t with
  | elapsed moved =>
    simp only [Transfer.next] at ht
    split_ifs at ht with hc
    cases ht
    exact BitVec.lt_of_le_ne h hc.2
  | poll moved =>
    cases ht
    split_ifs with hc
    · exact ⟨h, hc⟩
    · exact BitVec.le_of_lt h
  | chunk moved available =>
    cases ht
    exact (moved_chunk h.1 h.2).2
  | restart moved available =>
    cases ht
    exact h
  | check =>
    cases ht
    split_ifs <;> trivial
  | timeoutTimer =>
    cases ht
    exact BitVec.le_def.2 (Nat.zero_le _)
  | updateTimestamp =>
    cases ht
    trivial
  | whole => cases ht

end Within

section Loop

variable {K : ℕ} {counts : ℕ → U64} {oracle : ℕ → ℕ → Bool} {l l' : Loop}

/-- The iterations begun are paid for by the bytes moved, `K + 1` for each, and by the tests the
timer has passed since its last start. -/
def Loop.Spent (n : U64) (K : ℕ) (oracle : ℕ → ℕ → Bool) (l : Loop) : Progress → Prop
  | .returned _ => l.iterations ≤ (n.toNat + 1) * (K + 1)
  | .more (.elapsed moved) | .more (.poll moved) =>
    l.iterations ≤ moved.toNat * (K + 1) + l.tests ∧ ∀ j < l.tests, oracle l.starts j = true
  | .more (.restart moved _) => l.iterations ≤ (moved.toNat + 1) * (K + 1)
  | .more (.chunk moved _) => l.iterations ≤ (moved.toNat + 1) * (K + 1) ∧ l.tests = 0
  | .more _ => l.iterations = 0

structure Loop.Inv (n : U64) (K : ℕ) (oracle : ℕ → ℕ → Bool) (l : Loop) : Prop where
  within : ∀ t, l.progress = .more t → t.Within n
  spent : l.Spent n K oracle l.progress

/-- The steps left in an iteration once it has begun, or until the first one. -/
def Loop.stepsLeft : Progress → ℕ
  | .returned _ => 0
  | .more .updateTimestamp => 8
  | .more .check => 7
  | .more .timeoutTimer => 6
  | .more (.poll _) => 5
  | .more (.restart _ _) => 4
  | .more (.chunk _ _) => 3
  | .more (.elapsed _) => 2
  | .more .whole => 1

/-- A bound on the steps left, five for each iteration there can still be. -/
def Loop.left (n : U64) (K : ℕ) (l : Loop) : ℕ :=
  5 * ((n.toNat + 1) * (K + 1) - l.iterations) + stepsLeft l.progress

theorem tests_le (hK : ∀ i, ∃ j ≤ K, oracle i j = false) {i tests : ℕ}
    (h : ∀ j < tests, oracle i j = true) : tests ≤ K := by
  obtain ⟨j, hj, hf⟩ := hK i
  by_contra hlt
  rw [h j (by omega)] at hf
  cases hf

theorem Loop.Inv.iterations_le (hK : ∀ i, ∃ j ≤ K, oracle i j = false) (h : l.Inv n K oracle) :
    l.iterations ≤ (n.toNat + 1) * (K + 1) := by
  have hle : ∀ m : ℕ, m ≤ n.toNat → (m + 1) * (K + 1) ≤ (n.toNat + 1) * (K + 1) := fun m hm =>
    Nat.mul_le_mul_right _ (by omega)
  have hs := h.spent
  rcases hp : l.progress with t | b
  · have hw := BitVec.le_def.1 (h.within t hp).moved_le
    rw [hp] at hs
    have hloop : ∀ moved : U64, moved.toNat ≤ n.toNat →
        (l.iterations ≤ moved.toNat * (K + 1) + l.tests ∧ ∀ j < l.tests, oracle l.starts j = true) →
        l.iterations ≤ (n.toNat + 1) * (K + 1) := by
      intro moved hm hs
      have htests := tests_le hK hs.2
      have := hle _ hm
      rw [Nat.add_mul] at this
      omega
    cases t with
    | elapsed moved => exact hloop moved hw hs
    | poll moved => exact hloop moved hw hs
    | restart moved count => exact hs.trans (hle _ hw)
    | chunk moved count => exact hs.1.trans (hle _ hw)
    | _ =>
      have h0 : l.iterations = 0 := hs
      omega
  · rw [hp] at hs
    exact hs

theorem Loop.progress_step {t : Transfer} (ht : l.progress = .more t)
    (h : l.step n counts oracle = some l') :
    l'.progress = t.next n (counts l.queries) (oracle l.starts l.tests) := by
  simp only [Loop.step, ht] at h
  split at h <;> cases h <;> rfl

theorem Loop.Inv.of_step {t : Transfer} (h : l.Inv n K oracle) (ht : l.progress = .more t)
    (hl : l.step n counts oracle = some l') (hs : l'.Spent n K oracle l'.progress) :
    l'.Inv n K oracle := by
  refine ⟨fun t' ht' => ?_, hs⟩
  rw [progress_step ht hl] at ht'
  exact (h.within t ht).next ht'

/-- Each step of a call that has not returned keeps what the iterations are paid for by, and brings
the end nearer. -/
theorem Loop.Inv.step (hK : ∀ i, ∃ j ≤ K, oracle i j = false) (h : l.Inv n K oracle)
    (hl : ¬∃ b, l.progress = .returned b) :
    ∃ l', l.step n counts oracle = some l' ∧ l'.Inv n K oracle ∧ l'.left n K < l.left n K := by
  obtain ⟨t, ht⟩ : ∃ t, l.progress = .more t := by
    rcases hp : l.progress with t | b
    · exact ⟨t, rfl⟩
    · exact absurd ⟨b, hp⟩ hl
  have hw := h.within t ht
  have hs := h.spent
  have hle := h.iterations_le hK
  have hleft : l.left n K
      = 5 * ((n.toNat + 1) * (K + 1) - l.iterations) + stepsLeft (.more t) := by
    rw [left, ht]
  rw [ht] at hs
  rw [hleft]
  cases t with
  | updateTimestamp =>
    have hstep : l.step n counts oracle = some { l with progress := .more .check } := by
      simp only [Loop.step, ht]
      rfl
    refine ⟨_, hstep, h.of_step ht hstep hs, ?_⟩
    simp only [left, stepsLeft]
    omega
  | check =>
    have hstep : l.step n counts oracle = some { l with
        progress := .more (if counts l.queries < n then .timeoutTimer else .whole)
        queries := l.queries + 1 } := by
      simp only [Loop.step, ht]
      rfl
    refine ⟨_, hstep, h.of_step ht hstep ?_, ?_⟩
    · split_ifs <;> exact hs
    · simp only [left]
      split_ifs <;> simp only [stepsLeft] <;> omega
  | whole =>
    have hstep : l.step n counts oracle = some { l with progress := .returned true } := by
      simp only [Loop.step, ht]
      rfl
    refine ⟨_, hstep, h.of_step ht hstep hle, ?_⟩
    simp only [left, stepsLeft]
    omega
  | timeoutTimer =>
    have hstep : l.step n counts oracle = some { l with
        progress := .more (.elapsed 0), starts := l.starts + 1, tests := 0 } := by
      simp only [Loop.step, ht]
      rfl
    refine ⟨_, hstep, h.of_step ht hstep ⟨?_, fun j hj => absurd hj (Nat.not_lt_zero j)⟩, ?_⟩
    · have h0 : l.iterations = 0 := hs
      simp [h0]
    · simp only [left, stepsLeft]
      omega
  | elapsed moved =>
    by_cases hc : oracle l.starts l.tests ∧ moved ≠ n
    · have hstep : l.step n counts oracle = some { l with
          progress := .more (.poll moved)
          tests := l.tests + 1
          iterations := l.iterations + 1 } := by
        simp only [Loop.step, ht, Transfer.next, if_pos hc]
        rfl
      have hinv : Loop.Inv n K oracle { l with
          progress := .more (.poll moved)
          tests := l.tests + 1
          iterations := l.iterations + 1 } := by
        refine h.of_step ht hstep ⟨?_, fun j hj => ?_⟩
        · have := hs.1
          simp only
          omega
        · rcases Nat.lt_succ_iff_lt_or_eq.1 hj with hj | rfl
          · exact hs.2 j hj
          · exact hc.1
      refine ⟨_, hstep, hinv, ?_⟩
      have := hinv.iterations_le hK
      simp only [left, stepsLeft] at this ⊢
      omega
    · have hstep : l.step n counts oracle = some { l with progress := .returned (moved = n) } := by
        simp only [Loop.step, ht, Transfer.next, if_neg hc]
        rfl
      refine ⟨_, hstep, h.of_step ht hstep hle, ?_⟩
      simp only [left, stepsLeft]
      omega
  | poll moved =>
    have hstep : l.step n counts oracle = some { l with
        progress := .more (if 0 < counts l.queries then .restart moved (counts l.queries)
          else .elapsed moved)
        queries := l.queries + 1 } := by
      simp only [Loop.step, ht]
      rfl
    refine ⟨_, hstep, h.of_step ht hstep ?_, ?_⟩
    · split_ifs
      · have htests := tests_le hK hs.2
        have := hs.1
        simp only [Spent, Nat.add_mul]
        omega
      · exact hs
    · simp only [left]
      split_ifs <;> simp only [stepsLeft] <;> omega
  | restart moved count =>
    have hstep : l.step n counts oracle = some { l with
        progress := .more (.chunk moved count), starts := l.starts + 1, tests := 0 } := by
      simp only [Loop.step, ht]
      rfl
    refine ⟨_, hstep, h.of_step ht hstep ⟨hs, rfl⟩, ?_⟩
    simp only [left, stepsLeft]
    omega
  | chunk moved count =>
    have hstep : l.step n counts oracle = some { l with
        progress := .more (.elapsed (if count > n - moved then n else moved + count)) } := by
      simp only [Loop.step, ht]
      rfl
    have hmore := BitVec.lt_def.1 (moved_chunk hw.1 hw.2).1
    refine ⟨_, hstep, h.of_step ht hstep ⟨?_, fun j hj => ?_⟩, ?_⟩
    · have hpay := Nat.mul_le_mul_right (K + 1) hmore
      have := hs.1
      simp only [Nat.succ_eq_add_one] at hpay ⊢
      omega
    · rw [show l.tests = 0 from hs.2] at hj
      exact absurd hj (Nat.not_lt_zero j)
    · simp only [left, stepsLeft]
      omega

theorem Loop.inv_run (hK : ∀ i, ∃ j ≤ K, oracle i j = false)
    (h : Loop.Run n counts oracle {} l) : l.Inv n K oracle := by
  induction h with
  | refl => exact ⟨fun t ht => by cases ht; trivial, rfl⟩
  | @tail x y _ hs ih =>
    have hx : ¬∃ b, x.progress = .returned b := by
      rintro ⟨b, hb⟩
      simp [Loop.step, hb] at hs
    obtain ⟨z, hz, hinv, -⟩ := ih.step hK hx
    rw [hs] at hz
    cases hz
    exact hinv

/-- An iteration that finds bytes goes straight to the next test of the loop's condition, with more
bytes moved. -/
theorem Loop.run_poll (h : l.Inv n K oracle) {moved : U64} (hp : l.progress = .more (.poll moved))
    (hc : 0 < counts l.queries) :
    ∃ l' moved', Loop.Run n counts oracle l l' ∧ l'.progress = .more (.elapsed moved')
      ∧ l'.iterations = l.iterations ∧ moved < moved' := by
  have hw : moved < n := h.within _ hp
  have hpoll : l.step n counts oracle = some { l with
      progress := .more (.restart moved (counts l.queries)), queries := l.queries + 1 } := by
    simp only [Loop.step, hp, Transfer.next, if_pos hc]
    rfl
  refine ⟨{ l with
      progress := .more (.elapsed (if counts l.queries > n - moved then n
        else moved + counts l.queries))
      queries := l.queries + 1
      starts := l.starts + 1
      tests := 0 }, _, ?_, rfl, rfl, (moved_chunk hw hc).1⟩
  exact .tail (.tail (.tail .refl hpoll) rfl) rfl

/-- Whatever the ring counts, with a timer that passes no more than `K` tests after each start: the
bytes moved never exceed those asked for, so what is left of them never wraps, an iteration that
finds bytes moves some, and the call returns after at most `(n + 1) * (K + 1)` iterations. -/
theorem waiting_loop_ends (n : U64) (K : ℕ) (counts : ℕ → U64) (oracle : ℕ → ℕ → Bool)
    (hK : ∀ i, ∃ j ≤ K, oracle i j = false) :
    (∀ l, Loop.Run n counts oracle {} l →
      l.iterations ≤ (n.toNat + 1) * (K + 1)
        ∧ (∀ t, l.progress = .more t →
          t.moved ≤ n ∧ (n - t.moved).toNat = n.toNat - t.moved.toNat)
        ∧ ∀ moved, l.progress = .more (.poll moved) → 0 < counts l.queries →
          ∃ l' moved', Loop.Run n counts oracle l l' ∧ l'.progress = .more (.elapsed moved')
            ∧ l'.iterations = l.iterations ∧ moved < moved')
      ∧ Halts (Loop.step n counts oracle) (fun l => ∃ b, l.progress = .returned b) {} := by
  have hstart : Loop.Run n counts oracle {} {} := .refl
  refine ⟨fun l hl => ?_, ?_⟩
  · have h := Loop.inv_run hK hl
    refine ⟨h.iterations_le hK, fun t ht => ?_, fun moved hp hc => Loop.run_poll h hp hc⟩
    have hle := (h.within t ht).moved_le
    exact ⟨hle, BitVec.toNat_sub_of_le hle⟩
  · exact Halts.of_measure (Loop.left n K) (fun l hl hd => hl.step hK hd)
      (Loop.inv_run hK hstart)

/-- Two bytes come and, after a count that finds none, five more. -/
def twoArrivals : ℕ → U64
  | 1 => 2
  | 3 => 5
  | _ => 0

/-- A timer that passes two tests after each start. -/
def twoTests (_ j : ℕ) : Bool := decide (j < 2)

/-- To where the call for three bytes counts for the second arrival. -/
theorem secondArrival_run : Loop.Run 3 twoArrivals twoTests {} {
    progress := .more (.poll 2)
    queries := 3
    iterations := 3
    starts := 2
    tests := 2 } :=
  .head rfl (.head rfl (.head rfl (.head rfl (.head rfl (.head rfl (.head rfl (.head rfl
    (.head rfl (.single rfl)))))))))

theorem waiting_loop_ends_arrivals : (∀ i, ∃ j ≤ 2, twoTests i j = false)
    ∧ (∃ l l' : Loop, ∃ moved' : U64, Loop.Run 3 twoArrivals twoTests {} l
      ∧ l.progress = .more (.poll 2) ∧ l.iterations ≤ (3 + 1) * (2 + 1)
      ∧ Loop.Run 3 twoArrivals twoTests l l' ∧ l'.progress = .more (.elapsed moved')
      ∧ l'.iterations = l.iterations ∧ 2 < moved')
    ∧ Halts (Loop.step 3 twoArrivals twoTests) (fun l => ∃ b, l.progress = .returned b) {} := by
  have hK : ∀ i, ∃ j ≤ 2, twoTests i j = false := fun _ => ⟨2, le_rfl, rfl⟩
  obtain ⟨hrun, hhalts⟩ := waiting_loop_ends 3 2 twoArrivals twoTests hK
  obtain ⟨hle, -, hprogress⟩ := hrun _ secondArrival_run
  obtain ⟨l', moved', hl', hmoved'⟩ := hprogress 2 rfl (by decide)
  exact ⟨hK, ⟨_, l', moved', secondArrival_run, rfl, hle, hl', hmoved'⟩, hhalts⟩

end Loop

section Timed

variable {T : Type*} [AddCommGroup T] [LinearOrder T] [IsOrderedAddMonoid T] {L : T}
  {durations : Set T} {x y : Timed T}

/-- Where in a call for `n` bytes the timer was started when the call last moved something, if a
chunk copied takes no time, the limit is zero or one chunk is all there can be. -/
def Timed.Prompt (n : U64) (L : T) (x : Timed T) : Transfer → Prop
  | .elapsed moved => L = 0 ∨ moved = n ∨ x.startTime = x.since
  | .poll _ => L = 0 ∨ x.startTime = x.since
  | _ => True

/-- Where in a call the counts since the last chunk were all zero. -/
def Timed.Quiet (x : Timed T) : Transfer → Prop
  | .elapsed _ | .poll _ => ∀ count ∈ x.seen, count = 0
  | _ => True

structure Timed.Inv (n : U64) (L : T) (x : Timed T) : Prop where
  since_le : x.since ≤ x.now
  start_le : x.startTime ≤ x.now
  within : ∀ t, x.progress = .more t → t.Within n
  prompt : ∀ t, x.progress = .more t → x.Prompt n L t
  quiet : ∀ t, x.progress = .more t → x.Quiet t
  gave_up : x.progress = .returned false → x.Idle L

omit [IsOrderedAddMonoid T] in
theorem Timed.progress_after (t : Transfer) (count : U64) :
    (x.after n L t count).progress = t.next n count (x.now - x.startTime < L) := by
  cases t <;> rfl

/-- After a chunk for which one of the durations was allowed, none of them more than nothing unless
the limit is nothing or there is but one byte. -/
theorem Timed.Inv.prompt_chunk (hn : (∀ d ∈ durations, 0 ≤ d → d = 0) ∨ L = 0 ∨ n ≤ 1)
    (h : x.Inv n L) {moved count : U64} (hmoved : moved < n) (hcount : 0 < count)
    (hd : x.now - x.startTime ∈ durations) :
    L = 0 ∨ (if count > n - moved then n else moved + count) = n ∨ x.startTime = x.now := by
  rcases hn with hn | hn | hn
  · have hzero := hn _ hd (sub_nonneg.2 h.start_le)
    exact .inr (.inr (sub_eq_zero.1 hzero).symm)
  · exact .inl hn
  · obtain ⟨hlt, hle⟩ := moved_chunk hmoved hcount
    refine .inr (.inl (BitVec.le_antisymm hle ?_))
    rw [BitVec.lt_def] at hlt
    rw [BitVec.le_def] at hn ⊢
    have h1 : (1 : U64).toNat = 1 := rfl
    omega

theorem Timed.Inv.call (hn : (∀ d ∈ durations, 0 ≤ d → d = 0) ∨ L = 0 ∨ n ≤ 1)
    (h : x.Inv n L) {t : Transfer} (count : U64) (ht : x.progress = .more t)
    (hd : ∀ moved available, t = .chunk moved available → x.now - x.startTime ∈ durations) :
    (x.after n L t count).Inv n L := by
  have hw := h.within t ht
  have hp := h.prompt t ht
  have hq := h.quiet t ht
  have hnext : ∀ t', (x.after n L t count).progress = .more t' → t'.Within n := by
    intro t' ht'
    rw [progress_after] at ht'
    exact hw.next ht'
  cases t with
  | updateTimestamp =>
    refine ⟨h.since_le, h.start_le, hnext, fun t' ht' => ?_, fun t' ht' => ?_, fun hf => nomatch hf⟩
    · cases ht'
      trivial
    · cases ht'
      trivial
  | check =>
    refine ⟨h.since_le, h.start_le, hnext, fun t' ht' => ?_, fun t' ht' => ?_, fun hf => nomatch hf⟩
    · cases ht'
      split_ifs <;> trivial
    · cases ht'
      split_ifs <;> trivial
  | whole =>
    exact ⟨le_rfl, h.start_le, hnext, (fun _ ht' => nomatch ht'), (fun _ ht' => nomatch ht'),
      fun hf => nomatch hf⟩
  | timeoutTimer =>
    refine ⟨le_rfl, le_rfl, hnext, fun t' ht' => ?_, fun t' ht' => ?_, fun hf => nomatch hf⟩
    · cases ht'
      exact .inr (.inr rfl)
    · cases ht'
      exact fun _ hc => absurd hc List.not_mem_nil
  | elapsed moved =>
    by_cases hc : (x.now - x.startTime < L) ∧ moved ≠ n
    · have hprog : (x.after n L (.elapsed moved) count).progress = .more (.poll moved) := by
        rw [progress_after, Transfer.next, if_pos (by simpa using hc)]
      refine ⟨h.since_le, h.start_le, hnext, fun t' ht' => ?_, fun t' ht' => ?_, fun hf => ?_⟩
      · cases hprog.symm.trans ht'
        exact hp.imp_right fun hp => hp.resolve_left hc.2
      · cases hprog.symm.trans ht'
        exact hq
      · cases hprog.symm.trans hf
    · have hprog : (x.after n L (.elapsed moved) count).progress = .returned (moved = n) := by
        rw [progress_after, Transfer.next, if_neg (by simpa using hc)]
      refine ⟨h.since_le, h.start_le, hnext, fun t' ht' => ?_, fun t' ht' => ?_, fun hf => ?_⟩
      · cases hprog.symm.trans ht'
      · cases hprog.symm.trans ht'
      · have hne : moved ≠ n := by
          simpa using Progress.returned.inj (hprog.symm.trans hf)
        have hlimit : L ≤ x.now - x.startTime := not_lt.1 fun hlt => hc ⟨hlt, hne⟩
        refine ⟨?_, hq⟩
        rcases hp with h0 | h0 | h0
        · rw [h0]
          exact sub_nonneg.2 h.since_le
        · exact absurd h0 hne
        · rw [h0] at hlimit
          exact hlimit
  | poll moved =>
    refine ⟨h.since_le, h.start_le, hnext, fun t' ht' => ?_, fun t' ht' => ?_, fun hf => nomatch hf⟩
    · cases ht'
      split_ifs
      · trivial
      · exact hp.imp_right .inr
    · cases ht'
      split_ifs with hpos
      · trivial
      · intro c hc
        rcases List.mem_append.1 hc with hc | hc
        · exact hq c hc
        · rw [List.mem_singleton.1 hc]
          rw [BitVec.lt_def] at hpos
          exact BitVec.eq_of_toNat_eq (Nat.eq_zero_of_not_pos hpos)
  | restart moved available =>
    refine ⟨h.since_le, le_rfl, hnext, fun t' ht' => ?_, fun t' ht' => ?_, fun hf => nomatch hf⟩
    · cases ht'
      trivial
    · cases ht'
      trivial
  | chunk moved available =>
    refine ⟨le_rfl, h.start_le, hnext, fun t' ht' => ?_, fun t' ht' => ?_, fun hf => nomatch hf⟩
    · cases ht'
      exact h.prompt_chunk hn hw.1 hw.2 (hd _ _ rfl)
    · cases ht'
      exact fun _ hc => absurd hc List.not_mem_nil

theorem Timed.Inv.tick (h : x.Inv n L) {now : T} (hle : x.now ≤ now) :
    Timed.Inv n L { x with now } :=
  ⟨h.since_le.trans hle, h.start_le.trans hle, h.within, h.prompt, h.quiet, fun hf =>
    ⟨(h.gave_up hf).1.trans (sub_le_sub_right hle _), (h.gave_up hf).2⟩⟩

theorem Timed.inv_run (hn : (∀ d ∈ durations, 0 ≤ d → d = 0) ∨ L = 0 ∨ n ≤ 1) {now : T}
    (h : Timed.Run n L durations (.begin now) x) : x.Inv n L := by
  induction h with
  | refl =>
    exact ⟨le_rfl, le_rfl, (fun t ht => by cases ht; trivial), (fun t ht => by cases ht; trivial),
      (fun t ht => by cases ht; trivial), fun hf => nomatch hf⟩
  | tail _ hs ih =>
    cases hs with
    | tick hle => exact ih.tick hle
    | call count ht hd => exact ih.call hn count ht hd

omit [IsOrderedAddMonoid T] in
theorem Timed.Run.call {x y z : Timed T} {t : Transfer} (h : Timed.Run n L durations x y)
    (ht : y.progress = .more t)
    (hd : ∀ moved available, t = .chunk moved available → y.now - y.startTime ∈ durations)
    (count : U64) (hz : y.after n L t count = z) : Timed.Run n L durations x z := by
  subst hz
  exact .tail h (.call count ht hd)

/-- The other side takes one byte out, and the copy of the first chunk takes the time `d`: the timer
has been running for as long, and the call gives up that much too early. -/
theorem Timed.exists_gave_up_early (hn : 1 < n) (hL : 0 < L) {d : T} (hd : d ∈ durations)
    (hpos : 0 < d) : ∃ x, Timed.Run n L durations (.begin 0) x
      ∧ x.progress = .returned false ∧ x.now - x.since < L := by
  have h0n : (0 : U64) < n := by
    rw [BitVec.lt_def] at hn ⊢
    exact Nat.zero_lt_of_lt hn
  have hn0 : ¬(0 : U64) = n := fun he => BitVec.lt_irrefl _ (he ▸ h0n)
  have hn1 : ¬(1 : U64) = n := fun he => BitVec.lt_irrefl _ (he ▸ hn)
  have hone : ¬(1 : U64) > n - 0 := by
    rw [show n - 0 = n from BitVec.sub_zero n]
    exact fun h => BitVec.lt_irrefl _ (BitVec.lt_trans hn h)
  have hwait : Timed.Run n L durations (.begin 0)
      (⟨.more (.elapsed 0), 0, 0, 0, []⟩ : Timed T) := by
    have hcheck : Timed.Run n L durations (.begin 0) (⟨.more .check, 0, 0, 0, []⟩ : Timed T) :=
      .call .refl rfl (fun _ _ h => nomatch h) 0 rfl
    have htimer : Timed.Run n L durations (.begin 0)
        (⟨.more .timeoutTimer, 0, 0, 0, [0]⟩ : Timed T) :=
      .call hcheck rfl (fun _ _ h => nomatch h) 0 (by
        simp only [after, Transfer.ask, Transfer.next, if_pos h0n, List.nil_append])
    exact .call htimer rfl (fun _ _ h => nomatch h) 0 rfl
  have hcopying : Timed.Run n L durations (.begin 0)
      (⟨.more (.chunk 0 1), 0, 0, 0, [1]⟩ : Timed T) := by
    have hpoll : Timed.Run n L durations (.begin 0) (⟨.more (.poll 0), 0, 0, 0, []⟩ : Timed T) := by
      refine .call hwait rfl (fun _ _ h => nomatch h) 0 ?_
      simp only [after, Transfer.ask, Transfer.next, sub_self, hL, ne_eq, hn0, decide_true,
        not_false_eq_true, and_self, if_true]
    have hrestart : Timed.Run n L durations (.begin 0)
        (⟨.more (.restart 0 1), 0, 0, 0, [1]⟩ : Timed T) :=
      .call hpoll rfl (fun _ _ h => nomatch h) 1 rfl
    exact .call hrestart rfl (fun _ _ h => nomatch h) 0 rfl
  have hcopied : Timed.Run n L durations (.begin 0)
      (⟨.more (.elapsed 1), d, 0, d, []⟩ : Timed T) := by
    refine .call (.tail hcopying (.tick hpos.le)) rfl (fun _ _ _ => ?_) 0 ?_
    · simpa using hd
    · simp only [after, Transfer.ask, Transfer.next, if_neg hone]
      rfl
  refine ⟨⟨.returned false, max d L, 0, d, []⟩, ?_, rfl, ?_⟩
  · refine .call (.tail hcopied (.tick (le_max_left d L))) rfl (fun _ _ h => nomatch h) 0 ?_
    have hlimit : ¬max d L - 0 < L := not_lt.2 ((le_max_right d L).trans_eq (sub_zero _).symm)
    simp only [after, Transfer.ask, Transfer.next, hlimit, hn1, decide_false, Bool.false_eq_true,
      false_and, if_false]
  · rcases le_total d L with h | h
    · rw [max_eq_right h]
      exact sub_lt_self L hpos
    · rw [max_eq_left h, sub_self]
      exact hL

/-- A call that gives up has seen nothing move for as long as its limit, in every run, if and only
if none of the time the timer runs is spent copying, or the limit is nothing, or there is no more
than a byte to transfer. -/
theorem gave_up_idle_iff (n : U64) (L : T) (hL : 0 ≤ L) (durations : Set T) :
    (∀ now x, Timed.Run n L durations (.begin now) x → x.progress = .returned false → x.Idle L)
      ↔ (∀ d ∈ durations, 0 ≤ d → d = 0) ∨ L = 0 ∨ n ≤ 1 := by
  refine ⟨fun h => ?_, fun hn now x hx hf => (Timed.inv_run hn hx).gave_up hf⟩
  by_contra hc
  simp only [not_or, not_forall] at hc
  obtain ⟨⟨d, hd, h0, hne⟩, hL0, hn⟩ := hc
  obtain ⟨x, hx, hf, hlt⟩ := Timed.exists_gave_up_early (n := n) (L := L)
    (BitVec.not_le.1 hn) (lt_of_le_of_ne hL (Ne.symm hL0)) hd (lt_of_le_of_ne h0 (Ne.symm hne))
  exact absurd (h 0 x hx hf).1 (not_le.2 hlt)

theorem gave_up_idle_iff_at_once : 0 ≤ (1 : ℤ)
    ∧ ((∀ now x, Timed.Run 2 (1 : ℤ) {0} (.begin now) x → x.progress = .returned false →
        x.Idle 1)
      ↔ (∀ d ∈ ({0} : Set ℤ), 0 ≤ d → d = 0) ∨ (1 : ℤ) = 0 ∨ (2 : U64) ≤ 1) :=
  ⟨by decide, gave_up_idle_iff 2 1 (by decide) {0}⟩

/-- Two bytes to write and a copy that lasts as long as the limit: the call gives up at the moment
it has moved the first. -/
theorem gave_up_early : ¬∀ (n : U64) (L : ℤ), 0 ≤ L → ∀ now x,
    Timed.Run n L Set.univ (.begin now) x → x.progress = .returned false → x.Idle L := by
  intro h
  obtain ⟨x, hx, hf, hlt⟩ := Timed.exists_gave_up_early (n := 2) (L := (1 : ℤ)) (d := 1)
    (by decide) (by decide) (Set.mem_univ 1) (by decide)
  exact absurd (h 2 1 (by decide) 0 x hx hf).1 (not_le.2 hlt)

end Timed

end MemMapIPC
