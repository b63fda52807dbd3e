import MemMapIPC.Proofs.Pipes
import MemMapIPC.TwoWay

/-!
# Two threads that poll each verify what the other has written

A thread calls for no more than it has just counted, so its calls take the path without the wait
whatever its timer answers (`System.Guarded`), and none returns false. What a thread has written is
so many chunks, and what it has read the beginning of what the other has.
-/

namespace MemMapIPC

open Interleaving Relation

/-! ## Calls for no more than a count -/

section Guarded

/-- At most one call. -/
inductive Program.Single : Program → Prop
  | stop : Single .stop
  | await (s : Side) (n : U64) : Single (.await s n .stop)
  | transfer (s : Side) (buffer : Buffer) : Single (.transfer s buffer fun _ => .stop)

/-- What the process is to call, or is in, is for no more bytes than its last count. -/
structure System.Guarded (L : Layout) (x : System) (p : Process) : Prop where
  single : (x.worker p).program.Single
  checked : ∀ s buffer next, (x.worker p).program = .transfer s buffer next →
    (x.worker p).calling = none → buffer.1.length ≤ (x.endpoint p s).ring.last.toNat
  fast : ∀ s buffer next k, (x.worker p).program = .transfer s buffer next →
    (x.worker p).calling = some k →
      Fast (L.ring (p.channel s)) s (x.shared p s) (x.endpoint p s) ∨ (x.endpoint p s).Succeeded
  room : ∀ s buffer next k, (x.worker p).program = .transfer s buffer next →
    (x.worker p).calling = some k →
      k + buffer.1.length ≤ limit (L.ring (p.channel s)) (x.shared p s) s

variable {L : Layout} {m : Segment} {x y : System} {p q : Process} {s : Side} {e : Endpoint}
  {r : Ring} {σ : Shared} {below : Bool} {P : Program} {buffer : Buffer} {next : List U8 → Program}

theorem Program.Single.await_eq {n : U64} {Q : Program} (h : P.Single) (hP : P = .await s n Q) :
    Q = .stop := by
  subst hP
  cases h
  rfl

theorem Program.Single.transfer_eq (h : P.Single) (hP : P = .transfer s buffer next)
    (data : List U8) : next data = .stop := by
  subst hP
  cases h
  rfl

theorem fast_leaves : Stable (fun e σ => Fast r s σ e) (Leaves r s) :=
  fun _ _ _ h k => ⟨firm_leaves _ _ _ h.toFirm k, h.direct, h.enough, h.kind⟩

/-- On the path without the wait the timer is not asked. -/
theorem Fast.step_below {cb : CircularBuffer} (h : Fast r s σ e) (below' : Bool) :
    e.step cb s below σ = e.step cb s below' σ := by
  obtain ⟨t, asked, ht, hdirect⟩ := h.direct
  unfold Endpoint.step
  rcases hc : e.ring.call with _ | c
  · cases t with
    | updateTimestamp => cases asked <;> simp only [ht] <;> rfl
    | check => cases asked <;> simp only [ht] <;> rfl
    | whole => cases asked <;> simp only [ht] <;> rfl
    | _ => cases hdirect
  · simp only [ht]

/-- So a step is one that could be made with time left. -/
theorem Acts.patiently (hx : x.Guarded L p) (ha : Acts L below p x y) : Acts L true p x y := by
  cases ha with
  | stopped hp => exact .stopped hp
  | ask hp hk => exact .ask hp hk
  | count hp hk hc hm => exact .count hp hk hc hm
  | enough hp hk hc hn => exact .enough hp hk hc hn
  | tooFew hp hk hc hn => exact .tooFew hp hk hc hn
  | begin hp hk => exact .begin hp hk
  | call hp hk ht hs hz =>
    rcases hx.fast _ _ _ _ hp hk with hfast | hsucceeded
    · exact .call hp hk ht (hfast.step_below true ▸ hs) hz
    · rw [hsucceeded.1] at ht
      cases ht
  | returned hp hk ht hresult => exact .returned hp hk ht hresult
  | fails hp hk ht hresult => exact .fails hp hk ht hresult

/-- What the other process does leaves a process's call as it is. -/
theorem System.Guarded.leaves (hx : x.Guarded L p) (hw : y.worker p = x.worker p)
    (he : ∀ s, y.endpoint p s = x.endpoint p s)
    (hl : ∀ s, Leaves (L.ring (p.channel s)) s (x.shared p s) (y.shared p s)) : y.Guarded L p := by
  refine ⟨?_, ?_, ?_, ?_⟩ <;> simp only [hw, he]
  · exact hx.single
  · exact hx.checked
  · intro s buffer next k hp hk
    exact (hx.fast s buffer next k hp hk).imp_left fun hfast => fast_leaves _ _ _ hfast (hl s)
  · intro s buffer next k hp hk
    exact (hx.room s buffer next k hp hk).trans (hl s).limit_le

/-- A process that has come to its program's end. -/
theorem System.Guarded.of_stop (hp : (x.worker p).program = .stop) : x.Guarded L p := by
  refine ⟨?_, ?_, ?_, ?_⟩ <;> rw [hp]
  · exact .stop
  all_goals
    intro _ _ _
    intros
    contradiction

theorem System.Guarded.of_await {n : U64} (hp : (x.worker p).program = .await s n .stop) :
    x.Guarded L p := by
  refine ⟨?_, ?_, ?_, ?_⟩ <;> rw [hp]
  · exact .await s n
  all_goals
    intro _ _ _
    intros
    contradiction

theorem Acts.guarded_self (h : PatientInv L m x) (hx : x.Guarded L p) (ha : Acts L true p x y) :
    y.Guarded L p := by
  have hsingle := hx.single
  cases ha with
  | stopped hp => exact hx
  | @ask s n next hp hk =>
    rw [hp] at hsingle
    cases hsingle
    refine .of_await (s := s) (n := n) ?_
    rw [System.worker_setWorker_self]
    exact hp
  | @count s n next k c party σ hp hk hc hm =>
    rw [hp] at hsingle
    cases hsingle
    exact .of_await (s := s) (n := n) hp
  | enough hp hk hc hn =>
    refine .of_stop ?_
    rw [System.worker_setWorker_self]
    exact hsingle.await_eq hp
  | @tooFew s n next k hp hk hc hn =>
    rw [hp] at hsingle
    cases hsingle
    refine .of_await (s := s) (n := n) ?_
    rw [System.worker_setWorker_self]
    exact hp
  | @begin s buffer next hp hk =>
    have hfirm := System.firm h.duplex p s
    have hidle := h.idle hk s
    have hle := hx.checked s buffer next hp hk
    have hlast := hfirm.ring.last
    obtain ⟨hlen, -⟩ := hfirm.toEndpointOwn.settled hidle.2
    refine ⟨?_, ?_, ?_, ?_⟩ <;> rw [System.worker_setWorker_self]
    · exact hsingle
    · intro _ _ _ _ hnone
      cases hnone
    · intro t buffer' next' k hp' hk'
      obtain ⟨rfl, rfl, -⟩ := Program.transfer.inj (hp.symm.trans hp')
      rw [System.endpoint_setWorker, System.endpoint_set_self, System.shared_setWorker,
        System.shared_set_self]
      exact .inl (hfirm.begin hidle hle)
    · intro t buffer' next' k hp' hk'
      obtain ⟨rfl, rfl, -⟩ := Program.transfer.inj (hp.symm.trans hp')
      obtain rfl := Option.some.inj hk'
      rw [System.shared_setWorker, System.shared_set_self]
      omega
  | @call s buffer next k w e σ _ hp hk ht hs hz =>
    have hw : y.worker p = x.worker p := by rw [hz.worker]; rfl
    obtain ⟨hself, hl⟩ := hz.leaves_self h.toSystemInv (.step true hs) rfl
    have hroom := hx.room s buffer next k hp hk
    refine ⟨?_, ?_, ?_, ?_⟩ <;> rw [hw]
    · exact hsingle
    · intro _ _ _ _ hnone
      rw [hk] at hnone
      cases hnone
    · intro t buffer' next' k' hp' hk'
      obtain ⟨rfl, rfl, -⟩ := Program.transfer.inj (hp.symm.trans hp')
      rw [hself]
      rcases hx.fast s buffer next k hp hk with hfast | hsucceeded
      · rcases hfast.step (.step true hs) with hdone | ⟨hfast', -⟩
        · exact .inr hdone
        · exact .inl (fast_leaves _ _ _ hfast' hl)
      · rw [hsucceeded.1] at ht
        cases ht
    · intro t buffer' next' k' hp' hk'
      obtain ⟨rfl, rfl, -⟩ := Program.transfer.inj (hp.symm.trans hp')
      obtain rfl := Option.some.inj (hk.symm.trans hk')
      obtain ⟨-, hkeep⟩ := endpointStep_guarantees _ _ _ _ _ _
        (System.firm h.duplex p s).toEndpointOwn (.step true hs)
      have hlimit : limit (L.ring (p.channel s)) σ s
          = limit (L.ring (p.channel s)) (x.shared p s) s :=
        congrArg ((L.ring (p.channel s)).reach s) hkeep.advanced
      exact hroom.trans (hlimit ▸ hl.limit_le)
  | returned hp hk ht hresult =>
    refine .of_stop ?_
    rw [System.worker_setWorker_self]
    exact hsingle.transfer_eq hp _
  | fails hp hk ht hresult =>
    refine .of_stop ?_
    rw [System.worker_setWorker_self]

end Guarded

/-! ## A process given another program -/

section Load

variable {L : Layout} {m : Segment} {x : System} {p q : Process} {P : Program}
  {program : Process → Program}

@[simp] theorem System.worker_load_self : (x.load p P).worker p
    = { x.worker p with program := P, calling := none } := System.worker_setWorker_self

theorem System.worker_load_of_ne (h : q ≠ p) : (x.load p P).worker q = x.worker q :=
  System.worker_setWorker_of_ne h

theorem SystemInv.idle_of_stop (h : SystemInv L m x) (hp : (x.worker p).program = .stop)
    (s : Side) : (x.endpoint p s).Idle := by
  have hat := h.task p s
  rwa [Worker.task_stop hp] at hat

theorem SystemInv.load (h : SystemInv L m x) (hp : (x.worker p).program = .stop) :
    SystemInv L m (x.load p P) := by
  refine h.turn (p := p) rfl (fun q hq => System.worker_load_of_ne hq) fun t => ?_
  rw [System.worker_load_self, Worker.task_none rfl]
  exact h.idle_of_stop hp t

theorem PatientInv.load (h : PatientInv L m x) (hp : (x.worker p).program = .stop) :
    PatientInv L m (x.load p P) := by
  refine ⟨h.toSystemInv.load hp, fun q s buffer next k hq hk => ?_, fun q => ?_⟩
  · by_cases hqp : q = p
    · rw [hqp, System.worker_load_self] at hk
      cases hk
    · rw [System.worker_load_of_ne hqp] at hq hk
      exact h.patient q s buffer next k hq hk
  · by_cases hqp : q = p
    · rw [hqp, System.worker_load_self]
      exact h.unfailed p
    · rw [System.worker_load_of_ne hqp]
      exact h.unfailed q

/-- A program that has made its calls can be one that goes on with any other. -/
theorem Program.Takes.extend : ∀ {l : Log} {P : Program}, P.Takes l → ∀ Q : Program,
    ∃ R : Program, R.Takes l ∧ R.after l = Q
  | [], _, _, Q => ⟨Q, Q.takes_nil, Q.after_nil⟩
  | d :: l, .stop, h, Q => h.elim
  | (t, data) :: l, .await s n next, h, Q => by
    obtain ⟨R, hR, hafter⟩ := Program.Takes.extend h.2 Q
    exact ⟨.await s n R, ⟨h.1, hR⟩, hafter⟩
  | (t, data) :: l, .transfer s buffer next, h, Q => by
    obtain ⟨R, hR, hafter⟩ := Program.Takes.extend h.2 Q
    exact ⟨.transfer s buffer fun _ => R, ⟨h.1, hR⟩, hafter⟩

theorem RecordInv.load (h : RecordInv L m program x) (hp : (x.worker p).program = .stop)
    (hf : (x.worker p).failed = false) : ∃ program', RecordInv L m program' (x.load p P) := by
  obtain ⟨R, hR, hafter⟩ := (h.recorded p).takes.extend P
  refine ⟨Function.update program p R, h.toSystemInv.load hp, fun q => ?_⟩
  by_cases hqp : q = p
  · subst hqp
    rw [Function.update_self, System.worker_load_self]
    refine ⟨hR, fun _ => hafter, fun hf' => ?_, fun s _ => ?_⟩
    · rw [show (x.worker q).failed = true from hf'] at hf
      cases hf
    · have hmoved := (h.recorded q).moved s hf
      rw [Worker.task_stop hp] at hmoved
      rw [Worker.task_none rfl]
      exact hmoved
  · rw [Function.update_of_ne hqp, System.worker_load_of_ne hqp]
    exact h.recorded q

theorem System.Guarded.load (h : ∀ q, x.Guarded L q) (hP : P.Single)
    (hchecked : ∀ s buffer next, P = .transfer s buffer next →
      buffer.1.length ≤ (x.endpoint p s).ring.last.toNat) (q : Process) :
    (x.load p P).Guarded L q := by
  by_cases hqp : q = p
  · subst hqp
    refine ⟨?_, ?_, ?_, ?_⟩ <;> rw [System.worker_load_self]
    · exact hP
    · exact fun s buffer next hp _ => hchecked s buffer next hp
    · intro _ _ _ _ _ hk
      cases hk
    · intro _ _ _ _ _ hk
      cases hk
  · have hx := h q
    refine ⟨?_, ?_, ?_, ?_⟩ <;> rw [System.worker_load_of_ne hqp]
    · exact hx.single
    · exact hx.checked
    · exact hx.fast
    · exact hx.room

end Load

/-! ## What a thread has done -/

section Threads

namespace TwoWayTest

variable (T : TwoWayTest)

def chunk : List U8 := (producerData T.chunkSize).1

/-- So many chunks. -/
def stream (n : ℕ) : List U8 := (List.replicate n T.chunk).flatten

theorem length_chunk : T.chunk.length = T.chunkSize.toNat := by simp [chunk, producerData]

theorem length_buffer (p : Process) (s : Side) : (T.buffer p s).1.length = T.chunkSize.toNat := by
  cases s with
  | producer => exact T.length_chunk
  | consumer => exact T.size p

theorem stream_succ (n : ℕ) : T.stream (n + 1) = T.stream n ++ T.chunk := by
  unfold stream
  rw [List.replicate_succ', List.flatten_append, List.flatten_singleton]

theorem length_stream (n : ℕ) : (T.stream n).length = n * T.chunkSize.toNat := by
  unfold stream
  simp [T.length_chunk]

theorem stream_prefix {n k : ℕ} (h : n ≤ k) : T.stream n <+: T.stream k := by
  induction k, h using Nat.le_induction with
  | base => exact List.prefix_rfl
  | succ k _ ih =>
    rw [stream_succ]
    exact ih.trans (List.prefix_append _ _)

/-- What begins a stream and is as long as so many chunks is those. -/
theorem eq_stream {l : List U8} {n k : ℕ} (h : l <+: T.stream k)
    (hlen : l.length = n * T.chunkSize.toNat) : l = T.stream n := by
  have hl := h.trans (T.stream_prefix (le_max_left k n))
  have hn := T.stream_prefix (le_max_right k n)
  exact (List.prefix_of_prefix_length_le hl hn (by rw [hlen, length_stream])).eq_of_length
    (by rw [hlen, length_stream])

end TwoWayTest

namespace TwoWay

/-- The transfers a thread has made at a side, the last of them perhaps not yet counted. -/
def made (x : TwoWay) (p : Process) (s : Side) : ℕ :=
  (x.thread p).counter s
    + if (x.thread p).stage = .transfer s ∧ (x.system.worker p).program.side = none then 1 else 0

/-- Where a thread is in its loop. -/
structure At (T : TwoWayTest) (L : Layout) (x : TwoWay) (p : Process) : Prop where
  program : (x.system.worker p).program = .stop
    ∨ (x.system.worker p).program = (x.thread p).stage.call T p
  counter_le : ∀ s, (x.thread p).counter s ≤ T.chunks
  counter_lt : ∀ s, (x.thread p).stage = .transfer s → (x.thread p).counter s < T.chunks
  fits : ∀ s, 0 < (x.thread p).counter s ∨ (x.thread p).stage = .transfer s →
    T.chunkSize.toNat ≤ L.capacity
  past : (x.thread p).stage = .past → ∀ s, T.chunks ≤ (x.thread p).counter s
  flow : ∀ s, flow s (x.system.worker p).log = T.stream (x.made p s)
  data : ∀ d ∈ (x.system.worker p).log, d.2 = [] ∨ d.2 = T.chunk

end TwoWay

structure TwoWayInv (T : TwoWayTest) (L : Layout) (m : Segment) (x : TwoWay) : Prop where
  patient : PatientInv L m x.system
  record : ∃ program, RecordInv L m program x.system
  guarded : ∀ p, x.system.Guarded L p
  at_loop : ∀ p, x.At T L p

/-- What a thread does between two calls. -/
inductive TwoWay.Proceeds (T : TwoWayTest) (p : Process) (x : TwoWay) : TwoWay → Prop
  | again {s : Side} : (x.thread p).stage = .test → (x.thread p).counter s < T.chunks →
    Proceeds T p x (x.enter T p (x.thread p) (.count .producer))
  | leaves : (x.thread p).stage = .test → (∀ s, T.chunks ≤ (x.thread p).counter s) →
    Proceeds T p x (x.enter T p (x.thread p) .past)
  | enough {s : Side} : (x.thread p).stage = .count s →
    T.chunkSize ≤ (x.system.endpoint p s).ring.last → (x.thread p).counter s < T.chunks →
    Proceeds T p x (x.enter T p (x.thread p) (.transfer s))
  | passes {s : Side} : (x.thread p).stage = .count s →
    ¬(T.chunkSize ≤ (x.system.endpoint p s).ring.last ∧ (x.thread p).counter s < T.chunks) →
    Proceeds T p x (x.enter T p (x.thread p) (.after s))
  | counts {s : Side} : (x.thread p).stage = .transfer s →
    Proceeds T p x (x.enter T p { x.thread p with
      counter := Function.update (x.thread p).counter s ((x.thread p).counter s + 1) } (.after s))
  | past : (x.thread p).stage = .past → Proceeds T p x x

variable {T : TwoWayTest} {L : Layout} {m : Segment} {x y : TwoWay} {p q : Process} {s t : Side}
  {below : Bool} {thread : TwoWayThread} {stage : TwoWayStage}

theorem TwoWay.proceed_proceeds (x : TwoWay) (p : Process) : x.Proceeds T p (x.proceed T p) := by
  unfold proceed
  dsimp only
  split
  next hstage =>
    split_ifs with h
    · rcases h with h | h
      · exact .again hstage h
      · exact .again hstage h
    · push Not at h
      refine .leaves hstage fun s => ?_
      cases s with
      | producer => exact h.2
      | consumer => exact h.1
  next s hstage =>
    split_ifs with h
    · exact .enough hstage h.1 h.2
    · exact .passes hstage h
  next s hstage => exact .counts hstage
  next hstage => exact .past hstage

theorem TwoWayStep.cases (hs : TwoWayStep T L p x y) :
    (x.system.worker p).program = .stop ∧ x.Proceeds T p y
      ∨ (x.system.worker p).program ≠ .stop ∧ y.thread = x.thread
        ∧ ∃ below, Acts L below p x.system y.system := by
  obtain ⟨now, below, hs⟩ := hs
  unfold TwoWay.step at hs
  rcases hp : (x.system.worker p).program with _ | ⟨s, n, next⟩ | ⟨s, buffer, next⟩ <;>
    rw [hp] at hs <;> simp only at hs
  · obtain rfl := Option.some.inj hs
    exact .inl ⟨rfl, x.proceed_proceeds p⟩
  all_goals
    obtain ⟨system, hsystem, rfl⟩ := Option.map_eq_some_iff.1 hs
    exact .inr ⟨by simp, rfl, below, System.step_acts hsystem⟩

theorem TwoWay.At.congr (h : x.At T L p) (hthread : y.thread p = x.thread p)
    (hprogram : (y.system.worker p).program = (x.system.worker p).program)
    (hlog : (y.system.worker p).log = (x.system.worker p).log) : y.At T L p := by
  have hmade : ∀ s, y.made p s = x.made p s := fun s => by
    unfold TwoWay.made
    rw [hthread, hprogram]
  refine ⟨?_, ?_, ?_, ?_, ?_, fun s => ?_, ?_⟩ <;> simp only [hthread, hprogram, hlog, hmade]
  · exact h.program
  · exact h.counter_le
  · exact h.counter_lt
  · exact h.fits
  · exact h.past
  · exact h.flow s
  · exact h.data

/-- A thread in a transfer is at the stage for it. -/
theorem TwoWay.At.transfer_eq {buffer : Buffer} {next : List U8 → Program} (h : x.At T L p)
    (hp : (x.system.worker p).program = .transfer s buffer next) :
    (x.thread p).stage = .transfer s ∧ buffer = T.buffer p s := by
  rcases h.program with hstop | hcall
  · rw [hstop] at hp
    cases hp
  · rw [hp] at hcall
    rcases hstage : (x.thread p).stage with _ | t | t | _ <;> rw [hstage] at hcall
    · cases hcall
    · cases hcall
    · obtain ⟨rfl, rfl, -⟩ := Program.transfer.inj hcall
      exact ⟨rfl, rfl⟩
    · cases hcall

theorem TwoWay.At.await_eq {n : U64} {next : Program} (h : x.At T L p)
    (hp : (x.system.worker p).program = .await s n next) :
    (x.thread p).stage = .count s ∧ n = 0 := by
  rcases h.program with hstop | hcall
  · rw [hstop] at hp
    cases hp
  · rw [hp] at hcall
    rcases hstage : (x.thread p).stage with _ | t | t | _ <;> rw [hstage] at hcall
    · cases hcall
    · obtain ⟨rfl, rfl, -⟩ := Program.await.inj hcall
      exact ⟨rfl, rfl⟩
    · cases hcall
    · cases hcall

theorem TwoWay.made_of_ne (hp : (x.system.worker p).program ≠ .stop) (s : Side) :
    x.made p s = (x.thread p).counter s := by
  unfold made
  have hside : (x.system.worker p).program.side ≠ none := by
    revert hp
    cases (x.system.worker p).program <;> simp [Program.side]
  rw [if_neg fun h => hside h.2, Nat.add_zero]

theorem TwoWay.made_of_stop (hp : (x.system.worker p).program = .stop) (s : Side) :
    x.made p s = (x.thread p).counter s + if (x.thread p).stage = .transfer s then 1 else 0 := by
  unfold made
  simp [hp, Program.side]

theorem TwoWay.made_enter (x : TwoWay) (p : Process) (thread : TwoWayThread)
    (stage : TwoWayStage) (s : Side) : (x.enter T p thread stage).made p s = thread.counter s := by
  unfold made enter
  simp only [Function.update_self, System.worker_load_self]
  rw [if_neg, Nat.add_zero]
  rintro ⟨rfl, hside⟩
  cases hside

/-! ## The invariant -/

/-- A thread comes to another stage, its call having returned. -/
theorem TwoWayInv.enter (h : TwoWayInv T L m x) (hp : (x.system.worker p).program = .stop)
    (hmade : ∀ s, thread.counter s = x.made p s) (hle : ∀ s, thread.counter s ≤ T.chunks)
    (hlt : ∀ s, stage = .transfer s → thread.counter s < T.chunks
      ∧ T.chunkSize ≤ (x.system.endpoint p s).ring.last)
    (hfits : ∀ s, 0 < thread.counter s ∨ stage = .transfer s → T.chunkSize.toNat ≤ L.capacity)
    (hpast : stage = .past → ∀ s, T.chunks ≤ thread.counter s) :
    TwoWayInv T L m (x.enter T p thread stage) := by
  obtain ⟨program, hrecord⟩ := h.record
  refine ⟨h.patient.load hp, hrecord.load hp (h.patient.unfailed p), ?_, fun q => ?_⟩
  · refine System.Guarded.load h.guarded ?_ fun s buffer next hstage => ?_
    · cases stage with
      | count s => exact .await s 0
      | transfer s => exact .transfer s _
      | _ => exact .stop
    · cases stage with
      | transfer t =>
        obtain ⟨rfl, rfl, -⟩ := Program.transfer.inj hstage
        rw [T.length_buffer]
        exact BitVec.le_def.1 (hlt t rfl).2
      | _ => cases hstage
  · by_cases hqp : q = p
    · subst hqp
      have hthread : (x.enter T q thread stage).thread q = { thread with stage } :=
        Function.update_self _ _ _
      have hworker : (x.enter T q thread stage).system.worker q
          = { x.system.worker q with program := stage.call T q, calling := none } :=
        System.worker_load_self
      refine ⟨?_, ?_, ?_, ?_, ?_, fun s => ?_, ?_⟩ <;>
        simp only [hthread, hworker, TwoWay.made_enter]
      · exact .inr trivial
      · exact hle
      · exact fun s hs => (hlt s hs).1
      · exact hfits
      · exact hpast
      · rw [hmade]
        exact (h.at_loop q).flow s
      · exact (h.at_loop q).data
    · have hworker : (x.enter T p thread stage).system.worker q = x.system.worker q :=
        System.worker_load_of_ne hqp
      exact (h.at_loop q).congr (Function.update_of_ne hqp _ _) (by rw [hworker]) (by rw [hworker])

/-- No count is more than the ring can hold. -/
theorem TwoWayInv.last_le (h : TwoWayInv T L m x) (p : Process) (s : Side) :
    (x.system.endpoint p s).ring.last.toNat ≤ L.capacity := by
  have hown := (System.firm h.patient.duplex p s).ring
  have hlast := hown.last
  have hlimit := hown.sound.limit_le s
  rw [L.cells_sub_one] at hlimit
  omega

theorem TwoWay.Proceeds.inv (h : TwoWayInv T L m x)
    (hp : (x.system.worker p).program = .stop) (hy : x.Proceeds T p y) : TwoWayInv T L m y := by
  have hat := h.at_loop p
  have hmade := TwoWay.made_of_stop hp
  have hsame : (∀ s, (x.thread p).stage ≠ .transfer s) →
      ∀ s, (x.thread p).counter s = x.made p s := fun hne s => by
    rw [hmade, if_neg (hne s), Nat.add_zero]
  cases hy with
  | again hstage hlt =>
    refine h.enter hp (hsame fun t => by simp [hstage]) hat.counter_le (fun t ht => by cases ht)
      (fun t ht => hat.fits t (.inl ?_)) fun ht => by cases ht
    exact ht.resolve_right fun he => by cases he
  | leaves hstage hle =>
    refine h.enter hp (hsame fun t => by simp [hstage]) hat.counter_le (fun t ht => by cases ht)
      (fun t ht => hat.fits t (.inl ?_)) fun _ => hle
    exact ht.resolve_right fun he => by cases he
  | @enough s hstage hle hlt =>
    refine h.enter hp (hsame fun t => by simp [hstage]) hat.counter_le (fun t ht => ?_)
      (fun t _ => ?_) fun ht => by cases ht
    · cases ht
      exact ⟨hlt, hle⟩
    · exact (BitVec.le_def.1 hle).trans (h.last_le p s)
  | @passes s hstage hne =>
    refine h.enter hp (hsame fun t => by simp [hstage]) hat.counter_le (fun t ht => ?_)
      (fun t ht => hat.fits t (.inl ?_)) fun ht => ?_
    · cases s <;> cases ht
    · exact ht.resolve_right fun he => by cases s <;> cases he
    · cases s <;> cases ht
  | @counts s hstage =>
    have hlt := hat.counter_lt s hstage
    refine h.enter hp (fun t => ?_) (fun t => ?_) (fun t ht => ?_) (fun t _ => ?_) fun ht => ?_
    · rw [hmade, hstage]
      by_cases hts : t = s
      · subst hts
        simp
      · simp [hts, Ne.symm hts]
    · by_cases hts : t = s
      · subst hts
        simpa using hlt
      · simpa [hts] using hat.counter_le t
    · cases s <;> cases ht
    · exact hat.fits s (.inr hstage)
    · cases s <;> cases ht
  | past hstage => exact h

/-- Outside a transfer a side has moved what its process's log says. -/
theorem RecordInv.moved_of_ne {program : Process → Program} {z : System}
    (h : RecordInv L m program z) (hf : (z.worker p).failed = false)
    (hne : ∀ buffer next, (z.worker p).program ≠ .transfer s buffer next) :
    (z.shared p s).moved s = MemMapIPC.flow s (z.worker p).log := by
  have hmoved := (h.recorded p).moved s hf
  rcases hp : (z.worker p).program with _ | ⟨t, n, next⟩ | ⟨t, buffer, next⟩
  · rwa [Worker.task_stop hp] at hmoved
  · exact h.moved_await hp s
  · rcases hk : (z.worker p).calling with _ | k
    · exact h.moved_of_none hf hk s
    · rw [Worker.task_transfer hp hk, if_neg] at hmoved
      · exact hmoved
      · rintro rfl
        exact hne _ _ hp

/-- What a thread has written is so many chunks, and perhaps some of the next. -/
theorem TwoWayInv.written_prefix (h : TwoWayInv T L m x) (p : Process) :
    (x.system.shared p .producer).moved .producer <+: T.stream (x.made p .producer + 1) := by
  obtain ⟨program, hrecord⟩ := h.record
  have hat := h.at_loop p
  by_cases hp : ∃ buffer next, (x.system.worker p).program = .transfer .producer buffer next
  · obtain ⟨buffer, next, hp⟩ := hp
    have hmoved := hrecord.moved_prefix hp
    obtain ⟨-, rfl⟩ := hat.transfer_eq hp
    rw [T.stream_succ, ← hat.flow]
    exact hmoved
  · push Not at hp
    rw [hrecord.moved_of_ne (h.patient.unfailed p) hp, hat.flow]
    exact T.stream_prefix (Nat.le_succ _)

/-- A read gives the next chunk. -/
theorem TwoWayInv.filled_eq {buffer : Buffer} {next : List U8 → Program} {k : ℕ}
    (h : TwoWayInv T L m x) (hp : (x.system.worker p).program = .transfer s buffer next)
    (hk : (x.system.worker p).calling = some k) (ht : (x.system.endpoint p s).transfer = none)
    (hresult : (x.system.endpoint p s).result = some true) :
    x.system.filled p s k buffer = T.chunk := by
  obtain ⟨program, hrecord⟩ := h.record
  have hat := h.at_loop p
  obtain ⟨-, hbuffer⟩ := hat.transfer_eq hp
  obtain ⟨hmoved, -, hlen, hsame⟩ := hrecord.filled hp hk ht hresult
  cases s with
  | producer =>
    rw [hsame rfl, hbuffer]
    rfl
  | consumer =>
    have hflow := hat.flow .consumer
    rw [hflow] at hmoved
    have hwritten : (x.system.shared p .consumer).moved .consumer
        <+: T.stream (x.made p.other .producer + 1) := by
      refine (hrecord.published_prefix p).trans ?_
      exact (List.take_prefix _ _).trans (h.written_prefix p.other)
    have hlength : ((x.system.shared p .consumer).moved .consumer).length
        = (x.made p .consumer + 1) * T.chunkSize.toNat := by
      rw [hmoved, List.length_append, T.length_stream, hlen, hbuffer, T.length_buffer]
      ring
    have hstream := T.eq_stream hwritten hlength
    rw [hmoved, T.stream_succ] at hstream
    exact List.append_cancel_left hstream

/-- A step of a call. -/
theorem Acts.at_loop {z : System} (h : TwoWayInv T L m x)
    (hp : (x.system.worker p).program ≠ .stop) (ha : Acts L true p x.system z) :
    TwoWay.At T L { x with system := z } p := by
  have hat := h.at_loop p
  have hsingle := (h.guarded p).single
  have hmade := TwoWay.made_of_ne hp
  have hreturned : ∀ (s : Side) (data : List U8), (z.worker p).program = .stop →
      (z.worker p).log = (x.system.worker p).log ++ [(s, data)] →
      (if (x.thread p).stage = .transfer s then data = T.chunk
        else data = [] ∧ ∀ t, (x.thread p).stage ≠ .transfer t) →
      TwoWay.At T L { x with system := z } p := by
    intro s data hstop hlog hdata
    refine ⟨.inl hstop, ?_, ?_, ?_, ?_, fun t => ?_, fun d hd => ?_⟩
    · exact hat.counter_le
    · exact hat.counter_lt
    · exact hat.fits
    · exact hat.past
    · rw [hlog, flow_append, flow_cons, flow_nil, List.append_nil, hat.flow, hmade,
        TwoWay.made_of_stop hstop]
      by_cases hstage : (x.thread p).stage = .transfer s
      · rw [if_pos hstage] at hdata
        rw [hstage, hdata]
        by_cases hst : s = t
        · subst hst
          rw [if_pos rfl, if_pos rfl, T.stream_succ]
        · rw [if_neg hst, if_neg (by simpa using hst), List.append_nil, Nat.add_zero]
      · rw [if_neg hstage] at hdata
        rw [hdata.1, ite_self, List.append_nil, if_neg (hdata.2 t), Nat.add_zero]
    · rw [hlog, List.mem_append, List.mem_singleton] at hd
      rcases hd with hd | rfl
      · exact hat.data d hd
      · split_ifs at hdata with hstage
        · exact .inr hdata
        · exact .inl hdata.1
  cases ha with
  | stopped hp' => exact absurd hp' hp
  | count hp' hk hc hm => exact hat.congr rfl rfl rfl
  | @enough s n next k hp' hk hc hn =>
    refine hreturned s [] ?_ (by rw [System.worker_setWorker_self]) ?_
    · rw [System.worker_setWorker_self]
      exact hsingle.await_eq hp'
    · rw [(hat.await_eq hp').1, if_neg (by simp)]
      exact ⟨rfl, fun t => by simp⟩
  | call hp' hk ht hs hz => exact hat.congr rfl (by rw [hz.worker]; rfl) (by rw [hz.worker]; rfl)
  | @returned s buffer next k hp' hk ht hresult =>
    refine hreturned s _ ?_ (by rw [System.worker_setWorker_self]) ?_
    · rw [System.worker_setWorker_self]
      exact hsingle.transfer_eq hp' _
    · rw [(hat.transfer_eq hp').1, if_pos rfl]
      exact h.filled_eq hp' hk ht hresult
  | fails hp' hk ht hresult => exact absurd (h.patient.patient _ _ _ _ _ hp' hk ht) hresult
  | _ => refine hat.congr rfl ?_ ?_ <;> rw [System.worker_setWorker_self]

theorem TwoWayStep.inv (h : TwoWayInv T L m x) (hs : TwoWayStep T L p x y) :
    TwoWayInv T L m y := by
  rcases hs.cases with ⟨hp, hy⟩ | ⟨hp, hthread, below, ha⟩
  · exact hy.inv h hp
  · replace ha := ha.patiently (h.guarded p)
    obtain ⟨program, hrecord⟩ := h.record
    have hother := fun q (hq : q ≠ p) => ha.leaves_of_ne h.patient.toSystemInv hq
    refine ⟨ha.patient h.patient, ⟨program, ha.record hrecord⟩, fun q => ?_, fun q => ?_⟩
    · by_cases hq : q = p
      · rw [hq]
        exact ha.guarded_self h.patient (h.guarded p)
      · exact (h.guarded q).leaves (ha.worker_of_ne hq) (fun s => (hother q hq s).1)
          fun s => (hother q hq s).2
    · by_cases hq : q = p
      · rw [hq]
        obtain ⟨z, threads⟩ := y
        obtain rfl : threads = x.thread := hthread
        exact ha.at_loop h hp
      · exact (h.at_loop q).congr (by rw [hthread]) (by rw [ha.worker_of_ne hq])
          (by rw [ha.worker_of_ne hq])

theorem TwoWayInv.reach (h : TwoWayInv T L m x) (hxy : TwoWayReach T L x y) :
    TwoWayInv T L m y := by
  induction hxy with
  | refl => exact h
  | tail _ hs ih =>
    obtain ⟨p, hs⟩ := hs
    exact hs.inv ih

theorem Ready.twoWayInv (h : Ready L m) : TwoWayInv T L m (.fresh m) := by
  refine ⟨h.patientInv _, ⟨_, h.recordInv _⟩, fun p => .of_stop rfl,
    fun p => ⟨.inl rfl, ?_, ?_, ?_, ?_, ?_, ?_⟩⟩
  · exact fun s => Nat.zero_le _
  · intro s hs
    cases hs
  · rintro s (hs | hs)
    · exact absurd hs (Nat.lt_irrefl 0)
    · cases hs
  · intro hs
    cases hs
  · exact fun s => rfl
  · intro d hd
    cases hd

theorem twoWayInv_start (now now' : Ptime L.sizeofPtime) :
    TwoWayInv T L (duplexStart L now now').mem (twoWayStart L now now') :=
  (ready_duplexStart now now').twoWayInv

theorem TwoWayInv.made_le (h : TwoWayInv T L m x) (p : Process) (s : Side) :
    x.made p s ≤ T.chunks := by
  have hat := h.at_loop p
  unfold TwoWay.made
  split_ifs with hmade
  · exact hat.counter_lt s hmade.1
  · exact hat.counter_le s

/-- A side in no call of its process's has none. -/
theorem SystemInv.transfer_none {z : System} (h : SystemInv L m z)
    (hne : ∀ buffer next k, (z.worker p).program = .transfer s buffer next →
      (z.worker p).calling ≠ some k) : (z.endpoint p s).transfer = none := by
  have hat := h.task p s
  rcases hp : (z.worker p).program with _ | ⟨t, n, next⟩ | ⟨t, buffer, next⟩
  · exact (h.idle_of_stop hp s).1
  · rcases hk : (z.worker p).calling with _ | k
    · exact (h.idle hk s).1
    · rw [Worker.task_await hp hk] at hat
      split_ifs at hat <;> exact hat.1
  · rcases hk : (z.worker p).calling with _ | k
    · exact (h.idle hk s).1
    · rw [Worker.task_transfer hp hk, if_neg] at hat
      · exact hat.1
      · rintro rfl
        exact hne _ _ _ hp hk

/-- No call has returned false, and none goes into its loop to wait. What a call has left in its
buffer is a chunk as it was produced, a count leaving nothing, and as many have been transferred
as the thread has counted, but for one it may be about to count. -/
structure TwoWayVerified (T : TwoWayTest) (x : TwoWay) : Prop where
  succeeded : ∀ p, (x.system.worker p).failed = false
  direct : ∀ p s t asked, (x.system.endpoint p s).transfer = some (t, asked) → t.direct
  data : ∀ p, ∀ d ∈ (x.system.worker p).log, d.2 = [] ∨ d.2 = T.chunk
  flow : ∀ p s, x.made p s ≤ T.chunks
    ∧ MemMapIPC.flow s (x.system.worker p).log = T.stream (x.made p s)

theorem TwoWayInv.verified (h : TwoWayInv T L m x) : TwoWayVerified T x := by
  refine ⟨h.patient.unfailed, fun p s t asked ht => ?_, fun p => (h.at_loop p).data, fun p s => ?_⟩
  · by_contra hdirect
    have hnone := h.patient.toSystemInv.transfer_none (p := p) (s := s)
        fun buffer next k hp hk => by
      rcases (h.guarded p).fast s buffer next k hp hk with hfast | hsucceeded
      · obtain ⟨t', asked', ht', hdirect'⟩ := hfast.direct
        rw [ht] at ht'
        obtain ⟨rfl, -⟩ := Prod.mk.inj (Option.some.inj ht')
        exact hdirect hdirect'
      · rw [hsucceeded.1] at ht
        cases ht
    rw [hnone] at ht
    cases ht
  · exact ⟨h.made_le p s, (h.at_loop p).flow s⟩

end Threads

end MemMapIPC
