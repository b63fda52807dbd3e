import MemMapIPC.Proofs.Settle

/-!
# Two programs have one outcome

What a process has recorded is what its program makes of the bytes it got (`RecordInv`), and these
are the bytes the other process published, in order. So a system at rest is as far as two programs
can come: no step of any other run of them, whatever its timers answer, moves a cursor past where it
is there, or records anything else (`Behind`).
-/

namespace MemMapIPC

open ByteMemory Interleaving Relation

/-! ## What a log says of its program -/

section Log

namespace Program

/-- The program left after the calls of a log. -/
def after : Program → Log → Program
  | P, [] => P
  | stop, _ :: _ => stop
  | await _ _ next, _ :: l => next.after l
  | transfer _ _ next, (_, data) :: l => (next data).after l

/-- The log is one the program's calls can leave. -/
def Takes : Program → Log → Prop
  | _, [] => True
  | stop, _ :: _ => False
  | await s _ next, (t, data) :: l => (t = s ∧ data = []) ∧ next.Takes l
  | transfer s buffer next, (t, data) :: l =>
    (t = s ∧ data.length = buffer.1.length ∧ (s = .producer → data = buffer.1))
      ∧ (next data).Takes l

@[simp] theorem after_nil (P : Program) : P.after [] = P := by cases P <;> rfl

theorem takes_nil (P : Program) : P.Takes [] := by cases P <;> trivial

theorem after_append : ∀ (l : Log) (P : Program) (l' : Log),
    P.after (l ++ l') = (P.after l).after l'
  | [], P, l' => by cases P <;> rfl
  | d :: l, stop, l' => by cases l' <;> rfl
  | d :: l, await s n next, l' => after_append l next l'
  | (t, data) :: l, transfer s buffer next, l' => after_append l (next data) l'

theorem takes_append : ∀ (l : Log) (P : Program) (l' : Log),
    P.Takes (l ++ l') ↔ P.Takes l ∧ (P.after l).Takes l'
  | [], P, l' => by cases P <;> simp [Takes, after]
  | d :: l, stop, l' => by simp [Takes]
  | (t, data) :: l, await s n next, l' => by
    simp only [List.cons_append, Takes, after, takes_append l next l', and_assoc]
  | (t, data) :: l, transfer s buffer next, l' => by
    simp only [List.cons_append, Takes, after, takes_append l (next data) l', and_assoc]

end Program

/-- The bytes of a log at one side. -/
def flow (s : Side) (log : Log) : List U8 := log.flatMap fun d => if d.1 = s then d.2 else []

variable {s t : Side} {log log' : Log} {data : List U8}

@[simp] theorem flow_append : flow s (log ++ log') = flow s log ++ flow s log' := by
  simp [flow]

@[simp] theorem flow_nil : flow s [] = [] := rfl

theorem flow_cons : flow s ((t, data) :: log) = (if t = s then data else []) ++ flow s log := rfl

end Log

/-! ## What a process has recorded -/

section Record

/-- The bytes a side has moved are those of its process's log, and of the call it is in. -/
def Task.Moved (s : Side) (σ : Shared) (l : List U8) : Task → Prop
  | .calling k _ => (σ.moved s).take k = l ∧ l.length = k
  | _ => σ.moved s = l

/-- A process that was to run `P` has recorded what it has moved, and has left of `P` what comes
after that. -/
structure Recorded (P : Program) (w : Worker) (σ : Side → Shared) : Prop where
  takes : P.Takes w.log
  follows : w.failed = false → P.after w.log = w.program
  stopped : w.failed = true → w.program = .stop
  moved : ∀ s, w.failed = false → (w.task s).Moved s (σ s) (flow s w.log)

structure RecordInv (L : Layout) (m : Segment) (program : Process → Program) (x : System) : Prop
    extends SystemInv L m x where
  recorded : ∀ p, Recorded (program p) (x.worker p) (x.shared p)

variable {L : Layout} {m : Segment} {program : Process → Program} {x y z : System}
  {p q : Process} {s t : Side} {e e' : Endpoint} {σ σ' : Shared} {below : Bool} {k : ℕ}
  {buffer : Buffer} {next : List U8 → Program}

theorem Task.Moved.congr {a : Task} {l : List U8} (h : a.Moved s σ l)
    (hσ : σ'.moved s = σ.moved s) : a.Moved s σ' l := by
  cases a <;> simpa only [Task.Moved, hσ] using h

theorem Endpoint.step_moved {cb : CircularBuffer} (hs : e.step cb s below σ = some (e', σ')) :
    σ.moved s <+: σ'.moved s := by
  rcases ht : e.transfer with _ | ⟨t, asked⟩
  · simp [Endpoint.step, ht] at hs
  rcases hc : e.ring.call with _ | c
  swap
  · simp only [Endpoint.step, ht, hc, Option.map_eq_some_iff, Prod.mk.injEq] at hs
    obtain ⟨q, hm, -, rfl⟩ := hs
    exact (Party.move_history hm).1
  cases asked with
  | true =>
    simp only [Endpoint.step, ht, hc, Option.some.injEq, Prod.mk.injEq] at hs
    obtain ⟨-, rfl⟩ := hs
    exact List.prefix_rfl
  | false =>
    simp only [Endpoint.step, ht, hc] at hs
    split at hs <;> simp only [Option.some.injEq, Prod.mk.injEq] at hs <;> obtain ⟨-, rfl⟩ := hs
    · exact List.prefix_rfl
    · cases s <;> exact List.prefix_rfl
    · exact List.prefix_rfl

/-- An access that copies nothing leaves what the process's sides have moved. -/
theorem Stamped.moved_eq (h : SystemInv L m x)
    (hs : EndpointStep (L.ring (p.channel s)).buffer s (x.endpoint p s, x.shared p s) (e, σ))
    (hz : Stamped L p (x.set p s e σ) z) (hd : y.duplex = z.duplex)
    (hσ : σ.moved s = (x.shared p s).moved s) (t : Side) :
    (y.shared p t).moved t = (x.shared p t).moved t := by
  by_cases ht : t = s
  · subst ht
    exact (hz.leaves_self h hs hd).2.moved.trans hσ
  · exact (hz.leaves_of_ne h hs hd fun he => ht (Prod.mk.inj he).2).2.moved

theorem RecordInv.unfailed (h : RecordInv L m program x) (hp : (x.worker p).program ≠ .stop) :
    (x.worker p).failed = false := by
  by_contra hf
  rw [Bool.not_eq_false] at hf
  exact hp ((h.recorded p).stopped hf)

theorem RecordInv.moved_calling (h : RecordInv L m program x)
    (hp : (x.worker p).program = .transfer s buffer next) (hk : (x.worker p).calling = some k) :
    ((x.shared p s).moved s).take k = flow s (x.worker p).log
      ∧ (flow s (x.worker p).log).length = k := by
  have hmoved := (h.recorded p).moved s (h.unfailed (by simp [hp]))
  rw [Worker.task_transfer hp hk, if_pos rfl] at hmoved
  exact hmoved

/-- A call that has returned true has moved all its bytes, and left them in its buffer. -/
theorem RecordInv.filled (h : RecordInv L m program x)
    (hp : (x.worker p).program = .transfer s buffer next) (hk : (x.worker p).calling = some k)
    (ht : (x.endpoint p s).transfer = none) (hresult : (x.endpoint p s).result = some true) :
    (x.shared p s).moved s = flow s (x.worker p).log ++ x.filled p s k buffer
      ∧ x.position p s = k + buffer.1.length
      ∧ (x.filled p s k buffer).length = buffer.1.length
      ∧ (s = .producer → x.filled p s k buffer = buffer.1) := by
  obtain ⟨hdata, hcall⟩ := h.calls hp hk
  obtain ⟨hflow, hlen⟩ := h.moved_calling hp hk
  have hidle := hcall.idle ht
  obtain ⟨hsettled, hsent⟩ := (System.firm h.duplex p s).toEndpointOwn.settled hidle
  have hhanded : (x.endpoint p s).handed = some buffer.1.length := by
    simp only [Endpoint.handed, ht, hresult, if_true, hdata]
  have hpos := hcall.position _ hhanded
  simp only [Party.left, hidle, Option.elim_none, Nat.add_zero] at hpos
  have hmoved : (x.shared p s).moved s = flow s (x.worker p).log ++ x.filled p s k buffer := by
    cases s with
    | producer =>
      have hwhole := hcall.sent rfl _ hhanded
      rw [hsent rfl, hflow, hdata, List.take_length] at hwhole
      exact hwhole
    | consumer =>
      rw [← hflow]
      exact (List.take_append_drop k _).symm
  refine ⟨hmoved, hpos, ?_, fun hs => by rw [hs]; rfl⟩
  have htotal := congrArg List.length hmoved
  rw [List.length_append] at htotal
  omega

/-- Between calls a side has moved what its log says. -/
theorem RecordInv.moved_of_none (h : RecordInv L m program x) (hf : (x.worker p).failed = false)
    (hk : (x.worker p).calling = none) (s : Side) :
    (x.shared p s).moved s = flow s (x.worker p).log := by
  have hmoved := (h.recorded p).moved s hf
  rwa [Worker.task_none hk] at hmoved

theorem RecordInv.moved_await {n : U64} {next : Program} (h : RecordInv L m program x)
    (hp : (x.worker p).program = .await t n next) (s : Side) :
    (x.shared p s).moved s = flow s (x.worker p).log := by
  have hf := h.unfailed (p := p) (by simp [hp])
  rcases hk : (x.worker p).calling with _ | k
  · exact h.moved_of_none hf hk s
  · have hmoved := (h.recorded p).moved s hf
    rw [Worker.task_await hp hk] at hmoved
    split_ifs at hmoved <;> exact hmoved

/-- Where the process has only gone on in its call, its log still says what it has left to do. -/
theorem Recorded.goes_on {P : Program} {w w' : Worker} {σ σ' : Side → Shared} (h : Recorded P w σ)
    (hlog : w'.log = w.log) (hprogram : w'.program = w.program) (hfailed : w'.failed = w.failed)
    (hmoved : ∀ s, w.failed = false → (w'.task s).Moved s (σ' s) (flow s w.log)) :
    Recorded P w' σ' := by
  refine ⟨?_, ?_, ?_, ?_⟩
  · rw [hlog]
    exact h.takes
  · rw [hfailed, hlog, hprogram]
    exact h.follows
  · rw [hfailed, hprogram]
    exact h.stopped
  · rw [hfailed, hlog]
    exact hmoved

/-- Where the call has returned, its log has what it has left in the buffer. -/
theorem Recorded.snoc {P P' : Program} {w w' : Worker} {σ : Side → Shared} {data : List U8}
    (h : Recorded P w σ) (hf : w.failed = false)
    (hw : w' = { w with program := P', calling := none, log := w.log ++ [(s, data)] })
    (htakes : w.program.Takes [(s, data)]) (hafter : w.program.after [(s, data)] = P')
    (hmoved : ∀ t, (σ t).moved t = flow t w.log ++ if s = t then data else []) :
    Recorded P w' σ := by
  subst hw
  refine ⟨?_, fun _ => ?_, fun hf' => ?_, fun t _ => ?_⟩
  · rw [Program.takes_append, h.follows hf]
    exact ⟨h.takes, htakes⟩
  · rw [Program.after_append, h.follows hf]
    exact hafter
  · rw [show w.failed = true from hf'] at hf
    cases hf
  · rw [Worker.task_none rfl]
    change (σ t).moved t = _
    rw [hmoved, flow_append, flow_cons, flow_nil, List.append_nil]

theorem Acts.recorded (h : RecordInv L m program x) (ha : Acts L below p x y) :
    Recorded (program p) (y.worker p) (y.shared p) := by
  have hrec := h.recorded p
  cases ha with
  | stopped hp => exact hrec
  | @ask s n next hp hk =>
    have hmoved := Stamped.moved_eq h.toSystemInv (h.idle hk s).ask (.inl rfl) rfl rfl
    rw [System.worker_setWorker_self]
    refine hrec.goes_on rfl rfl rfl fun t hf => ?_
    rw [Worker.task_await (w := { x.worker p with calling := some _ }) hp rfl]
    have hidle := (hmoved t).trans (h.moved_of_none hf hk t)
    split_ifs <;> exact hidle
  | @count s n next k c party σ hp hk hc hm =>
    obtain ⟨ht, hkind⟩ := h.awaits hp hk
    obtain rfl := Party.move_of_not_transfers (hkind c hc) hm
    have hmoved := Stamped.moved_eq h.toSystemInv (.direct ht (.move hc hm)) (.inl rfl) rfl rfl
    exact hrec.goes_on rfl rfl rfl fun t hf => (hrec.moved t hf).congr (hmoved t)
  | @enough s n next k hp hk hc hn =>
    rw [System.worker_setWorker_self]
    refine hrec.snoc (h.unfailed (by simp [hp])) rfl ?_ ?_ fun t => ?_
    · rw [hp]
      exact ⟨⟨rfl, rfl⟩, next.takes_nil⟩
    · rw [hp]
      exact next.after_nil
    · rw [ite_self, List.append_nil]
      exact h.moved_await hp t
  | @tooFew s n next k hp hk hc hn =>
    rw [System.worker_setWorker_self]
    refine hrec.goes_on rfl rfl rfl fun t hf => ?_
    rw [Worker.task_none rfl]
    exact h.moved_await hp t
  | @begin s buffer next hp hk =>
    have hmoved := Stamped.moved_eq h.toSystemInv (.begin (h.idle hk s) buffer.2) (.inl rfl) rfl rfl
    rw [System.worker_setWorker_self]
    refine hrec.goes_on rfl rfl rfl fun t hf => ?_
    rw [Worker.task_transfer (w := { x.worker p with calling := some _ }) hp rfl]
    have hidle := (hmoved t).trans (h.moved_of_none hf hk t)
    by_cases hst : s = t
    · subst hst
      rw [if_pos rfl, ← h.moved_of_none hf hk s]
      exact ⟨(congrArg (List.take _) (hmoved s)).trans List.take_length, rfl⟩
    · rw [if_neg hst]
      exact hidle
  | @call s buffer next k w e σ _ hp hk ht hs hz =>
    obtain ⟨-, hcall⟩ := h.calls hp hk
    have hadv := (System.firm h.duplex p s).ring.sound.advanced_le s
    have hw : y.worker p = x.worker p := by rw [hz.worker]; rfl
    rw [hw]
    refine hrec.goes_on rfl rfl rfl fun t hf => ?_
    have hbefore := hrec.moved t hf
    by_cases hst : t = s
    · subst hst
      rw [Worker.task_transfer hp hk, if_pos rfl] at hbefore ⊢
      refine ⟨?_, hbefore.2⟩
      rw [(hz.leaves_self h.toSystemInv (.step below hs) rfl).2.moved]
      obtain ⟨l, hl⟩ := Endpoint.step_moved hs
      rw [← hl, List.take_append_of_le_length (hcall.start_le.trans hadv)]
      exact hbefore.1
    · exact hbefore.congr (hz.leaves_of_ne h.toSystemInv (.step below hs) rfl
        fun he => hst (Prod.mk.inj he).2).2.moved
  | @returned s buffer next k hp hk ht hresult =>
    obtain ⟨hmoved, -, hlen, hsame⟩ := h.filled hp hk ht hresult
    have hf := h.unfailed (p := p) (by simp [hp])
    rw [System.worker_setWorker_self]
    refine hrec.snoc hf rfl ?_ ?_ fun t => ?_
    · rw [hp]
      exact ⟨⟨rfl, hlen, hsame⟩, (next _).takes_nil⟩
    · rw [hp]
      exact (next _).after_nil
    · by_cases hst : s = t
      · subst hst
        rw [if_pos rfl]
        exact hmoved
      · have hother := hrec.moved t hf
        rw [Worker.task_transfer hp hk, if_neg hst] at hother
        rw [if_neg hst, List.append_nil]
        exact hother
  | @fails s buffer next k hp hk ht hresult =>
    rw [System.worker_setWorker_self]
    exact ⟨hrec.takes, fun hf => (by cases hf), fun _ => rfl, fun t hf => (by cases hf)⟩

theorem Acts.record (h : RecordInv L m program x) (ha : Acts L below p x y) :
    RecordInv L m program y := by
  refine ⟨ha.inv h.toSystemInv, fun q => ?_⟩
  by_cases hq : q = p
  · rw [hq]
    exact ha.recorded h
  · rw [ha.worker_of_ne hq]
    refine (h.recorded q).goes_on rfl rfl rfl fun s hf => ?_
    exact ((h.recorded q).moved s hf).congr (ha.leaves_of_ne h.toSystemInv hq s).2.moved

theorem RecordInv.reach (h : RecordInv L m program x) (hxy : SystemReach L x y) :
    RecordInv L m program y := by
  induction hxy with
  | refl => exact h
  | tail _ hs ih =>
    obtain ⟨p, now, below, hs⟩ := hs
    exact (System.step_acts hs).record ih

theorem Ready.recordInv (h : Ready L m) (program : Process → Program) :
    RecordInv L m program (.fresh program m) := by
  refine ⟨h.systemInv program, fun p => ⟨?_, fun _ => ?_, fun hf => (by cases hf),
    fun s _ => ?_⟩⟩
  · exact (program p).takes_nil
  · exact (program p).after_nil
  · rw [Worker.task_none rfl]
    rfl

theorem recordInv_start (now now' : Ptime L.sizeofPtime) (program : Process → Program) :
    RecordInv L (duplexStart L now now').mem program (systemStart L now now' program) :=
  (ready_duplexStart now now').recordInv program

end Record

/-! ## No run goes past a system at rest -/

section Behind

variable {L : Layout} {m m' : Segment} {program : Process → Program} {x y z : System}
  {p q : Process} {s t : Side} {e e' : Endpoint} {σ σ' : Shared} {below : Bool} {k : ℕ}
  {buffer : Buffer} {next : List U8 → Program}

/-- The bytes a process has moved its cursor over as it wrote. -/
def System.published (x : System) (p : Process) : List U8 :=
  ((x.shared p .producer).moved .producer).take (x.position p .producer)

/-- Nothing has been done in `x` that has not been done in `y`. -/
structure Behind (x y : System) : Prop where
  log : ∀ p, (x.worker p).log <+: (y.worker p).log
  published : ∀ p, x.published p <+: y.published p
  position : ∀ p s, x.position p s ≤ y.position p s

theorem RecordInv.flow_le (h : RecordInv L m program x) (hf : (x.worker p).failed = false)
    (s : Side) : (flow s (x.worker p).log).length ≤ x.position p s
      ∧ flow s (x.worker p).log <+: (x.shared p s).moved s := by
  have hmoved := (h.recorded p).moved s hf
  have hat := h.task p s
  have hown := (System.firm h.duplex p s).toEndpointOwn
  have hidle : (x.endpoint p s).Idle → (x.shared p s).moved s = flow s (x.worker p).log →
      (flow s (x.worker p).log).length ≤ x.position p s
        ∧ flow s (x.worker p).log <+: (x.shared p s).moved s := by
    intro hi hm
    rw [← hm]
    exact ⟨(hown.settled hi.2).1.le, List.prefix_rfl⟩
  rcases ha : (x.worker p).task s with _ | _ | ⟨k, data⟩ <;> rw [ha] at hmoved hat
  · exact hidle hat hmoved
  · have hset : ((x.shared p s).moved s).length = (x.shared p s).advanced s := by
      have hring := hown.ring.at_call
      rcases hc : (x.endpoint p s).ring.call with _ | c
      · exact (hown.settled hc).1
      · have htr := hat.2 c hc
        rw [hc] at hring
        cases c <;> first | exact hring.1.1 | cases htr
    rw [← hmoved]
    exact ⟨hset.le, List.prefix_rfl⟩
  · rw [← hmoved.1, hmoved.1, hmoved.2]
    refine ⟨hat.2.start_le, ?_⟩
    rw [← hmoved.1]
    exact List.take_prefix _ _

/-- In a write all that has been copied in is of the writes before it and of its buffer. -/
theorem RecordInv.moved_prefix (h : RecordInv L m program x)
    (hp : (x.worker p).program = .transfer .producer buffer next) :
    (x.shared p .producer).moved .producer
      <+: flow .producer (x.worker p).log ++ buffer.1 := by
  rcases hk : (x.worker p).calling with _ | k
  · rw [h.moved_of_none (h.unfailed (by simp [hp])) hk]
    exact List.prefix_append _ _
  · obtain ⟨hdata, hcall⟩ := h.calls hp hk
    have hwithin := hcall.within rfl
    rw [(h.moved_calling hp hk).1, hdata] at hwithin
    have hsent := (System.firm h.duplex p .producer).ring.sent rfl
    refine List.IsPrefix.trans ?_ hwithin
    rw [hsent]
    exact List.prefix_append _ _

theorem RecordInv.published_prefix (h : RecordInv L m program x) (p : Process) :
    (x.shared p .consumer).moved .consumer <+: x.published p.other := by
  have hsound := (System.firm h.duplex p .consumer).ring.sound
  have hle := hsound.moved_le .consumer
  have hpeer : x.shared p.other .producer = x.shared p .consumer :=
    System.shared_peer (s := .consumer)
  unfold System.published System.position
  rw [hpeer]
  exact List.prefix_take_iff.2 ⟨hsound.delivered, hle⟩

theorem EndpointStep.moved_prefix {cb : CircularBuffer}
    (hs : EndpointStep cb s (e, σ) (e', σ')) : σ.moved s <+: σ'.moved s := by
  cases hs with
  | direct ht hs =>
    cases hs with
    | start hp => exact List.prefix_rfl
    | move hc hm => exact (Party.move_history hm).1
  | begin hidle hlt => exact List.prefix_rfl
  | step below hs => exact Endpoint.step_moved hs

theorem Acts.moved_prefix (h : SystemInv L m x) (ha : Acts L below p x y) (q : Process)
    (t : Side) : (x.shared q t).moved t <+: (y.shared q t).moved t := by
  rcases ha.effect h with hd | ⟨s, e, σ, z, hs, hz, hd⟩
  · rw [System.shared_congr hd]
  · by_cases hqt : (q, t) = (p, s)
    · obtain ⟨rfl, rfl⟩ := Prod.mk.inj hqt
      rw [(hz.leaves_self h hs hd).2.moved]
      exact hs.moved_prefix
    · rw [(hz.leaves_of_ne h hs hd hqt).2.moved]

theorem Acts.published_eq (h : SystemInv L m x) (ha : Acts L below p x y)
    (hpos : y.position q .producer = x.position q .producer) : y.published q = x.published q := by
  obtain ⟨l, hl⟩ := ha.moved_prefix h q .producer
  have hle := (System.firm h.duplex q .producer).ring.sound.advanced_le .producer
  unfold System.published
  rw [hpos, ← hl]
  exact List.take_append_of_le_length hle

/-- The process is in the same call in `y` as in `x`, or has recorded what it left there. -/
theorem RecordInv.log_cases (hx : RecordInv L m program x) (hy : RecordInv L m' program y)
    (hfx : (x.worker p).failed = false) (hfy : (y.worker p).failed = false)
    (hlog : (x.worker p).log <+: (y.worker p).log) :
    (y.worker p).log = (x.worker p).log ∧ (y.worker p).program = (x.worker p).program
      ∨ ∃ d rest, (y.worker p).log = (x.worker p).log ++ d :: rest
        ∧ (x.worker p).program.Takes [d] := by
  obtain ⟨l, hl⟩ := hlog
  rcases l with _ | ⟨d, rest⟩
  · left
    rw [List.append_nil] at hl
    refine ⟨hl.symm, ?_⟩
    rw [← (hx.recorded p).follows hfx, ← (hy.recorded p).follows hfy, hl]
  · right
    have htakes := (hy.recorded p).takes
    rw [← hl, Program.takes_append, (hx.recorded p).follows hfx, ← List.singleton_append,
      Program.takes_append] at htakes
    exact ⟨d, rest, hl.symm, htakes.2.1⟩

theorem Endpoint.step_transfer {r : Ring} (hs : e.step r.buffer s below σ = some (e', σ'))
    (hadv : σ'.advanced s ≠ σ.advanced s) : e'.transfer = e.transfer := by
  rcases ht : e.transfer with _ | w
  · simp [Endpoint.step, ht] at hs
  rcases hc : e.ring.call with _ | c
  · rcases (EndpointStep.step below hs).ring_cases with ⟨c, hc', -⟩ | ⟨-, -, hsame, -⟩
    · rw [hc] at hc'
      cases hc'
    · exact absurd (congrFun hsame s) hadv
  · simp only [Endpoint.step, ht, hc, Option.map_eq_some_iff, Prod.mk.injEq] at hs
    obtain ⟨q, -, rfl, -⟩ := hs
    rfl

theorem RecordInv.limit_eq (h : RecordInv L m program x) (p : Process) (s : Side) :
    x.room L p s + x.position p s
      = (L.ring (p.channel s)).reach s (x.position p.other s.peer) := by
  rw [h.room_add p s, limit, System.advanced_peer]

/-- At rest in the call that `x` is in, the cursor is as far as any run can bring it. -/
theorem Behind.limit_le (hx : RecordInv L m program x) (hy : RecordInv L m' program y)
    (h : Behind x y) (p : Process) (s : Side) :
    x.room L p s + x.position p s ≤ y.room L p s + y.position p s := by
  rw [hx.limit_eq, hy.limit_eq]
  exact Ring.reach_mono _ _ (h.position _ _)

/-- What is published is in the cells, and no more than what has been moved over. -/
theorem System.published_prefix_iff {l : List U8} :
    l <+: y.published p ↔ l <+: (y.shared p .producer).moved .producer
      ∧ l.length ≤ y.position p .producer := List.prefix_take_iff

theorem System.length_published_le (x : System) (p : Process) :
    (x.published p).length ≤ x.position p .producer := by
  unfold published
  rw [List.length_take]
  exact Nat.min_le_left _ _

/-- A cursor is not moved past where it is at rest, and over the same bytes. -/
theorem Acts.behind_call (hx : RecordInv L m program x) (hy : RecordInv L m' program y)
    (hrest : y.AtRest L) (h : Behind x y) (hz : RecordInv L m program z)
    (hp : (x.worker p).program = .transfer s buffer next) (hk : (x.worker p).calling = some k)
    (hw : z.worker p = x.worker p)
    (hpeer : z.position p.other s.peer = x.position p.other s.peer)
    (hle : z.position p s ≤ k + buffer.1.length) :
    z.position p s ≤ y.position p s ∧ (s = .producer → z.published p <+: y.published p) := by
  have hfx := hx.unfailed (p := p) (by simp [hp])
  obtain ⟨hresty, hfy⟩ := hrest p
  have hlen := (hx.moved_calling hp hk).2
  have hzp : (z.worker p).program = .transfer s buffer next := by rw [hw]; exact hp
  have hzle := z.length_published_le p
  rcases hx.log_cases hy hfx hfy (h.log p) with ⟨hlog, hprogram⟩ | ⟨⟨t, data⟩, rest, hlog, htakes⟩
  · rw [hp] at hprogram
    have hpos : z.position p s ≤ y.position p s := by
      have hlimit := h.limit_le hx hy p s
      have hroomz := hz.limit_eq p s
      have hroomx := hx.limit_eq p s
      rw [hpeer] at hroomz
      unfold System.Rests at hresty
      rw [hprogram] at hresty
      have hfull := hresty.1
      omega
    refine ⟨hpos, fun hs => ?_⟩
    subst hs
    have hmovedz := hz.moved_prefix hzp
    have hmovedy := hy.moved_prefix hprogram
    have hadv := (System.firm hy.duplex p .producer).ring.sound.advanced_le .producer
    rw [hw] at hmovedz
    rw [hlog] at hmovedy
    exact System.published_prefix_iff.2 ⟨List.prefix_of_prefix_length_le
      ((List.take_prefix _ _).trans hmovedz) hmovedy (hzle.trans (hpos.trans hadv)),
      hzle.trans hpos⟩
  · rw [hp] at htakes
    obtain ⟨⟨rfl, hdata, hsame⟩, -⟩ := htakes
    obtain ⟨hflow, hmovedy⟩ := hy.flow_le hfy t
    rw [hlog, flow_append, flow_cons, if_pos rfl] at hflow hmovedy
    have hpos : z.position p t ≤ y.position p t := by
      rw [List.length_append, List.length_append] at hflow
      omega
    refine ⟨hpos, fun hs => ?_⟩
    subst hs
    have hmovedz := hz.moved_prefix hzp
    rw [hw] at hmovedz
    rw [hsame rfl, ← List.append_assoc] at hmovedy
    exact System.published_prefix_iff.2 ⟨(List.take_prefix _ _).trans
      (hmovedz.trans ((List.prefix_append _ _).trans hmovedy)), hzle.trans hpos⟩

/-- What a count finds that is enough, it finds at rest too, or the wait there is over. -/
theorem Acts.behind_enough {n : U64} {next : Program} (hx : RecordInv L m program x)
    (hy : RecordInv L m' program y) (hrest : y.AtRest L) (h : Behind x y)
    (hp : (x.worker p).program = .await s n next) (hc : (x.endpoint p s).ring.call = none)
    (hn : n ≤ (x.endpoint p s).ring.last) :
    (x.worker p).log ++ [(s, [])] <+: (y.worker p).log := by
  have hfx := hx.unfailed (p := p) (by simp [hp])
  obtain ⟨hresty, hfy⟩ := hrest p
  rcases hx.log_cases hy hfx hfy (h.log p) with ⟨hlog, hprogram⟩ | ⟨⟨t, data⟩, rest, hlog, htakes⟩
  · rw [hp] at hprogram
    have hlast := (System.firm hx.duplex p s).ring.last
    have hroomx := hx.room_add p s
    have hlimit := h.limit_le hx hy p s
    have hposx := (System.firm hx.duplex p s).toEndpointOwn.settled hc
    have hposy : y.position p s ≤ x.position p s := by
      have hadv := (System.firm hy.duplex p s).ring.sound.advanced_le s
      rw [hy.moved_await hprogram s, hlog, ← hx.moved_await hp s, hposx.1] at hadv
      exact hadv
    unfold System.Rests at hresty
    rw [hprogram] at hresty
    simp only at hresty
    rw [BitVec.le_def] at hn
    unfold System.position at hroomx hlimit hposy
    omega
  · rw [hp] at htakes
    obtain ⟨⟨rfl, rfl⟩, -⟩ := htakes
    rw [hlog]
    exact ⟨rest, by simp⟩

/-- What a call has left in its buffer it leaves there in every run that comes to rest. -/
theorem Acts.behind_returned (hx : RecordInv L m program x)
    (hy : RecordInv L m' program y) (hrest : y.AtRest L) (h : Behind x y)
    (hp : (x.worker p).program = .transfer s buffer next) (hk : (x.worker p).calling = some k)
    (ht : (x.endpoint p s).transfer = none) (hresult : (x.endpoint p s).result = some true) :
    (x.worker p).log ++ [(s, x.filled p s k buffer)] <+: (y.worker p).log := by
  have hfx := hx.unfailed (p := p) (by simp [hp])
  obtain ⟨hresty, hfy⟩ := hrest p
  obtain ⟨hmoved, hposx, hlen, hsame⟩ := hx.filled hp hk ht hresult
  have hkx := (hx.moved_calling hp hk).2
  have hpos := h.position p s
  rcases hx.log_cases hy hfx hfy (h.log p) with ⟨hlog, hprogram⟩ | ⟨⟨t, data⟩, rest, hlog, htakes⟩
  · rw [hp] at hprogram
    unfold System.Rests at hresty
    rw [hprogram] at hresty
    have howed := hresty.2
    rcases hky : (y.worker p).calling with _ | k'
    · have hadv := (System.firm hy.duplex p s).ring.sound.advanced_le s
      rw [hy.moved_of_none hfy hky, hlog, hkx] at hadv
      unfold System.owed at howed
      simp only [hprogram, hky] at howed
      unfold System.position at hpos hposx
      omega
    · rw [System.owed_calling hprogram hky] at howed
      have hky' := (hy.moved_calling hprogram hky).2
      rw [hlog] at hky'
      omega
  · rw [hp] at htakes
    obtain ⟨⟨rfl, hdata, hbuffer⟩, -⟩ := htakes
    suffices heq : data = x.filled p t k buffer by
      rw [hlog, heq]
      exact ⟨rest, by simp⟩
    cases t with
    | producer => rw [hbuffer rfl, hsame rfl]
    | consumer =>
      have hpx := (hx.published_prefix p).trans (h.published p.other)
      have hpy := (hy.flow_le hfy .consumer).2.trans (hy.published_prefix p)
      rw [hmoved] at hpx
      rw [hlog, flow_append, flow_cons, if_pos rfl, ← List.append_assoc] at hpy
      have hsame := List.prefix_of_prefix_length_le hpx ((List.prefix_append _ _).trans hpy)
        (by rw [List.length_append, List.length_append, hlen, hdata])
      exact (List.append_cancel_left (hsame.eq_of_length
        (by rw [List.length_append, List.length_append, hlen, hdata]))).symm

/-- No step goes past a system at rest. -/
theorem Acts.behind (hx : RecordInv L m program x) (hy : RecordInv L m' program y)
    (hrest : y.AtRest L) (h : Behind x y) (ha : Acts L below p x z) : Behind z y := by
  have hz := ha.record hx
  have hstill : ∀ q, (∀ t, z.position q t = x.position q t) →
      z.published q <+: y.published q ∧ ∀ t, z.position q t ≤ y.position q t := by
    intro q hpos
    rw [ha.published_eq hx.toSystemInv (hpos .producer)]
    exact ⟨h.published q, fun t => (hpos t).trans_le (h.position q t)⟩
  suffices hown : (z.worker p).log <+: (y.worker p).log ∧ z.published p <+: y.published p
      ∧ ∀ t, z.position p t ≤ y.position p t by
    refine ⟨fun q => ?_, fun q => ?_, fun q => ?_⟩ <;> by_cases hq : q = p
    · exact hq ▸ hown.1
    · rw [ha.worker_of_ne hq]
      exact h.log q
    · exact hq ▸ hown.2.1
    · exact (hstill q (ha.position_of_ne hx.toSystemInv hq)).1
    · exact hq ▸ hown.2.2
    · exact (hstill q (ha.position_of_ne hx.toSystemInv hq)).2
  have hact := ha
  cases ha with
  | stopped hp => exact ⟨h.log p, hstill p fun _ => rfl⟩
  | @ask s n next hp hk =>
    have hpos := Stamped.position_eq hx.toSystemInv (hx.idle hk s).ask (.inl rfl) rfl rfl
    rw [System.worker_setWorker_self]
    exact ⟨h.log p, hstill p hpos⟩
  | @count s n next k c party σ hp hk hc hm =>
    obtain ⟨ht, hkind⟩ := hx.awaits hp hk
    obtain rfl := Party.move_of_not_transfers (hkind c hc) hm
    have hpos := Stamped.position_eq hx.toSystemInv (.direct ht (.move hc hm)) (.inl rfl) rfl rfl
    exact ⟨h.log p, hstill p hpos⟩
  | enough hp hk hc hn =>
    rw [System.worker_setWorker_self]
    exact ⟨Acts.behind_enough hx hy hrest h hp hc hn, hstill p fun _ => rfl⟩
  | tooFew hp hk hc hn =>
    rw [System.worker_setWorker_self]
    exact ⟨h.log p, hstill p fun _ => rfl⟩
  | @begin s buffer next hp hk =>
    have hpos := Stamped.position_eq hx.toSystemInv (.begin (hx.idle hk s) buffer.2) (.inl rfl) rfl
      rfl
    rw [System.worker_setWorker_self]
    exact ⟨h.log p, hstill p hpos⟩
  | @call s buffer next k w e σ _ hp hk ht hs hstamp =>
    have hw : z.worker p = x.worker p := by rw [hstamp.worker]; rfl
    by_cases hadv : σ.advanced s = x.position p s
    · rw [hw]
      exact ⟨h.log p, hstill p (hstamp.position_eq hx.toSystemInv (.step below hs) rfl hadv)⟩
    have hzp : (z.worker p).program = .transfer s buffer next := by rw [hw]; exact hp
    have hzk : (z.worker p).calling = some k := by rw [hw]; exact hk
    obtain ⟨hdata, hcall⟩ := hz.calls hzp hzk
    have hle := hcall.advanced_le (System.firm hz.duplex p s).toEndpointOwn fun hnone => by
      rw [hstamp.endpoint, System.endpoint_set_self, Endpoint.step_transfer hs hadv, ht] at hnone
      cases hnone
    rw [hdata] at hle
    have hpeer := hact.position_of_ne hx.toSystemInv p.other_ne s.peer
    obtain ⟨hpos, hpublished⟩ := Acts.behind_call hx hy hrest h hz hp hk hw hpeer hle
    have hother : ∀ t, t ≠ s → z.position p t = x.position p t := fun t ht' =>
      (hstamp.leaves_of_ne hx.toSystemInv (.step below hs) rfl
        fun he => ht' (Prod.mk.inj he).2).2.advanced
    refine ⟨hw ▸ h.log p, ?_, fun t => ?_⟩
    · by_cases hs' : s = .producer
      · exact hpublished hs'
      · rw [hact.published_eq hx.toSystemInv (hother _ (Ne.symm hs'))]
        exact h.published p
    · by_cases ht' : t = s
      · exact ht' ▸ hpos
      · exact (hother t ht').trans_le (h.position p t)
  | returned hp hk ht hresult =>
    rw [System.worker_setWorker_self]
    exact ⟨Acts.behind_returned hx hy hrest h hp hk ht hresult, hstill p fun _ => rfl⟩
  | fails hp hk ht hresult =>
    rw [System.worker_setWorker_self]
    exact ⟨h.log p, hstill p fun _ => rfl⟩

theorem behind_fresh (m : Segment) : Behind (.fresh program m) y := by
  refine ⟨fun p => List.nil_prefix, fun p => ?_, fun p s => Nat.zero_le _⟩
  have hnil : (System.fresh program m).published p = [] := rfl
  rw [hnil]
  exact List.nil_prefix

theorem behind_start (now now' : Ptime L.sizeofPtime) :
    Behind (systemStart L now now' program) y :=
  behind_fresh _

theorem RecordInv.behind (hx : RecordInv L m program x) (hy : RecordInv L m' program y)
    (hrest : y.AtRest L) (h : Behind x y) (hxz : SystemReach L x z) : Behind z y := by
  induction hxz with
  | refl => exact h
  | tail hreach hs ih =>
    obtain ⟨p, now, below, hs⟩ := hs
    exact (System.step_acts hs).behind (hx.reach hreach) hy hrest ih

/-- Two programs have one outcome. Whatever order their steps are taken in and whatever their timers
answer, what their calls leave in the buffers is the start of what they leave in any run that
comes to rest, and all of it if this one has come to rest too. -/
theorem outcome_unique (L : Layout) (now now' : Ptime L.sizeofPtime)
    (program : Process → Program) {x y : System}
    (hx : SystemReach L (systemStart L now now' program) x)
    (hy : SystemReach L (systemStart L now now' program) y) (hrest : y.AtRest L) (p : Process) :
    (x.worker p).log <+: (y.worker p).log
      ∧ (x.AtRest L → (x.worker p).log = (y.worker p).log) := by
  have hstart := recordInv_start now now' program
  have hyinv := hstart.reach hy
  have hxy := hstart.behind hyinv hrest (behind_start now now') hx
  refine ⟨hxy.log p, fun hrest' => ?_⟩
  have hyx := hstart.behind (hstart.reach hx) hrest' (behind_start now now') hy
  exact (hxy.log p).eq_of_length_le (hyx.log p).length_le

theorem outcome_unique_small : ∃ x y,
    SystemReach smallLayout (systemStart smallLayout (.zero _) (.zero _) askAndAnswer) x
      ∧ SystemReach smallLayout (systemStart smallLayout (.zero _) (.zero _) askAndAnswer) y
      ∧ y.AtRest smallLayout
      ∧ ∀ p, (x.worker p).log <+: (y.worker p).log
        ∧ (x.AtRest smallLayout → (x.worker p).log = (y.worker p).log) := by
  obtain ⟨ρ, hρ, hoften⟩ := exists_patientRun (L := smallLayout) (.zero _) (.zero _) askAndAnswer
  obtain ⟨i, hi⟩ := PatientInv.settles (hρ ▸ patientInv_start _ _ _) hoften
  have hx := PatientRun.reach ρ 9
  have hy := PatientRun.reach ρ i
  rw [hρ] at hx hy
  exact ⟨_, _, hx, hy, (hi i le_rfl).1, outcome_unique smallLayout _ _ _ hx hy (hi i le_rfl).1⟩

end Behind

end MemMapIPC
