import MemMapIPC.Proofs.TwoWay

/-!
# The two-way threads come to the end of their loops

Cursors and counters grow only so often. When they have stopped, a thread with a chunk to write and
room for it would come nearer to the write with each of its steps (`TwoWayStep.nearer`), and
likewise for a read. So nothing is left to write or to read, and the threads leave their loops. A
chunk larger than a ring holds is never written.
-/

namespace MemMapIPC

open Interleaving Relation Fair

variable {T : TwoWayTest} {L : Layout} {m : Segment} {x y : TwoWay} {p q : Process} {s t : Side}
  {below : Bool}

theorem TwoWay.Proceeds.duplex (hy : x.Proceeds T p y) : y.system.duplex = x.system.duplex := by
  cases hy <;> rfl

theorem TwoWay.Proceeds.of_ne (hy : x.Proceeds T p y) (hq : q ≠ p) :
    y.thread q = x.thread q ∧ y.system.worker q = x.system.worker q := by
  cases hy with
  | past => exact ⟨rfl, rfl⟩
  | _ => exact ⟨Function.update_of_ne hq _ _, System.worker_load_of_ne hq⟩

theorem TwoWay.Proceeds.counter_le (hy : x.Proceeds T p y) (s : Side) :
    (x.thread p).counter s ≤ (y.thread p).counter s := by
  cases hy with
  | past => exact le_rfl
  | @counts t hstage =>
    show _ ≤ (Function.update x.thread p _ p).counter s
    rw [Function.update_self]
    by_cases hst : s = t
    · subst hst
      simp
    · simp [hst]
  | _ =>
    show _ ≤ (Function.update x.thread p _ p).counter s
    rw [Function.update_self]

/-- Counters and cursors only grow. -/
theorem TwoWayStep.mono (h : TwoWayInv T L m x) (hs : TwoWayStep T L p x y) (q : Process)
    (s : Side) : (x.thread q).counter s ≤ (y.thread q).counter s
      ∧ x.system.position q s ≤ y.system.position q s := by
  rcases hs.cases with ⟨hp, hy⟩ | ⟨hp, hthread, below, ha⟩
  · refine ⟨?_, ?_⟩
    · by_cases hq : q = p
      · rw [hq]
        exact hy.counter_le s
      · rw [(hy.of_ne hq).1]
    · unfold System.position
      rw [System.shared_congr hy.duplex]
  · exact ⟨by rw [hthread], ha.position_le h.patient.toSystemInv q s⟩

/-- A cursor is not past the chunks there are, and one more. -/
theorem TwoWayInv.position_le (h : TwoWayInv T L m x) (p : Process) (s : Side) :
    x.system.position p s ≤ (T.chunks + 1) * T.chunkSize.toNat := by
  have hwritten : ∀ p, ((x.system.shared p .producer).moved .producer).length
      ≤ (T.chunks + 1) * T.chunkSize.toNat := fun p => by
    have hle := (h.written_prefix p).length_le
    rw [T.length_stream] at hle
    exact hle.trans (Nat.mul_le_mul_right _ (Nat.succ_le_succ (h.made_le p .producer)))
  have hsound := (System.firm h.patient.duplex p s).ring.sound
  refine (hsound.advanced_le s).trans ?_
  cases s with
  | producer => exact hwritten p
  | consumer =>
    have hpeer : x.system.shared p.other .producer = x.system.shared p .consumer :=
      System.shared_peer (s := .consumer)
    refine hsound.delivered.length_le.trans ?_
    rw [← hpeer]
    exact hwritten p.other

theorem TwoWayRun.inv {ρ : TwoWayRun T L} (h : TwoWayInv T L m (ρ.state 0)) (i : ℕ) :
    TwoWayInv T L m (ρ.state i) :=
  ρ.always (P := TwoWayInv T L m) (fun hx hs => hs.inv hx) h i

/-- What a thread has still to count and its cursors to move over. -/
def TwoWay.remaining (T : TwoWayTest) (x : TwoWay) (p : Process) (s : Side) : ℕ :=
  (T.chunks - (x.thread p).counter s) + ((T.chunks + 1) * T.chunkSize.toNat - x.system.position p s)

theorem TwoWayStep.remaining (h : TwoWayInv T L m x) (hs : TwoWayStep T L p x y) (q : Process)
    (s : Side) : y.remaining T q s ≤ x.remaining T q s
      ∧ (y.remaining T q s = x.remaining T q s → (y.thread q).counter s = (x.thread q).counter s
        ∧ y.system.position q s = x.system.position q s) := by
  have hy := hs.inv h
  obtain ⟨hcounter, hposition⟩ := hs.mono h q s
  have hcounter' := (hy.at_loop q).counter_le s
  have hposition' := hy.position_le q s
  unfold TwoWay.remaining
  omega

/-- From some time on no counter and no cursor moves. -/
theorem TwoWayInv.exists_still {ρ : TwoWayRun T L} (h : TwoWayInv T L m (ρ.state 0)) :
    ∃ i, ∀ j ≥ i, ∀ p s, ((ρ.state (j + 1)).thread p).counter s = ((ρ.state j).thread p).counter s
      ∧ (ρ.state (j + 1)).system.position p s = (ρ.state j).system.position p s := by
  have hsteps := fun j p s => (ρ.next j).remaining (TwoWayRun.inv h j) p s
  have hone : ∀ p, ∃ i ≥ 0, ∀ j ≥ i, ∀ s,
      ((ρ.state (j + 1)).thread p).counter s = ((ρ.state j).thread p).counter s
        ∧ (ρ.state (j + 1)).system.position p s = (ρ.state j).system.position p s := by
    intro p
    obtain ⟨i, hi⟩ := ρ.settles
      (fun x => x.remaining T p .producer + x.remaining T p .consumer) wellFounded_lt fun j =>
        (Nat.add_le_add (hsteps j p .producer).1 (hsteps j p .consumer).1).lt_or_eq
    refine ⟨i, Nat.zero_le _, fun j hj s => (hsteps j p s).2 ?_⟩
    have hsum := (hi (j + 1) (by omega)).trans (hi j hj).symm
    have hproducer := (hsteps j p .producer).1
    have hconsumer := (hsteps j p .consumer).1
    cases s <;> omega
  obtain ⟨i, -, hi⟩ := Process.exists_from hone
  exact ⟨i, hi⟩

/-- Both words of a cursor are the same but in a transfer. -/
theorem SystemInv.agrees_of_stop {z : System} (h : SystemInv L m z)
    (hp : (z.worker p).program = .stop) (s : Side) : z.Agrees L p s := by
  refine (System.firm h.duplex p s).paired fun v later hc => ?_
  rw [(h.idle_of_stop hp s).2] at hc
  cases hc

theorem TwoWayStep.agrees (h : TwoWayInv T L m x) (hs : TwoWayStep T L p x y)
    (hpos : ∀ q t, y.system.position q t = x.system.position q t) :
    (∀ q t, x.system.Agrees L q t → y.system.Agrees L q t) ∧ ∀ t, y.system.Agrees L p t := by
  rcases hs.cases with ⟨hp, hy⟩ | ⟨hp, hthread, below, ha⟩
  · have hsame : ∀ q t, y.system.Agrees L q t ↔ x.system.Agrees L q t := fun q t => by
      unfold System.Agrees
      rw [System.shared_congr hy.duplex]
    exact ⟨fun q t => (hsame q t).2,
      fun t => (hsame p t).2 (h.patient.toSystemInv.agrees_of_stop hp t)⟩
  · have hkeep := fun q t => ha.agrees h.patient.toSystemInv (hpos q t)
    refine ⟨hkeep, fun t => ?_⟩
    by_cases hx : x.system.Agrees L p t
    · exact hkeep p t hx
    · exact ha.agrees_own h.patient.toSystemInv (hpos p) hx

theorem TwoWayInv.exists_agree {ρ : TwoWayRun T L} (h : TwoWayInv T L m (ρ.state 0))
    (hoften : ∀ p, ρ.Often p) {i : ℕ}
    (hpos : ∀ j ≥ i, ∀ p s, (ρ.state (j + 1)).system.position p s
      = (ρ.state j).system.position p s) :
    ∃ l ≥ i, ∀ j ≥ l, ∀ p s, (ρ.state j).system.Agrees L p s := by
  refine Process.exists_from fun p => ρ.lasts (hoften p)
    (Q := fun x => ∀ s, x.system.Agrees L p s) (fun j hj hp s => ?_) fun j hj ha s => ?_
  · subst hp
    exact ((ρ.next j).agrees (TwoWayRun.inv h j) (hpos j hj)).2 s
  · exact ((ρ.next j).agrees (TwoWayRun.inv h j) (hpos j hj)).1 p s (ha s)

theorem Program.Single.next_eq {P Q : Program} (h : P.Single) (hnext : Q.Next P) : Q = .stop := by
  cases h <;> cases hnext <;> rfl

/-- There is room for all that a call has still to move. -/
theorem System.Guarded.not_rests {z : System} (h : SystemInv L m z) (hz : z.Guarded L p)
    (hp : (z.worker p).program ≠ .stop)
    (hcount : ∀ s n next, (z.worker p).program = .await s n next → n = 0) : ¬z.Rests L p := by
  unfold System.Rests
  rcases hprogram : (z.worker p).program with _ | ⟨s, n, next⟩ | ⟨s, buffer, next⟩
  · exact absurd hprogram hp
  · obtain rfl := hcount s n next hprogram
    simp
  · have hroom := h.room_add p s
    have hlast := (System.firm h.duplex p s).ring.last
    have howed : z.owed p ≤ z.room L p s := by
      rcases hk : (z.worker p).calling with _ | k
      · have hle := hz.checked s buffer next hprogram hk
        have howed : z.owed p = buffer.1.length := by
          unfold System.owed
          rw [hprogram, hk]
        unfold System.position at hroom
        omega
      · have hle := hz.room s buffer next k hprogram hk
        have howed := System.owed_calling hprogram hk
        omega
    rintro ⟨hnone, hsome⟩
    omega

/-- With the cursors at rest a step of a call ends it, or brings it nearer to its end. -/
theorem Acts.nears {z : System} (h : TwoWayInv T L m x)
    (hp : (x.system.worker p).program ≠ .stop) (ha : Acts L true p x.system z)
    (hpos : ∀ q t, z.position q t = x.system.position q t)
    (hagree : ∀ q t, x.system.Agrees L q t) : (z.worker p).program = .stop
      ∨ (z.worker p).program = (x.system.worker p).program ∧ z.stage L p < x.system.stage L p := by
  have hguarded := h.guarded p
  rcases ha.advances h.patient with hnext | ⟨-, -, t, hne⟩ | ⟨htodo, -⟩
  · exact .inl (hguarded.single.next_eq hnext)
  · exact absurd (hpos p t) hne
  · refine .inr ⟨congrArg Prod.fst htodo, ha.stage_lt h.patient htodo hpos hagree ?_⟩
    exact hguarded.not_rests h.patient.toSystemInv hp fun s n next hawait =>
      ((h.at_loop p).await_eq hawait).2

/-- The count at side `s` is one that may not find `n` bytes: it goes by an old word of the peer's,
or has found less. -/
def System.stale (L : Layout) (n : U64) (x : System) (p : Process) (s : Side) : Bool :=
  match (x.worker p).program, (x.worker p).calling with
  | .await _ _ _, none => false
  | _, _ => (x.endpoint p s).ring.stale (x.first L p s) n

/-- The stages still to come before a transfer at side `s` is over. -/
def TwoWayStage.away (s : Side) (stale : Bool) : TwoWayStage → ℕ
  | past => 0
  | test =>
    match s with
    | .producer => 3
    | .consumer => 5
  | count t =>
    match s, t with
    | .producer, .consumer => 5
    | .consumer, .producer => 4
    | _, _ => if stale then 6 else 2
  | transfer t =>
    match s, t with
    | .producer, .consumer => 4
    | .consumer, .producer => 3
    | _, _ => 1

/-- The stages left of the loop when nothing is left to transfer. -/
def TwoWayStage.left : TwoWayStage → ℕ
  | past => 0
  | test => 1
  | count .consumer => 2
  | transfer .consumer => 3
  | count .producer => 4
  | transfer .producer => 5

/-- How far a thread is from the last of the stages that `away` counts. -/
def TwoWay.distance (L : Layout) (away : ℕ) (x : TwoWay) (p : Process) : ℕ ×ₗ (ℕ ×ₗ ℕ) :=
  toLex (2 * away + (if (x.system.worker p).program.side = none then 0 else 1), x.system.stage L p)

/-- A thread that has a chunk to transfer at side `s`, and room for it, or is about it. -/
def TwoWay.Wants (T : TwoWayTest) (L : Layout) (x : TwoWay) (p : Process) (s : Side) : Prop :=
  (x.thread p).stage = .transfer s
    ∨ T.chunkSize.toNat ≤ x.system.room L p s ∧ (x.thread p).counter s < T.chunks

theorem System.stale_of_calling {z : System} {n : U64} {k : ℕ}
    (hk : (z.worker p).calling = some k) :
    z.stale L n p s = (z.endpoint p s).ring.stale (z.first L p s) n := by
  unfold stale
  rw [hk]
  cases (z.worker p).program <;> rfl

theorem System.stale_of_stop {z : System} {n : U64} (hp : (z.worker p).program = .stop) :
    z.stale L n p s = (z.endpoint p s).ring.stale (z.first L p s) n := by
  unfold stale
  rw [hp]

/-- A count by the peer's present word stays one, and finds what there is. -/
theorem Acts.stale {w z : System} {n : U64} (h : SystemInv L m w) (ha : Acts L below p w z)
    (hp : (w.worker p).program = .await s 0 .stop)
    (hpos : ∀ q t, z.position q t = w.position q t) (hroom : n.toNat ≤ w.room L p s)
    (hfresh : w.stale L n p s = false) : z.stale L n p s = false := by
  have hfirst := System.first_congr h (ha.inv h) hpos p s
  cases ha with
  | stopped hp' =>
    rw [hp] at hp'
    cases hp'
  | ask hp' hk =>
    obtain ⟨rfl, -⟩ := Program.await.inj (hp.symm.trans hp')
    rw [System.stale_of_calling (by rw [System.worker_setWorker_self]),
      System.endpoint_setWorker, System.endpoint_set_self]
    rfl
  | @count t _ next k c party σ hp' hk hc hm =>
    obtain ⟨rfl, -⟩ := Program.await.inj (hp.symm.trans hp')
    have hadd := h.room_add p s
    have hkind := (h.awaits hp hk).2 c hc
    unfold System.position at hadd
    rw [System.stale_of_calling hk] at hfresh
    rw [System.stale_of_calling (z := w.set p s _ σ) hk, hfirst, System.endpoint_set_self]
    exact (System.firm h.duplex p s).ring.move_stale hc hkind hm (by omega) hfresh
  | enough hp' hk hc hn =>
    obtain ⟨rfl, -, rfl⟩ := Program.await.inj (hp.symm.trans hp')
    rw [System.stale_of_calling hk] at hfresh
    rw [System.stale_of_stop (by rw [System.worker_setWorker_self])]
    exact hfresh
  | tooFew hp' hk hc hn =>
    obtain ⟨-, rfl, -⟩ := Program.await.inj (hp.symm.trans hp')
    exact absurd (BitVec.le_def.2 (Nat.zero_le _)) hn
  | _ hp' =>
    rw [hp] at hp'
    cases hp'

theorem TwoWayStage.away_le {stage : TwoWayStage} {stale stale' : Bool}
    (h : stage = .count s → stale = false → stale' = false) :
    stage.away s stale' ≤ stage.away s stale := by
  unfold away
  rcases stage with _ | t | t | _ <;> cases s <;> try cases t
  all_goals first | exact le_rfl | skip
  all_goals
    cases stale
    · simp [h rfl rfl]
    · cases stale' <;> simp

/-- With the cursors at rest a step of a thread brings it nearer, if between calls it comes to a
stage that is. -/
theorem TwoWayStep.nearer {away away' : ℕ} (h : TwoWayInv T L m x) (hs : TwoWayStep T L p x y)
    (hpos : ∀ q t, y.system.position q t = x.system.position q t)
    (hagree : ∀ q t, x.system.Agrees L q t)
    (hproceed : (x.system.worker p).program = .stop → x.Proceeds T p y → away' < away)
    (hcall : (x.system.worker p).program ≠ .stop → y.thread = x.thread →
      Acts L true p x.system y.system → away' ≤ away) :
    y.distance L away' p < x.distance L away p := by
  unfold TwoWay.distance
  rw [Prod.Lex.toLex_lt_toLex]
  simp only
  rcases hs.cases with ⟨hp, hy⟩ | ⟨hp, hthread, below, ha⟩
  · have haway := hproceed hp hy
    left
    rw [hp, if_pos (show Program.stop.side = none from rfl)]
    split_ifs <;> omega
  · replace ha := ha.patiently (h.guarded p)
    have haway := hcall hp hthread ha
    rcases ha.nears h hp hpos hagree with hstop | ⟨hprogram, hstage⟩
    · have hside : (x.system.worker p).program.side ≠ none := by
        revert hp
        cases (x.system.worker p).program <;> simp [Program.side]
      left
      rw [hstop, if_pos (show Program.stop.side = none from rfl), if_neg hside]
      omega
    · rw [hprogram]
      rcases haway.lt_or_eq with hlt | rfl
      · exact .inl (by omega)
      · exact .inr ⟨rfl, hstage⟩

/-! ## A chunk to transfer -/

section Wants

/-- What is left before a transfer at side `s`, of a thread that is to make one. -/
def TwoWay.ahead (T : TwoWayTest) (L : Layout) (p : Process) (s : Side) (x : TwoWay) : ℕ :=
  (x.thread p).stage.away s (x.system.stale L T.chunkSize p s)

theorem TwoWay.ahead_enter (x : TwoWay) (p : Process) (thread : TwoWayThread)
    (stage : TwoWayStage) (s : Side) :
    (x.enter T p thread stage).ahead T L p s = stage.away s false := by
  unfold ahead enter
  simp only [Function.update_self]
  cases stage with
  | count t =>
    unfold System.stale
    rw [System.worker_load_self]
    rfl
  | _ => rfl

/-- A count that has ended and is not an old one has found what there is to find. -/
theorem TwoWayInv.last_of_fresh {n : U64} (h : TwoWayInv T L m x)
    (hp : (x.system.worker p).program = .stop) (hfresh : x.system.stale L n p s = false) :
    n ≤ (x.system.endpoint p s).ring.last := by
  rw [System.stale_of_stop hp] at hfresh
  unfold Party.stale at hfresh
  rw [(h.patient.toSystemInv.idle_of_stop hp s).2] at hfresh
  simpa using hfresh

/-- A thread that goes on from one of its calls comes nearer to a transfer it has room for. -/
theorem TwoWay.Proceeds.ahead_lt (h : TwoWayInv T L m x)
    (hp : (x.system.worker p).program = .stop) (hy : x.Proceeds T p y)
    (hcounter : (y.thread p).counter s = (x.thread p).counter s) (hwants : x.Wants T L p s) :
    y.ahead T L p s < x.ahead T L p s := by
  have hroom : (x.thread p).stage ≠ .transfer s → (x.thread p).counter s < T.chunks :=
    fun hne => (hwants.resolve_left hne).2
  have haway : ∀ stage', (x.thread p).stage = stage' →
      x.ahead T L p s = stage'.away s (x.system.stale L T.chunkSize p s) := by
    rintro _ rfl
    rfl
  cases hy with
  | again hstage =>
    rw [ahead_enter, haway _ hstage]
    generalize x.system.stale L T.chunkSize p s = stale
    cases s <;> cases stale <;> exact (by decide)
  | leaves hstage hle => exact absurd (hroom (by simp [hstage])) (Nat.not_lt.2 (hle s))
  | @enough t hstage =>
    rw [ahead_enter, haway _ hstage]
    generalize x.system.stale L T.chunkSize p s = stale
    cases s <;> cases t <;> cases stale <;> exact (by decide)
  | @passes t hstage hne =>
    rw [ahead_enter, haway _ hstage]
    rcases hstale : x.system.stale L T.chunkSize p s with _ | _
    · have hts : t ≠ s := by
        rintro rfl
        exact hne ⟨h.last_of_fresh hp hstale, hroom (by simp [hstage])⟩
      cases s <;> cases t <;> first | exact absurd rfl hts | exact (by decide)
    · cases s <;> cases t <;> exact (by decide)
  | @counts t hstage =>
    have hts : t ≠ s := by
      rintro rfl
      unfold TwoWay.enter at hcounter
      simp at hcounter
    rw [ahead_enter, haway _ hstage]
    generalize x.system.stale L T.chunkSize p s = stale
    cases s <;> cases t <;> cases stale <;> first | exact absurd rfl hts | exact (by decide)
  | past hstage =>
    exact absurd (hroom (by simp [hstage])) (Nat.not_lt.2 ((h.at_loop p).past hstage s))

/-- In its calls it does not fall back. -/
theorem TwoWayInv.ahead_le (h : TwoWayInv T L m x) (hp : (x.system.worker p).program ≠ .stop)
    (hthread : y.thread = x.thread) (ha : Acts L below p x.system y.system)
    (hpos : ∀ q t, y.system.position q t = x.system.position q t) (hwants : x.Wants T L p s) :
    y.ahead T L p s ≤ x.ahead T L p s := by
  unfold TwoWay.ahead
  rw [hthread]
  refine TwoWayStage.away_le fun hstage hfresh => ?_
  have hcall := (h.at_loop p).program.resolve_left hp
  rw [hstage] at hcall
  have hroom := (hwants.resolve_left (by simp [hstage])).1
  exact ha.stale h.patient.toSystemInv hcall hpos hroom hfresh

theorem TwoWayStep.nearer_transfer (h : TwoWayInv T L m x) (hs : TwoWayStep T L p x y)
    (hcounter : (y.thread p).counter s = (x.thread p).counter s)
    (hpos : ∀ q t, y.system.position q t = x.system.position q t)
    (hagree : ∀ q t, x.system.Agrees L q t) (hwants : x.Wants T L p s) :
    y.distance L (y.ahead T L p s) p < x.distance L (x.ahead T L p s) p :=
  hs.nearer h hpos hagree (fun hp hy => hy.ahead_lt h hp hcounter hwants)
    fun hp hthread ha => h.ahead_le hp hthread ha hpos hwants

theorem System.stage_congr {w z : System} (hduplex : z.duplex = w.duplex)
    (hworker : z.worker p = w.worker p) : z.stage L p = w.stage L p := by
  unfold System.stage System.first
  simp only [hworker, System.endpoint_congr hduplex, System.shared_congr hduplex]

/-- What a step that moves no cursor leaves of the other process and its thread. -/
theorem TwoWayStep.of_ne (h : TwoWayInv T L m x) (hs : TwoWayStep T L p x y)
    (hpos : ∀ q t, y.system.position q t = x.system.position q t) (hq : q ≠ p) :
    y.thread q = x.thread q ∧ y.system.worker q = x.system.worker q
      ∧ y.system.stage L q = x.system.stage L q
      ∧ ∀ n t, y.system.stale L n q t = x.system.stale L n q t := by
  have hfirst := System.first_congr h.patient.toSystemInv (hs.inv h).patient.toSystemInv hpos q
  have hstale : y.system.worker q = x.system.worker q →
      (∀ t, y.system.endpoint q t = x.system.endpoint q t) →
      ∀ n t, y.system.stale L n q t = x.system.stale L n q t := fun hworker hends n t => by
    unfold System.stale
    rw [hworker, hends, hfirst]
  rcases hs.cases with ⟨hp, hy⟩ | ⟨hp, hthread, below, ha⟩
  · obtain ⟨hthread, hworker⟩ := hy.of_ne hq
    exact ⟨hthread, hworker, System.stage_congr hy.duplex hworker,
      hstale hworker (System.endpoint_congr hy.duplex q)⟩
  · have hworker := ha.worker_of_ne hq
    exact ⟨by rw [hthread], hworker, ha.stage_of_ne h.patient.toSystemInv hpos hq,
      hstale hworker fun t => (ha.leaves_of_ne h.patient.toSystemInv hq t).1⟩

theorem TwoWayStep.distance_of_ne {away : ℕ} (h : TwoWayInv T L m x) (hs : TwoWayStep T L p x y)
    (hpos : ∀ q t, y.system.position q t = x.system.position q t) (hq : q ≠ p) :
    y.distance L away q = x.distance L away q := by
  obtain ⟨-, hworker, hstage, -⟩ := hs.of_ne h hpos hq
  unfold TwoWay.distance
  rw [hworker, hstage]

theorem TwoWayStep.ahead_of_ne (h : TwoWayInv T L m x) (hs : TwoWayStep T L p x y)
    (hpos : ∀ q t, y.system.position q t = x.system.position q t) (hq : q ≠ p) (t : Side) :
    y.ahead T L q t = x.ahead T L q t := by
  obtain ⟨hthread, -, -, hstale⟩ := hs.of_ne h hpos hq
  unfold TwoWay.ahead
  rw [hthread, hstale]

/-- A step by which nothing is counted and no cursor moves leaves what a thread is to transfer. -/
theorem TwoWayStep.wants (h : TwoWayInv T L m x) (hs : TwoWayStep T L p x y)
    (hcounter : ∀ q t, (y.thread q).counter t = (x.thread q).counter t)
    (hpos : ∀ q t, y.system.position q t = x.system.position q t) (hwants : x.Wants T L q s) :
    y.Wants T L q s := by
  unfold TwoWay.Wants
  rw [System.room_congr hpos, hcounter]
  refine hwants.imp_left fun hstage => ?_
  by_cases hq : q = p
  · subst hq
    rcases hs.cases with ⟨hp, hy⟩ | ⟨hp, hthread, -⟩
    · have hcount := hcounter q s
      cases hy with
      | @counts t hstage' =>
        obtain rfl := TwoWayStage.transfer.inj (hstage.symm.trans hstage')
        unfold TwoWay.enter at hcount
        simp at hcount
      | past => exact hstage
      | _ hstage' =>
        rw [hstage] at hstage'
        cases hstage'
    · rw [hthread]
      exact hstage
  · rw [(hs.of_ne h hpos hq).1]
    exact hstage

/-- From some time on no thread has a chunk to transfer and room for it. -/
theorem TwoWayInv.exists_not_wants {ρ : TwoWayRun T L} (h : TwoWayInv T L m (ρ.state 0))
    (hoften : ∀ p, ρ.Often p) : ∃ i, ∀ j ≥ i,
      (∀ p s, ((ρ.state (j + 1)).thread p).counter s = ((ρ.state j).thread p).counter s)
        ∧ (∀ p s, (ρ.state (j + 1)).system.position p s = (ρ.state j).system.position p s)
        ∧ (∀ p s, (ρ.state j).system.Agrees L p s) ∧ ∀ p s, ¬(ρ.state j).Wants T L p s := by
  obtain ⟨i, hstill⟩ := h.exists_still
  obtain ⟨l, hil, hagree⟩ := h.exists_agree hoften fun j hj p s => (hstill j hj p s).2
  have hcounter := fun j (hj : j ≥ l) p s => (hstill j (hil.trans hj) p s).1
  have hpos := fun j (hj : j ≥ l) p s => (hstill j (hil.trans hj) p s).2
  refine ⟨l, fun j hj => ⟨hcounter j hj, hpos j hj, hagree j hj, fun p s hwants => ?_⟩⟩
  have hkeep : ∀ k ≥ j, (ρ.state k).Wants T L p s := by
    intro k hk
    induction k, hk using Nat.le_induction with
    | base => exact hwants
    | succ k hk ih =>
      exact (ρ.next k).wants (TwoWayRun.inv h k) (hcounter k (by omega)) (hpos k (by omega)) ih
  refine ρ.not_often (fun x => x.distance L (x.ahead T L p s) p) j (fun k hk ha => ?_)
    (fun k hk ha => ?_) (hoften p)
  · subst ha
    exact (ρ.next k).nearer_transfer (TwoWayRun.inv h k) (hcounter k (by omega) _ _)
      (hpos k (by omega)) (hagree k (by omega)) (hkeep k hk)
  · have hs := ρ.next k
    show TwoWay.distance L _ _ _ = TwoWay.distance L _ _ _
    rw [hs.distance_of_ne (TwoWayRun.inv h k) (hpos k (by omega)) (Ne.symm ha),
      hs.ahead_of_ne (TwoWayRun.inv h k) (hpos k (by omega)) (Ne.symm ha)]

end Wants

/-! ## Out of the loops -/

section Past

/-- A side in no transfer has moved its cursor over what its thread has counted. -/
theorem TwoWayInv.position_eq (h : TwoWayInv T L m x)
    (hstage : (x.thread p).stage ≠ .transfer s) :
    x.system.position p s = (x.thread p).counter s * T.chunkSize.toNat := by
  obtain ⟨program, hrecord⟩ := h.record
  have hat := h.at_loop p
  have hunfailed := h.patient.unfailed p
  have hmoved := hrecord.moved_of_ne hunfailed fun buffer next hp =>
    hstage (hat.transfer_eq hp).1
  have hadvanced := (System.firm h.patient.duplex p s).ring.sound.advanced_le s
  obtain ⟨hflow, -⟩ := hrecord.flow_le hunfailed s
  have hlength : (flow s (x.system.worker p).log).length
      = (x.thread p).counter s * T.chunkSize.toNat := by
    rw [hat.flow, T.length_stream]
    unfold TwoWay.made
    rw [if_neg fun hmade => hstage hmade.1, Nat.add_zero]
  rw [hmoved, hlength] at hadvanced
  rw [hlength] at hflow
  exact le_antisymm hadvanced hflow

/-- With a ring that holds a chunk, a reader with nothing to read has kept up with the writer, and a
writer that then has no room has written all. -/
theorem TwoWayInv.counter_eq (h : TwoWayInv T L m x)
    (hfits : T.chunks = 0 ∨ T.chunkSize.toNat ≤ L.capacity)
    (hwants : ∀ p s, ¬x.Wants T L p s) (p : Process) (s : Side) :
    (x.thread p).counter s = T.chunks := by
  have hstage : ∀ p s, (x.thread p).stage ≠ .transfer s := fun p s hstage =>
    hwants p s (.inl hstage)
  have hle := fun p s => (h.at_loop p).counter_le s
  have hreads : ∀ p, (x.thread p.other).counter .producer ≤ (x.thread p).counter .consumer
      ∨ T.chunks ≤ (x.thread p).counter .consumer := by
    intro p
    by_contra hlt
    push Not at hlt
    refine hwants p .consumer (.inr ⟨?_, hlt.2⟩)
    have hadd := h.patient.toSystemInv.room_add p .consumer
    have hlimit : limit (L.ring (p.channel .consumer)) (x.system.shared p .consumer) .consumer
        = x.system.position p.other .producer := System.advanced_peer x.system p .consumer
    rw [hlimit, h.position_eq (hstage _ _), h.position_eq (hstage _ _)] at hadd
    have hchunk := Nat.mul_le_mul_right T.chunkSize.toNat (Nat.succ_le_of_lt hlt.1)
    rw [Nat.succ_mul] at hchunk
    omega
  have hwrites : ∀ p, T.chunks ≤ (x.thread p).counter .producer := by
    intro p
    by_contra hlt
    push Not at hlt
    have hfits' := hfits.resolve_left (by omega)
    refine hwants p .producer (.inr ⟨?_, hlt⟩)
    have hadd := h.patient.toSystemInv.room_add p .producer
    have hlimit : limit (L.ring (p.channel .producer)) (x.system.shared p .producer) .producer
        = x.system.position p.other .consumer + ((L.ring (p.channel .producer)).cells - 1) :=
      congrArg (· + _) (System.advanced_peer x.system p .producer)
    rw [hlimit, L.cells_sub_one, h.position_eq (hstage _ _), h.position_eq (hstage _ _)] at hadd
    have hread := hreads p.other
    rw [Process.other_other] at hread
    have hchunk := Nat.mul_le_mul_right T.chunkSize.toNat
      (show (x.thread p).counter .producer ≤ (x.thread p.other).counter .consumer by omega)
    omega
  refine le_antisymm (hle p s) ?_
  cases s with
  | producer => exact hwrites p
  | consumer =>
    rcases hreads p with hread | hread
    · exact (hwrites p.other).trans hread
    · exact hread

/-- A thread that has made all its transfers goes on to the end of its loop. -/
theorem TwoWayStep.nearer_past (h : TwoWayInv T L m x) (hs : TwoWayStep T L p x y)
    (hpos : ∀ q t, y.system.position q t = x.system.position q t)
    (hagree : ∀ q t, x.system.Agrees L q t) (hcounter : ∀ s, (x.thread p).counter s = T.chunks)
    (hpast : (x.thread p).stage ≠ .past) :
    y.distance L (y.thread p).stage.left p < x.distance L (x.thread p).stage.left p := by
  refine hs.nearer h hpos hagree (fun hp hy => ?_) fun hp hthread ha => by rw [hthread]
  have hleft : ∀ thread stage, ((x.enter T p thread stage).thread p).stage.left = stage.left :=
    fun thread stage => by
      unfold TwoWay.enter
      simp
  cases hy with
  | @again s hstage hlt => exact absurd (hcounter s) hlt.ne
  | leaves hstage =>
    rw [hleft, hstage]
    exact (by decide)
  | @enough s hstage _ hlt => exact absurd (hcounter s) hlt.ne
  | @passes s hstage =>
    rw [hleft, hstage]
    cases s <;> exact (by decide)
  | @counts s hstage => exact absurd (hcounter s) ((h.at_loop p).counter_lt s hstage).ne
  | past hstage => exact absurd hstage hpast

/-- A thread past its loop stays there. -/
theorem TwoWayStep.past (hs : TwoWayStep T L p x y)
    (hpast : (x.thread q).stage = .past) : (y.thread q).stage = .past := by
  rcases hs.cases with ⟨hp, hy⟩ | ⟨hp, hthread, -⟩
  · by_cases hq : q = p
    · subst hq
      cases hy with
      | past => exact hpast
      | _ hstage =>
        rw [hpast] at hstage
        cases hstage
    · rw [(hy.of_ne hq).1]
      exact hpast
  · rw [hthread]
    exact hpast

/-- Both threads are past their loops, and each has written all its chunks and read all the
other's. -/
def TwoWay.Finished (T : TwoWayTest) (x : TwoWay) : Prop :=
  ∀ p, (x.thread p).stage = .past ∧ ∀ s, flow s (x.system.worker p).log = T.stream T.chunks

theorem TwoWayInv.flow_of_past (h : TwoWayInv T L m x) (hpast : (x.thread p).stage = .past)
    (s : Side) : flow s (x.system.worker p).log = T.stream T.chunks := by
  have hat := h.at_loop p
  have hmade : x.made p s = T.chunks := by
    unfold TwoWay.made
    rw [hpast, if_neg (by simp), Nat.add_zero]
    exact le_antisymm (hat.counter_le s) (hat.past hpast s)
  rw [hat.flow, hmade]

/-- A thread that has left its loop has had room for each chunk. -/
theorem TwoWayInv.fits_of_past (h : TwoWayInv T L m x) (hpast : (x.thread p).stage = .past) :
    T.chunks = 0 ∨ T.chunkSize.toNat ≤ L.capacity := by
  have hat := h.at_loop p
  have hcounter := hat.past hpast .producer
  rcases Nat.eq_zero_or_pos T.chunks with hzero | hpos
  · exact .inl hzero
  · exact .inr (hat.fits .producer (.inl (by omega)))

theorem TwoWayInv.finishes {ρ : TwoWayRun T L} (h : TwoWayInv T L m (ρ.state 0))
    (hoften : ∀ p, ρ.Often p) (hfits : T.chunks = 0 ∨ T.chunkSize.toNat ≤ L.capacity) :
    ∃ i, ∀ j ≥ i, (ρ.state j).Finished T := by
  obtain ⟨i, hi⟩ := h.exists_not_wants hoften
  obtain ⟨l, -, hpast⟩ : ∃ l ≥ i, ∀ j ≥ l, ∀ p, ((ρ.state j).thread p).stage = .past := by
    refine Process.exists_from fun p => ?_
    obtain ⟨l, hl, hpast⟩ : ∃ l ≥ i, ((ρ.state l).thread p).stage = .past := by
      by_contra hne
      push Not at hne
      refine ρ.not_often (fun x => x.distance L (x.thread p).stage.left p) i (fun k hk ha => ?_)
        (fun k hk ha => ?_) (hoften p)
      · obtain ⟨-, hpos, hagree, hwants⟩ := hi k hk
        subst ha
        exact (ρ.next k).nearer_past (TwoWayRun.inv h k) hpos hagree
          ((TwoWayRun.inv h k).counter_eq hfits hwants _) (hne k hk)
      · obtain ⟨-, hpos, -⟩ := hi k hk
        have hs := ρ.next k
        show TwoWay.distance L _ _ _ = TwoWay.distance L _ _ _
        rw [hs.distance_of_ne (TwoWayRun.inv h k) hpos (Ne.symm ha),
          (hs.of_ne (TwoWayRun.inv h k) hpos (Ne.symm ha)).1]
    refine ⟨l, hl, fun j hj => ?_⟩
    induction j, hj using Nat.le_induction with
    | base => exact hpast
    | succ j hj ih => exact (ρ.next j).past ih
  exact ⟨l, fun j hj p =>
    ⟨hpast j hj p, (TwoWayRun.inv h j).flow_of_past (hpast j hj p)⟩⟩

theorem TwoWayInv.exists_step (h : TwoWayInv T L m x) (p : Process) :
    ∃ y, TwoWayStep T L p x y ∧ TwoWayInv T L m y := by
  suffices hsome : ∃ y, x.step T p (.zero L.sizeofPtime) true = some y by
    obtain ⟨y, hs⟩ := hsome
    exact ⟨y, ⟨_, _, hs⟩, TwoWayStep.inv h ⟨_, _, hs⟩⟩
  obtain ⟨z, hz⟩ := h.patient.step_isSome p
  unfold TwoWay.step
  cases (x.system.worker p).program with
  | stop => exact ⟨_, rfl⟩
  | _ => exact ⟨_, by rw [hz]; rfl⟩

/-- Each thread writes and reads two chunks of two bytes. -/
def twoChunks : TwoWayTest where
  chunkSize := 2
  chunkSize_pos := by decide
  chunks := 2
  chunks_lt := by decide
  simulatedBuffer := fun _ => ⟨[0, 0], by decide⟩
  size := fun _ => rfl

theorem exists_twoChunks_run : ∃ ρ : TwoWayRun twoChunks smallLayout,
    ρ.state 0 = twoWayStart smallLayout (.zero _) (.zero _) ∧ ∀ p, ρ.Often p := by
  obtain ⟨ρ, hρ, hturn⟩ := Run.exists_following inTurns
    (fun i x (hx : TwoWayInv twoChunks smallLayout _ x) => hx.exists_step _)
    (twoWayInv_start (.zero _) (.zero _))
  exact ⟨ρ, hρ, inTurns_often hturn⟩

/-- In every run of the two-way threads, whatever their timers answer, no call waits or returns
false, and what has been read is what was written, chunk by chunk. -/
theorem twoWay_verified (T : TwoWayTest) (L : Layout) (now now' : Ptime L.sizeofPtime)
    {x : TwoWay} (h : TwoWayReach T L (twoWayStart L now now') x) : TwoWayVerified T x :=
  ((twoWayInv_start now now').reach h).verified

theorem twoWay_verified_small : ∃ x : TwoWay,
    TwoWayReach twoChunks smallLayout (twoWayStart smallLayout (.zero _) (.zero _)) x
      ∧ x.Finished twoChunks ∧ TwoWayVerified twoChunks x := by
  obtain ⟨ρ, hρ, hoften⟩ := exists_twoChunks_run
  have hinv : TwoWayInv twoChunks smallLayout _ (ρ.state 0) :=
    hρ ▸ twoWayInv_start (.zero _) (.zero _)
  obtain ⟨i, hi⟩ := hinv.finishes hoften (.inr (by decide))
  have hreach : TwoWayReach twoChunks smallLayout _ (ρ.state i) := hρ ▸ Run.reach ρ i
  exact ⟨_, hreach, hi i le_rfl, twoWay_verified twoChunks smallLayout (.zero _) (.zero _) hreach⟩

/-- In the runs of the two-way threads in which both go on taking their steps, whatever the timers
answer, both leave their loops for good with all their chunks verified if there is none or one fits
the rings; otherwise neither ever leaves its loop. -/
theorem twoWay_completes (T : TwoWayTest) (L : Layout) (now now' : Ptime L.sizeofPtime)
    (ρ : TwoWayRun T L) (h : ρ.state 0 = twoWayStart L now now') (hoften : ∀ p, ρ.Often p) :
    (T.chunks = 0 ∨ T.chunkSize.toNat ≤ L.capacity → ∃ i, ∀ j ≥ i, (ρ.state j).Finished T)
      ∧ (¬(T.chunks = 0 ∨ T.chunkSize.toNat ≤ L.capacity) →
        ∀ i p, ((ρ.state i).thread p).stage ≠ .past) := by
  have hinv : TwoWayInv T L _ (ρ.state 0) := h ▸ twoWayInv_start now now'
  exact ⟨fun hfits => hinv.finishes hoften hfits,
    fun hfits i p hpast => hfits ((TwoWayRun.inv hinv i).fits_of_past hpast)⟩

theorem twoWay_completes_small : ∃ ρ : TwoWayRun twoChunks smallLayout,
    ρ.state 0 = twoWayStart smallLayout (.zero _) (.zero _) ∧ (∀ p, ρ.Often p)
      ∧ ∃ i, ∀ j ≥ i, (ρ.state j).Finished twoChunks := by
  obtain ⟨ρ, hρ, hoften⟩ := exists_twoChunks_run
  exact ⟨ρ, hρ, hoften, (twoWay_completes twoChunks smallLayout (.zero _) (.zero _) ρ hρ hoften).1
    (.inr (by decide))⟩

end Past

end MemMapIPC
