import MemMapIPC.Launch
import MemMapIPC.Proofs.Rounds

/-!
# It does not matter when a process attaches

Nothing goes through the ring a process writes to before it has attached, so both cursors of the
ring stay at its first cell, and the zeros that `SetMemoryID` stores there are stored over zeros
(`System.Quiet`). What else it stores is its timestamp, which no ring has a byte of. So its stores
keep every invariant, and in a fair run both processes have made theirs at some time: what follows
is a run of two attached processes.
-/

namespace MemMapIPC

open ByteMemory Interleaving Relation Fair

/-! ## A timestamp leaves the rings as they are -/

section Stamped

variable {L : Layout} {m : Segment} {x y z : System} {p q : Process} {s t : Side}
  {program : Process → Program}

theorem Stamped.position (h : SystemInv L m x) (hz : Stamped L p x y) (q : Process) (t : Side) :
    y.position q t = x.position q t :=
  (hz.leaves h.duplex q t).advanced

theorem SystemInv.stamped (h : SystemInv L m x) (hz : Stamped L p x y) : SystemInv L m y := by
  refine ⟨h.duplex.reach hz.duplex_reach, fun q t => ?_⟩
  rw [hz.worker, hz.endpoint]
  exact (h.task q t).leaves (hz.leaves h.duplex q t)

theorem PatientInv.stamped (h : PatientInv L m x) (hz : Stamped L p x y) : PatientInv L m y := by
  refine ⟨h.toSystemInv.stamped hz, fun q s buffer next k => ?_, fun q => ?_⟩
  · rw [hz.worker, hz.endpoint]
    exact h.patient q s buffer next k
  · rw [hz.worker]
    exact h.unfailed q

theorem RecordInv.stamped (h : RecordInv L m program x) (hz : Stamped L p x y) :
    RecordInv L m program y := by
  refine ⟨h.toSystemInv.stamped hz, fun q => ?_⟩
  rw [hz.worker]
  refine (h.recorded q).goes_on rfl rfl rfl fun s hf => ?_
  exact ((h.recorded q).moved s hf).congr (hz.leaves h.duplex q s).moved

theorem Behind.stamped (h : SystemInv L m x) (hz : Stamped L p x y) (hb : Behind x z) :
    Behind y z := by
  refine ⟨fun q => ?_, fun q => ?_, fun q t => ?_⟩
  · rw [hz.worker]
    exact hb.log q
  · have hpublished : y.published q = x.published q := by
      unfold System.published
      rw [hz.position h, (hz.leaves h.duplex q .producer).moved]
    rw [hpublished]
    exact hb.published q
  · rw [hz.position h]
    exact hb.position q t

theorem TwoWayInv.stamped {T : TwoWayTest} {x : TwoWay} (h : TwoWayInv T L m x)
    (hz : Stamped L p x.system z) : TwoWayInv T L m { x with system := z } := by
  obtain ⟨program, hrecord⟩ := h.record
  refine ⟨h.patient.stamped hz, ⟨program, hrecord.stamped hz⟩, fun q => ?_, fun q => ?_⟩
  · exact (h.guarded q).leaves (by rw [hz.worker]) (fun s => hz.endpoint q s)
      fun s => hz.leaves h.patient.duplex q s
  · exact (h.at_loop q).congr rfl (by rw [hz.worker]) (by rw [hz.worker])

end Stamped

/-! ## A ring nothing has gone through -/

section Quiet

/-- Nothing has gone through the ring the process writes to. -/
structure System.Quiet (L : Layout) (x : System) (p : Process) : Prop where
  position : x.position p .producer = 0
  agrees : x.Agrees L p .producer
  agrees_peer : x.Agrees L p.other .consumer

variable {L : Layout} {m : Segment} {x y : System} {p q : Process} {w : Store} {below : Bool}

/-- A reader's cursor is not past the writer's. -/
theorem SystemInv.position_peer_le (h : SystemInv L m x) (p : Process) :
    x.position p.other .consumer ≤ x.position p .producer := by
  have hsound := (System.firm h.duplex p .producer).ring.sound
  rw [← show (x.shared p .producer).advanced .consumer = x.position p.other .consumer from
    System.advanced_peer x p .producer]
  exact (hsound.advanced_le .consumer).trans (hsound.moved_le .consumer)

namespace System.Quiet

theorem position_peer (h : x.Quiet L p) (hx : SystemInv L m x) :
    x.position p.other .consumer = 0 := by
  have hle := hx.position_peer_le p
  rw [h.position] at hle
  exact Nat.le_zero.1 hle

/-- All four cursor words are zero. -/
theorem word (h : x.Quiet L p) (hx : SystemInv L m x) (s : Side) (b : Bool) :
    (L.ring (p.channel .producer)).word x.duplex.mem s b = 0 := by
  have hsound := (System.firm hx.duplex p .producer).ring.sound
  have hfirst : (L.ring (p.channel .producer)).word x.duplex.mem s false = 0 := by
    have hadvanced : (x.shared p .producer).advanced s = 0 := by
      cases s with
      | producer => exact h.position
      | consumer => exact (System.advanced_peer x p .producer).trans (h.position_peer hx)
    rw [← BitVec.toNat_inj]
    refine (hsound.first s).trans ?_
    rw [hadvanced]
    exact Nat.zero_mod _
  cases b with
  | false => exact hfirst
  | true =>
    refine Eq.trans ?_ hfirst
    cases s with
    | producer => exact h.agrees
    | consumer =>
      have hagrees := h.agrees_peer
      unfold System.Agrees at hagrees
      rw [show p.other.channel .consumer = p.channel .producer from
        Process.channel_other_peer p .producer] at hagrees
      exact hagrees

theorem stamped (h : x.Quiet L p) (hx : SystemInv L m x) (hz : Stamped L q x y) :
    y.Quiet L p := by
  have hagrees : ∀ q t, x.Agrees L q t → y.Agrees L q t := fun q t => by
    unfold System.Agrees
    rw [(hz.leaves hx.duplex q t).word, (hz.leaves hx.duplex q t).word]
    exact id
  exact ⟨(hz.position hx p .producer).trans h.position, hagrees _ _ h.agrees,
    hagrees _ _ h.agrees_peer⟩

/-- The other process finds nothing there, and leaves it so. -/
theorem acts (h : x.Quiet L p) (hx : SystemInv L m x) (ha : Acts L below q x y) (hq : p ≠ q) :
    y.Quiet L p := by
  have hposition := ha.position_of_ne hx hq .producer
  have hagrees := ha.agrees hx hposition h.agrees
  have hquiet : y.position p.other .consumer = x.position p.other .consumer := by
    have hle := (ha.inv hx).position_peer_le p
    rw [hposition, h.position] at hle
    rw [h.position_peer hx]
    exact Nat.le_zero.1 hle
  exact ⟨hposition.trans h.position, hagrees, ha.agrees hx hquiet h.agrees_peer⟩

end System.Quiet

theorem Process.setup_cases {now : Ptime L.sizeofPtime} (hw : w ∈ p.setup L.bufferSize now) :
    (∃ s b, w = .word ((L.ring (p.channel .producer)).buffer.pointer s b) 0)
      ∨ ∀ x : System, x.store w = x.stamp p now := by
  cases p with
  | server =>
    simp only [setup, Server.setup, CircularBuffer.clearing, List.cons_append, List.nil_append,
      List.mem_cons, List.not_mem_nil, or_false] at hw
    rcases hw with rfl | rfl | rfl | rfl | rfl
    · exact .inl ⟨.producer, false, rfl⟩
    · exact .inl ⟨.producer, true, rfl⟩
    · exact .inl ⟨.consumer, false, rfl⟩
    · exact .inl ⟨.consumer, true, rfl⟩
    · exact .inr fun x => rfl
  | client =>
    rcases client_store_cases hw with hw | rfl
    · exact .inl hw
    · exact .inr fun x => rfl

/-- A store over a ring nothing has gone through, or of the timestamp. -/
theorem System.Quiet.store {now : Ptime L.sizeofPtime} (h : x.Quiet L p) (hx : SystemInv L m x)
    (hw : w ∈ p.setup L.bufferSize now) : Stamped L p x (x.store w) := by
  rcases Process.setup_cases hw with ⟨s, b, rfl⟩ | hstamp
  · left
    have hmem : Store.apply x.duplex.mem
        (.word ((L.ring (p.channel .producer)).buffer.pointer s b) 0) = x.duplex.mem :=
      Ring.storeWord_of_zero (h.word hx s b)
    unfold System.store
    rw [hmem]
  · exact .inr ⟨now, hstamp x⟩

end Quiet

/-! ## Until both have attached -/

section Launch

variable {α : Type*} {host : Host α} {step : Process → α → α → Prop} {L : Layout} {m : Segment}
  {Inv : α → Prop} {now : Ptime L.sizeofPtime} {x y : Launch α} {p q : Process}

/-- What is asked of an invariant of the larger state, and of its steps. -/
structure Host.Keeps (host : Host α) (step : Process → α → α → Prop) (L : Layout) (m : Segment)
    (Inv : α → Prop) : Prop where
  system_replace : ∀ a z, host.system (host.replace a z) = z
  inv : ∀ {a}, Inv a → SystemInv L m (host.system a)
  kept : ∀ {p a b}, Inv a → step p a b → Inv b
  acts : ∀ {p a b}, Inv a → step p a b → (host.system b).duplex = (host.system a).duplex
    ∨ ∃ below, Acts L below p (host.system a) (host.system b)
  stamped : ∀ {p a z}, Inv a → Stamped L p (host.system a) z → Inv (host.replace a z)

structure LaunchInv (host : Host α) (L : Layout) (Inv : α → Prop) (x : Launch α) : Prop where
  inv : Inv x.state
  attach : ∀ p, x.attach p = .load ∨ ∃ (now : Ptime L.sizeofPtime) (rest : List Store),
    x.attach p = .storing L.bufferSize rest ∧ rest <:+ p.setup L.bufferSize now
  quiet : ∀ p, ¬x.Attached L p → (host.system x.state).Quiet L p

/-- The steps to the end of a process's `SetMemoryID`. -/
def Launch.left (x : Launch α) (p : Process) : ℕ :=
  match x.attach p with
  | .load => 6
  | .storing _ rest => rest.length

theorem Launch.not_attached {a : Attach} (h : x.attach p = a) (ha : a ≠ .storing L.bufferSize []) :
    ¬x.Attached L p :=
  fun hattached => ha (h.symm.trans hattached)

theorem Process.length_setup (p : Process) : (p.setup L.bufferSize now).length = 5 := by
  cases p <;> rfl

/-- A process is at work, or makes one of the stores it has left. -/
theorem LaunchStep.cases (h : LaunchInv host L Inv x) (hk : host.Keeps step L m Inv)
    (hs : LaunchStep host step L p x y) :
    x.Attached L p ∧ step p x.state y.state ∧ y.attach = x.attach
      ∨ ¬x.Attached L p ∧ y.left p < x.left p ∧ (∀ q, q ≠ p → y.attach q = x.attach q)
        ∧ (y.attach p = .load ∨ ∃ (now : Ptime L.sizeofPtime) (rest : List Store),
          y.attach p = .storing L.bufferSize rest ∧ rest <:+ p.setup L.bufferSize now)
        ∧ Inv y.state ∧ Stamped L p (host.system x.state) (host.system y.state) := by
  cases hs with
  | @load now b hload hb =>
    obtain rfl : b = L.bufferSize := hb.trans (hk.inv h.inv).duplex.bufferSize
    refine .inr ⟨Launch.not_attached hload (by simp), ?_,
      fun q hq => Function.update_of_ne hq _ _, .inr ⟨now, _, Function.update_self _ _ _,
        List.suffix_refl _⟩, h.inv, .inl rfl⟩
    unfold Launch.left
    rw [hload]
    simp only [Function.update_self, Process.length_setup]
    exact Nat.lt_succ_self 5
  | @store b w rest hstore =>
    have hnot : ¬x.Attached L p := Launch.not_attached hstore (by simp)
    rcases h.attach p with hload | ⟨now, rest', hattach, hsuffix⟩
    · rw [hstore] at hload
      cases hload
    obtain ⟨rfl, rfl⟩ := Attach.storing.inj (hstore.symm.trans hattach)
    have hz := (h.quiet p hnot).store (hk.inv h.inv) (hsuffix.subset List.mem_cons_self)
    refine .inr ⟨hnot, ?_, fun q hq => Function.update_of_ne hq _ _, .inr ⟨now, rest,
      Function.update_self _ _ _, (List.suffix_cons w rest).trans hsuffix⟩, hk.stamped h.inv hz, ?_⟩
    · unfold Launch.left
      rw [hstore]
      simp only [Function.update_self, List.length_cons]
      exact Nat.lt_succ_self _
    · rw [hk.system_replace]
      exact hz
  | run hp hs => exact .inl ⟨hp, hs, rfl⟩

theorem LaunchStep.inv (h : LaunchInv host L Inv x) (hk : host.Keeps step L m Inv)
    (hs : LaunchStep host step L p x y) : LaunchInv host L Inv y := by
  rcases hs.cases h hk with ⟨hp, hstep, hattach⟩ | ⟨hp, -, hattach, hown, hinv, hz⟩
  · refine ⟨hk.kept h.inv hstep, fun q => hattach ▸ h.attach q, fun q hq => ?_⟩
    unfold Launch.Attached at hq
    rw [hattach] at hq
    have hquiet := h.quiet q hq
    rcases hk.acts h.inv hstep with hd | ⟨below, ha⟩
    · refine ⟨?_, ?_, ?_⟩
      · unfold System.position
        rw [System.shared_congr hd]
        exact hquiet.position
      · unfold System.Agrees
        rw [System.shared_congr hd]
        exact hquiet.agrees
      · unfold System.Agrees
        rw [System.shared_congr hd]
        exact hquiet.agrees_peer
    · exact hquiet.acts (hk.inv h.inv) ha fun hqp => hq (hqp ▸ hp)
  · refine ⟨hinv, fun q => ?_, fun q hq => ?_⟩
    · by_cases hqp : q = p
      · rw [hqp]
        exact hown
      · rw [hattach q hqp]
        exact h.attach q
    · refine System.Quiet.stamped (h.quiet q ?_) (hk.inv h.inv) hz
      by_cases hqp : q = p
      · rw [hqp]
        exact hp
      · unfold Launch.Attached at hq ⊢
        rwa [hattach q hqp] at hq

/-- A process that has attached stays so. -/
theorem LaunchStep.attached (h : LaunchInv host L Inv x) (hk : host.Keeps step L m Inv)
    (hs : LaunchStep host step L p x y) (hq : x.Attached L q) : y.Attached L q := by
  unfold Launch.Attached at hq ⊢
  rcases hs.cases h hk with ⟨-, -, hattach⟩ | ⟨hp, -, hattach, -⟩
  · rw [hattach]
    exact hq
  · rwa [hattach q fun hqp => hp (hqp ▸ hq)]

theorem LaunchInv.run {ρ : Run (LaunchStep host step L)} (h : LaunchInv host L Inv (ρ.state 0))
    (hk : host.Keeps step L m Inv) (i : ℕ) : LaunchInv host L Inv (ρ.state i) :=
  ρ.always (P := LaunchInv host L Inv) (fun hx hs => hs.inv hx hk) h i

theorem LaunchInv.exists_attached {ρ : Run (LaunchStep host step L)}
    (h : LaunchInv host L Inv (ρ.state 0)) (hk : host.Keeps step L m Inv)
    (hoften : ∀ p, ρ.Often p) : ∃ i, ∀ j ≥ i, ∀ p, (ρ.state j).Attached L p := by
  obtain ⟨i, -, hi⟩ : ∃ i ≥ 0, ∀ j ≥ i, ∀ p, (ρ.state j).Attached L p := by
    refine Process.exists_from fun p => ?_
    obtain ⟨i, hi⟩ : ∃ i, (ρ.state i).Attached L p := by
      by_contra hne
      push Not at hne
      refine ρ.not_often (fun x => x.left p) 0 (fun j _ hp => ?_) (fun j _ hp => ?_) (hoften p)
      · subst hp
        rcases (ρ.next j).cases (h.run hk j) hk with ⟨hp, -⟩ | ⟨-, hlt, -⟩
        · exact absurd hp (hne j)
        · exact hlt
      · unfold Launch.left
        rcases (ρ.next j).cases (h.run hk j) hk with ⟨-, -, hattach⟩ | ⟨-, -, hattach, -⟩
        · rw [hattach]
        · rw [hattach p (Ne.symm hp)]
    refine ⟨i, Nat.zero_le _, fun j hj => ?_⟩
    induction j, hj using Nat.le_induction with
    | base => exact hi
    | succ j hj ih => exact (ρ.next j).attached (h.run hk j) hk ih
  exact ⟨i, hi⟩

/-- What comes after is a run of two attached processes. -/
theorem LaunchInv.launches {ρ : Run (LaunchStep host step L)}
    (h : LaunchInv host L Inv (ρ.state 0)) (hk : host.Keeps step L m Inv)
    (hoften : ∀ p, ρ.Often p) : ∃ (i : ℕ) (ρ' : Run step),
      (∀ j, ρ'.state j = (ρ.state (i + j)).state) ∧ (∀ p, ρ'.Often p)
        ∧ ∀ j ≥ i, ∀ p, (ρ.state j).Attached L p := by
  obtain ⟨i, hi⟩ := h.exists_attached hk hoften
  refine ⟨i, ⟨fun j => (ρ.state (i + j)).state, fun j => ρ.turn (i + j), fun j => ?_⟩,
    fun j => rfl, fun p => (hoften p).drop i, hi⟩
  rcases (ρ.next (i + j)).cases (h.run hk _) hk with ⟨-, hstep, -⟩ | ⟨hp, -⟩
  · exact hstep
  · exact absurd (hi (i + j) (Nat.le_add_right _ _) _) hp

/-! ## From when the buffer size is stored -/

theorem ready_launchSegment (L : Layout) : Ready L (launchSegment L) := by
  have hclearing : ∀ l, l <:+ Server.clearing L.bufferSize L.sizeofPtime →
      Store.applyAll (fun _ => 0) l = fun _ => 0 := by
    intro l hl
    induction l with
    | nil => rfl
    | cons w l ih =>
      show Store.applyAll (w.apply fun _ => 0) l = _
      rw [clearing_zero (hl.subset List.mem_cons_self)]
      exact ih ((List.suffix_cons w l).trans hl)
  unfold launchSegment Store.applyAll
  rw [List.foldl_append]
  change Ready L ((Server.sizeStore L.bufferSize L.sizeofPtime).apply
    (Store.applyAll (fun _ => 0) (Server.clearing L.bufferSize L.sizeofPtime)))
  rw [hclearing _ (List.suffix_refl _)]
  exact ready_sizeStore L

theorem Ready.quiet (h : Ready L m) (program : Process → Program) (p : Process) :
    (System.fresh program m).Quiet L p := by
  have hagrees : ∀ q t, (System.fresh program m).Agrees L q t := fun q t => by
    unfold System.Agrees
    have hzero : ∀ s b, (L.ring (q.channel t)).word m s b = 0 := by
      cases q.channel t with
      | inbound => exact h.inbound
      | outbound => exact h.outbound
    exact (hzero t true).trans (hzero t false).symm
  exact ⟨rfl, hagrees _ _, hagrees _ _⟩

theorem launchInv_start (now : Ptime L.sizeofPtime) {fresh : Segment → α}
    {program : Process → Program} (hinv : Inv (fresh (launchSegment L)))
    (hsystem : host.system (fresh (launchSegment L)) = .fresh program (launchSegment L)) :
    LaunchInv host L Inv (launchStart L now fresh) := by
  refine ⟨hinv, fun p => ?_, fun p _ => ?_⟩
  · cases p with
    | server => exact .inr ⟨now, _, rfl, List.suffix_refl _⟩
    | client => exact .inl rfl
  · show (host.system (fresh (launchSegment L))).Quiet L p
    rw [hsystem]
    exact (ready_launchSegment L).quiet program p

theorem LaunchInv.exists_step (h : LaunchInv host L Inv x) (hk : host.Keeps step L m Inv)
    (hstep : ∀ a, Inv a → ∃ b, step p a b) :
    ∃ y, LaunchStep host step L p x y ∧ LaunchInv host L Inv y := by
  suffices hsome : ∃ y, LaunchStep host step L p x y by
    obtain ⟨y, hs⟩ := hsome
    exact ⟨y, hs, hs.inv h hk⟩
  rcases h.attach p with hload | ⟨now, rest, hstoring, -⟩
  · exact ⟨_, .load (.zero L.sizeofPtime) hload rfl⟩
  · rcases rest with _ | ⟨w, rest⟩
    · obtain ⟨b, hs⟩ := hstep x.state h.inv
      exact ⟨_, .run hstoring hs⟩
    · exact ⟨_, .store hstoring⟩

/-- So runs in which both go on taking their steps there are. -/
theorem LaunchInv.exists_run (h : LaunchInv host L Inv x) (hk : host.Keeps step L m Inv)
    (hstep : ∀ p a, Inv a → ∃ b, step p a b) :
    ∃ ρ : Run (LaunchStep host step L), ρ.state 0 = x ∧ ∀ p, ρ.Often p := by
  obtain ⟨ρ, hρ, hturn⟩ := Run.exists_following inTurns
    (fun i x (hx : LaunchInv host L Inv x) => hx.exists_step hk (hstep _)) h
  exact ⟨ρ, hρ, inTurns_often hturn⟩

end Launch

/-! ## Programs and threads launched -/

section Launched

variable {L : Layout} {m m' : Segment} {program : Process → Program} {y : System}
  {T : TwoWayTest}

/-- Not past the system at rest `y`. -/
def Launched (L : Layout) (m : Segment) (program : Process → Program) (y x : System) : Prop :=
  RecordInv L m program x ∧ Behind x y

theorem keeps_launched (hy : RecordInv L m' program y) (hrest : y.AtRest L) :
    Host.self.Keeps (SystemStep L) L m (Launched L m program y) where
  system_replace _ _ := rfl
  inv h := h.1.toSystemInv
  kept := by
    rintro p a b ⟨hrecord, hbehind⟩ ⟨now, below, hs⟩
    have ha := System.step_acts hs
    exact ⟨ha.record hrecord, ha.behind hrecord hy hrest hbehind⟩
  acts := by
    rintro p a b - ⟨now, below, hs⟩
    exact .inr ⟨below, System.step_acts hs⟩
  stamped := by
    rintro p a z ⟨hrecord, hbehind⟩ hz
    exact ⟨hrecord.stamped hz, hbehind.stamped hrecord.toSystemInv hz⟩

theorem keeps_patient (hy : RecordInv L m' program y) (hrest : y.AtRest L) :
    Host.self.Keeps (PatientStep L) L m
      (fun x => Launched L m program y x ∧ PatientInv L m x) where
  system_replace _ _ := rfl
  inv h := h.2.toSystemInv
  kept := by
    rintro p a b ⟨hlaunched, hpatient⟩ ⟨now, hs⟩
    exact ⟨(keeps_launched hy hrest).kept hlaunched ⟨now, true, hs⟩,
      (System.step_acts hs).patient hpatient⟩
  acts := by
    rintro p a b - ⟨now, hs⟩
    exact .inr ⟨true, System.step_acts hs⟩
  stamped := by
    rintro p a z ⟨hlaunched, hpatient⟩ hz
    exact ⟨(keeps_launched hy hrest).stamped hlaunched hz, hpatient.stamped hz⟩

theorem keeps_twoWay : TwoWay.host.Keeps (TwoWayStep T L) L m (TwoWayInv T L m) where
  system_replace _ _ := rfl
  inv h := h.patient.toSystemInv
  kept h hs := hs.inv h
  acts := by
    intro p a b h hs
    rcases hs.cases with ⟨-, hy⟩ | ⟨-, -, ha⟩
    · exact .inl hy.duplex
    · exact .inr ha
  stamped h hz := h.stamped hz

theorem launched_start (L : Layout) (program : Process → Program) (y : System) :
    Launched L (launchSegment L) program y (.fresh program (launchSegment L)) :=
  ⟨(ready_launchSegment L).recordInv program, behind_fresh _⟩

theorem patientLaunched_start (now : Ptime L.sizeofPtime) (y : System) :
    LaunchInv Host.self L (fun x => Launched L (launchSegment L) program y x
      ∧ PatientInv L (launchSegment L) x) (launchStart L now (.fresh program)) :=
  launchInv_start now ⟨launched_start L program y, (ready_launchSegment L).patientInv program⟩ rfl

theorem twoWayLaunched_start (T : TwoWayTest) (now : Ptime L.sizeofPtime) :
    LaunchInv TwoWay.host L (TwoWayInv T L (launchSegment L)) (launchStart L now TwoWay.fresh) :=
  launchInv_start now (ready_launchSegment L).twoWayInv rfl

/-- Whenever the client attaches, be the server at work already or the client before the server has
made its last stores, and whatever the timers answer, two programs leave nothing that they do not
leave where both attach first; and they come to rest with all of that if no timer reaches its
limit. -/
theorem launch_outcome (L : Layout) (now now₁ now₂ : Ptime L.sizeofPtime)
    (program : Process → Program) {y : System}
    (hy : SystemReach L (systemStart L now₁ now₂ program) y) (hrest : y.AtRest L) :
    (∀ ρ : ProgramLaunch L, ρ.state 0 = launchStart L now (.fresh program) →
      ∀ i p, ((ρ.state i).state.worker p).log <+: (y.worker p).log)
    ∧ ∀ ρ : PatientLaunch L, ρ.state 0 = launchStart L now (.fresh program) → (∀ p, ρ.Often p) →
      ∃ i, ∀ j ≥ i, (ρ.state j).state.AtRest L ∧ ∀ p, (ρ.state j).Attached L p
        ∧ ((ρ.state j).state.worker p).log = (y.worker p).log := by
  have hstart := recordInv_start now₁ now₂ program
  have hyinv := hstart.reach hy
  refine ⟨fun ρ h i p => ?_, fun ρ h hoften => ?_⟩
  · have hk := keeps_launched (m := launchSegment L) hyinv hrest
    have hinv : LaunchInv Host.self L (Launched L (launchSegment L) program y) (ρ.state 0) :=
      h ▸ launchInv_start now (launched_start L program y) rfl
    exact (hinv.run hk i).inv.2.log p
  · have hk := keeps_patient (m := launchSegment L) hyinv hrest
    have hinv : LaunchInv Host.self L _ (ρ.state 0) := h ▸ patientLaunched_start now y
    obtain ⟨i, ρ', hsame, hoften', hattached⟩ := hinv.launches hk hoften
    have hpatient : PatientInv L (launchSegment L) (ρ'.state 0) := by
      rw [hsame]
      exact (hinv.run hk i).inv.2
    obtain ⟨l, hl⟩ := hpatient.settles hoften'
    refine ⟨i + l, fun j hj => ?_⟩
    obtain ⟨⟨hrecord, hbehind⟩, -⟩ := (hinv.run hk j).inv
    have hrest' : (ρ.state j).state.AtRest L := by
      have hat := (hl (j - i) (by omega)).1
      rwa [hsame, Nat.add_sub_cancel' (by omega)] at hat
    refine ⟨hrest', fun p => ⟨hattached j (by omega) p, ?_⟩⟩
    have hback := hstart.behind hrecord hrest' (behind_start now₁ now₂) hy
    exact (hbehind.log p).eq_of_length_le (hback.log p).length_le

theorem launch_outcome_small : ∃ (ρ : PatientLaunch smallLayout) (y : System),
    ρ.state 0 = launchStart smallLayout (.zero _) (.fresh askAndAnswer)
      ∧ ∃ i, ∀ j ≥ i, (ρ.state j).state.AtRest smallLayout ∧ ∀ p,
        (ρ.state j).Attached smallLayout p
          ∧ ((ρ.state j).state.worker p).log = (y.worker p).log := by
  obtain ⟨ρ', hρ', hoften'⟩ := exists_patientRun (L := smallLayout) (.zero _) (.zero _) askAndAnswer
  obtain ⟨i, hi⟩ := PatientInv.settles (hρ' ▸ patientInv_start _ _ _) hoften'
  have hy := PatientRun.reach ρ' i
  rw [hρ'] at hy
  have hrest := (hi i le_rfl).1
  have hk := keeps_patient (m := launchSegment smallLayout)
    ((recordInv_start _ _ askAndAnswer).reach hy) hrest
  obtain ⟨ρ, hρ, hoften⟩ := (patientLaunched_start (.zero _) (ρ'.state i)).exists_run hk
    fun p a ha => by
      obtain ⟨b, hs, -⟩ := ha.2.exists_step p
      exact ⟨b, hs⟩
  exact ⟨ρ, _, hρ,
    (launch_outcome smallLayout (.zero _) (.zero _) (.zero _) askAndAnswer hy hrest).2 ρ hρ hoften⟩

/-- The two-way tests as they are run, the client attaching while the server's thread is in its
loop, or before the server has made its last stores. -/
theorem twoWay_launched (T : TwoWayTest) (L : Layout) (now : Ptime L.sizeofPtime)
    (ρ : TwoWayLaunch L T) (h : ρ.state 0 = launchStart L now TwoWay.fresh) :
    (∀ i, TwoWayVerified T (ρ.state i).state)
      ∧ ((∀ p, ρ.Often p) → T.chunks = 0 ∨ T.chunkSize.toNat ≤ L.capacity →
        ∃ i, ∀ j ≥ i, (ρ.state j).state.Finished T)
      ∧ (¬(T.chunks = 0 ∨ T.chunkSize.toNat ≤ L.capacity) →
        ∀ i p, ((ρ.state i).state.thread p).stage ≠ .past) := by
  have hinv : LaunchInv TwoWay.host L _ (ρ.state 0) := h ▸ twoWayLaunched_start T now
  have hrun := fun i => (hinv.run keeps_twoWay i).inv
  refine ⟨fun i => (hrun i).verified, fun hoften hfits => ?_,
    fun hfits i p hpast => hfits ((hrun i).fits_of_past hpast)⟩
  obtain ⟨i, ρ', hsame, hoften', -⟩ := hinv.launches keeps_twoWay hoften
  have hinv' : TwoWayInv T L (launchSegment L) (ρ'.state 0) := by
    rw [hsame]
    exact hrun i
  obtain ⟨l, hl⟩ := hinv'.finishes hoften' hfits
  refine ⟨i + l, fun j hj => ?_⟩
  have hfinished := hl (j - i) (by omega)
  rwa [hsame, Nat.add_sub_cancel' (by omega)] at hfinished

theorem twoWay_launched_small : ∃ ρ : TwoWayLaunch smallLayout twoChunks,
    ρ.state 0 = launchStart smallLayout (.zero _) TwoWay.fresh
      ∧ ∃ i, ∀ j ≥ i, (ρ.state j).state.Finished twoChunks := by
  obtain ⟨ρ, hρ, hoften⟩ := (twoWayLaunched_start twoChunks (.zero _)).exists_run
    keeps_twoWay fun p a ha => by
    obtain ⟨b, hs, -⟩ := TwoWayInv.exists_step ha p
    exact ⟨b, hs⟩
  exact ⟨ρ, hρ, (twoWay_launched twoChunks smallLayout (.zero _) ρ hρ).2.1 hoften
    (.inr (by decide))⟩

end Launched

end MemMapIPC
