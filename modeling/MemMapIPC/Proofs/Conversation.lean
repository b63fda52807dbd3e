import MemMapIPC.Proofs.Pipes

/-!
# What becomes of two programs

At the pipes one run decides: bytes one process puts in and the other takes out one by one
(`Pipes.rendezvous`), a call that returns, a wait that is over. A conversation has such a run to its
end, which a wait for bytes only makes longer by steps that could be taken anyway.
-/

namespace MemMapIPC

open Relation Commuting

/-! ## Runs at the pipes -/

section Runs

variable {capacity : ℕ} {p : Process} {w v w' v' : Partner} {s : Side}
  {queue : Channel → BoundedQueue U8 capacity} {q' : BoundedQueue U8 capacity}
  {buffer sink : Buffer} {next next' : List U8 → Program} {l : List U8} {P Q : Program} {n : U64}
  {X : Pipes capacity}

namespace Pipes

/-- Process `p` is `w` and the other `v`. -/
def pair (p : Process) (w v : Partner) (queue : Channel → BoundedQueue U8 capacity) :
    Pipes capacity :=
  ⟨fun q => if q = p then w else v, queue⟩

@[simp] theorem partner_pair_self : (pair p w v queue).partner p = w := if_pos rfl

@[simp] theorem queue_pair : (pair p w v queue).queue = queue := rfl

theorem pair_swap : pair p.other v w queue = pair p w v queue := by
  unfold pair
  refine Pipes.mk.injEq .. ▸ ⟨funext fun q => ?_, rfl⟩
  cases p <;> cases q <;> rfl

@[simp] theorem set_pair : (pair p w v queue).set p s (w', q')
    = pair p w' v (Function.update queue (p.channel s) q') := by
  unfold pair set
  refine Pipes.mk.injEq .. ▸ ⟨funext fun q => ?_, rfl⟩
  cases p <;> cases q <;> rfl

theorem start_eq (program : Process → Program) (p : Process) : start capacity program
    = pair p { program := program p } { program := program p.other } fun _ => .empty := by
  unfold pair start
  refine Pipes.mk.injEq .. ▸ ⟨funext fun q => ?_, rfl⟩
  cases p <;> cases q <;> rfl

theorem pair_passes (hp : w.program = .transfer s buffer next)
    (hlen : w.moved.length + l.length ≤ buffer.1.length)
    (hl : s = .producer → w.moved ++ l <+: buffer.1) (hq : s.Passes l (queue (p.channel s)) q') :
    Reach (pair p w v queue)
      (pair p { w with moved := w.moved ++ l } v (Function.update queue (p.channel s) q')) := by
  have hrun : Reach (pair p w v queue)
      ((pair p w v queue).set p s ({ w with moved := w.moved ++ l }, q')) := by
    simpa using passes (X := pair p w v queue) (by simpa using hp) (by simpa using hlen)
      (by simpa using hl) hq
  rwa [set_pair] at hrun

/-- One byte after another, put in by the one process and taken out by the other. -/
theorem rendezvous (hcapacity : 0 < capacity) (hp : w.program = .transfer .producer buffer next)
    (hv : v.program = .transfer .consumer sink next')
    (hempty : queue (p.channel .producer) = .empty)
    (hl : w.moved ++ l <+: buffer.1) (hlen : v.moved.length + l.length ≤ sink.1.length) :
    Reach (pair p w v queue)
      (pair p { w with moved := w.moved ++ l } { v with moved := v.moved ++ l } queue) := by
  have hchannel : p.other.channel .consumer = p.channel .producer := p.channel_other_peer .producer
  induction l generalizing w v with
  | nil =>
    simp only [List.append_nil]
    exact .refl
  | cons b l ih =>
    let q₁ : BoundedQueue U8 capacity := ⟨[b], hcapacity⟩
    have hput : Reach (pair p w v queue) (pair p { w with moved := w.moved ++ [b] } v
        (Function.update queue (p.channel .producer) q₁)) := by
      refine pair_passes hp ?_ (fun _ => ?_) ?_
      · have hle := hl.length_le
        rw [List.length_append, List.length_cons] at hle
        rw [List.length_singleton]
        omega
      · exact List.IsPrefix.trans ⟨l, by simp⟩ hl
      · show q₁.contents = (queue _).contents ++ [b]
        rw [hempty]
        rfl
    have htake : Reach (pair p { w with moved := w.moved ++ [b] } v
        (Function.update queue (p.channel .producer) q₁))
        (pair p { w with moved := w.moved ++ [b] } { v with moved := v.moved ++ [b] } queue) := by
      have hpasses : Side.consumer.Passes [b]
          (Function.update queue (p.channel .producer) q₁ (p.other.channel .consumer))
          BoundedQueue.empty := by
        show (Function.update queue _ q₁ _).contents = [b] ++ []
        rw [hchannel, Function.update_self]
        rfl
      have hrun : Reach
          (pair p.other v { w with moved := w.moved ++ [b] }
            (Function.update queue (p.channel .producer) q₁))
          (pair p.other { v with moved := v.moved ++ [b] } { w with moved := w.moved ++ [b] }
            (Function.update (Function.update queue (p.channel .producer) q₁)
              (p.other.channel .consumer) .empty)) := by
        refine pair_passes hv ?_ (fun h => by cases h) hpasses
        rw [List.length_cons] at hlen
        rw [List.length_singleton]
        omega
      rwa [hchannel, Function.update_idem, ← hempty, Function.update_eq_self, pair_swap,
        pair_swap] at hrun
    refine hput.trans (htake.trans ?_)
    have hrest := ih (w := { w with moved := w.moved ++ [b] })
      (v := { v with moved := v.moved ++ [b] }) hp hv ?_ ?_
    · simpa using hrest
    · simpa using hl
    · simp only [List.length_append, List.length_cons, List.length_nil] at hlen ⊢
      omega

/-- A call that has moved all its bytes returns. -/
theorem pair_returns (hp : w.program = .transfer s buffer next)
    (hlen : w.moved.length = buffer.1.length) :
    Reach (pair p w v queue) (pair p (w.goOn s w.moved (next w.moved)) v queue) := by
  have hstep : step p (pair p w v queue)
      = some ((pair p w v queue).set p s
        (w.goOn s w.moved (next w.moved), queue (p.channel s))) := by
    refine step_eq_some.2 ⟨s, _, by rw [partner_pair_self, hp]; rfl, ?_, rfl⟩
    unfold Partner.step
    simp only [partner_pair_self, hp, hlen, List.drop_length, queue_pair]
  rw [set_pair, Function.update_eq_self] at hstep
  exact .single ⟨p, hstep⟩

theorem pair_awaits (hp : w.program = .await s n P) (hn : n.toNat ≤ s.room (queue (p.channel s))) :
    Reach (pair p w v queue) (pair p (w.goOn s [] P) v queue) := by
  have hstep : step p (pair p w v queue)
      = some ((pair p w v queue).set p s (w.goOn s [] P, queue (p.channel s))) := by
    refine step_eq_some.2 ⟨s, _, by rw [partner_pair_self, hp]; rfl, ?_, rfl⟩
    unfold Partner.step
    simp only [partner_pair_self, hp, queue_pair, if_pos hn]
  rw [set_pair, Function.update_eq_self] at hstep
  exact .single ⟨p, hstep⟩

theorem pair_ended (hw : w.program = .stop) (hv : v.program = .stop) :
    (pair p w v queue).Ended := by
  intro q
  refine step_of_stop ?_
  unfold pair
  by_cases hq : q = p
  · simp only [if_pos hq, hw]
  · simp only [if_neg hq, hv]

/-- Both calls of a message return. -/
theorem tells (hcapacity : 0 < capacity) (hp : w.program = .transfer .producer buffer next)
    (hv : v.program = .transfer .consumer sink next') (hw : w.moved = []) (hv' : v.moved = [])
    (hlen : sink.1.length = buffer.1.length) (hempty : queue (p.channel .producer) = .empty) :
    Reach (pair p w v queue) (pair p (w.goOn .producer buffer.1 (next buffer.1))
      (v.goOn .consumer buffer.1 (next' buffer.1)) queue) := by
  have hmeet : Reach (pair p w v queue)
      (pair p { w with moved := buffer.1 } { v with moved := buffer.1 } queue) := by
    have hrun := rendezvous (l := buffer.1) hcapacity hp hv hempty
      (by rw [hw]; exact List.prefix_rfl) (by rw [hv', hlen]; simp)
    rwa [hw, hv'] at hrun
  have hwrite : Reach (pair p { w with moved := buffer.1 } { v with moved := buffer.1 } queue)
      (pair p (w.goOn .producer buffer.1 (next buffer.1)) { v with moved := buffer.1 } queue) :=
    pair_returns hp rfl
  have hread : Reach (pair p.other { v with moved := buffer.1 }
        (w.goOn .producer buffer.1 (next buffer.1)) queue)
      (pair p.other (v.goOn .consumer buffer.1 (next' buffer.1))
        (w.goOn .producer buffer.1 (next buffer.1)) queue) :=
    pair_returns hv hlen.symm
  rw [pair_swap, pair_swap] at hread
  exact hmeet.trans (hwrite.trans hread)

end Pipes

/-- A conversation comes to its end at the pipes. Bytes that are waited for are put in first, and
from there the pipes can still come to where they would have ended. -/
theorem Converses.reach {l' : Log} {l : Log} (h : Converses capacity P Q l l')
    (hcapacity : 0 < capacity) (p : Process) (k k' : Log) :
    Pipes.Reach (.pair p { program := P, log := k } { program := Q, log := k' } fun _ => .empty)
      (.pair p { program := .stop, log := k ++ l } { program := .stop, log := k' ++ l' }
        fun _ => .empty : Pipes capacity) := by
  induction h generalizing p k k' with
  | stop =>
    simp only [List.append_nil]
    exact .refl
  | swap _ ih =>
    have hrun := ih p.other k' k
    rwa [Pipes.pair_swap, Pipes.pair_swap] at hrun
  | @tell buffer sink next next' l l' hlen _ ih =>
    have hrun := ih p (k ++ [(.producer, buffer.1)]) (k' ++ [(.consumer, buffer.1)])
    rw [List.append_assoc, List.append_assoc] at hrun
    exact (Pipes.tells hcapacity rfl rfl rfl rfl hlen rfl).trans hrun
  | @space n P Q l l' hn _ ih =>
    have hrun := ih p (k ++ [(.producer, [])]) k'
    rw [List.append_assoc] at hrun
    exact (Pipes.pair_awaits rfl hn).trans hrun
  | @heed n P buffer next l l' hn hlen _ ih =>
    have hrun := ih p (k ++ [(.consumer, [])]) k'
    rw [List.append_assoc] at hrun
    let q₁ : BoundedQueue U8 capacity :=
      ⟨buffer.1.take n.toNat, (List.length_take_le _ _).trans hn⟩
    let w : Partner := { program := .await .consumer n P, log := k }
    let v : Partner := { program := .transfer .producer buffer next, log := k' }
    have hput : ∀ u : Partner, Pipes.Reach (.pair p u v fun _ => .empty)
        (.pair p u { v with moved := buffer.1.take n.toNat }
          (Function.update (fun _ => .empty) (p.channel .consumer) q₁)) := by
      intro u
      have hchannel : p.other.channel .producer = p.channel .consumer :=
        p.channel_other_peer .consumer
      have hpasses : Side.producer.Passes (buffer.1.take n.toNat)
          (BoundedQueue.empty : BoundedQueue U8 capacity) q₁ := rfl
      have hrun : Pipes.Reach (.pair p.other v u fun _ => .empty)
          (.pair p.other { v with moved := v.moved ++ buffer.1.take n.toNat } u
            (Function.update (fun _ => .empty) (p.other.channel .producer) q₁)) := by
        refine Pipes.pair_passes rfl ?_ (fun _ => List.take_prefix _ _) hpasses
        simp [v]
      rwa [Pipes.pair_swap, Pipes.pair_swap, hchannel] at hrun
    have hwait : Pipes.Reach (.pair p w { v with moved := buffer.1.take n.toNat }
          (Function.update (fun _ => .empty) (p.channel .consumer) q₁))
        (.pair p (w.goOn .consumer [] P) { v with moved := buffer.1.take n.toNat }
          (Function.update (fun _ => .empty) (p.channel .consumer) q₁)) := by
      refine Pipes.pair_awaits rfl ?_
      rw [Function.update_self]
      simp [Side.room, BoundedQueue.available, q₁, hlen]
    exact (hput w).trans (hwait.trans
      (Pipes.commutes.reaches_stuck (hput _) hrun (Pipes.pair_ended rfl rfl)))

end Runs

/-! ## Runs of the system -/

section Systems

variable {L : Layout} {now now' : Ptime L.sizeofPtime} {program : Process → Program} {x : System}
  {Y : Pipes L.capacity} {ρ : PatientRun L}

/-- Where the pipes end with both programs at their ends, so does every fair run. -/
theorem PatientRun.finishes (h : ρ.state 0 = systemStart L now now' program)
    (hoften : ∀ p, ρ.Often p) (hY : Pipes.Reach (.start L.capacity program) Y)
    (hstop : ∀ p, (Y.partner p).program = .stop) : ∃ i, ∀ j ≥ i, ∀ p,
      ((ρ.state j).worker p).Finished ∧ ((ρ.state j).worker p).log = (Y.partner p).log := by
  have hrecord := recordInv_start now now' program
  have hpatient := patientInv_start now now' program
  have hshows := shows_start now now' program
  rw [← h] at hrecord hpatient hshows
  have hended : Y.Ended := fun p => Pipes.step_of_stop (hstop p)
  obtain ⟨i, hi⟩ := PatientRun.shows_end hrecord hpatient hoften hshows hY hended
  refine ⟨i, fun j hj p => ⟨?_, ((hi j hj).log p).symm⟩⟩
  unfold Worker.Finished
  rw [← (hi j hj).program, hstop]
  exact (hpatient.run j).unfailed p

/-- Where the pipes end nobody has recorded less than in any run, whatever its timers answer. -/
theorem log_prefix (hY : Pipes.Reach (.start L.capacity program) Y) (hended : Y.Ended)
    (hx : SystemReach L (systemStart L now now' program) x) (p : Process) :
    (x.worker p).log <+: (Y.partner p).log := by
  have hrecord := recordInv_start now now' program
  have hpatient := patientInv_start now now' program
  have hshows := shows_start now now' program
  obtain ⟨ρ, hρ, hoften⟩ := exists_patientRun now now' program
  rw [← hρ] at hrecord hpatient hshows
  obtain ⟨i, hi⟩ := PatientRun.shows_end hrecord hpatient hoften hshows hY hended
  obtain ⟨j, hj⟩ := hpatient.settles hoften
  have hend := hi (max i j) (Nat.le_max_left _ _)
  have hrest := (hj (max i j) (Nat.le_max_right _ _)).1
  rw [hend.log]
  rw [hρ] at hrecord
  have hstate := hrecord.reach (hρ ▸ PatientRun.reach ρ (max i j))
  exact (hrecord.behind hstate hrest (behind_start now now') hx).log p

/-- A process that has finished with nothing recorded had nothing to do. -/
theorem Worker.Finished.program_eq {p : Process}
    (hx : SystemReach L (systemStart L now now' program) x) (h : (x.worker p).Finished)
    (hlog : (x.worker p).log = []) : program p = .stop := by
  have hrecord := ((recordInv_start now now' program).reach hx).recorded p
  unfold Worker.Finished at h
  rcases hp : (x.worker p).program with _ | _ | _ <;> rw [hp] at h
  · have hfollows := hrecord.follows h
    rwa [hlog, Program.after_nil, hp] at hfollows
  · exact h.elim
  · exact h.elim

theorem Converses.reach_start {log : Process → Log} (hcapacity : 0 < L.capacity)
    (h : Converses L.capacity (program .server) (program .client) (log .server) (log .client)) :
    ∃ Y, Pipes.Reach (.start L.capacity program) Y
      ∧ ∀ p, (Y.partner p).program = .stop ∧ (Y.partner p).log = log p := by
  rw [Pipes.start_eq program .server]
  exact ⟨_, h.reach hcapacity .server [] [], fun p => by cases p <;> exact ⟨rfl, rfl⟩⟩

theorem Converses.finishes {log : Process → Log} (hcapacity : 0 < L.capacity)
    (h : Converses L.capacity (program .server) (program .client) (log .server) (log .client))
    (hstart : ρ.state 0 = systemStart L now now' program) (hoften : ∀ p, ρ.Often p) :
    ∃ i, ∀ j ≥ i, ∀ p,
      ((ρ.state j).worker p).Finished ∧ ((ρ.state j).worker p).log = log p := by
  obtain ⟨Y, hY, hend⟩ := h.reach_start hcapacity
  obtain ⟨i, hi⟩ := PatientRun.finishes hstart hoften hY fun p => (hend p).1
  refine ⟨i, fun j hj p => ?_⟩
  rw [← (hend p).2]
  exact hi j hj p

theorem Converses.log_prefix {log : Process → Log} (hcapacity : 0 < L.capacity)
    (h : Converses L.capacity (program .server) (program .client) (log .server) (log .client))
    (hx : SystemReach L (systemStart L now now' program) x) (p : Process) :
    (x.worker p).log <+: log p := by
  obtain ⟨Y, hY, hend⟩ := h.reach_start hcapacity
  rw [← (hend p).2]
  exact MemMapIPC.log_prefix hY (fun q => Pipes.step_of_stop (hend q).1) hx p

/-- Two programs made for each other, where reads meet writes in order and a wait for bytes is for
no more than the message the other process is at writing, both finish in every run in which both
processes go on and no timer reaches its limit, and leave in their buffers what the conversation
says. No run, whatever its timers answer, leaves there anything else. -/
theorem conversation_completes (L : Layout) (now now' : Ptime L.sizeofPtime)
    (program : Process → Program) (log : Process → Log) (hcapacity : 0 < L.capacity)
    (h : Converses L.capacity (program .server) (program .client) (log .server) (log .client)) :
    (∀ ρ : PatientRun L, ρ.state 0 = systemStart L now now' program → (∀ p, ρ.Often p) →
      ∃ i, ∀ j ≥ i, ∀ p,
        ((ρ.state j).worker p).Finished ∧ ((ρ.state j).worker p).log = log p)
    ∧ ∀ x, SystemReach L (systemStart L now now' program) x → ∀ p,
      (x.worker p).log <+: log p :=
  ⟨fun _ hρ hoften => h.finishes hcapacity hρ hoften, fun _ hx p => h.log_prefix hcapacity hx p⟩

/-- The client waits for the beginning of a message that is more than the ring can hold. -/
def announce : Process → Program
  | .server => .transfer .producer ⟨[1, 2, 3, 4, 5, 6, 7, 8, 9], by decide⟩ fun _ => .stop
  | .client => .await .consumer 2
    (.transfer .consumer ⟨[0, 0, 0, 0, 0, 0, 0, 0, 0], by decide⟩ fun _ => .stop)

def announceLog : Process → Log
  | .server => [(.producer, [1, 2, 3, 4, 5, 6, 7, 8, 9])]
  | .client => [(.consumer, []), (.consumer, [1, 2, 3, 4, 5, 6, 7, 8, 9])]

theorem conversation_completes_announce :
    (∀ ρ : PatientRun smallLayout,
      ρ.state 0 = systemStart smallLayout (.zero _) (.zero _) announce → (∀ p, ρ.Often p) →
        ∃ i, ∀ j ≥ i, ∀ p,
          ((ρ.state j).worker p).Finished ∧ ((ρ.state j).worker p).log = announceLog p)
    ∧ ∀ x, SystemReach smallLayout (systemStart smallLayout (.zero _) (.zero _) announce) x →
      ∀ p, (x.worker p).log <+: announceLog p :=
  conversation_completes smallLayout (.zero _) (.zero _) announce announceLog (by decide)
    (.swap (.heed (by decide) (by decide) (.swap (.tell rfl .stop))))

end Systems

/-! ## Both processes write first -/

section Exchange

variable {capacity : ℕ} {data sink : Process → Buffer} {p : Process}

/-- What a process has in its buffers after an exchange. -/
def exchangeLog (data : Process → Buffer) (p : Process) : Log :=
  [(.producer, (data p).1), (.consumer, (data p.other).1)]

/-- If one process's bytes fit into its ring it writes them all, and then reads as the other
writes. -/
theorem exchange_reach (hcapacity : 0 < capacity)
    (hsink : ∀ p, (sink p).1.length = (data p.other).1.length)
    (hfits : (data p).1.length ≤ capacity) :
    Pipes.Reach (.start capacity (exchange data sink))
      (.pair p { program := .stop, log := exchangeLog data p }
        { program := .stop, log := exchangeLog data p.other } fun _ => .empty) := by
  have hchannel : p.other.channel .consumer = p.channel .producer := p.channel_other_peer .producer
  have hne : p.other.channel .producer ≠ p.channel .producer := by cases p <;> decide
  let q₁ : BoundedQueue U8 capacity := ⟨(data p).1, hfits⟩
  let queue : Channel → BoundedQueue U8 capacity :=
    Function.update (fun _ => .empty) (p.channel .producer) q₁
  let w : Partner := { program := exchange data sink p }
  let v : Partner := { program := exchange data sink p.other }
  let w₁ : Partner := { program := .transfer .consumer (sink p) fun _ => .stop,
                        log := [(.producer, (data p).1)] }
  let v₁ : Partner := { program := .transfer .consumer (sink p.other) fun _ => .stop,
                        log := [(.producer, (data p.other).1)] }
  have hp : w.program
      = .transfer .producer (data p) fun _ => .transfer .consumer (sink p) fun _ => .stop := rfl
  have hv : v.program = .transfer .producer (data p.other) fun _ =>
    .transfer .consumer (sink p.other) fun _ => .stop := rfl
  have hp₁ : w₁.program = .transfer .consumer (sink p) fun _ => .stop := rfl
  have hv₁ : v₁.program = .transfer .consumer (sink p.other) fun _ => .stop := rfl
  have hwrite : Pipes.Reach (.pair p w v fun _ => .empty) (.pair p w₁ v queue) := by
    have hput : Pipes.Reach (.pair p w v fun _ => .empty)
        (.pair p { w with moved := (data p).1 } v queue) :=
      Pipes.pair_passes (w := w) (l := (data p).1) hp (by simp [w]) (fun _ => List.prefix_rfl) rfl
    have hreturn : Pipes.Reach (.pair p { w with moved := (data p).1 } v queue)
        (.pair p w₁ v queue) := Pipes.pair_returns (w := { w with moved := (data p).1 }) hp rfl
    exact hput.trans hreturn
  have hmeet : Pipes.Reach (.pair p w₁ v queue)
      (.pair p { program := .stop, log := exchangeLog data p } v₁ queue) := by
    have hrun : Pipes.Reach (.pair p.other v w₁ queue)
        (.pair p.other v₁ { program := .stop, log := exchangeLog data p } queue) :=
      Pipes.tells hcapacity hv hp₁ rfl rfl (hsink p) (Function.update_of_ne hne _ _)
    rwa [Pipes.pair_swap, Pipes.pair_swap] at hrun
  have hread : Pipes.Reach (.pair p { program := .stop, log := exchangeLog data p } v₁ queue)
      (.pair p { program := .stop, log := exchangeLog data p }
        { program := .stop, log := exchangeLog data p.other } fun _ => .empty) := by
    have hlen := hsink p.other
    rw [Process.other_other] at hlen
    have htake : Pipes.Reach
        (.pair p.other v₁ { program := .stop, log := exchangeLog data p } queue)
        (.pair p.other { v₁ with moved := (data p).1 }
          { program := .stop, log := exchangeLog data p }
          (Function.update queue (p.other.channel .consumer) .empty)) := by
      refine Pipes.pair_passes (w := v₁) (l := (data p).1) hv₁ (by simp [v₁, hlen])
        (fun h => by cases h) ?_
      show (queue _).contents = (data p).1 ++ []
      rw [hchannel, List.append_nil]
      simp [queue, q₁]
    have hreturn := htake.trans
      (Pipes.pair_returns (w := { v₁ with moved := (data p).1 }) hv₁ hlen.symm)
    rw [hchannel, Function.update_idem, Pipes.pair_swap, Pipes.pair_swap,
      Function.update_eq_self_iff.2 rfl] at hreturn
    have hlog : exchangeLog data p.other
        = [(.producer, (data p.other).1), (.consumer, (data p).1)] := by
      rw [exchangeLog, Process.other_other]
    rw [hlog]
    exact hreturn
  rw [Pipes.start_eq _ p]
  exact hwrite.trans (hmeet.trans hread)

/-- If neither's bytes fit both processes fill their rings and wait. -/
theorem exchange_jams (sink : Process → Buffer) (hlong : ∀ p, capacity < (data p).1.length) :
    ∃ Y : Pipes capacity, Pipes.Reach (.start capacity (exchange data sink)) Y ∧ Y.Ended
      ∧ ∀ p, (Y.partner p).log = [] := by
  let q (p : Process) : BoundedQueue U8 capacity :=
    ⟨(data p).1.take capacity, List.length_take_le _ _⟩
  let w (p : Process) : Partner := { program := exchange data sink p }
  let full (p : Process) : Partner := { w p with moved := (data p).1.take capacity }
  have hlen : ∀ p, ((data p).1.take capacity).length = capacity := fun p => by
    rw [List.length_take, Nat.min_eq_left (hlong p).le]
  have hfill : ∀ (p : Process) (v : Partner) (queue : Channel → BoundedQueue U8 capacity),
      queue (p.channel .producer) = .empty → Pipes.Reach (.pair p (w p) v queue)
        (.pair p (full p) v (Function.update queue (p.channel .producer) (q p))) := by
    intro p v queue hempty
    refine Pipes.pair_passes (w := w p) (l := (data p).1.take capacity) rfl ?_
      (fun _ => List.take_prefix _ _) ?_
    · simp [w]
    · show (q p).contents = (queue _).contents ++ _
      rw [hempty]
      rfl
  let queue : Channel → BoundedQueue U8 capacity :=
    Function.update (fun _ => .empty) .outbound (q .server)
  let queue' : Channel → BoundedQueue U8 capacity := Function.update queue .inbound (q .client)
  have hserver : Pipes.Reach (.start capacity (exchange data sink))
      (.pair .server (full .server) (w .client) queue) := by
    rw [Pipes.start_eq _ .server]
    exact hfill .server _ _ rfl
  have hclient : Pipes.Reach (.pair .server (full .server) (w .client) queue)
      (.pair .server (full .server) (full .client) queue') := by
    rw [← Pipes.pair_swap (p := .server), ← Pipes.pair_swap (p := .server)]
    exact hfill .client (full .server) queue rfl
  refine ⟨_, hserver.trans hclient, fun p => ?_, fun p => by cases p <;> rfl⟩
  have hpartner : (Pipes.pair .server (full .server) (full .client) queue').partner p = full p := by
    cases p <;> rfl
  have hqueue : queue' (p.channel .producer) = q p := by cases p <;> rfl
  refine Pipes.step_of_transfer (s := .producer) (congrArg Partner.program hpartner) ?_ ?_
  · rw [hpartner]
    exact (hlen p).trans_lt (hlong p)
  · show capacity - (queue' (p.channel .producer)).contents.length = 0
    rw [hqueue]
    exact Nat.sub_eq_zero_of_le (hlen p).ge

/-- Where both processes write first and then read as many bytes as the other writes, at rings of at
least one byte, one of them finishes in some run just if the bytes of one fit into a ring. Then
every run in which both go on, and no timer reaches its limit, ends with both having read what the
other wrote. -/
theorem exchange_completes_iff (L : Layout) (now now' : Ptime L.sizeofPtime)
    (data sink : Process → Buffer) (hsink : ∀ p, (sink p).1.length = (data p.other).1.length)
    (hcapacity : 0 < L.capacity) :
    ((∃ x, SystemReach L (systemStart L now now' (exchange data sink)) x
        ∧ ∃ p, (x.worker p).Finished) ↔ ∃ p, (data p).1.length ≤ L.capacity)
      ∧ ((∃ p, (data p).1.length ≤ L.capacity) → ∀ ρ : PatientRun L,
        ρ.state 0 = systemStart L now now' (exchange data sink) → (∀ p, ρ.Often p) →
          ∃ i, ∀ j ≥ i, ∀ p, ((ρ.state j).worker p).Finished
            ∧ ((ρ.state j).worker p).log = exchangeLog data p) := by
  have hfair : (∃ p, (data p).1.length ≤ L.capacity) → ∀ ρ : PatientRun L,
      ρ.state 0 = systemStart L now now' (exchange data sink) → (∀ p, ρ.Often p) →
        ∃ i, ∀ j ≥ i, ∀ p, ((ρ.state j).worker p).Finished
          ∧ ((ρ.state j).worker p).log = exchangeLog data p := by
    rintro ⟨p, hfits⟩ ρ hρ hoften
    have hreach := exchange_reach hcapacity hsink hfits
    obtain ⟨i, hi⟩ := PatientRun.finishes hρ hoften hreach fun q => by cases p <;> cases q <;> rfl
    refine ⟨i, fun j hj q => ?_⟩
    obtain ⟨hfinished, hlog⟩ := hi j hj q
    refine ⟨hfinished, hlog.trans ?_⟩
    cases p <;> cases q <;> rfl
  refine ⟨⟨fun ⟨x, hx, p, hfinished⟩ => ?_, fun hfits => ?_⟩, hfair⟩
  · by_contra hlong
    push Not at hlong
    obtain ⟨Y, hY, hended, hnil⟩ := exchange_jams sink hlong
    have hstop := Worker.Finished.program_eq hx hfinished
      (List.prefix_nil.1 (hnil p ▸ log_prefix hY hended hx p))
    cases hstop
  · obtain ⟨ρ, hρ, hoften⟩ := exists_patientRun now now' (exchange data sink)
    obtain ⟨i, hi⟩ := hfair hfits ρ hρ hoften
    exact ⟨_, hρ ▸ PatientRun.reach ρ i, .server, (hi i le_rfl .server).1⟩

/-- The server's message is more than a ring can hold, the client's not. -/
def messages : Process → Buffer
  | .server => ⟨[1, 2, 3, 4, 5, 6, 7, 8, 9], by decide⟩
  | .client => ⟨[10, 11], by decide⟩

theorem exchange_completes_iff_small :
    ((∃ x, SystemReach smallLayout (systemStart smallLayout (.zero _) (.zero _)
          (exchange messages fun p => messages p.other)) x
        ∧ ∃ p, (x.worker p).Finished) ↔ ∃ p, (messages p).1.length ≤ smallLayout.capacity)
      ∧ ((∃ p, (messages p).1.length ≤ smallLayout.capacity) → ∀ ρ : PatientRun smallLayout,
        ρ.state 0 = systemStart smallLayout (.zero _) (.zero _)
            (exchange messages fun p => messages p.other) → (∀ p, ρ.Often p) →
          ∃ i, ∀ j ≥ i, ∀ p, ((ρ.state j).worker p).Finished
            ∧ ((ρ.state j).worker p).log = exchangeLog messages p) :=
  exchange_completes_iff smallLayout (.zero _) (.zero _) messages (fun p => messages p.other)
    (fun _ => rfl) (by decide)

end Exchange

end MemMapIPC
