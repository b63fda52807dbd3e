import MemMapIPC.Proofs.Program

/-!
# Two programs come to rest

A process goes on in its program, or its call's cursor moves over more bytes, only so often: from
some time on neither process does either, and so no first word changes. The second words agree with
the first ones soon after. A process that then had something to do would have each of its steps
bring it nearer to moving a byte or to its call's end (`Endpoint.step_stage`), while the other's
steps change nothing of that. So both rest.
-/

namespace MemMapIPC

open ByteMemory Interleaving Relation Fair

/-! ## Where a call is while nothing moves -/

section Stage

/-- The count being made, or just made, does not go by the peer's word `first`, or was less than
`n`. -/
def Party.stale (first n : U64) (p : Party) : Bool :=
  match p.call with
  | none => p.last < n
  | some c => c.nonvolatile.elim false (· ≠ first)

/-- The points of an entity's call that can still come before it moves a byte. -/
def Endpoint.stage (first : U64) (s : Side) (σ : Shared) (e : Endpoint) : ℕ :=
  match e.transfer with
  | none => 0
  | some (.whole, true) => 1
  | some (.whole, false) => 2
  | some (.chunk _ _, true) => if e.ring.left s σ = 0 then 9 else 2
  | some (.chunk _ _, false) => 3
  | some (.restart _ _, _) => 4
  | some (.poll _, true) => if e.ring.stale first 1 then 8 else 5
  | some (.poll _, false) => 6
  | some (.elapsed _, _) => 7
  | some (.timeoutTimer, _) => 10
  | some (.check, true) => 11
  | some (.check, false) => 12
  | some (.updateTimestamp, _) => 13

variable {r : Ring} {s : Side} {σ σ' : Shared} {p p' : Party} {e e' : Endpoint} {k : ℕ} {c : Call}
  {n : U64}

/-- A count by the peer's present word finds all there is. -/
theorem Own.move_stale (h : Own r s σ p) (hc : p.call = some c) (htr : c.transfers = false)
    (hm : p.move r.buffer s c σ = some (p', σ')) (hroom : n.toNat + σ.advanced s ≤ limit r σ s)
    (hfresh : p.stale (r.word σ.mem s.peer false) n = false) :
    p'.stale (r.word σ.mem s.peer false) n = false := by
  have hat := h.at_call
  unfold Party.stale at hfresh
  rw [hc] at hat hfresh
  cases c with
  | loadSecond =>
    simp only [Party.move_loadSecond, Option.some.injEq, Prod.mk.injEq] at hm
    obtain ⟨rfl, -⟩ := hm
    rfl
  | loadFirst v =>
    simp only [Party.move_loadFirst, Ring.loadWord_pointer, Option.some.injEq, Prod.mk.injEq] at hm
    obtain ⟨rfl, -⟩ := hm
    unfold Party.stale
    by_cases hv : v = r.word σ.mem s.peer false <;> simp [hv, Call.nonvolatile]
  | compare v =>
    simp only [Party.move_compare, Option.some.injEq, Prod.mk.injEq] at hm
    obtain ⟨rfl, -⟩ := hm
    exact hfresh
  | subtract v isAhead =>
    simp only [Party.move_subtract, Ring.loadWord_pointer, Option.some.injEq, Prod.mk.injEq] at hm
    obtain ⟨rfl, -⟩ := hm
    obtain ⟨-, -, -, rfl⟩ := hat
    simp only [Call.nonvolatile, Option.elim_some, ne_eq, decide_not, Bool.not_eq_false',
      decide_eq_true_eq] at hfresh
    have hlim := h.sound.limit_le s
    have hcount := Ring.toNat_difference (hfresh ▸ h.sound.first s.peer) (h.sound.first s)
      (by unfold limit at hroom; omega) hlim
    simp only [Party.stale, decide_eq_false_iff_not, BitVec.lt_def, hcount]
    unfold limit at hroom
    omega
  | _ => cases htr

theorem toNat_amount_pos {moved count : U64} (hlt : moved < n) (hpos : 0 < count) :
    0 < (Transfer.amount n moved count).toNat := by
  have hsub := BitVec.toNat_sub_of_le (BitVec.le_of_lt hlt)
  rw [BitVec.lt_def] at hlt hpos
  unfold Transfer.amount
  split_ifs
  · rw [hsub]
    omega
  · simpa using hpos

/-- While a call polls, bytes of it are still to be moved. -/
theorem InCall.poll_lt (h : InCall s σ k e) (hown : EndpointOwn r s σ e) {moved : U64}
    {asked : Bool} (ht : e.transfer = some (.poll moved, asked)) :
    σ.advanced s < k + e.data.length := by
  have hlt := hown.at_transfer _ _ ht
  rw [TransferAt, BitVec.lt_def, hown.toNat_numberOfBytes] at hlt
  have hhanded : e.handed = some moved.toNat := by
    unfold Endpoint.handed
    rw [ht]
    rfl
  have hpos := h.position _ hhanded
  omega

/-- A step of a call that moves no byte brings the call nearer to one that does, or to its end. -/
theorem InCall.step_stage (h : InCall s σ k e) (hown : EndpointOwn r s σ e)
    {w : Transfer × Bool} (ht : e.transfer = some w)
    (hs : e.step r.buffer s true σ = some (e', σ')) (hadv : σ'.advanced s = σ.advanced s)
    (hagree : Agree r s σ)
    (hroom : σ.advanced s < k + e.data.length → σ.advanced s < limit r σ s) :
    toLex (e'.stage (r.word σ.mem s.peer false) s σ', e'.ring.rank (r.word σ.mem s.peer false))
      < toLex (e.stage (r.word σ.mem s.peer false) s σ,
        e.ring.rank (r.word σ.mem s.peer false)) := by
  obtain ⟨t, asked⟩ := w
  have hat := hown.at_transfer t asked ht
  have hidle := hown.idle t
  generalize hfirst : r.word σ.mem s.peer false = first
  rw [Prod.Lex.toLex_lt_toLex]
  rcases hc : e.ring.call with _ | c
  swap
  · obtain rfl : asked = true := by
      by_contra hasked
      rw [Bool.not_eq_true] at hasked
      rw [hasked] at ht
      rw [hidle ht] at hc
      cases hc
    simp only [Endpoint.step, ht, hc, Option.map_eq_some_iff, Prod.mk.injEq] at hs
    obtain ⟨⟨p, σ'⟩, hm, rfl, rfl⟩ := hs
    have hrank := Own.move_rank (fun _ => hagree) hc hm
    have hleft := hown.ring.move_left hc hm
    rw [hfirst] at hrank
    suffices hstage : Endpoint.stage first s σ' { e with transfer := some (t, true), ring := p }
        ≤ e.stage first s σ from hstage.lt_or_eq.imp_right fun heq => ⟨heq, hrank⟩
    unfold Endpoint.stage
    rw [ht]
    cases t with
    | chunk moved count =>
      have heq : p.left s σ' = e.ring.left s σ := by simp only at hadv; omega
      simp only [heq, le_refl]
    | poll moved =>
      have hlt := hroom (h.poll_lt hown ht)
      have hstale := hown.ring.move_stale (n := 1) hc (h.kind _ _ c ht hc) hm
        (by simp; omega)
      rw [hfirst] at hstale
      simp only
      by_cases hst : e.ring.stale first 1 = true
      · rw [if_pos hst]
        split_ifs <;> omega
      · rw [Bool.not_eq_true] at hst
        rw [hst, hstale hst]
    | _ => exact le_rfl
  · cases asked with
    | true =>
      simp only [Endpoint.step, ht, hc, Option.some.injEq, Prod.mk.injEq] at hs
      obtain ⟨rfl, rfl⟩ := hs
      left
      cases t with
      | updateTimestamp => cases hat
      | timeoutTimer => cases hat
      | elapsed moved => cases hat.1
      | restart moved count => cases hat.1
      | whole => simp [Endpoint.stage, Transfer.next, Endpoint.resume, ht]
      | check =>
        simp only [Endpoint.stage, Transfer.next, Endpoint.resume, ht]
        split_ifs <;> simp
      | poll moved =>
        simp only [Endpoint.stage, Transfer.next, Endpoint.resume, ht, Party.stale, hc,
          decide_eq_true_eq]
        by_cases hpos : 0 < e.ring.last
        · have hge : ¬e.ring.last < 1 := by
            rw [BitVec.lt_def] at hpos ⊢
            simp at hpos ⊢
            omega
          rw [if_pos hpos, if_neg hge]
          simp
        · have hlt : e.ring.last < 1 := by
            rw [BitVec.lt_def] at hpos ⊢
            simp at hpos ⊢
            omega
          rw [if_neg hpos, if_pos hlt]
          simp
      | chunk moved count =>
        simp [Endpoint.stage, Transfer.next, Endpoint.resume, ht, Party.left, hc]
    | false =>
      left
      cases t with
      | elapsed moved =>
        simp only [Endpoint.step, ht, hc, Transfer.ask, Option.some.injEq, Prod.mk.injEq] at hs
        obtain ⟨rfl, rfl⟩ := hs
        simp only [Endpoint.stage, Transfer.next, ht]
        split_ifs <;> simp [Endpoint.resume]
      | poll moved =>
        simp only [Endpoint.step, ht, hc, Transfer.ask, Option.some.injEq, Prod.mk.injEq] at hs
        obtain ⟨rfl, rfl⟩ := hs
        simp [Endpoint.stage, ht, Party.stale, Call.nonvolatile]
      | chunk moved count =>
        simp only [Endpoint.step, ht, hc, Transfer.ask, Option.some.injEq, Prod.mk.injEq] at hs
        obtain ⟨rfl, rfl⟩ := hs
        obtain ⟨-, hle⟩ := toNat_moved_chunk hat.1 count
        rw [hown.toNat_numberOfBytes] at hle
        have hleft := Endpoint.left_begun (s := s) (σ := σ) (BitVec.isLt _) hle
        have hpos := toNat_amount_pos hat.1 hat.2.1
        simp only [Endpoint.stage, ht, hleft, if_neg hpos.ne']
        simp
      | _ =>
        simp only [Endpoint.step, ht, hc, Transfer.ask, Option.some.injEq, Prod.mk.injEq] at hs
        obtain ⟨rfl, rfl⟩ := hs
        simp [Endpoint.stage, Transfer.next, Endpoint.resume, ht]

end Stage

/-! ## What a process has still to do -/

section Todo

/-- The program left after the first call of `P`, whatever it did. -/
inductive Program.Next : Program → Program → Prop
  | await {s : Side} {n : U64} {next : Program} : Next next (.await s n next)
  | transfer {s : Side} {buffer : Buffer} {next : List U8 → Program} (data : List U8) :
    Next (next data) (.transfer s buffer next)

theorem Program.next_wf : WellFounded Program.Next := by
  refine ⟨fun P => ?_⟩
  induction P with
  | stop => exact ⟨_, fun Q hQ => by cases hQ⟩
  | await s n next ih =>
    refine ⟨_, fun Q hQ => ?_⟩
    cases hQ
    exact ih
  | transfer s buffer next ih =>
    refine ⟨_, fun Q hQ => ?_⟩
    cases hQ with
    | transfer data => exact ih data

/-- The program to run, and the bytes of the call not yet moved over. -/
def System.todo (x : System) (p : Process) : Program × ℕ := ((x.worker p).program, x.owed p)

abbrev TodoLt : Program × ℕ → Program × ℕ → Prop := Prod.Lex Program.Next (· < ·)

theorem todoLt_wf : WellFounded TodoLt := WellFounded.prod_lex Program.next_wf wellFounded_lt

/-- The two words of a process's cursor are the same. -/
def System.Agrees (L : Layout) (x : System) (p : Process) (s : Side) : Prop :=
  (L.ring (p.channel s)).word (x.shared p s).mem s true
    = (L.ring (p.channel s)).word (x.shared p s).mem s false

/-- No call has returned false. -/
structure PatientInv (L : Layout) (m : Segment) (x : System) : Prop extends SystemInv L m x where
  patient : ∀ p s buffer next k, (x.worker p).program = .transfer s buffer next →
    (x.worker p).calling = some k → (x.endpoint p s).transfer = none →
      (x.endpoint p s).result = some true
  unfailed : ∀ p, (x.worker p).failed = false

variable {L : Layout} {m : Segment} {x y z : System} {p q : Process} {s t : Side}
  {e e' : Endpoint} {σ σ' : Shared} {below : Bool} {r : Ring} {k : ℕ}

/-- Below its limit a call returns only with all its bytes moved. -/
theorem Endpoint.step_patient {cb : CircularBuffer} {w : Transfer × Bool}
    (ht : e.transfer = some w) (hs : e.step cb s true σ = some (e', σ'))
    (hnone : e'.transfer = none) : e'.result = some true := by
  obtain ⟨t, asked⟩ := w
  rcases hc : e.ring.call with _ | c
  swap
  · simp only [Endpoint.step, ht, hc, Option.map_eq_some_iff, Prod.mk.injEq] at hs
    obtain ⟨q, -, rfl, -⟩ := hs
    cases hnone
  have hresume : ∀ count, (e.resume (t.next e.numberOfBytes count true)).transfer = none →
      (e.resume (t.next e.numberOfBytes count true)).result = some true := by
    intro count hret
    cases t with
    | whole => rfl
    | elapsed moved =>
      by_cases hmoved : moved = e.numberOfBytes
      · simp [Endpoint.resume, Transfer.next, hmoved]
      · simp [Endpoint.resume, Transfer.next, hmoved] at hret
    | _ => cases hret
  cases asked with
  | true =>
    simp only [Endpoint.step, ht, hc, Option.some.injEq, Prod.mk.injEq] at hs
    obtain ⟨rfl, -⟩ := hs
    exact hresume _ hnone
  | false =>
    simp only [Endpoint.step, ht, hc] at hs
    split at hs
    · simp only [Option.some.injEq, Prod.mk.injEq] at hs
      obtain ⟨rfl, -⟩ := hs
      cases hnone
    · simp only [Option.some.injEq, Prod.mk.injEq] at hs
      obtain ⟨rfl, -⟩ := hs
      cases hnone
    · simp only [Option.some.injEq, Prod.mk.injEq] at hs
      obtain ⟨rfl, -⟩ := hs
      exact hresume _ hnone

theorem Acts.unfailed (h : PatientInv L m x) (ha : Acts L true p x y) (q : Process) :
    (y.worker q).failed = false := by
  by_cases hq : q = p
  swap
  · rw [ha.worker_of_ne hq]
    exact h.unfailed q
  subst hq
  cases ha with
  | fails hp hk ht hresult => exact absurd (h.patient _ _ _ _ _ hp hk ht) hresult
  | stopped hp => exact h.unfailed q
  | count hp hk hc hm => exact h.unfailed q
  | call hp hk ht hs hz =>
    rw [hz.worker]
    exact h.unfailed q
  | _ =>
    rw [System.worker_setWorker_self]
    exact h.unfailed q

theorem Acts.patient (h : PatientInv L m x) (ha : Acts L true p x y) : PatientInv L m y := by
  refine ⟨ha.inv h.toSystemInv, fun q t buffer next k hq hk ht => ?_, ha.unfailed h⟩
  by_cases hqp : q = p
  swap
  · rw [ha.worker_of_ne hqp] at hq hk
    rw [(ha.leaves_of_ne h.toSystemInv hqp t).1] at ht ⊢
    exact h.patient q t buffer next k hq hk ht
  subst hqp
  cases ha with
  | stopped hp =>
    rw [hp] at hq
    cases hq
  | ask hp hk' =>
    rw [System.worker_setWorker_self, hp] at hq
    cases hq
  | count hp hk' hc hm =>
    rw [System.worker_set, hp] at hq
    cases hq
  | begin hp hk' =>
    rw [System.worker_setWorker_self, hp] at hq
    obtain ⟨rfl, rfl, rfl⟩ := Program.transfer.inj hq
    rw [System.endpoint_setWorker, System.endpoint_set_self] at ht
    cases ht
  | call hp hk' ht' hs hz =>
    rw [hz.worker, System.worker_set, hp] at hq
    obtain ⟨rfl, rfl, rfl⟩ := Program.transfer.inj hq
    rw [hz.endpoint, System.endpoint_set_self] at ht ⊢
    exact Endpoint.step_patient ht' hs ht
  | _ =>
    rw [System.worker_setWorker_self] at hk
    cases hk

theorem Endpoint.handed_le (h : EndpointOwn r s σ e) {n : ℕ} (hn : e.handed = some n) :
    n ≤ e.data.length := by
  have hlen := h.toNat_numberOfBytes
  unfold Endpoint.handed at hn
  rcases ht : e.transfer with _ | ⟨t, asked⟩ <;> rw [ht] at hn
  · simp only at hn
    split_ifs at hn
    exact (Option.some.inj hn).ge
  · have hat := h.at_transfer t asked ht
    cases t with
    | chunk moved count =>
      obtain ⟨hlt, -⟩ := hat
      obtain ⟨-, hle⟩ := toNat_moved_chunk hlt count
      cases asked with
      | true =>
        obtain rfl := Option.some.inj hn
        omega
      | false =>
        obtain rfl := Option.some.inj hn
        simp only [Transfer.moved]
        omega
    | whole =>
      cases asked with
      | true => exact (Option.some.inj hn).ge
      | false =>
        obtain rfl := Option.some.inj hn
        exact Nat.zero_le _
    | elapsed moved =>
      obtain rfl := Option.some.inj hn
      rw [TransferAt, BitVec.le_def] at hat
      simp only [Transfer.moved]
      omega
    | poll moved =>
      obtain rfl := Option.some.inj hn
      rw [TransferAt, BitVec.lt_def] at hat
      simp only [Transfer.moved]
      omega
    | restart moved count =>
      obtain rfl := Option.some.inj hn
      rw [TransferAt, BitVec.lt_def] at hat
      simp only [Transfer.moved]
      omega
    | _ =>
      obtain rfl := Option.some.inj hn
      exact Nat.zero_le _

theorem Program.Next.ne {P Q : Program} (h : Program.Next P Q) : P ≠ Q := by
  rintro rfl
  exact next_wf.irrefl.irrefl P h

/-- While it has not returned false, a call's cursor has not passed the end of its buffer. -/
theorem InCall.advanced_le (h : InCall s σ k e) (hown : EndpointOwn r s σ e)
    (ht : e.transfer = none → e.result = some true) : σ.advanced s ≤ k + e.data.length := by
  obtain ⟨n, hn⟩ : ∃ n, e.handed = some n := by
    rcases he : e.transfer with _ | ⟨t, asked⟩
    · exact ⟨e.data.length, by simp [Endpoint.handed, he, ht he]⟩
    · cases asked with
      | false => exact ⟨_, Endpoint.handed_of_false he⟩
      | true => cases t <;> exact ⟨_, by simp only [Endpoint.handed, he]; rfl⟩
  have hle := Endpoint.handed_le hown hn
  have hpos := h.position n hn
  omega

theorem EndpointStep.advanced_le (h : EndpointOwn r s σ e)
    (hs : EndpointStep r.buffer s (e, σ) (e', σ')) : σ.advanced s ≤ σ'.advanced s := by
  obtain ⟨-, hkeep⟩ := endpointStep_guarantees r s _ _ _ _ h hs
  have hadv := hkeep.advanced_peer
  rwa [Side.peer_peer] at hadv

theorem Acts.position_le (h : SystemInv L m x) (ha : Acts L below p x y) (q : Process)
    (t : Side) : x.position q t ≤ y.position q t := by
  unfold System.position
  rcases ha.effect h with hd | ⟨s, e, σ, z, hs, hz, hd⟩
  · rw [System.shared_congr hd]
  · by_cases hqt : (q, t) = (p, s)
    · obtain ⟨rfl, rfl⟩ := Prod.mk.inj hqt
      rw [(hz.leaves_self h hs hd).2.advanced]
      exact hs.advanced_le (System.firm h.duplex q t).toEndpointOwn
    · rw [(hz.leaves_of_ne h hs hd hqt).2.advanced]

theorem System.owed_calling {buffer : Buffer} {next : List U8 → Program}
    (hp : (x.worker p).program = .transfer s buffer next) (hk : (x.worker p).calling = some k) :
    x.owed p = k + buffer.1.length - x.position p s := by
  unfold owed position
  rw [hp, hk]

/-- An access that leaves the cursor leaves all the process's cursors. -/
theorem Stamped.position_eq (h : SystemInv L m x)
    (hs : EndpointStep (L.ring (p.channel s)).buffer s (x.endpoint p s, x.shared p s) (e, σ))
    (hz : Stamped L p (x.set p s e σ) z) (hd : y.duplex = z.duplex)
    (hadv : σ.advanced s = x.position p s) (t : Side) : y.position p t = x.position p t := by
  by_cases ht : t = s
  · subst ht
    exact (hz.leaves_self h hs hd).2.advanced.trans hadv
  · exact (hz.leaves_of_ne h hs hd fun he => ht (Prod.mk.inj he).2).2.advanced

/-- A step of a process whose timers answer that there is time brings its program on, or the cursor,
or leaves both as they were. -/
theorem Acts.advances (h : PatientInv L m x) (ha : Acts L true p x y) :
    (y.worker p).program.Next (x.worker p).program
      ∨ (y.worker p).program = (x.worker p).program ∧ y.owed p < x.owed p
        ∧ (∃ t, y.position p t ≠ x.position p t)
      ∨ y.todo p = x.todo p ∧ ∀ t, y.position p t = x.position p t := by
  have hinv := ha.patient h
  cases ha with
  | stopped hp => exact .inr (.inr ⟨rfl, fun _ => rfl⟩)
  | @ask s n next hp hk =>
    refine .inr (.inr ⟨?_, Stamped.position_eq h.toSystemInv (h.idle hk s).ask (.inl rfl) rfl rfl⟩)
    unfold System.todo System.owed
    rw [System.worker_setWorker_self]
    simp only [hp]
  | @count s n next k c party σ hp hk hc hm =>
    obtain ⟨ht, hkind⟩ := h.awaits hp hk
    obtain rfl := Party.move_of_not_transfers (hkind c hc) hm
    refine .inr (.inr ⟨?_, Stamped.position_eq h.toSystemInv (.direct ht (.move hc hm)) (.inl rfl)
      rfl rfl⟩)
    unfold System.todo System.owed
    rw [System.worker_set]
    simp only [hp]
  | enough hp hk hc hn =>
    left
    rw [System.worker_setWorker_self, hp]
    exact .await
  | tooFew hp hk hc hn =>
    refine .inr (.inr ⟨?_, fun _ => rfl⟩)
    unfold System.todo System.owed
    rw [System.worker_setWorker_self]
    simp only [hp]
  | @begin s buffer next hp hk =>
    obtain ⟨hlen, -⟩ := (System.firm h.duplex p s).toEndpointOwn.settled (h.idle hk s).2
    refine .inr (.inr ⟨?_, Stamped.position_eq h.toSystemInv (.begin (h.idle hk s) buffer.2)
      (.inl rfl) rfl rfl⟩)
    unfold System.todo System.owed
    rw [System.worker_setWorker_self]
    simp only [hp, hk, System.shared_setWorker, System.shared_set_self, hlen,
      Nat.add_sub_cancel_left]
  | @call s buffer next k w e σ _ hp hk ht hs hz =>
    obtain ⟨hdata, hcall⟩ := hinv.calls (by rw [hz.worker]; exact hp) (by rw [hz.worker]; exact hk)
    have hown := (System.firm hinv.duplex p s).toEndpointOwn
    have hle := hcall.advanced_le hown fun ht' => hinv.patient p s buffer next k
      (by rw [hz.worker]; exact hp) (by rw [hz.worker]; exact hk) ht'
    rw [hdata] at hle
    have hprogram : (y.worker p).program = (x.worker p).program := by rw [hz.worker]; rfl
    have howed := System.owed_calling (x := y) (by rw [hprogram]; exact hp)
      (by rw [hz.worker]; exact hk)
    have hmono := (EndpointStep.step true hs).advanced_le
      (System.firm h.duplex p s).toEndpointOwn
    by_cases heq : σ.advanced s = x.position p s
    · have hpos := hz.position_eq h.toSystemInv (.step true hs) rfl heq
      refine .inr (.inr ⟨Prod.ext hprogram ?_, hpos⟩)
      change y.owed p = x.owed p
      rw [howed, hpos s, System.owed_calling hp hk]
    · have hself := (hz.leaves_self h.toSystemInv (.step true hs) rfl).2.advanced
      refine .inr (.inl ⟨hprogram, ?_, s, ?_⟩)
      · rw [howed, System.owed_calling hp hk]
        unfold System.position at heq ⊢
        omega
      · unfold System.position at heq ⊢
        rwa [hself]
  | returned hp hk ht hresult =>
    left
    rw [System.worker_setWorker_self, hp]
    exact .transfer _
  | fails hp hk ht hresult => exact absurd (h.patient _ _ _ _ _ hp hk ht) hresult

theorem Acts.todo (h : PatientInv L m x) (ha : Acts L true p x y) :
    TodoLt (y.todo p) (x.todo p)
      ∨ y.todo p = x.todo p ∧ ∀ t, y.position p t = x.position p t := by
  rcases ha.advances h with hnext | ⟨hprogram, howed, -⟩ | hsame
  · exact .inl (.left _ _ hnext)
  · unfold System.todo
    rw [hprogram]
    exact .inl (.right _ howed)
  · exact .inr hsame

theorem Acts.todo_le (h : PatientInv L m x) (ha : Acts L true p x y) (q : Process) :
    TodoLt (y.todo q) (x.todo q) ∨ y.todo q = x.todo q := by
  by_cases hq : q = p
  · rw [hq]
    exact (ha.todo h).imp_right And.left
  · right
    have hpos := ha.position_of_ne h.toSystemInv hq
    unfold System.position at hpos
    unfold System.todo System.owed
    simp only [ha.worker_of_ne hq, hpos]

end Todo

/-! ## While nothing moves -/

section Still

variable {L : Layout} {m : Segment} {x y z : System} {p q : Process} {s t : Side} {e : Endpoint}
  {σ : Shared} {below : Bool} {k : ℕ}

/-- An access by which no cursor moves over a byte leaves a side's words the same if they were, and
makes them so if they were not. -/
theorem EndpointStep.agrees {r : Ring} {e' : Endpoint} {σ' : Shared} (h : Firm r s σ e)
    (hs : EndpointStep r.buffer s (e, σ) (e', σ')) (hadv : σ'.advanced s = σ.advanced s) :
    r.word σ'.mem s true = r.word σ'.mem s false := by
  obtain ⟨t, rfl⟩ : ∃ t : Side, s = t.peer := ⟨s.peer, s.peer_peer.symm⟩
  obtain ⟨hfix, hkeep⟩ := Firm.step_words h hs
  by_cases ha : Agree r t σ
  · exact (hkeep hadv).2 ha
  · exact (hfix ha).1

theorem Acts.agrees (h : SystemInv L m x) (ha : Acts L below p x y)
    (hpos : y.position q t = x.position q t) (hx : x.Agrees L q t) : y.Agrees L q t := by
  unfold System.Agrees
  rcases ha.effect h with hd | ⟨s, e, σ, z, hs, hz, hd⟩
  · rw [System.shared_congr hd]
    exact hx
  by_cases hqt : (q, t) = (p, s)
  · obtain ⟨rfl, rfl⟩ := Prod.mk.inj hqt
    obtain ⟨-, hl⟩ := hz.leaves_self h hs hd
    rw [hl.word, hl.word]
    exact hs.agrees (System.firm h.duplex q t) (hl.advanced.symm.trans hpos)
  · obtain ⟨-, hl⟩ := hz.leaves_of_ne h hs hd hqt
    rw [hl.word, hl.word]
    exact hx

/-- Between the two stores of its cursor a process has only the second of them to do. -/
theorem Acts.agrees_own (h : SystemInv L m x) (ha : Acts L below p x y)
    (hpos : ∀ t, y.position p t = x.position p t) (hx : ¬x.Agrees L p t) : y.Agrees L p t := by
  have hfirm := System.firm h.duplex p t
  obtain ⟨v, later, hc⟩ :
      ∃ v later, (x.endpoint p t).ring.call = some (.publishSecond v later) := by
    by_contra hne
    push Not at hne
    exact hx (hfirm.paired hne)
  have hat := h.task p t
  rcases hp : (x.worker p).program with _ | ⟨s, n, next⟩ | ⟨s, buffer, next⟩
  · rw [Worker.task_stop hp] at hat
    rw [hat.2] at hc
    cases hc
  · rcases hk : (x.worker p).calling with _ | k
    · rw [(h.idle hk t).2] at hc
      cases hc
    rw [Worker.task_await hp hk] at hat
    split_ifs at hat
    · cases hat.2 _ hc
    · rw [hat.2] at hc
      cases hc
  · rcases hk : (x.worker p).calling with _ | k
    · rw [(h.idle hk t).2] at hc
      cases hc
    rw [Worker.task_transfer hp hk] at hat
    by_cases hst : s = t
    swap
    · rw [if_neg hst] at hat
      rw [hat.2] at hc
      cases hc
    subst hst
    rw [if_pos rfl] at hat
    have hne : (x.endpoint p s).transfer ≠ none := fun ht => by
      rw [hat.2.idle ht] at hc
      cases hc
    cases ha with
    | call hp' hk' ht hs hz =>
      rw [hp] at hp'
      obtain ⟨rfl, -⟩ := Program.transfer.inj hp'
      obtain ⟨-, hl⟩ := hz.leaves_self h (.step below hs) rfl
      unfold System.Agrees
      rw [hl.word, hl.word]
      exact (EndpointStep.step below hs).agrees hfirm (hl.advanced.symm.trans (hpos s))
    | begin hp' hk' =>
      rw [hk] at hk'
      cases hk'
    | returned hp' hk' ht =>
      rw [hp] at hp'
      obtain ⟨rfl, -⟩ := Program.transfer.inj hp'
      exact absurd ht hne
    | fails hp' hk' ht =>
      rw [hp] at hp'
      obtain ⟨rfl, -⟩ := Program.transfer.inj hp'
      exact absurd ht hne
    | _ hp' =>
      rw [hp] at hp'
      cases hp'

/-- The peer's first word, as the process's end at side `s` sees it. -/
def System.first (L : Layout) (x : System) (p : Process) (s : Side) : U64 :=
  (L.ring (p.channel s)).word (x.shared p s).mem s.peer false

/-- How far a process can be from moving a byte or from the end of its call. -/
def System.stage (L : Layout) (x : System) (p : Process) : ℕ ×ₗ ℕ :=
  match (x.worker p).program, (x.worker p).calling with
  | .stop, _ => toLex (0, 0)
  | .await _ _ _, none => toLex (3, 0)
  | .await s n _, some _ =>
    toLex (if (x.endpoint p s).ring.stale (x.first L p s) n then 4 else 2,
      (x.endpoint p s).ring.rank (x.first L p s))
  | .transfer _ _ _, none => toLex (14, 0)
  | .transfer s _ _, some _ =>
    toLex ((x.endpoint p s).stage (x.first L p s) s (x.shared p s),
      (x.endpoint p s).ring.rank (x.first L p s))

theorem System.first_congr (hx : SystemInv L m x) (hy : SystemInv L m y)
    (hpos : ∀ q t, y.position q t = x.position q t) (p : Process) (s : Side) :
    y.first L p s = x.first L p s := by
  unfold System.first
  rw [← BitVec.toNat_inj, (System.firm hx.duplex p s).ring.sound.first,
    (System.firm hy.duplex p s).ring.sound.first, System.advanced_peer, System.advanced_peer, hpos]

theorem SystemInv.room_add (h : SystemInv L m x) (p : Process) (s : Side) :
    x.room L p s + x.position p s = limit (L.ring (p.channel s)) (x.shared p s) s := by
  have hsound := (System.firm h.duplex p s).ring.sound
  have hp := hsound.moved_le .producer
  have hc := hsound.moved_le .consumer
  have hp' := hsound.advanced_le .producer
  have hc' := hsound.advanced_le .consumer
  unfold limit Ring.reach System.shared Duplex.shared at *
  unfold System.room System.position System.shared Duplex.shared
  simp only [Side.peer] at *
  cases s <;> simp only <;> omega

theorem Acts.stage_of_ne (h : SystemInv L m x) (ha : Acts L below p x y)
    (hpos : ∀ q t, y.position q t = x.position q t) (hq : q ≠ p) :
    y.stage L q = x.stage L q := by
  have hfirst := System.first_congr h (ha.inv h) hpos q
  have hends : ∀ t, y.endpoint q t = x.endpoint q t := fun t => (ha.leaves_of_ne h hq t).1
  have hstage : ∀ t, (x.endpoint q t).stage (x.first L q t) t (y.shared q t)
      = (x.endpoint q t).stage (x.first L q t) t (x.shared q t) := by
    intro t
    unfold Endpoint.stage
    rw [(ha.leaves_of_ne h hq t).2.left]
  unfold System.stage
  simp only [ha.worker_of_ne hq, hfirst, hends, hstage]

/-- A step of a process that has something to do brings it nearer to moving a byte, or to the end of
its call. -/
theorem Acts.stage_lt (h : PatientInv L m x) (ha : Acts L true p x y)
    (htodo : y.todo p = x.todo p) (hpos : ∀ q t, y.position q t = x.position q t)
    (hagree : ∀ q t, x.Agrees L q t) (hrest : ¬x.Rests L p) : y.stage L p < x.stage L p := by
  have hinv := ha.inv h.toSystemInv
  have hfirst := System.first_congr h.toSystemInv hinv hpos p
  have hagree' : ∀ s, Agree (L.ring (p.channel s)) s (x.shared p s) := fun s => by
    have hpeer := hagree p.other s.peer
    unfold System.Agrees at hpeer
    rw [System.shared_peer, Process.channel_other_peer] at hpeer
    exact hpeer
  unfold System.Rests at hrest
  cases ha with
  | stopped hp =>
    rw [hp] at hrest
    exact absurd trivial hrest
  | @ask s n next hp hk =>
    unfold System.stage
    rw [System.worker_setWorker_self]
    simp only [hp, hk]
    rw [Prod.Lex.toLex_lt_toLex]
    left
    simp [Party.stale, Call.nonvolatile]
  | @count s n next k c party σ hp hk hc hm =>
    obtain ⟨ht, hkind⟩ := h.awaits hp hk
    have hown := (System.firm h.duplex p s).ring
    have hroom := h.room_add p s
    rw [hp] at hrest
    have hrank := Own.move_rank (fun _ => hagree' s) hc hm
    have hstale : (x.endpoint p s).ring.stale (x.first L p s) n = false →
        party.stale (x.first L p s) n = false := hown.move_stale hc (hkind c hc) hm (by
      unfold System.position at hroom
      simp only [not_lt] at hrest
      omega)
    unfold System.stage
    rw [System.worker_set]
    simp only [hp, hk, hfirst, System.endpoint_set_self]
    rw [Prod.Lex.toLex_lt_toLex]
    simp only
    by_cases hst : (x.endpoint p s).ring.stale (x.first L p s) n = true
    · rw [if_pos hst]
      split_ifs
      · exact .inr ⟨rfl, hrank⟩
      · exact .inl (by omega)
    · rw [Bool.not_eq_true] at hst
      rw [hstale hst, hst]
      exact .inr ⟨rfl, hrank⟩
  | @enough s n next k hp hk hc hn =>
    have hprogram := congrArg Prod.fst htodo
    simp only [System.todo, System.worker_setWorker_self, hp] at hprogram
    exact absurd hprogram (Program.Next.ne .await)
  | @tooFew s n next k hp hk hc hn =>
    unfold System.stage
    rw [System.worker_setWorker_self]
    simp only [hp, hk]
    rw [Prod.Lex.toLex_lt_toLex]
    left
    have hstale : (x.endpoint p s).ring.stale (x.first L p s) n = true := by
      unfold Party.stale
      rw [hc]
      simpa [BitVec.not_le] using hn
    rw [if_pos hstale]
    simp
  | @begin s buffer next hp hk =>
    unfold System.stage
    rw [System.worker_setWorker_self]
    simp only [hp, hk, System.endpoint_setWorker, System.endpoint_set_self]
    rw [Prod.Lex.toLex_lt_toLex]
    left
    simp [Endpoint.stage, Endpoint.begin]
  | @call s buffer next k w e σ _ hp hk ht hs hz =>
    obtain ⟨hdata, hcall⟩ := h.calls hp hk
    have hroom := h.room_add p s
    have howed := System.owed_calling hp hk
    obtain ⟨hself, hl⟩ := hz.leaves_self h.toSystemInv (.step true hs) rfl
    rw [hp] at hrest
    have hstage := hcall.step_stage (System.firm h.duplex p s).toEndpointOwn ht hs
      (hl.advanced.symm.trans (hpos p s)) (hagree' s) fun hlt => by
        simp only [not_and, not_lt] at hrest
        rw [hdata] at hlt
        unfold System.position at hroom howed
        omega
    unfold System.stage
    rw [show y.worker = x.worker from hz.worker]
    simp only [hp, hk, hfirst, hself]
    unfold Endpoint.stage at hstage ⊢
    rw [hl.left]
    exact hstage
  | @returned s buffer next k hp hk ht hresult =>
    have hprogram := congrArg Prod.fst htodo
    simp only [System.todo, System.worker_setWorker_self, hp] at hprogram
    exact absurd hprogram (Program.Next.ne (.transfer _))
  | fails hp hk ht hresult => exact absurd (h.patient _ _ _ _ _ hp hk ht) hresult

end Still

/-! ## Every fair run -/

section Settle

variable {L : Layout} {m : Segment} {x y : System} {p : Process}

theorem System.room_congr (hpos : ∀ q t, y.position q t = x.position q t) (s : Side) :
    y.room L p s = x.room L p s := by
  have hp := hpos p s
  have hq := hpos p.other s.peer
  rw [← System.advanced_peer, ← System.advanced_peer] at hq
  unfold System.position at hp
  unfold System.shared Duplex.shared at hp hq
  unfold System.room
  cases s with
  | producer =>
    simp only [Side.peer] at hp hq
    simp only [hp, hq]
  | consumer =>
    simp only [Side.peer] at hp hq
    simp only [hp, hq]

theorem System.rests_congr (hworker : y.todo p = x.todo p)
    (hpos : ∀ q t, y.position q t = x.position q t) : y.Rests L p ↔ x.Rests L p := by
  obtain ⟨hprogram, howed⟩ := Prod.ext_iff.1 hworker
  simp only [System.todo] at hprogram howed
  unfold System.Rests
  rw [hprogram]
  simp only [System.room_congr hpos, howed]

/-- What comes to hold of each process for good comes to hold of both. -/
theorem Process.exists_from {Q : Process → ℕ → Prop} {i : ℕ}
    (h : ∀ p, ∃ l ≥ i, ∀ j ≥ l, Q p j) : ∃ l ≥ i, ∀ j ≥ l, ∀ p, Q p j := by
  obtain ⟨l, hl, hserver⟩ := h .server
  obtain ⟨l', hl', hclient⟩ := h .client
  refine ⟨max l l', hl.trans (le_max_left _ _), fun j hj p => ?_⟩
  cases p with
  | server => exact hserver j ((le_max_left _ _).trans hj)
  | client => exact hclient j ((le_max_right _ _).trans hj)

theorem PatientInv.run {ρ : PatientRun L} (h : PatientInv L m (ρ.state 0)) (i : ℕ) :
    PatientInv L m (ρ.state i) := by
  refine ρ.always (P := PatientInv L m) (fun hx hs => ?_) h i
  obtain ⟨now, hs⟩ := hs
  exact (System.step_acts hs).patient hx

theorem PatientRun.acts (ρ : PatientRun L) (i : ℕ) :
    Acts L true (ρ.turn i) (ρ.state i) (ρ.state (i + 1)) := by
  obtain ⟨now, hs⟩ := ρ.next i
  exact System.step_acts hs

/-- A step by which the program stays where it is records nothing. -/
theorem Acts.log_eq (h : PatientInv L m x) (ha : Acts L true p x y)
    (htodo : y.todo p = x.todo p) : (y.worker p).log = (x.worker p).log := by
  have hprogram := congrArg Prod.fst htodo
  simp only [System.todo] at hprogram
  cases ha with
  | stopped hp => rfl
  | count hp hk hc hm => rfl
  | call hp hk ht hs hz => rw [hz.worker, System.worker_set]
  | @enough s n next k hp hk hc hn =>
    rw [System.worker_setWorker_self, hp] at hprogram
    exact absurd hprogram (Program.Next.ne .await)
  | @returned s buffer next k hp hk ht hresult =>
    rw [System.worker_setWorker_self, hp] at hprogram
    exact absurd hprogram (Program.Next.ne (.transfer _))
  | fails hp hk ht hresult => exact absurd (h.patient _ _ _ _ _ hp hk ht) hresult
  | _ => rw [System.worker_setWorker_self]

theorem Ready.patientInv (h : Ready L m) (program : Process → Program) :
    PatientInv L m (.fresh program m) :=
  ⟨h.systemInv program, fun _ _ _ _ _ _ hk => (by cases hk), fun _ => rfl⟩

theorem patientInv_start (now now' : Ptime L.sizeofPtime) (program : Process → Program) :
    PatientInv L (duplexStart L now now').mem (systemStart L now now' program) :=
  (ready_duplexStart now now').patientInv program

theorem PatientRun.reach (ρ : PatientRun L) (i : ℕ) : SystemReach L (ρ.state 0) (ρ.state i) :=
  ReflTransGen.mono (fun _ _ ⟨p, now, hs⟩ => ⟨p, now, true, hs⟩) _ _ (Run.reach ρ i)

/-- From some time on neither program goes on and no cursor moves. -/
theorem PatientInv.exists_still {ρ : PatientRun L} (h : PatientInv L m (ρ.state 0)) :
    ∃ i, ∀ j ≥ i, (∀ p, (ρ.state (j + 1)).todo p = (ρ.state j).todo p)
      ∧ ∀ p s, (ρ.state (j + 1)).position p s = (ρ.state j).position p s := by
  have hone : ∀ p, ∃ i, ∀ j ≥ i, (ρ.state j).todo p = (ρ.state i).todo p := fun p =>
    ρ.settles (fun x => x.todo p) todoLt_wf fun i => (PatientRun.acts ρ i).todo_le (h.run i) p
  obtain ⟨i, -, hi⟩ := Process.exists_from (i := 0)
    (Q := fun p j => (ρ.state (j + 1)).todo p = (ρ.state j).todo p) fun p => by
      obtain ⟨i, hi⟩ := hone p
      exact ⟨i, Nat.zero_le _, fun j hj => by rw [hi (j + 1) (by omega), hi j hj]⟩
  refine ⟨i, fun j hj => ?_⟩
  have htodo := hi j hj
  refine ⟨htodo, fun p s => ?_⟩
  by_cases hp : p = ρ.turn j
  · rcases (PatientRun.acts ρ j).todo (h.run j) with hlt | ⟨-, hpos⟩
    · rw [htodo] at hlt
      exact absurd hlt (todoLt_wf.irrefl.irrefl _)
    · rw [hp]
      exact hpos s
  · exact (PatientRun.acts ρ j).position_of_ne (h.run j).toSystemInv hp s

/-- Both words of every cursor are then soon the same. -/
theorem PatientInv.exists_agree {ρ : PatientRun L} (h : PatientInv L m (ρ.state 0))
    (hoften : ∀ p, ρ.Often p) {i : ℕ}
    (hpos : ∀ j ≥ i, ∀ p s, (ρ.state (j + 1)).position p s = (ρ.state j).position p s) :
    ∃ l ≥ i, ∀ j ≥ l, ∀ p s, (ρ.state j).Agrees L p s := by
  have hstep : ∀ j ≥ i, ∀ p s, (ρ.state j).Agrees L p s → (ρ.state (j + 1)).Agrees L p s :=
    fun j hj p s => (PatientRun.acts ρ j).agrees (h.run j).toSystemInv (hpos j hj p s)
  refine Process.exists_from fun p => ρ.lasts (hoften p) (Q := fun x => ∀ s, x.Agrees L p s)
    (fun j hj hp s => ?_) fun j hj ha s => hstep j hj p s (ha s)
  subst hp
  by_cases ha : (ρ.state j).Agrees L (ρ.turn j) s
  · exact hstep j hj _ s ha
  · exact (PatientRun.acts ρ j).agrees_own (h.run j).toSystemInv (hpos j hj _) ha

theorem PatientInv.settles {ρ : PatientRun L} (h : PatientInv L m (ρ.state 0))
    (hoften : ∀ p, ρ.Often p) : ∃ i, ∀ j ≥ i, (ρ.state j).AtRest L
      ∧ ∀ p, ((ρ.state j).worker p).log = ((ρ.state i).worker p).log := by
  obtain ⟨i, hstill⟩ := h.exists_still
  obtain ⟨l, hil, hagree⟩ := h.exists_agree hoften fun j hj => (hstill j hj).2
  have htodo : ∀ j ≥ l, ∀ p, (ρ.state (j + 1)).todo p = (ρ.state j).todo p := fun j hj =>
    (hstill j (hil.trans hj)).1
  have hpos : ∀ j ≥ l, ∀ p s, (ρ.state (j + 1)).position p s = (ρ.state j).position p s :=
    fun j hj => (hstill j (hil.trans hj)).2
  refine ⟨l, fun j hj => ⟨fun p => ⟨?_, (h.run j).unfailed p⟩, fun p => ?_⟩⟩
  · by_contra hrest
    have hkeep : ∀ k ≥ j, ¬(ρ.state k).Rests L p := by
      intro k hk
      induction k, hk using Nat.le_induction with
      | base => exact hrest
      | succ k hk ih =>
        rwa [System.rests_congr (htodo k (by omega) p) (hpos k (by omega))]
    refine ρ.not_often (fun x => x.stage L p) j (fun k hk ha => ?_) (fun k hk ha => ?_)
      (hoften p)
    · subst ha
      exact (PatientRun.acts ρ k).stage_lt (h.run k) (htodo k (by omega) _) (hpos k (by omega))
        (hagree k (by omega)) (hkeep k hk)
    · exact (PatientRun.acts ρ k).stage_of_ne (h.run k).toSystemInv (hpos k (by omega)) (Ne.symm ha)
  · induction j, hj using Nat.le_induction with
    | base => rfl
    | succ j hj ih =>
      rw [← ih]
      by_cases hp : p = ρ.turn j
      · rw [hp]
        exact (PatientRun.acts ρ j).log_eq (h.run j) (htodo j hj _)
      · rw [(PatientRun.acts ρ j).worker_of_ne hp]

/-- In the runs of two programs in which no timer reaches its limit and both go on taking their
steps, both processes come to rest for good: each has made all its calls, or is in one the ring has
nothing for. -/
theorem processes_settle (L : Layout) (now now' : Ptime L.sizeofPtime)
    (program : Process → Program) (ρ : PatientRun L)
    (h : ρ.state 0 = systemStart L now now' program) (hoften : ∀ p, ρ.Often p) :
    ∃ i, ∀ j ≥ i, (ρ.state j).AtRest L
      ∧ ∀ p, ((ρ.state j).worker p).log = ((ρ.state i).worker p).log :=
  PatientInv.settles (h ▸ patientInv_start now now' program) hoften

theorem PatientInv.step_isSome (h : PatientInv L m x) (p : Process) :
    ∃ y, x.step p (.zero L.sizeofPtime) true = some y := by
  rw [← Option.isSome_iff_exists]
  unfold System.step
  rcases hp : (x.worker p).program with _ | ⟨s, n, next⟩ | ⟨s, buffer, next⟩
  · simp only [hp, Option.isSome_some]
  · rcases hk : (x.worker p).calling with _ | k
    · simp only [hp, hk, Option.isSome_some]
    rcases hc : (x.endpoint p s).ring.call with _ | c
    · simp only [hp, hk, hc]
      split_ifs <;> rfl
    · simpa only [hp, hk, hc, Option.isSome_map]
        using (System.firm h.duplex p s).ring.move_isSome hc
  · rcases hk : (x.worker p).calling with _ | k
    · simp only [hp, hk, Option.isSome_some]
    rcases ht : (x.endpoint p s).transfer with _ | w
    · simp only [hp, hk, ht]
      split_ifs <;> rfl
    · obtain ⟨e', σ', hs, -⟩ := (System.firm h.duplex p s).toEndpointOwn.step ht true
      simp only [hp, hk, ht, hs, Option.map_some, Option.isSome_some]

theorem PatientInv.exists_step (h : PatientInv L m x) (p : Process) :
    ∃ y, PatientStep L p x y ∧ PatientInv L m y := by
  obtain ⟨y, hs⟩ := h.step_isSome p
  exact ⟨y, ⟨_, hs⟩, (System.step_acts hs).patient h⟩

section Example

/-- The two processes in turns. -/
def inTurns (i : ℕ) : Process := if i % 2 = 0 then .server else .client

theorem inTurns_often {α : Type*} {step : Process → α → α → Prop} {ρ : Run step}
    (h : ∀ i, ρ.turn i = inTurns i) (p : Process) : ρ.Often p := by
  intro i
  cases p with
  | server => exact ⟨2 * i, by omega, by rw [h, inTurns, if_pos (by omega)]⟩
  | client => exact ⟨2 * i + 1, by omega, by rw [h, inTurns, if_neg (by omega)]⟩

theorem exists_patientRun (now now' : Ptime L.sizeofPtime) (program : Process → Program) :
    ∃ ρ : PatientRun L, ρ.state 0 = systemStart L now now' program ∧ ∀ p, ρ.Often p := by
  obtain ⟨ρ, hρ, hturn⟩ := Run.exists_following (P := PatientInv L (duplexStart L now now').mem)
    inTurns (fun i x hx => hx.exists_step _) (patientInv_start now now' program)
  exact ⟨ρ, hρ, inTurns_often hturn⟩

/-- The server sends three bytes and waits for an answer, and the client answers the first. -/
def askAndAnswer : Process → Program
  | .server => .transfer .producer ⟨[1, 2, 3], by decide⟩ fun _ =>
    .transfer .consumer ⟨[0], by decide⟩ fun _ => .stop
  | .client => .transfer .consumer ⟨[0], by decide⟩ fun l =>
    .transfer .producer ⟨l.take 1, (List.length_take_le 1 l).trans_lt (by decide)⟩ fun _ => .stop

theorem processes_settle_small : ∃ ρ : PatientRun smallLayout,
    ρ.state 0 = systemStart smallLayout (.zero _) (.zero _) askAndAnswer ∧ (∀ p, ρ.Often p)
      ∧ ∃ i, ∀ j ≥ i, (ρ.state j).AtRest smallLayout
        ∧ ∀ p, ((ρ.state j).worker p).log = ((ρ.state i).worker p).log := by
  obtain ⟨ρ, hρ, hoften⟩ := exists_patientRun (L := smallLayout) (.zero _) (.zero _) askAndAnswer
  exact ⟨ρ, hρ, hoften, processes_settle smallLayout (.zero _) (.zero _) askAndAnswer ρ hρ hoften⟩

end Example

end Settle

end MemMapIPC
