import MemMapIPC.Program
import MemMapIPC.Proofs.Atomic
import MemMapIPC.Proofs.Duplex
import MemMapIPC.Waiting

/-!
# What a process is at

A process is in one call at one of its two ends (`Worker.task`), and the other end is idle. In a
call its cursor is past what the call has handed to the ring, less what is left of the ring's own
transfer (`InCall`), through every step of it (`InCall.step`). `Acts` lists what a step of a process
can be, and nothing a process does moves what the other ends know (`System.set_leaves`).
-/

namespace MemMapIPC

open ByteMemory Interleaving Relation

/-! ## The ends of a system -/

section Ends

variable {L : Layout} {x y : System} {p q : Process} {s t : Side} {e : Endpoint} {σ : Shared}
  {w : Worker} {now : Ptime L.sizeofPtime}

theorem Process.other_ne (p : Process) : p.other ≠ p := by cases p <;> decide

@[simp] theorem Process.other_other (p : Process) : p.other.other = p := by cases p <;> rfl

@[simp] theorem Process.channel_other_peer (p : Process) (s : Side) :
    p.other.channel s.peer = p.channel s := by
  cases p <;> cases s <;> rfl

theorem Process.channel_eq (h : q.channel t = p.channel s) (hne : (q, t) ≠ (p, s)) :
    q = p.other ∧ t = s.peer := by
  revert h hne
  cases p <;> cases q <;> cases s <;> cases t <;> decide

theorem Process.channel_ne (h : q.channel t ≠ p.channel s) : q.channel t = (p.channel s).other := by
  revert h
  cases p <;> cases q <;> cases s <;> cases t <;> decide

namespace System

@[simp] theorem endpoint_setWorker : (x.setWorker p w).endpoint q t = x.endpoint q t := rfl

@[simp] theorem shared_setWorker : (x.setWorker p w).shared q t = x.shared q t := rfl

@[simp] theorem worker_setWorker_self : (x.setWorker p w).worker p = w := by simp [setWorker]

theorem worker_setWorker_of_ne (h : q ≠ p) : (x.setWorker p w).worker q = x.worker q := by
  simp [setWorker, h]

@[simp] theorem worker_set : (x.set p s e σ).worker = x.worker := rfl

@[simp] theorem endpoint_set_self : (x.set p s e σ).endpoint p s = e := by
  simp [endpoint, set]

theorem endpoint_set_of_ne (h : (q, t) ≠ (p, s)) :
    (x.set p s e σ).endpoint q t = x.endpoint q t := by
  refine Duplex.ends_set_of_ne fun he => h ?_
  obtain ⟨hc, rfl⟩ := Prod.mk.inj he
  revert hc h
  cases p <;> cases q <;> cases t <;> decide

@[simp] theorem shared_set_self : (x.set p s e σ).shared p s = σ := by
  simp [shared, set]

@[simp] theorem shared_set_peer : (x.set p s e σ).shared p.other s.peer = σ := by
  simp [shared, set]

theorem shared_set_of_ne (h : q.channel t ≠ p.channel s) :
    (x.set p s e σ).shared q t = { x.shared q t with mem := σ.mem } :=
  Duplex.shared_set_of_ne h

/-- Both ends of a ring share the same. -/
theorem shared_peer : x.shared p.other s.peer = x.shared p s := by simp [shared]

theorem firm {m : Segment} (h : x.duplex.Kept L m) (p : Process) (s : Side) :
    Firm (L.ring (p.channel s)) s (x.shared p s) (x.endpoint p s) := by
  obtain ⟨z, hz⟩ := h.apart (p.channel s)
  exact hz.firm s

/-- What an access by one end leaves every other. -/
theorem set_leaves {m : Segment} (h : x.duplex.Kept L m)
    (hs : EndpointStep (L.ring (p.channel s)).buffer s (x.endpoint p s, x.shared p s) (e, σ))
    (hne : (q, t) ≠ (p, s)) :
    Leaves (L.ring (q.channel t)) t (x.shared q t) ((x.set p s e σ).shared q t) := by
  obtain ⟨-, hkeep⟩ := endpointStep_guarantees _ _ _ _ _ _ (firm h p s).toEndpointOwn hs
  by_cases hc : q.channel t = p.channel s
  · obtain ⟨rfl, rfl⟩ := Process.channel_eq hc hne
    rw [shared_peer, shared_set_peer, Process.channel_other_peer]
    exact hkeep.toLeaves
  · rw [shared_set_of_ne hc]
    refine (firm h q t).ring.sound.leaves_same ?_ t
    rw [Process.channel_ne hc]
    exact L.other_same hkeep.outside

end System

/-- A process's timestamp is written in front of the rings. -/
theorem System.stamp_duplex (x : System) (p : Process) (now : Ptime L.sizeofPtime) :
    ∃ (offset : ℕ) (l : List U8), offset + l.length + 8 ≤ headerSize L.sizeofPtime
      ∧ (x.stamp p now).duplex = x.duplex.write offset l := by
  have hnow := now.2
  cases p with
  | server =>
    refine ⟨0, now.1, by unfold headerSize; omega, ?_⟩
    have hp : (L.header 0).serverTimestamp = 0 + BitVec.ofNat 64 0 := by rw [L.header_eq]
    unfold stamp Server.updateTimestamp Duplex.write
    rw [hp]
  | client =>
    refine ⟨L.sizeofPtime.toNat * L.sizeofPtime.toNat, now.1, by unfold headerSize; omega, ?_⟩
    unfold stamp Client.updateTimestamp Duplex.write
    rw [L.clientTimestamp_eq]

theorem System.stamp_leaves {m : Segment} (h : x.duplex.Kept L m) (q : Process) (t : Side) :
    Leaves (L.ring (q.channel t)) t (x.shared q t) ((x.stamp p now).shared q t) := by
  obtain ⟨offset, l, hle, hstamp⟩ := x.stamp_duplex p now
  have hσ : (x.stamp p now).shared q t
      = { x.shared q t with mem := x.duplex.mem.write (0 + BitVec.ofNat 64 offset) l } := by
    unfold shared
    rw [hstamp]
    rfl
  rw [hσ]
  exact (firm h q t).ring.sound.leaves_same (L.write_same _ _ hle) t

end Ends

/-! ## What a step of a process can be -/

section Acts

variable {L : Layout} {x y : System} {p : Process} {below : Bool}

/-- The segment after an access, and perhaps a timestamp. -/
def Stamped (L : Layout) (p : Process) (x y : System) : Prop :=
  y = x ∨ ∃ now : Ptime L.sizeofPtime, y = x.stamp p now

inductive Acts (L : Layout) (below : Bool) (p : Process) (x : System) : System → Prop
  | stopped : (x.worker p).program = .stop → Acts L below p x x
  | ask {s : Side} {n : U64} {next : Program} : (x.worker p).program = .await s n next →
    (x.worker p).calling = none → Acts L below p x
      ((x.set p s { x.endpoint p s with
          ring := { (x.endpoint p s).ring with call := some .loadSecond } }
        (x.shared p s)).setWorker p
          { x.worker p with calling := some ((x.shared p s).moved s).length })
  | count {s : Side} {n : U64} {next : Program} {k : ℕ} {c : Call} {party : Party} {σ : Shared} :
    (x.worker p).program = .await s n next → (x.worker p).calling = some k →
    (x.endpoint p s).ring.call = some c →
    (x.endpoint p s).ring.move (L.ring (p.channel s)).buffer s c (x.shared p s)
      = some (party, σ) →
    Acts L below p x (x.set p s { x.endpoint p s with ring := party } σ)
  | enough {s : Side} {n : U64} {next : Program} {k : ℕ} :
    (x.worker p).program = .await s n next → (x.worker p).calling = some k →
    (x.endpoint p s).ring.call = none → n ≤ (x.endpoint p s).ring.last →
    Acts L below p x (x.setWorker p { x.worker p with
      program := next, calling := none, log := (x.worker p).log ++ [(s, [])] })
  | tooFew {s : Side} {n : U64} {next : Program} {k : ℕ} :
    (x.worker p).program = .await s n next → (x.worker p).calling = some k →
    (x.endpoint p s).ring.call = none → ¬n ≤ (x.endpoint p s).ring.last →
    Acts L below p x (x.setWorker p { x.worker p with calling := none })
  | begin {s : Side} {buffer : Buffer} {next : List U8 → Program} :
    (x.worker p).program = .transfer s buffer next → (x.worker p).calling = none →
    Acts L below p x ((x.set p s ((x.endpoint p s).begin buffer) (x.shared p s)).setWorker p
      { x.worker p with calling := some ((x.shared p s).moved s).length })
  | call {s : Side} {buffer : Buffer} {next : List U8 → Program} {k : ℕ} {w : Transfer × Bool}
    {e : Endpoint} {σ : Shared} {y : System} :
    (x.worker p).program = .transfer s buffer next → (x.worker p).calling = some k →
    (x.endpoint p s).transfer = some w →
    (x.endpoint p s).step (L.ring (p.channel s)).buffer s below (x.shared p s) = some (e, σ) →
    Stamped L p (x.set p s e σ) y → Acts L below p x y
  | returned {s : Side} {buffer : Buffer} {next : List U8 → Program} {k : ℕ} :
    (x.worker p).program = .transfer s buffer next → (x.worker p).calling = some k →
    (x.endpoint p s).transfer = none → (x.endpoint p s).result = some true →
    Acts L below p x (x.setWorker p { x.worker p with
      program := next (x.filled p s k buffer)
      calling := none
      log := (x.worker p).log ++ [(s, x.filled p s k buffer)] })
  | fails {s : Side} {buffer : Buffer} {next : List U8 → Program} {k : ℕ} :
    (x.worker p).program = .transfer s buffer next → (x.worker p).calling = some k →
    (x.endpoint p s).transfer = none → (x.endpoint p s).result ≠ some true →
    Acts L below p x
      (x.setWorker p { x.worker p with program := .stop, calling := none, failed := true })

theorem System.step_acts {now : Ptime L.sizeofPtime} (h : x.step p now below = some y) :
    Acts L below p x y := by
  unfold step at h
  rcases hprogram : (x.worker p).program with _ | ⟨s, n, next⟩ | ⟨s, buffer, next⟩ <;>
    simp only [hprogram] at h
  · obtain rfl := Option.some.inj h
    exact .stopped hprogram
  · rcases hcalling : (x.worker p).calling with _ | k
    · simp only [hcalling] at h
      obtain rfl := Option.some.inj h
      rw [← hprogram]
      exact .ask hprogram hcalling
    rcases hc : (x.endpoint p s).ring.call with _ | c <;> simp only [hcalling, hc] at h
    · by_cases hn : n ≤ (x.endpoint p s).ring.last
      · rw [if_pos hn] at h
        obtain rfl := Option.some.inj h
        exact .enough hprogram hcalling hc hn
      · rw [if_neg hn] at h
        obtain rfl := Option.some.inj h
        rw [← hprogram]
        exact .tooFew hprogram hcalling hc hn
    · obtain ⟨⟨party, σ⟩, hm, rfl⟩ := Option.map_eq_some_iff.1 h
      exact .count hprogram hcalling hc hm
  · rcases hcalling : (x.worker p).calling with _ | k
    · simp only [hcalling] at h
      obtain rfl := Option.some.inj h
      rw [← hprogram]
      exact .begin hprogram hcalling
    rcases ht : (x.endpoint p s).transfer with _ | ⟨t, asked⟩ <;> simp only [hcalling, ht] at h
    · by_cases hresult : (x.endpoint p s).result = some true
      · rw [if_pos hresult] at h
        obtain rfl := Option.some.inj h
        exact .returned hprogram hcalling ht hresult
      · rw [if_neg hresult] at h
        obtain rfl := Option.some.inj h
        exact .fails hprogram hcalling ht hresult
    · obtain ⟨⟨e, σ⟩, hs, rfl⟩ := Option.map_eq_some_iff.1 h
      refine .call hprogram hcalling ht hs ?_
      by_cases hstamp : t = .updateTimestamp
      · rw [if_pos hstamp]
        exact .inr ⟨now, rfl⟩
      · rw [if_neg hstamp]
        exact .inl rfl

end Acts

/-! ## Where a call is -/

section InCall

/-- The bytes the ring's transfer has still to move the cursor over. -/
def Party.left (s : Side) (σ : Shared) (p : Party) : ℕ := p.call.elim 0 (Call.left s σ)

def Transfer.transfers : Transfer → Bool
  | .whole | .chunk _ _ => true
  | _ => false

/-- The bytes an entity's call has handed to the ring, unless it has returned false. -/
def Endpoint.handed (e : Endpoint) : Option ℕ :=
  match e.transfer with
  | none => if e.result = some true then some e.data.length else none
  | some (.whole, true) => some e.data.length
  | some (.chunk moved count, true) =>
    some (moved.toNat + (Transfer.amount e.numberOfBytes moved count).toNat)
  | some (t, _) => some t.moved.toNat

/-- Side `s` is in an entity's call that began when it had moved `k` bytes. -/
structure InCall (s : Side) (σ : Shared) (k : ℕ) (e : Endpoint) : Prop where
  start_le : k ≤ σ.advanced s
  idle : e.transfer = none → e.ring.call = none
  kind : ∀ t asked c, e.transfer = some (t, asked) → e.ring.call = some c →
    c.transfers = t.transfers
  position : ∀ n, e.handed = some n → σ.advanced s + e.ring.left s σ = k + n
  sent : s = .producer → ∀ n, e.handed = some n →
    σ.sent = (σ.moved s).take k ++ e.data.take n
  within : s = .producer → σ.sent <+: (σ.moved s).take k ++ e.data

variable {r : Ring} {s : Side} {σ σ' : Shared} {p p' : Party} {e e' : Endpoint} {k : ℕ} {c : Call}

theorem Own.move_left (h : Own r s σ p) (hc : p.call = some c)
    (hm : p.move r.buffer s c σ = some (p', σ')) :
    σ'.advanced s + p'.left s σ' = σ.advanced s + p.left s σ := by
  have hat := h.at_call
  have hadv := h.sound.advanced_le s
  rw [hc] at hat
  simp only [Party.left, hc, Option.elim_some]
  cases c with
  | loadSecond =>
    simp only [Party.move_loadSecond, Option.some.injEq, Prod.mk.injEq] at hm
    obtain ⟨rfl, rfl⟩ := hm
    simp [Call.left]
  | loadFirst v =>
    simp only [Party.move_loadFirst, Option.some.injEq, Prod.mk.injEq] at hm
    obtain ⟨rfl, rfl⟩ := hm
    simp only [Option.elim_some]
    split_ifs <;> simp [Call.left]
  | compare v =>
    simp only [Party.move_compare, Option.some.injEq, Prod.mk.injEq] at hm
    obtain ⟨rfl, rfl⟩ := hm
    simp [Call.left]
  | subtract v isAhead =>
    simp only [Party.move_subtract, Option.some.injEq, Prod.mk.injEq] at hm
    obtain ⟨rfl, rfl⟩ := hm
    simp [Call.left]
  | span n =>
    rw [Party.move_span] at hm
    simp only [Option.some.injEq, Prod.mk.injEq] at hm
    obtain ⟨rfl, rfl⟩ := hm
    simp only [Option.elim_some]
    split_ifs with hge
    · simp [Call.left]
    · rw [ge_iff_le, BitVec.le_def] at hge
      have hsub := BitVec.toNat_sub_of_le (x := n) (y := r.buffer.numberOfBytesBeforeWraparound s
        (σ.mem.loadWord (r.buffer.pointer s false))) (by rw [BitVec.le_def]; omega)
      simp only [Call.left, hsub]
      omega
  | address now later =>
    simp only [Party.move_address, Option.some.injEq, Prod.mk.injEq] at hm
    obtain ⟨rfl, rfl⟩ := hm
    simp [Call.left]
  | copy cell i now later =>
    obtain ⟨-, hi, hmoved, -, -⟩ := hat
    by_cases hlt : i < now.toNat
    · cases s with
      | consumer =>
        simp only [Party.move, Call.access, Call.byteAccess, Call.next, hlt, if_true, Party.resume,
          Option.map_some, Option.some.injEq, Prod.mk.injEq] at hm
        obtain ⟨rfl, rfl⟩ := hm
        rfl
      | producer =>
        rcases hb : p.source with _ | ⟨b, rest⟩
        · simp [Party.move, Call.access, Call.byteAccess, hlt, hb] at hm
        · simp only [Party.move, Call.access, Call.byteAccess, Call.next, hlt, if_true, hb,
            Party.resume, Option.map_some, Option.some.injEq, Prod.mk.injEq] at hm
          obtain ⟨rfl, rfl⟩ := hm
          rfl
    · rcases hv : r.buffer.wrap (r.word σ.mem s false + now) with _ | v
      · simp [Party.move, Call.access, Call.next, hlt, Ring.loadWord_pointer, hv, Party.resume]
          at hm
      · simp only [Party.move, Call.access, Call.next, hlt, if_false, Ring.loadWord_pointer, hv,
          Party.resume, Option.map_some, Option.some.injEq, Prod.mk.injEq] at hm
        obtain ⟨rfl, rfl⟩ := hm
        simp only [Option.elim_some, Call.left]
        omega
  | publish v later =>
    simp only [Party.move_publish, Option.some.injEq, Prod.mk.injEq] at hm
    obtain ⟨rfl, rfl⟩ := hm
    simp only [Option.elim_some, Call.left, Shared.advance, Function.update_self]
    omega
  | publishSecond v later =>
    simp only [Party.move_publishSecond, Option.some.injEq, Prod.mk.injEq] at hm
    obtain ⟨rfl, rfl⟩ := hm
    by_cases hl : later = 0
    · simp [Call.left, hl]
    · rw [if_neg hl]
      simp [Call.left]

/-- A side's history only grows by its moves, and a move hands nothing over. -/
theorem Party.move_history {cb : CircularBuffer} (hm : p.move cb s c σ = some (p', σ')) :
    σ.moved s <+: σ'.moved s ∧ σ'.sent = σ.sent := by
  rcases hacc : c.access cb s with a | ⟨a, v⟩ | a | a
  · simp only [Party.move_of_load hacc, Option.map_eq_some_iff, Prod.mk.injEq] at hm
    obtain ⟨q, -, -, rfl⟩ := hm
    exact ⟨List.prefix_rfl, rfl⟩
  · simp only [Party.move_of_store hacc, Option.map_eq_some_iff, Prod.mk.injEq] at hm
    obtain ⟨q, -, -, rfl⟩ := hm
    cases c <;> exact ⟨List.prefix_rfl, rfl⟩
  · simp only [Party.move_of_get hacc, Option.map_eq_some_iff, Prod.mk.injEq] at hm
    obtain ⟨q, -, -, rfl⟩ := hm
    exact ⟨by simp [Shared.copied], rfl⟩
  · rcases hb : p.source with _ | ⟨b, rest⟩
    · simp [Party.move, hacc, hb] at hm
    · simp only [Party.move_of_put hacc hb, Option.map_eq_some_iff, Prod.mk.injEq] at hm
      obtain ⟨q, -, -, rfl⟩ := hm
      exact ⟨by simp [Shared.copied], rfl⟩

theorem Leaves.left (h : Leaves r s σ σ') : p.left s σ' = p.left s σ := by
  unfold Party.left
  rcases p.call with _ | c
  · rfl
  · cases c <;> simp only [Option.elim_some, Call.left, h.moved, h.advanced]

theorem InCall.leaves (h : InCall s σ k e) (hl : Leaves r s σ σ') : InCall s σ' k e := by
  refine ⟨by rw [hl.advanced]; exact h.start_le, h.idle, h.kind, fun n hn => ?_, fun hs n hn => ?_,
    fun hs => ?_⟩
  · rw [hl.advanced, hl.left]
    exact h.position n hn
  · rw [hl.sent hs, hl.moved]
    exact h.sent hs n hn
  · rw [hl.sent hs, hl.moved]
    exact h.within hs

theorem EndpointOwn.settled (h : EndpointOwn r s σ e) (hc : e.ring.call = none) :
    (σ.moved s).length = σ.advanced s ∧ (s = .producer → σ.sent = σ.moved s) := by
  have hat := h.ring.at_call
  rw [hc] at hat
  refine ⟨hat.1.1, fun hs => ?_⟩
  have hsource := hat.2 hs
  have hsent := h.ring.sent hs
  rw [List.length_eq_zero_iff.1 hsource, List.append_nil] at hsent
  rw [hsent, hs]

theorem InCall.begin (h : EndpointOwn r s σ e) (hidle : e.Idle) (data : List U8) :
    InCall s σ (σ.moved s).length (e.begin data) := by
  obtain ⟨hlen, hsent⟩ := h.settled hidle.2
  have hleft : (e.begin data).ring.left s σ = 0 := by
    unfold Party.left Endpoint.begin
    rw [hidle.2]
    rfl
  refine ⟨hlen.le, fun _ => hidle.2, fun t asked c _ hc => ?_, fun n hn => ?_, fun hs n hn => ?_,
    fun hs => ?_⟩
  · rw [show (e.begin data).ring.call = none from hidle.2] at hc
    cases hc
  · obtain rfl := Option.some.inj hn
    rw [hleft, hlen]
    rfl
  · obtain rfl := Option.some.inj hn
    simpa [Transfer.moved] using hsent hs
  · rw [hsent hs, List.take_length]
    exact List.prefix_append _ _

/-- An access of the ring's call is one in the entity's. -/
theorem InCall.move (h : InCall s σ k e) (hown : Own r s σ e.ring) (hc : e.ring.call = some c)
    (hm : e.ring.move r.buffer s c σ = some (p', σ')) : InCall s σ' k { e with ring := p' } := by
  obtain ⟨hmoved, hsent⟩ := Party.move_history hm
  have hpos := hown.move_left hc hm
  have hadv := (hown.move hc hm).2.advanced_peer
  rw [Side.peer_peer] at hadv
  have htake : (σ'.moved s).take k = (σ.moved s).take k := by
    obtain ⟨l, hl⟩ := hmoved
    rw [← hl, List.take_append_of_le_length (h.start_le.trans (hown.sound.advanced_le s))]
  refine ⟨h.start_le.trans hadv, fun ht => ?_, fun t asked c' ht hc' => ?_, fun n hn => ?_,
    fun hs n hn => ?_, fun hs => ?_⟩
  · have hnone := h.idle ht
    rw [hc] at hnone
    cases hnone
  · exact (Party.transfers_move hm hc').trans (h.kind t asked c ht hc)
  · have hn' := h.position n hn
    simp only
    omega
  · rw [hsent, htake]
    exact h.sent hs n hn
  · rw [hsent, htake]
    exact h.within hs

/-- At an idle ring the call goes on without moving a byte. -/
theorem InCall.resume (h : InCall s σ k e) (hc : e.ring.call = none) {q : Progress}
    (hq : ∀ n, (e.resume q).handed = some n → e.handed = some n) : InCall s σ k (e.resume q) := by
  have hring : (e.resume q).ring = e.ring := by cases q <;> rfl
  refine ⟨h.start_le, fun _ => hring ▸ hc, fun t asked c _ hc' => ?_, fun n hn => ?_,
    fun hs n hn => ?_, fun hs => ?_⟩
  · rw [hring, hc] at hc'
    cases hc'
  · rw [hring]
    exact h.position n (hq n hn)
  · rw [Endpoint.data_resume]
    exact h.sent hs n (hq n hn)
  · rw [Endpoint.data_resume]
    exact h.within hs

theorem EndpointOwn.toNat_numberOfBytes (h : EndpointOwn r s σ e) :
    e.numberOfBytes.toNat = e.data.length := by
  rw [Endpoint.numberOfBytes, BitVec.toNat_ofNat, Nat.mod_eq_of_lt h.length_lt]

/-- The count after a chunk, and the end of the chunk in the buffer. -/
theorem toNat_moved_chunk {n moved : U64} (hlt : moved < n) (count : U64) :
    (if count > n - moved then n else moved + count).toNat
        = moved.toNat + (Transfer.amount n moved count).toNat
      ∧ moved.toNat + (Transfer.amount n moved count).toNat ≤ n.toNat := by
  have hsub := BitVec.toNat_sub_of_le (BitVec.le_of_lt hlt)
  have hn := n.isLt
  rw [BitVec.lt_def] at hlt
  unfold Transfer.amount
  by_cases hgt : count > n - moved
  · rw [if_pos hgt, if_pos hgt, hsub]
    omega
  · rw [if_neg hgt, if_neg hgt]
    rw [gt_iff_lt, BitVec.lt_def, hsub] at hgt
    rw [BitVec.toNat_add, Nat.mod_eq_of_lt (by omega)]
    omega

/-- Asking for a count moves nothing. -/
theorem InCall.count (h : InCall s σ k e) {t : Transfer} (ht : e.transfer = some (t, false))
    (hc : e.ring.call = none) (htr : t.transfers = false) :
    InCall s σ k { e with
      transfer := some (t, true), ring := { e.ring with call := some .loadSecond } } := by
  have hhanded : ∀ n, Endpoint.handed { e with
      transfer := some (t, true), ring := { e.ring with call := some .loadSecond } } = some n →
        e.handed = some n := by
    intro n hn
    unfold Endpoint.handed at hn ⊢
    rw [ht]
    cases t <;> first | exact hn | cases htr
  have hleft : e.ring.left s σ = 0 := by
    unfold Party.left
    rw [hc]
    rfl
  refine ⟨h.start_le, fun ht' => (by cases ht'), fun t' asked c' ht' hc' => ?_, fun n hn => ?_,
    fun hs n hn => h.sent hs n (hhanded n hn), h.within⟩
  · cases ht'
    cases hc'
    exact htr.symm
  · have hpos := h.position n (hhanded n hn)
    rw [hleft] at hpos
    exact hpos

theorem Endpoint.left_begun {offset amount : ℕ} (hlt : amount < 2 ^ 64)
    (hle : offset + amount ≤ e.data.length) :
    (e.begun offset amount σ s).1.left s (e.begun offset amount σ s).2 = amount := by
  cases s with
  | producer =>
    have hlen : ((e.data.drop offset).take amount).length = amount := by
      rw [List.length_take, List.length_drop]
      omega
    simp only [Endpoint.begun, Party.left, Option.elim_some, Call.left, hlen, BitVec.toNat_ofNat,
      Nat.mod_eq_of_lt hlt]
  | consumer =>
    simp only [Endpoint.begun, Party.left, Option.elim_some, Call.left, BitVec.toNat_ofNat,
      Nat.mod_eq_of_lt hlt]

/-- The ring's transfer of the bytes from `offset` on is begun. -/
theorem InCall.begun (h : InCall s σ k e) {t : Transfer} {offset amount : ℕ}
    (hc : e.ring.call = none) (hhanded : e.handed = some offset)
    (htr : t.transfers = true) (hlt : amount < 2 ^ 64) (hle : offset + amount ≤ e.data.length)
    (hnext : Endpoint.handed { e with
      transfer := some (t, true), ring := (e.begun offset amount σ s).1 }
        = some (offset + amount)) :
    InCall s (e.begun offset amount σ s).2 k
      { e with transfer := some (t, true), ring := (e.begun offset amount σ s).1 } := by
  have hpos := h.position offset hhanded
  have hleft : e.ring.left s σ = 0 := by
    unfold Party.left
    rw [hc]
    rfl
  rw [hleft] at hpos
  have hleft' := Endpoint.left_begun (s := s) (σ := σ) hlt hle
  have hsent : s = .producer → (e.begun offset amount σ s).2.sent
      = (σ.moved s).take k ++ e.data.take (offset + amount) := by
    intro hs
    subst hs
    simp only [Endpoint.begun]
    rw [h.sent rfl offset hhanded, List.append_assoc, List.take_add]
  have hmoved : (e.begun offset amount σ s).2.moved = σ.moved := by cases s <;> rfl
  refine ⟨?_, fun ht' => (by cases ht'), fun t' asked c' ht' hc' => ?_, fun n hn => ?_,
    fun hs n hn => ?_, fun hs => ?_⟩
  · cases s <;> exact h.start_le
  · cases ht'
    cases s <;>
    · cases hc'
      exact htr.symm
  · obtain rfl := Option.some.inj (hnext.symm.trans hn)
    rw [hleft']
    cases s <;>
    · simp only [Endpoint.begun]
      omega
  · obtain rfl := Option.some.inj (hnext.symm.trans hn)
    rw [hmoved]
    exact hsent hs
  · rw [hmoved, hsent hs]
    exact (List.prefix_append_right_inj _).2 (List.take_prefix _ _)

theorem Endpoint.handed_of_false {t : Transfer} (ht : e.transfer = some (t, false)) :
    e.handed = some t.moved.toNat := by
  unfold Endpoint.handed
  rw [ht]
  cases t <;> rfl

theorem InCall.step (h : InCall s σ k e) (hown : EndpointOwn r s σ e) {w : Transfer × Bool}
    (ht : e.transfer = some w) {below : Bool} (hs : e.step r.buffer s below σ = some (e', σ')) :
    InCall s σ' k e' ∧ e'.data = e.data := by
  obtain ⟨t, asked⟩ := w
  have hn := hown.toNat_numberOfBytes
  have hat := hown.at_transfer t asked ht
  rcases hc : e.ring.call with _ | c
  swap
  · simp only [Endpoint.step, ht, hc, Option.map_eq_some_iff, Prod.mk.injEq] at hs
    obtain ⟨⟨p, σ'⟩, hm, rfl, rfl⟩ := hs
    have hmove := h.move hown.ring hc hm
    rw [ht] at hmove
    exact ⟨hmove, rfl⟩
  cases asked with
  | true =>
    simp only [Endpoint.step, ht, hc, Option.some.injEq, Prod.mk.injEq] at hs
    obtain ⟨rfl, rfl⟩ := hs
    refine ⟨h.resume hc fun n hn' => ?_, Endpoint.data_resume⟩
    unfold Endpoint.handed
    rw [ht, ← hn']
    cases t with
    | updateTimestamp => cases hat
    | timeoutTimer => cases hat
    | elapsed moved => cases hat.1
    | restart moved count => cases hat.1
    | whole => rfl
    | check =>
      rw [Transfer.next, Endpoint.resume]
      split_ifs <;> rfl
    | poll moved =>
      rw [Transfer.next, Endpoint.resume]
      split_ifs <;> rfl
    | chunk moved count =>
      obtain ⟨hsum, -⟩ := toNat_moved_chunk hat.1 count
      exact congrArg some hsum.symm
  | false =>
    have hhanded := Endpoint.handed_of_false ht
    cases t with
    | updateTimestamp =>
      simp only [Endpoint.step, ht, hc, Transfer.ask, Option.some.injEq, Prod.mk.injEq] at hs
      obtain ⟨rfl, rfl⟩ := hs
      exact ⟨h.resume hc fun n hn' => hhanded.trans hn', Endpoint.data_resume⟩
    | timeoutTimer =>
      simp only [Endpoint.step, ht, hc, Transfer.ask, Option.some.injEq, Prod.mk.injEq] at hs
      obtain ⟨rfl, rfl⟩ := hs
      exact ⟨h.resume hc fun n hn' => hhanded.trans hn', Endpoint.data_resume⟩
    | restart moved count =>
      simp only [Endpoint.step, ht, hc, Transfer.ask, Option.some.injEq, Prod.mk.injEq] at hs
      obtain ⟨rfl, rfl⟩ := hs
      exact ⟨h.resume hc fun n hn' => hhanded.trans hn', Endpoint.data_resume⟩
    | elapsed moved =>
      simp only [Endpoint.step, ht, hc, Transfer.ask, Option.some.injEq, Prod.mk.injEq] at hs
      obtain ⟨rfl, rfl⟩ := hs
      refine ⟨h.resume hc fun n hn' => hhanded.trans ?_, Endpoint.data_resume⟩
      rw [← hn', Transfer.next]
      by_cases hcond : below ∧ moved ≠ e.numberOfBytes
      · rw [if_pos hcond]
        rfl
      · rw [Transfer.next, if_neg hcond] at hn'
        rw [if_neg hcond]
        by_cases hmoved : moved = e.numberOfBytes
        · simp [Endpoint.resume, Endpoint.handed, hmoved, Transfer.moved, hn]
        · simp [Endpoint.resume, Endpoint.handed, hmoved] at hn'
    | check =>
      simp only [Endpoint.step, ht, hc, Transfer.ask, Option.some.injEq, Prod.mk.injEq] at hs
      obtain ⟨rfl, rfl⟩ := hs
      exact ⟨h.count ht hc rfl, rfl⟩
    | poll moved =>
      simp only [Endpoint.step, ht, hc, Transfer.ask, Option.some.injEq, Prod.mk.injEq] at hs
      obtain ⟨rfl, rfl⟩ := hs
      exact ⟨h.count ht hc rfl, rfl⟩
    | whole =>
      simp only [Endpoint.step, ht, hc, Transfer.ask, Option.some.injEq, Prod.mk.injEq] at hs
      obtain ⟨rfl, rfl⟩ := hs
      refine ⟨h.begun hc hhanded rfl (BitVec.isLt _) ?_ ?_, rfl⟩
      · rw [hn]
        simp
      · simp [Endpoint.handed, hn]
    | chunk moved count =>
      simp only [Endpoint.step, ht, hc, Transfer.ask, Option.some.injEq, Prod.mk.injEq] at hs
      obtain ⟨rfl, rfl⟩ := hs
      obtain ⟨-, hle⟩ := toNat_moved_chunk hat.1 count
      exact ⟨h.begun hc hhanded rfl (BitVec.isLt _) (hle.trans hn.le) rfl, rfl⟩

end InCall

/-! ## The invariant -/

section Invariant

/-- What a process is doing at one of its ends. -/
inductive Task
  | idle
  | counting
  | calling (k : ℕ) (data : List U8)

def Worker.task (w : Worker) (s : Side) : Task :=
  match w.program, w.calling with
  | .await t _ _, some _ => if t = s then .counting else .idle
  | .transfer t buffer _, some k => if t = s then .calling k buffer else .idle
  | _, _ => .idle

def Task.At (s : Side) (σ : Shared) (e : Endpoint) : Task → Prop
  | .idle => e.Idle
  | .counting => e.transfer = none ∧ ∀ c, e.ring.call = some c → c.transfers = false
  | .calling k data => e.data = data ∧ InCall s σ k e

structure SystemInv (L : Layout) (m : Segment) (x : System) : Prop where
  duplex : x.duplex.Kept L m
  task : ∀ p s, ((x.worker p).task s).At s (x.shared p s) (x.endpoint p s)

variable {L : Layout} {m : Segment} {x y z : System} {p q : Process} {s t : Side} {e : Endpoint}
  {σ σ' : Shared} {w : Worker} {below : Bool} {n : U64} {next : Program} {buffer : Buffer}
  {rest : List U8 → Program} {k : ℕ}

theorem Worker.task_stop (h : w.program = .stop) : w.task s = .idle := by
  unfold task
  rw [h]

theorem Worker.task_none (h : w.calling = none) : w.task s = .idle := by
  unfold task
  rw [h]
  cases w.program <;> rfl

theorem Worker.task_await (h : w.program = .await t n next) (hk : w.calling = some k) :
    w.task s = if t = s then .counting else .idle := by
  unfold task
  rw [h, hk]

theorem Worker.task_transfer (h : w.program = .transfer t buffer rest) (hk : w.calling = some k) :
    w.task s = if t = s then .calling k buffer else .idle := by
  unfold task
  rw [h, hk]

theorem Task.At.leaves {r : Ring} {a : Task} (h : a.At s σ e) (hl : Leaves r s σ σ') :
    a.At s σ' e := by
  cases a with
  | idle => exact h
  | counting => exact h
  | calling k data => exact ⟨h.1, h.2.leaves hl⟩

theorem Stamped.duplex_reach (h : Stamped L p x y) : DuplexReach L x.duplex y.duplex := by
  rcases h with rfl | ⟨now, rfl⟩
  · exact .refl
  · obtain ⟨offset, l, hle, hstamp⟩ := x.stamp_duplex p now
    rw [hstamp]
    exact .single (.header hle)

theorem Stamped.endpoint (h : Stamped L p x y) (q : Process) (t : Side) :
    y.endpoint q t = x.endpoint q t := by
  rcases h with rfl | ⟨now, rfl⟩ <;> rfl

theorem Stamped.worker (h : Stamped L p x y) : y.worker = x.worker := by
  rcases h with rfl | ⟨now, rfl⟩ <;> rfl

theorem Stamped.leaves (h : Stamped L p x y) (hx : x.duplex.Kept L m) (q : Process) (t : Side) :
    Leaves (L.ring (q.channel t)) t (x.shared q t) (y.shared q t) := by
  rcases h with rfl | ⟨now, rfl⟩
  · exact ((System.firm hx q t).ring.sound.keeps_refl).toLeaves
  · exact System.stamp_leaves hx q t

theorem Duplex.Kept.reach {x y : Duplex} (h : x.Kept L m) (hxy : DuplexReach L x y) :
    y.Kept L m := by
  induction hxy with
  | refl => exact h
  | tail _ hs ih => exact hs.kept ih

/-- Nothing but the process's own doing has changed. -/
theorem SystemInv.turn (h : SystemInv L m x) (hd : y.duplex = x.duplex)
    (hw : ∀ q, q ≠ p → y.worker q = x.worker q)
    (hat : ∀ t, ((y.worker p).task t).At t (x.shared p t) (x.endpoint p t)) : SystemInv L m y := by
  refine ⟨hd ▸ h.duplex, fun q t => ?_⟩
  have hσ : y.shared q t = x.shared q t := by
    unfold System.shared
    rw [hd]
  have he : y.endpoint q t = x.endpoint q t := by
    unfold System.endpoint
    rw [hd]
  rw [hσ, he]
  by_cases hq : q = p
  · rw [hq]
    exact hat t
  · rw [hw q hq]
    exact h.task q t

/-- The process has made an access at side `s`, the other of its ends idle. -/
theorem SystemInv.access (h : SystemInv L m x)
    (hs : EndpointStep (L.ring (p.channel s)).buffer s (x.endpoint p s, x.shared p s) (e, σ))
    (hz : Stamped L p (x.set p s e σ) z) (hd : y.duplex = z.duplex)
    (hw : ∀ q, q ≠ p → y.worker q = x.worker q)
    (hother : ∀ t, t ≠ s → (x.worker p).task t = .idle ∧ (y.worker p).task t = .idle)
    (hat : ((y.worker p).task s).At s σ e) : SystemInv L m y := by
  have hset : (x.set p s e σ).duplex.Kept L m := (DuplexStep.call _ s hs).kept h.duplex
  refine ⟨hd ▸ hset.reach hz.duplex_reach, fun q t => ?_⟩
  have hσ : y.shared q t = z.shared q t := by
    unfold System.shared
    rw [hd]
  have he : y.endpoint q t = z.endpoint q t := by
    unfold System.endpoint
    rw [hd]
  rw [hσ, he, hz.endpoint]
  refine Task.At.leaves ?_ (hz.leaves hset q t)
  by_cases hqt : (q, t) = (p, s)
  · obtain ⟨rfl, rfl⟩ := Prod.mk.inj hqt
    rw [System.endpoint_set_self, System.shared_set_self]
    exact hat
  · rw [System.endpoint_set_of_ne hqt]
    refine Task.At.leaves ?_ (System.set_leaves h.duplex hs hqt)
    by_cases hq : q = p
    · obtain ⟨hx, hy⟩ := hother t fun ht => hqt (by rw [hq, ht])
      have hidle := h.task q t
      rw [hq, hx] at hidle
      rw [hq, hy]
      exact hidle
    · rw [hw q hq]
      exact h.task q t

/-- An end the process has no call at is idle. -/
theorem SystemInv.idle (h : SystemInv L m x) (hc : (x.worker p).calling = none) (s : Side) :
    (x.endpoint p s).Idle := by
  have hat := h.task p s
  rw [Worker.task_none hc] at hat
  exact hat

theorem SystemInv.awaits (h : SystemInv L m x) (hp : (x.worker p).program = .await s n next)
    (hc : (x.worker p).calling = some k) :
    (x.endpoint p s).transfer = none
      ∧ ∀ c, (x.endpoint p s).ring.call = some c → c.transfers = false := by
  have hat := h.task p s
  rw [Worker.task_await hp hc, if_pos rfl] at hat
  exact hat

theorem SystemInv.calls (h : SystemInv L m x) (hp : (x.worker p).program = .transfer s buffer rest)
    (hc : (x.worker p).calling = some k) :
    (x.endpoint p s).data = buffer ∧ InCall s (x.shared p s) k (x.endpoint p s) := by
  have hat := h.task p s
  rw [Worker.task_transfer hp hc, if_pos rfl] at hat
  exact hat

/-- A process is at an end to its call when the end it is at is idle. -/
theorem SystemInv.idle_awaited (h : SystemInv L m x) (hp : (x.worker p).program = .await s n next)
    (hk : (x.worker p).calling = some k) (hc : (x.endpoint p s).ring.call = none) (t : Side) :
    (x.endpoint p t).Idle := by
  by_cases ht : s = t
  · subst ht
    exact ⟨(h.awaits hp hk).1, hc⟩
  · have hat := h.task p t
    rw [Worker.task_await hp hk, if_neg ht] at hat
    exact hat

theorem SystemInv.idle_returned (h : SystemInv L m x)
    (hp : (x.worker p).program = .transfer s buffer rest) (hk : (x.worker p).calling = some k)
    (hc : (x.endpoint p s).transfer = none) (t : Side) : (x.endpoint p t).Idle := by
  by_cases ht : s = t
  · subst ht
    exact ⟨hc, (h.calls hp hk).2.idle hc⟩
  · have hat := h.task p t
    rw [Worker.task_transfer hp hk, if_neg ht] at hat
    exact hat

/-- A count begun on an idle ring. -/
theorem Endpoint.Idle.ask {cb : CircularBuffer} (h : e.Idle) : EndpointStep cb s (e, σ)
    ({ e with ring := { e.ring with call := some .loadSecond } }, σ) := by
  have hstep : EndpointStep cb s (e, σ) ({ e with
      ring := { e.ring with call := some .loadSecond } }, { σ with sent := σ.sent ++ [] }) :=
    .direct h.1 (.start (.count h.2))
  simpa using hstep

theorem Acts.worker_of_ne (h : Acts L below p x y) (hq : q ≠ p) : y.worker q = x.worker q := by
  cases h with
  | stopped hp => rfl
  | call hp hk ht hs hz => rw [hz.worker, System.worker_set]
  | count hp hk hc hm => rfl
  | _ =>
    rw [System.worker_setWorker_of_ne hq]
    try rw [System.worker_set]

theorem Acts.inv (h : SystemInv L m x) (ha : Acts L below p x y) : SystemInv L m y := by
  have hw : ∀ q, q ≠ p → y.worker q = x.worker q := fun q hq => ha.worker_of_ne hq
  cases ha with
  | stopped hp => exact h
  | @ask s n next hp hk =>
    refine h.access (h.idle hk s).ask (.inl rfl) rfl hw (fun t ht => ?_) ?_
    · rw [System.worker_setWorker_self]
      exact ⟨Worker.task_none hk, (Worker.task_await (w := { x.worker p with calling := some _ })
        hp rfl).trans (if_neg (Ne.symm ht))⟩
    · rw [System.worker_setWorker_self,
        Worker.task_await (w := { x.worker p with calling := some _ }) hp rfl, if_pos rfl]
      refine ⟨(h.idle hk s).1, fun c hc => ?_⟩
      obtain rfl := Option.some.inj hc
      rfl
  | @count s n next k c party σ hp hk hc hm =>
    obtain ⟨ht, hkind⟩ := h.awaits hp hk
    refine h.access (.direct ht (.move hc hm)) (.inl rfl) rfl hw (fun t ht => ?_) ?_
    · exact ⟨(Worker.task_await hp hk).trans (if_neg (Ne.symm ht)),
        (Worker.task_await hp hk).trans (if_neg (Ne.symm ht))⟩
    · rw [System.worker_set, Worker.task_await hp hk, if_pos rfl]
      exact ⟨ht, fun c' hc' => (Party.transfers_move hm hc').trans (hkind c hc)⟩
  | @enough s n next k hp hk hc hn =>
    refine h.turn rfl hw fun t => ?_
    rw [System.worker_setWorker_self, Worker.task_none rfl]
    exact h.idle_awaited hp hk hc t
  | @tooFew s n next k hp hk hc hn =>
    refine h.turn rfl hw fun t => ?_
    rw [System.worker_setWorker_self, Worker.task_none rfl]
    exact h.idle_awaited hp hk hc t
  | @begin s buffer next hp hk =>
    refine h.access (.begin (h.idle hk s) buffer.2) (.inl rfl) rfl hw (fun t ht => ?_) ?_
    · rw [System.worker_setWorker_self]
      exact ⟨Worker.task_none hk, (Worker.task_transfer
        (w := { x.worker p with calling := some _ }) hp rfl).trans (if_neg (Ne.symm ht))⟩
    · rw [System.worker_setWorker_self,
        Worker.task_transfer (w := { x.worker p with calling := some _ }) hp rfl, if_pos rfl]
      exact ⟨rfl, InCall.begin (System.firm h.duplex p s).toEndpointOwn (h.idle hk s) _⟩
  | @call s buffer next k w e σ _ hp hk ht hs hz =>
    obtain ⟨hdata, hcall⟩ := h.calls hp hk
    obtain ⟨hcall', hdata'⟩ := hcall.step (System.firm h.duplex p s).toEndpointOwn ht hs
    refine h.access (.step below hs) hz rfl hw (fun t ht => ?_) ?_
    · rw [hz.worker, System.worker_set]
      exact ⟨(Worker.task_transfer hp hk).trans (if_neg (Ne.symm ht)),
        (Worker.task_transfer hp hk).trans (if_neg (Ne.symm ht))⟩
    · rw [hz.worker, System.worker_set, Worker.task_transfer hp hk, if_pos rfl]
      exact ⟨hdata'.trans hdata, hcall'⟩
  | @returned s buffer next k hp hk ht hresult =>
    refine h.turn rfl hw fun t => ?_
    rw [System.worker_setWorker_self, Worker.task_none rfl]
    exact h.idle_returned hp hk ht t
  | @fails s buffer next k hp hk ht hresult =>
    refine h.turn rfl hw fun t => ?_
    rw [System.worker_setWorker_self, Worker.task_none rfl]
    exact h.idle_returned hp hk ht t

theorem Ready.systemInv (h : Ready L m) (program : Process → Program) :
    SystemInv L m (.fresh program m) :=
  ⟨h.kept, fun p s => by
    rw [Worker.task_none rfl]
    exact ⟨rfl, rfl⟩⟩

end Invariant

/-! ## What a step leaves -/

section Leaves

variable {L : Layout} {m : Segment} {x y z : System} {p q : Process} {s t : Side} {e : Endpoint}
  {σ : Shared} {below : Bool}

/-- Where the cursor of a process's side is in the stream. -/
def System.position (x : System) (p : Process) (s : Side) : ℕ := (x.shared p s).advanced s

theorem System.advanced_peer (x : System) (p : Process) (s : Side) :
    (x.shared p s).advanced s.peer = x.position p.other s.peer := by
  rw [position, shared_peer]

/-- A step of the process is none, as far as the segment goes, or an access by an end of its. -/
theorem Acts.effect (h : SystemInv L m x) (ha : Acts L below p x y) : y.duplex = x.duplex
    ∨ ∃ s e σ z, EndpointStep (L.ring (p.channel s)).buffer s (x.endpoint p s, x.shared p s) (e, σ)
      ∧ Stamped L p (x.set p s e σ) z ∧ y.duplex = z.duplex := by
  cases ha with
  | stopped hp => exact .inl rfl
  | @ask s n next hp hk => exact .inr ⟨s, _, _, _, (h.idle hk s).ask, .inl rfl, rfl⟩
  | @count s n next k c party σ hp hk hc hm =>
    exact .inr ⟨s, _, _, _, .direct (h.awaits hp hk).1 (.move hc hm), .inl rfl, rfl⟩
  | enough hp hk hc hn => exact .inl rfl
  | tooFew hp hk hc hn => exact .inl rfl
  | @begin s buffer next hp hk =>
    exact .inr ⟨s, _, _, _, .begin (h.idle hk s) buffer.2, .inl rfl, rfl⟩
  | call hp hk ht hs hz => exact .inr ⟨_, _, _, _, .step below hs, hz, rfl⟩
  | returned hp hk ht hresult => exact .inl rfl
  | fails hp hk ht hresult => exact .inl rfl

theorem System.shared_congr (h : y.duplex = x.duplex) (q : Process) (t : Side) :
    y.shared q t = x.shared q t := by
  unfold shared
  rw [h]

theorem System.endpoint_congr (h : y.duplex = x.duplex) (q : Process) (t : Side) :
    y.endpoint q t = x.endpoint q t := by
  unfold endpoint
  rw [h]

/-- What an access leaves every other end. -/
theorem Stamped.leaves_of_ne (h : SystemInv L m x)
    (hs : EndpointStep (L.ring (p.channel s)).buffer s (x.endpoint p s, x.shared p s) (e, σ))
    (hz : Stamped L p (x.set p s e σ) z) (hd : y.duplex = z.duplex) (hne : (q, t) ≠ (p, s)) :
    y.endpoint q t = x.endpoint q t
      ∧ Leaves (L.ring (q.channel t)) t (x.shared q t) (y.shared q t) := by
  have hset : (x.set p s e σ).duplex.Kept L m := (DuplexStep.call _ s hs).kept h.duplex
  have hl := System.set_leaves h.duplex hs hne
  have hl' := hz.leaves hset q t
  refine ⟨?_, ?_⟩
  · rw [System.endpoint_congr hd, hz.endpoint, System.endpoint_set_of_ne hne]
  · rw [System.shared_congr hd]
    exact ⟨hl'.sound, fun b => (hl'.word b).trans (hl.word b), hl'.moved.trans hl.moved,
      hl'.advanced.trans hl.advanced, hl.advanced_peer.trans hl'.advanced_peer,
      fun hs => (hl'.sent hs).trans (hl.sent hs)⟩

theorem Acts.leaves_of_ne (h : SystemInv L m x) (ha : Acts L below p x y) (hq : q ≠ p)
    (t : Side) : y.endpoint q t = x.endpoint q t
      ∧ Leaves (L.ring (q.channel t)) t (x.shared q t) (y.shared q t) := by
  rcases ha.effect h with hd | ⟨s, e, σ, z, hs, hz, hd⟩
  · rw [System.endpoint_congr hd, System.shared_congr hd]
    exact ⟨rfl, ((System.firm h.duplex q t).ring.sound.keeps_refl).toLeaves⟩
  · exact hz.leaves_of_ne h hs hd fun he => hq (Prod.mk.inj he).1

theorem Acts.position_of_ne (h : SystemInv L m x) (ha : Acts L below p x y) (hq : q ≠ p)
    (t : Side) : y.position q t = x.position q t :=
  (ha.leaves_of_ne h hq t).2.advanced

/-- The history of the end that made the access. -/
theorem Stamped.leaves_self (h : SystemInv L m x)
    (hs : EndpointStep (L.ring (p.channel s)).buffer s (x.endpoint p s, x.shared p s) (e, σ))
    (hz : Stamped L p (x.set p s e σ) z) (hd : y.duplex = z.duplex) :
    y.endpoint p s = e ∧ Leaves (L.ring (p.channel s)) s σ (y.shared p s) := by
  have hset : (x.set p s e σ).duplex.Kept L m := (DuplexStep.call _ s hs).kept h.duplex
  have hl' := hz.leaves hset p s
  rw [System.shared_set_self] at hl'
  refine ⟨?_, ?_⟩
  · rw [System.endpoint_congr hd, hz.endpoint, System.endpoint_set_self]
  · rw [System.shared_congr hd]
    exact hl'

end Leaves

end MemMapIPC
