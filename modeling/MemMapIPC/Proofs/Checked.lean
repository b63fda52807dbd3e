import MemMapIPC.Checked
import MemMapIPC.Proofs.Peer

/-!
# A check before a call stands

Besides its `Own` each side has that a count in progress goes by a position of the peer's at which
its last count was no more (`Steady`), so its counts never decrease, and that its two words agree
but between its two stores (`Paired`). In a call for no more than the last count the entity's check
then finds enough. It ends if the peer's words agree when it loads them: the peer's position is
bounded while the call waits, so in the end they stay the same.
-/

namespace MemMapIPC

open Interleaving Relation Fair

/-- The peer's cursor as a count in progress goes by it. -/
def Call.nonvolatile : Call → Option U64
  | .compare v => some v
  | .subtract v _ => some v
  | _ => none

section Invariant

variable (r : Ring) (s : Side) (σ : Shared)

def Steady (p : Party) : Prop :=
  ∀ c v, p.call = some c → c.nonvolatile = some v →
    ∃ q ≤ σ.advanced s.peer, v.toNat = q % r.cells
      ∧ σ.advanced s + p.last.toNat ≤ r.reach s q

/-- The side's own two words agree but between their two stores. -/
def Paired (p : Party) : Prop :=
  (∀ v later, p.call ≠ some (.publishSecond v later)) →
    r.word σ.mem s true = r.word σ.mem s false

structure Firm (e : Endpoint) : Prop extends EndpointOwn r s σ e where
  steady : Steady r s σ e.ring
  paired : Paired r s σ e.ring

end Invariant

variable {r : Ring} {s : Side} {σ σ' : Shared} {p p' : Party} {e e' : Endpoint}

/-! ## What one access of a call leaves -/

section Access

variable {c : Call}

theorem Call.nonvolatile_of_transfers (h : c.transfers) : c.nonvolatile = none := by
  cases c <;> first | rfl | cases h

theorem Party.transfers_move {cb : CircularBuffer} (hm : p.move cb s c σ = some (p', σ'))
    {c' : Call} (hc' : p'.call = some c') : c'.transfers = c.transfers := by
  obtain ⟨v, source, hres⟩ := Party.move_resume hm
  rcases hn : c.next cb s v with c'' | n | _ | _ <;> rw [hn] at hres <;> cases hres <;> cases hc'
  exact Call.transfers_next hn

theorem Own.move_steady (h : Own r s σ p) (hsteady : Steady r s σ p) (hc : p.call = some c)
    (hm : p.move r.buffer s c σ = some (p', σ')) : Steady r s σ' p' ∧ p.last ≤ p'.last := by
  by_cases ht : c.transfers
  · refine ⟨fun c' v hc' hv => ?_, ?_⟩
    · rw [Call.nonvolatile_of_transfers ((Party.transfers_move hm hc').trans ht)] at hv
      cases hv
    · rw [h.spent c hc ht, BitVec.le_def]
      exact Nat.zero_le _
  rw [Bool.not_eq_true] at ht
  obtain rfl := Party.move_of_not_transfers ht hm
  have hat := h.at_call
  rw [hc] at hat
  cases c with
  | loadSecond =>
    simp only [Party.move_loadSecond, Option.some.injEq, Prod.mk.injEq, and_true] at hm
    obtain rfl := hm
    refine ⟨fun c' v hc' hv => ?_, BitVec.le_refl _⟩
    cases hc'
    cases hv
  | loadFirst w =>
    simp only [Party.move_loadFirst, Ring.loadWord_pointer, Option.some.injEq, Prod.mk.injEq,
      and_true] at hm
    obtain rfl := hm
    refine ⟨fun c' v hc' hv => ?_, BitVec.le_refl _⟩
    obtain rfl := Option.some.inj hc'
    by_cases hw : w = r.word σ'.mem s.peer false
    · obtain rfl : w = v := by simpa [Call.nonvolatile, hw] using hv
      exact ⟨_, le_rfl, hw ▸ h.sound.first s.peer, h.last⟩
    · simp [Call.nonvolatile, hw] at hv
  | compare w =>
    simp only [Party.move_compare, Option.some.injEq, Prod.mk.injEq, and_true] at hm
    obtain rfl := hm
    refine ⟨fun c' v hc' hv => ?_, BitVec.le_refl _⟩
    cases hc'
    exact hsteady _ v hc hv
  | subtract w isAhead =>
    simp only [Party.move_subtract, Ring.loadWord_pointer, Option.some.injEq, Prod.mk.injEq,
      and_true] at hm
    obtain rfl := hm
    obtain ⟨-, -, -, rfl⟩ := hat
    obtain ⟨q, hq, hw, hle⟩ := hsteady _ w hc rfl
    have hlim : r.reach s q ≤ limit r σ' s := r.reach_mono s hq
    have hcount := Ring.toNat_difference hw (h.sound.first s) (by omega)
      (hlim.trans (h.sound.limit_le s))
    refine ⟨fun _ _ hc' => (by cases hc'), ?_⟩
    rw [BitVec.le_def, hcount]
    omega
  | _ => cases ht

/-- A word not stored to is left as it was. -/
theorem Own.move_word (h : Own r s σ p) (hc : p.call = some c)
    (hm : p.move r.buffer s c σ = some (p', σ')) {b : Bool}
    (hb : ∀ v later, c ≠ if b then .publishSecond v later else .publish v later) :
    r.word σ'.mem s b = r.word σ.mem s b := by
  rcases hacc : c.access r.buffer s with a | ⟨a, v⟩ | a | a
  · simp only [Party.move_of_load hacc, Option.map_eq_some_iff, Prod.mk.injEq] at hm
    obtain ⟨q, -, -, rfl⟩ := hm
    rfl
  · simp only [Party.move_of_store hacc, Option.map_eq_some_iff, Prod.mk.injEq] at hm
    obtain ⟨q, -, -, rfl⟩ := hm
    obtain ⟨b', later, rfl, hstore⟩ := Call.access_store hacc
    refine Ring.word_storeWord_of_ne fun he => ?_
    obtain ⟨-, rfl⟩ := Prod.mk.inj he
    rcases hstore with rfl | rfl
    · obtain ⟨-, rfl⟩ := r.pointer_inj (Access.store.inj hacc).1
      exact hb _ _ rfl
    · obtain ⟨-, rfl⟩ := r.pointer_inj (Access.store.inj hacc).1
      exact hb _ _ rfl
  · simp only [Party.move_of_get hacc, Option.map_eq_some_iff, Prod.mk.injEq] at hm
    obtain ⟨q, -, -, rfl⟩ := hm
    rfl
  · obtain ⟨cell, i, now, later, rfl, hi, rfl⟩ := Call.access_byte (.inr hacc)
    have hat := h.at_call
    rw [hc] at hat
    obtain ⟨-, hcell⟩ := hat.2.2.2.2.cell hi hat.2.2.1
    rcases hb : p.source with _ | ⟨x, rest⟩
    · simp [Party.move, hacc, hb] at hm
    simp only [Party.move_of_put hacc hb, Option.map_eq_some_iff, Prod.mk.injEq] at hm
    obtain ⟨q, -, -, rfl⟩ := hm
    rw [hat.1, hcell]
    exact Ring.word_write (by simpa using Nat.mod_lt _ r.cells_pos)

theorem Own.paired_of_settled (h : Own r s σ p) (hs : Settled r s σ) :
    r.word σ.mem s true = r.word σ.mem s false := by
  rw [← BitVec.toNat_inj, hs.2, h.sound.first]

theorem Own.move_paired (h : Own r s σ p) (hpaired : Paired r s σ p) (hc : p.call = some c)
    (hm : p.move r.buffer s c σ = some (p', σ')) : Paired r s σ' p' := by
  intro hne
  by_cases hsecond : ∃ v later, c = .publishSecond v later
  · obtain ⟨v, later, rfl⟩ := hsecond
    obtain ⟨hown, -⟩ := h.move hc hm
    have hat := hown.at_call
    simp only [Party.move_publishSecond, Option.some.injEq, Prod.mk.injEq] at hm
    obtain ⟨rfl, -⟩ := hm
    refine hown.paired_of_settled ?_
    by_cases hl : later = 0
    · simp only [hl, if_true] at hat
      exact hat.1
    · simp only [hl, if_false] at hat
      exact hat.1
  · have hfirst : ∀ v later, c ≠ .publish v later := by
      rintro v later rfl
      simp only [Party.move_publish, Option.some.injEq, Prod.mk.injEq] at hm
      obtain ⟨rfl, -⟩ := hm
      exact hne _ _ rfl
    have hw := hpaired fun v later he => hsecond ⟨v, later, Option.some.inj (hc.symm.trans he)⟩
    rw [h.move_word (b := true) hc hm fun v later he => hsecond ⟨v, later, he⟩, hw,
      h.move_word (b := false) hc hm hfirst]

end Access

/-! ## What a step of an end leaves -/

section Step

/-- A step of an end either makes an access of a ring call, or finds the ring idle, and then leaves
it so, or asks for a count, or starts a transfer. -/
theorem EndpointStep.ring_cases (h : EndpointStep r.buffer s (e, σ) (e', σ')) :
    (∃ c, e.ring.call = some c ∧ e.ring.move r.buffer s c σ = some (e'.ring, σ'))
      ∨ e.ring.call = none ∧ σ'.mem = σ.mem ∧ σ'.advanced = σ.advanced
        ∧ (e'.ring.last = e.ring.last ∧ (e'.ring.call = none ∨ e'.ring.call = some .loadSecond)
          ∨ ∃ n, e'.ring.call = some (.span n)) := by
  cases h with
  | direct ht hs =>
    cases hs with
    | start hp =>
      cases hp with
      | count hc => exact .inr ⟨hc, rfl, rfl, .inl ⟨rfl, .inr rfl⟩⟩
      | write hc hle => exact .inr ⟨hc, rfl, rfl, .inr ⟨_, rfl⟩⟩
      | read hc hle => exact .inr ⟨hc, rfl, rfl, .inr ⟨_, rfl⟩⟩
    | move hc hm => exact .inl ⟨_, hc, hm⟩
  | begin hidle hlt => exact .inr ⟨hidle.2, rfl, rfl, .inl ⟨rfl, .inl hidle.2⟩⟩
  | step below hs =>
    rcases hc : e.ring.call with _ | c
    · refine .inr ⟨rfl, ?_⟩
      have hresume : ∀ q : Progress, (e.resume q).ring = e.ring := fun q => by cases q <;> rfl
      rcases ht : e.transfer with _ | ⟨t, asked⟩
      · simp [Endpoint.step, ht] at hs
      cases asked with
      | true =>
        simp only [Endpoint.step, ht, hc, Option.some.injEq, Prod.mk.injEq] at hs
        obtain ⟨rfl, rfl⟩ := hs
        rw [hresume]
        exact ⟨rfl, rfl, .inl ⟨rfl, .inl hc⟩⟩
      | false =>
        simp only [Endpoint.step, ht, hc] at hs
        split at hs
        · simp only [Option.some.injEq, Prod.mk.injEq] at hs
          obtain ⟨rfl, rfl⟩ := hs
          exact ⟨rfl, rfl, .inl ⟨rfl, .inr rfl⟩⟩
        · simp only [Option.some.injEq, Prod.mk.injEq] at hs
          obtain ⟨rfl, rfl⟩ := hs
          cases s with
          | producer => exact ⟨rfl, rfl, .inr ⟨_, rfl⟩⟩
          | consumer => exact ⟨rfl, rfl, .inr ⟨_, rfl⟩⟩
        · simp only [Option.some.injEq, Prod.mk.injEq] at hs
          obtain ⟨rfl, rfl⟩ := hs
          rw [hresume]
          exact ⟨rfl, rfl, .inl ⟨rfl, .inl hc⟩⟩
    · refine .inl ⟨c, rfl, ?_⟩
      rcases ht : e.transfer with _ | ⟨t, asked⟩
      · simp [Endpoint.step, ht] at hs
      simp only [Endpoint.step, ht, hc, Option.map_eq_some_iff, Prod.mk.injEq] at hs
      obtain ⟨q, hq, rfl, rfl⟩ := hs
      exact hq

theorem firm_stable : Stable (fun e σ => Firm r s σ e) (Keeps r s) := by
  intro e σ σ' h k
  refine ⟨endpointOwn_stable _ _ _ h.toEndpointOwn k, fun c v hc hv => ?_, fun hne => ?_⟩
  · obtain ⟨q, hq, hv, hle⟩ := h.steady c v hc hv
    exact ⟨q, hq.trans k.advanced_peer, hv, by rw [k.advanced]; exact hle⟩
  · rw [k.word, k.word]
    exact h.paired hne

theorem endpointStep_firm (r : Ring) (s : Side) :
    Guarantees (EndpointStep r.buffer s) (fun e σ => Firm r s σ e) (Keeps r s.peer) := by
  rintro e σ e' σ' h hs
  obtain ⟨hown, hkeep⟩ := endpointStep_guarantees r s _ _ _ _ h.toEndpointOwn hs
  rcases hs.ring_cases with ⟨c, hc, hm⟩ | ⟨hc, hmem, -, hcall⟩
  · exact ⟨⟨hown, (h.ring.move_steady h.steady hc hm).1, h.ring.move_paired h.paired hc hm⟩, hkeep⟩
  · refine ⟨⟨hown, fun c v hc' hv => ?_, fun _ => ?_⟩, hkeep⟩
    · rcases hcall with ⟨-, h' | h'⟩ | ⟨n, h'⟩ <;> rw [h'] at hc' <;> cases hc' <;> cases hv
    · rw [hmem]
      exact h.paired fun v later he => by rw [hc] at he; cases he

theorem Firm.last_le (h : Firm r s σ e) (hs : EndpointStep r.buffer s (e, σ) (e', σ'))
    (hstart : ¬(e.ring.call = none ∧ ∃ n, e'.ring.call = some (.span n))) :
    e.ring.last ≤ e'.ring.last := by
  rcases hs.ring_cases with ⟨c, hc, hm⟩ | ⟨hc, -, -, ⟨hlast, -⟩ | hspan⟩
  · exact (h.ring.move_steady h.steady hc hm).2
  · rw [hlast]
    exact BitVec.le_refl _
  · exact absurd ⟨hc, hspan⟩ hstart

/-- The words agree after a step by which they did not, and after one that leaves the position. -/
theorem Firm.step_words (h : Firm r s.peer σ e)
    (hs : EndpointStep r.buffer s.peer (e, σ) (e', σ')) :
    (¬Agree r s σ → Agree r s σ' ∧ σ'.advanced s.peer = σ.advanced s.peer)
      ∧ (σ'.advanced s.peer = σ.advanced s.peer →
        r.word σ'.mem s.peer false = r.word σ.mem s.peer false ∧ (Agree r s σ → Agree r s σ')) := by
  obtain ⟨h', -⟩ := endpointStep_firm r s.peer _ _ _ _ h hs
  have hfirst : σ'.advanced s.peer = σ.advanced s.peer →
      r.word σ'.mem s.peer false = r.word σ.mem s.peer false := by
    intro hadv
    rw [← BitVec.toNat_inj, h'.ring.sound.first, h.ring.sound.first, hadv]
  have hsecond : ∀ v later, e.ring.call = some (.publishSecond v later) →
      Agree r s σ' ∧ σ'.advanced s.peer = σ.advanced s.peer := by
    intro v later hc
    rcases hs.ring_cases with ⟨c, hc', hm⟩ | ⟨hc', -⟩ <;> rw [hc] at hc' <;> cases hc'
    simp only [Party.move_publishSecond, Option.some.injEq, Prod.mk.injEq] at hm
    obtain ⟨hring, rfl⟩ := hm
    refine ⟨h'.paired fun v later he => ?_, rfl⟩
    rw [← hring] at he
    simp at he
  refine ⟨fun hd => ?_, fun hadv => ⟨hfirst hadv, fun ha => ?_⟩⟩
  · by_contra hne
    exact hd (h.paired fun v later hc => hne (hsecond v later hc))
  · by_cases hc : ∃ v later, e.ring.call = some (.publishSecond v later)
    · obtain ⟨v, later, hc⟩ := hc
      exact (hsecond v later hc).1
    · unfold Agree
      rw [hfirst hadv]
      refine Eq.trans ?_ ha
      rcases hs.ring_cases with ⟨c, hc', hm⟩ | ⟨-, hmem, -⟩
      · refine h.ring.move_word (b := true) hc' hm fun v later he => hc ⟨v, later, ?_⟩
        rw [hc', he]
        rfl
      · rw [hmem]

end Step

/-! ## A call for no more than the last count -/

section Call

/-- Side `s` in an entity's call, on the path without the wait, its last count enough for it. -/
structure Fast (r : Ring) (s : Side) (σ : Shared) (e : Endpoint) : Prop extends Firm r s σ e where
  direct : e.AtOnce
  enough : ∀ t asked, e.transfer = some (t, asked) → t ≠ .whole → e.numberOfBytes ≤ e.ring.last
  kind : ∀ t c, e.transfer = some (t, true) → e.ring.call = some c → (c.transfers ↔ t = .whole)

theorem fast_stable : Stable (fun e σ => Fast r s σ e) (Keeps r s) :=
  fun _ _ _ h k => ⟨firm_stable _ _ _ h.toFirm k, h.direct, h.enough, h.kind⟩

theorem Firm.begin (h : Firm r s σ e) (hidle : e.Idle) {data : List U8}
    (hle : data.length ≤ e.ring.last.toNat) : Fast r s σ (e.begin data) := by
  have hlt : data.length < 2 ^ 64 := hle.trans_lt e.ring.last.isLt
  refine ⟨(endpointStep_firm r s _ _ _ _ h (.begin hidle hlt)).1, ⟨_, _, rfl, rfl⟩,
    fun _ _ _ _ => ?_, fun t c ht _ => by cases ht⟩
  rw [BitVec.le_def, Endpoint.numberOfBytes, BitVec.toNat_ofNat]
  exact (Nat.mod_le _ _).trans hle

/-- The points of the entity's call still to come. -/
def stagesLeft : Option (Transfer × Bool) → ℕ
  | some (.updateTimestamp, _) => 4
  | some (.check, false) => 3
  | some (.check, true) => 2
  | some (.whole, false) => 1
  | _ => 0

theorem EndpointStep.of_call {cb : CircularBuffer} (h : EndpointStep cb s (e, σ) (e', σ'))
    (ht : e.transfer ≠ none) : ∃ below, e.step cb s below σ = some (e', σ') := by
  cases h with
  | direct hn _ => exact absurd hn ht
  | begin hidle _ => exact absurd hidle.1 ht
  | step below hs => exact ⟨below, hs⟩

theorem Fast.step (h : Fast r s σ e) (hs : EndpointStep r.buffer s (e, σ) (e', σ')) :
    e'.Succeeded ∨ Fast r s σ' e' ∧ (stagesLeft e'.transfer < stagesLeft e.transfer
      ∨ e'.transfer = e.transfer
        ∧ ∃ c, e.ring.call = some c ∧ e.ring.move r.buffer s c σ = some (e'.ring, σ')) := by
  obtain ⟨hfirm, -⟩ := endpointStep_firm r s _ _ _ _ h.toFirm hs
  obtain ⟨t, asked, ht, hdirect⟩ := h.direct
  obtain ⟨below, hstep⟩ := hs.of_call (by simp [ht])
  rcases hc : e.ring.call with _ | c
  swap
  · simp only [Endpoint.step, ht, hc, Option.map_eq_some_iff, Prod.mk.injEq] at hstep
    obtain ⟨⟨p, σ'⟩, hm, rfl, rfl⟩ := hstep
    refine .inr ⟨⟨hfirm, ⟨t, asked, rfl, hdirect⟩, fun _ _ ht' hw => ?_, fun _ c' ht' hc' => ?_⟩,
      .inr ⟨ht.symm, c, rfl, hm⟩⟩
    · cases ht'
      exact BitVec.le_trans (h.enough _ _ ht hw) (h.ring.move_steady h.steady hc hm).2
    · cases ht'
      rw [Party.transfers_move hm hc']
      exact h.kind _ c ht hc
  cases t with
  | updateTimestamp =>
    have hasked : asked = false := h.at_transfer _ _ ht
    subst hasked
    simp only [Endpoint.step, ht, hc, Transfer.ask, Transfer.next, Endpoint.resume,
      Option.some.injEq, Prod.mk.injEq] at hstep
    obtain ⟨rfl, rfl⟩ := hstep
    refine .inr ⟨⟨hfirm, ⟨_, _, rfl, rfl⟩, fun _ _ _ _ => h.enough _ _ ht (by simp),
      fun _ _ ht' _ => by cases ht'⟩, .inl (by simp [stagesLeft, ht])⟩
  | check =>
    have hle := h.enough _ _ ht (by simp)
    cases asked with
    | false =>
      simp only [Endpoint.step, ht, hc, Transfer.ask, Option.some.injEq, Prod.mk.injEq] at hstep
      obtain ⟨rfl, rfl⟩ := hstep
      refine .inr ⟨⟨hfirm, ⟨_, _, rfl, rfl⟩, fun _ _ _ _ => hle, fun t c ht' hc' => ?_⟩,
        .inl (by simp [stagesLeft, ht])⟩
      cases ht'
      cases hc'
      simp [Call.transfers]
    | true =>
      simp only [Endpoint.step, ht, hc, Transfer.next, if_neg (BitVec.not_lt.2 hle),
        Endpoint.resume, Option.some.injEq, Prod.mk.injEq] at hstep
      obtain ⟨rfl, rfl⟩ := hstep
      refine .inr ⟨⟨hfirm, ⟨_, _, rfl, rfl⟩, fun t asked ht' hw => ?_,
        fun _ _ ht' _ => by cases ht'⟩, .inl (by simp [stagesLeft, ht])⟩
      cases ht'
      exact absurd rfl hw
  | whole =>
    cases asked with
    | false =>
      simp only [Endpoint.step, ht, hc, Transfer.ask, Option.some.injEq, Prod.mk.injEq] at hstep
      obtain ⟨rfl, rfl⟩ := hstep
      refine .inr ⟨⟨hfirm, ⟨_, _, rfl, rfl⟩, fun t asked ht' hw => ?_, fun t c ht' hc' => ?_⟩,
        .inl (by simp [stagesLeft, ht])⟩
      · cases ht'
        exact absurd rfl hw
      · cases ht'
        have hspan : ∃ n, c = .span n := by
          cases s with
          | producer => exact ⟨_, (Option.some.inj hc').symm⟩
          | consumer => exact ⟨_, (Option.some.inj hc').symm⟩
        obtain ⟨n, rfl⟩ := hspan
        simp [Call.transfers]
    | true =>
      simp only [Endpoint.step, ht, hc, Transfer.next, Endpoint.resume, Option.some.injEq,
        Prod.mk.injEq] at hstep
      obtain ⟨rfl, rfl⟩ := hstep
      exact .inl ⟨rfl, rfl⟩
  | _ => cases hdirect

/-- A ring call in progress is the count of the check, or the transfer. -/
theorem Fast.at_call (h : Fast r s σ e) {c : Call} (hc : e.ring.call = some c) :
    e.transfer = some (.check, true) ∧ c.transfers = false
      ∨ e.transfer = some (.whole, true) ∧ c.transfers = true := by
  obtain ⟨t, asked, ht, hdirect⟩ := h.direct
  cases asked with
  | false =>
    have hnone := h.idle t ht
    rw [hc] at hnone
    cases hnone
  | true =>
    have hkind := h.kind t c ht hc
    cases t with
    | updateTimestamp => exact absurd (h.at_transfer _ _ ht) (by simp [TransferAt])
    | check => exact .inl ⟨ht, by simpa using hkind⟩
    | whole => exact .inr ⟨ht, hkind.2 rfl⟩
    | _ => cases hdirect

theorem Call.rank_of_transfers {c : Call} (h : c.transfers) (v w : U64) : c.rank v = c.rank w := by
  cases c <;> first | rfl | cases h

/-- Past its count the call does not go by the peer's words. -/
theorem Fast.past_check (h : Fast r s σ e) (hstage : stagesLeft e.transfer ≤ 1) :
    (∀ v, ¬e.Seeks v) ∧ ∀ v w, e.ring.rank v = e.ring.rank w := by
  refine ⟨fun v hseek => ?_, fun v w => ?_⟩
  · obtain ⟨t, asked, ht, -⟩ := h.direct
    rw [ht] at hstage
    cases t with
    | updateTimestamp => simp [stagesLeft] at hstage
    | check => cases asked <;> simp [stagesLeft] at hstage
    | _ => simp [Endpoint.Seeks, ht] at hseek
  · rcases hc : e.ring.call with _ | c
    · simp only [Party.rank, hc, Option.elim_none]
    · rcases h.at_call hc with ⟨he, -⟩ | ⟨-, htransfer⟩
      · simp [he, stagesLeft] at hstage
      · simp only [Party.rank, hc, Option.elim_some, Call.rank_of_transfers htransfer v w]

/-- As long as the peer's words differ, the check goes on looking. -/
theorem EndpointOwn.seeks_step (h : EndpointOwn r s σ e) (hd : ¬Agree r s σ)
    (hseek : e.Seeks (r.word σ.mem s.peer false))
    (hs : EndpointStep r.buffer s (e, σ) (e', σ')) :
    e'.Seeks (r.word σ'.mem s.peer false) ∧ ¬Agree r s σ' := by
  obtain ⟨-, hkeep⟩ := endpointStep_guarantees r s _ _ _ _ h hs
  have hd' : ¬Agree r s σ' := by
    unfold Agree
    rw [hkeep.word, hkeep.word]
    exact hd
  refine ⟨?_, hd'⟩
  rw [hkeep.word]
  have hne : e.transfer ≠ none := by
    intro ht
    simp [Endpoint.Seeks, ht] at hseek
  obtain ⟨below, hstep⟩ := hs.of_call hne
  rcases ht : e.transfer with _ | ⟨t, asked⟩
  · exact absurd ht hne
  cases t with
  | updateTimestamp =>
    have hasked : asked = false := h.at_transfer _ _ ht
    subst hasked
    simp only [Endpoint.step, ht, h.idle _ ht, Transfer.ask, Transfer.next, Endpoint.resume,
      Option.some.injEq, Prod.mk.injEq] at hstep
    obtain ⟨rfl, rfl⟩ := hstep
    trivial
  | check =>
    cases asked with
    | false =>
      simp only [Endpoint.step, ht, h.idle _ ht, Transfer.ask, Option.some.injEq,
        Prod.mk.injEq] at hstep
      obtain ⟨rfl, rfl⟩ := hstep
      trivial
    | true =>
      rcases hc : e.ring.call with _ | c
      · simp [Endpoint.Seeks, ht, hc] at hseek
      simp only [Endpoint.step, ht, hc, Option.map_eq_some_iff, Prod.mk.injEq] at hstep
      obtain ⟨⟨p, σ'⟩, hm, rfl, rfl⟩ := hstep
      cases c with
      | loadSecond =>
        simp only [Party.move_loadSecond, Ring.loadWord_pointer, Option.some.injEq,
          Prod.mk.injEq] at hm
        obtain ⟨rfl, rfl⟩ := hm
        exact hd
      | loadFirst v =>
        have hv : v ≠ r.word σ.mem s.peer false := by simpa [Endpoint.Seeks, ht, hc] using hseek
        simp only [Party.move_loadFirst, Ring.loadWord_pointer, Option.some.injEq,
          Prod.mk.injEq] at hm
        obtain ⟨rfl, rfl⟩ := hm
        simp [Endpoint.Seeks, hv]
      | _ => simp [Endpoint.Seeks, ht, hc] at hseek
  | _ => simp [Endpoint.Seeks, ht] at hseek

/-- Past its loop, the call does not come back to it. -/
theorem Fast.not_seeks_move (h : Fast r s σ e) {c : Call} (hc : e.ring.call = some c)
    (hm : e.ring.move r.buffer s c σ = some (e'.ring, σ')) (ht : e'.transfer = e.transfer)
    (hseek : ¬e.Seeks (r.word σ.mem s.peer false)) :
    c ≠ .loadSecond ∧ ¬e'.Seeks (r.word σ.mem s.peer false) := by
  rcases h.at_call hc with ⟨he, hcount⟩ | ⟨he, htransfer⟩
  · rw [he] at ht
    cases c with
    | loadSecond => simp [Endpoint.Seeks, he, hc] at hseek
    | loadFirst v =>
      have hv : v = r.word σ.mem s.peer false := by simpa [Endpoint.Seeks, he, hc] using hseek
      simp only [Party.move_loadFirst, Ring.loadWord_pointer, Option.some.injEq,
        Prod.mk.injEq] at hm
      obtain ⟨hring, -⟩ := hm
      exact ⟨nofun, by simp [Endpoint.Seeks, ht, ← hring, hv]⟩
    | compare v =>
      simp only [Party.move_compare, Option.some.injEq, Prod.mk.injEq] at hm
      obtain ⟨hring, -⟩ := hm
      exact ⟨nofun, by simp [Endpoint.Seeks, ht, ← hring]⟩
    | subtract v isAhead =>
      simp only [Party.move_subtract, Option.some.injEq, Prod.mk.injEq] at hm
      obtain ⟨hring, -⟩ := hm
      exact ⟨nofun, by simp [Endpoint.Seeks, ht, ← hring]⟩
    | _ => cases hcount
  · rw [he] at ht
    refine ⟨fun hl => ?_, by simp [Endpoint.Seeks, ht]⟩
    subst hl
    cases htransfer

end Call

/-! ## Runs of the two ends -/

section Runs

variable {m : Segment} {t : Side} {x y : PeerState}

theorem Side.peer_peer (s : Side) : s.peer.peer = s := by cases s <;> rfl

theorem Side.eq_or_eq_peer (s t : Side) : t = s ∨ t = s.peer := by
  cases s <;> cases t <;> simp [Side.peer]

def BothFirm (r : Ring) (x : PeerState) : Prop := ∀ s, Firm r s x.shared (endpointOf x s)

theorem SideStep.bothFirm (h : BothFirm r x) (hs : SideStep r t x y) :
    BothFirm r y ∧ Keeps r t.peer x.shared y.shared := by
  obtain ⟨hfirm, hkeep⟩ := endpointStep_firm r t _ _ _ _ (h t) hs.1
  refine ⟨fun s => ?_, hkeep⟩
  rcases Side.eq_or_eq_peer t s with rfl | rfl
  · exact hfirm
  · rw [hs.2]
    exact firm_stable _ _ _ (h t.peer) hkeep

theorem bothFirm_reach (h : PeerReach r (peerStart r m) x) : BothFirm r x := by
  have hstart : ∀ s, Firm r s (peerStart r m).shared {} := fun s =>
    ⟨by have := endpointOwn_reach (m := m) (r := r) .refl s; cases s <;> exact this,
      (fun _ _ hc => by cases hc),
      fun _ => (Ring.word_clear s true).trans (Ring.word_clear s false).symm⟩
  have hreach := Reach.of_rely (endpointStep_firm r .producer) (endpointStep_firm r .consumer)
    firm_stable firm_stable h ⟨hstart .producer, hstart .consumer⟩
  intro s
  cases s with
  | producer => exact hreach.1
  | consumer => exact hreach.2

theorem Meanwhile.last_le (h : BothFirm r x) (hxy : Meanwhile r s x y) :
    (endpointOf x s).ring.last ≤ (endpointOf y s).ring.last := by
  have key : BothFirm r y ∧ (endpointOf x s).ring.last ≤ (endpointOf y s).ring.last := by
    induction hxy with
    | refl => exact ⟨h, BitVec.le_refl _⟩
    | @tail y z _ hyz ih =>
      obtain ⟨⟨t, hs⟩, hstart⟩ := hyz
      refine ⟨(hs.bothFirm ih.1).1, BitVec.le_trans ih.2 ?_⟩
      rcases Side.eq_or_eq_peer t s with rfl | rfl
      · exact (ih.1 s).last_le hs.1 hstart
      · rw [hs.2]
        exact BitVec.le_refl _
  exact key.2

/-- Side `s` is in the call, and has still some of it to do. -/
structure Calling (r : Ring) (s : Side) (x : PeerState) : Prop where
  both : BothFirm r x
  fast : Fast r s x.shared (endpointOf x s)

theorem Calling.step (h : Calling r s x) (hs : SideStep r t x y) :
    (endpointOf y s).Succeeded ∨ Calling r s y := by
  obtain ⟨hboth, hkeep⟩ := hs.bothFirm h.both
  rcases Side.eq_or_eq_peer t s with rfl | rfl
  · exact (h.fast.step hs.1).imp id fun hf => ⟨hboth, hf.1⟩
  · refine .inr ⟨hboth, ?_⟩
    rw [hs.2]
    exact fast_stable _ _ _ h.fast hkeep

theorem BothFirm.begin (h : BothFirm r x) (hidle : (endpointOf x s).Idle) {data : List U8}
    (hle : data.length ≤ (endpointOf x s).ring.last.toNat) : Calling r s (x.begin s data) := by
  have hfast := (h s).begin hidle hle
  cases s with
  | producer =>
    refine ⟨fun t => ?_, hfast⟩
    cases t with
    | producer => exact hfast.toFirm
    | consumer => exact h .consumer
  | consumer =>
    refine ⟨fun t => ?_, hfast⟩
    cases t with
    | producer => exact h .producer
    | consumer => exact hfast.toFirm

theorem Calling.during (h : Calling r s x) (hxy : DuringCall r s x y) :
    (endpointOf y s).Succeeded ∨ Calling r s y := by
  induction hxy with
  | refl => exact .inr h
  | tail _ hyz ih =>
    obtain ⟨⟨t, hs⟩, hne⟩ := hyz
    rcases ih with hd | hc
    · exact absurd hd.1 hne
    · exact hc.step hs

/-- The check looks for the peer's two words to be the same, and they are not. -/
def Stuck (r : Ring) (s : Side) (x : PeerState) : Prop :=
  (endpointOf x s).Seeks (r.word x.shared.mem s.peer false) ∧ ¬Agree r s x.shared

open Classical in
/-- The side whose step brings the call nearer to its end. -/
noncomputable def helper (r : Ring) (s : Side) (x : PeerState) : Side :=
  if Stuck r s x then s.peer else s

/-- How far the peer may still go while the call waits for its count. -/
def slack (r : Ring) (s : Side) (x : PeerState) : ℕ :=
  if stagesLeft (endpointOf x s).transfer ≤ 1 then 0
  else r.reach s.peer (x.shared.advanced s) - x.shared.advanced s.peer

open Classical in
noncomputable def callMeasure (r : Ring) (s : Side) (x : PeerState) : ℕ ×ₗ ℕ ×ₗ WithTop ℕ :=
  toLex (stagesLeft (endpointOf x s).transfer, toLex (slack r s x,
    if Stuck r s x then ⊤
    else ((endpointOf x s).ring.rank (r.word x.shared.mem s.peer false) : ℕ)))

theorem Calling.own_step (h : Calling r s x) (hs : SideStep r s x y) :
    (endpointOf y s).Succeeded ∨ Calling r s y ∧ (callMeasure r s y < callMeasure r s x
      ∨ s ≠ helper r s x ∧ helper r s y = helper r s x
        ∧ callMeasure r s y = callMeasure r s x) := by
  obtain ⟨hboth, hkeep⟩ := hs.bothFirm h.both
  rcases h.fast.step hs.1 with hd | ⟨hfast, hlow | ⟨ht, c, hc, hm⟩⟩
  · exact .inl hd
  · exact .inr ⟨⟨hboth, hfast⟩, .inl (Prod.Lex.toLex_lt_toLex.2 (.inl hlow))⟩
  refine .inr ⟨⟨hboth, hfast⟩, ?_⟩
  have hslack : slack r s y = slack r s x := by
    unfold slack
    rw [ht]
    split_ifs with hstage
    · rfl
    · rcases h.fast.at_call hc with ⟨-, hcount⟩ | ⟨he, -⟩
      · rw [Party.move_of_not_transfers hcount hm]
      · simp [he, stagesLeft] at hstage
  by_cases hstuck : Stuck r s x
  · have hstuck' : Stuck r s y :=
      (h.both s).toEndpointOwn.seeks_step hstuck.2 hstuck.1 hs.1
    refine .inr ⟨?_, ?_, ?_⟩
    · unfold helper
      rw [if_pos hstuck]
      exact s.peer_ne.symm
    · unfold helper
      rw [if_pos hstuck, if_pos hstuck']
    · unfold callMeasure
      rw [if_pos hstuck, if_pos hstuck', ht, hslack]
  · have hgo : (c = .loadSecond → Agree r s x.shared) ∧ ¬Stuck r s y := by
      by_cases hagree : Agree r s x.shared
      · exact ⟨fun _ => hagree, fun hs' => hs'.2 (hkeep.agree hagree)⟩
      · obtain ⟨hne, hseek⟩ := h.fast.not_seeks_move hc hm ht fun hs' => hstuck ⟨hs', hagree⟩
        refine ⟨fun hl => absurd hl hne, fun hs' => hseek ?_⟩
        rw [← hkeep.word]
        exact hs'.1
    refine .inl (Prod.Lex.toLex_lt_toLex.2 (.inr ⟨by rw [ht], ?_⟩))
    refine Prod.Lex.toLex_lt_toLex.2 (.inr ⟨hslack, ?_⟩)
    rw [if_neg hstuck, if_neg hgo.2, hkeep.word]
    exact WithTop.coe_lt_coe.2 (Own.move_rank hgo.1 hc hm)

/-- A step of the peer that the call does not see leaves the side to act and the measure. Otherwise
the peer has moved on, as it can only do as long as there is room. -/
theorem Calling.peer_step (h : Calling r s x) (hs : SideStep r s.peer x y) :
    callMeasure r s y < callMeasure r s x ∨ s.peer ≠ helper r s x ∧ helper r s y = helper r s x
      ∧ callMeasure r s y = callMeasure r s x := by
  have he : endpointOf y s = endpointOf x s := by
    have hsame := hs.2
    rwa [Side.peer_peer] at hsame
  obtain ⟨hboth, hkeep⟩ := hs.bothFirm h.both
  rw [Side.peer_peer] at hkeep
  obtain ⟨hdiffer, hsame⟩ := (h.both s.peer).step_words hs.1
  have hstay : ¬Stuck r s x → ¬Stuck r s y → slack r s y = slack r s x →
      (endpointOf x s).ring.rank (r.word y.shared.mem s.peer false)
        = (endpointOf x s).ring.rank (r.word x.shared.mem s.peer false) →
      s.peer ≠ helper r s x ∧ helper r s y = helper r s x
        ∧ callMeasure r s y = callMeasure r s x := by
    intro hx hy hslack hrank
    refine ⟨?_, ?_, ?_⟩
    · unfold helper
      rw [if_neg hx]
      exact s.peer_ne
    · unfold helper
      rw [if_neg hx, if_neg hy]
    · unfold callMeasure
      rw [if_neg hx, if_neg hy, he, hslack, hrank]
  by_cases hstage : stagesLeft (endpointOf x s).transfer ≤ 1
  · obtain ⟨hseek, hrank⟩ := h.fast.past_check hstage
    refine .inr (hstay (fun hs' => hseek _ hs'.1) (fun hs' => ?_) ?_ (hrank _ _))
    · unfold Stuck at hs'
      rw [he] at hs'
      exact hseek _ hs'.1
    · unfold slack
      rw [he, if_pos hstage, if_pos hstage]
  by_cases hadv : y.shared.advanced s.peer = x.shared.advanced s.peer
  · obtain ⟨hfirst, hagree⟩ := hsame hadv
    have hslack : slack r s y = slack r s x := by
      unfold slack
      rw [he, hadv, hkeep.advanced]
    by_cases hstuck : Stuck r s x
    · have hgo : ¬Stuck r s y := fun hs' => hs'.2 (hdiffer hstuck.2).1
      refine .inl (Prod.Lex.toLex_lt_toLex.2 (.inr ⟨by rw [he], ?_⟩))
      refine Prod.Lex.toLex_lt_toLex.2 (.inr ⟨hslack, ?_⟩)
      rw [if_neg hgo, if_pos hstuck]
      exact WithTop.coe_lt_top _
    · refine .inr (hstay hstuck (fun hs' => hstuck ⟨?_, fun ha => hs'.2 (hagree ha)⟩) hslack ?_)
      · rw [← hfirst, ← he]
        exact hs'.1
      · rw [hfirst]
  · have hle := hkeep.advanced_peer
    have hbound := ((hboth s.peer).ring.sound.advanced_le s.peer).trans
      ((hboth s.peer).ring.sound.moved_le s.peer)
    unfold limit at hbound
    rw [Side.peer_peer, hkeep.advanced] at hbound
    refine .inl (Prod.Lex.toLex_lt_toLex.2 (.inr ⟨by rw [he], ?_⟩))
    refine Prod.Lex.toLex_lt_toLex.2 (.inl ?_)
    unfold slack
    simp only [he, if_neg hstage, hkeep.advanced]
    omega

/-- Taking its turns the call returns, unless the peer is stopped while it looks at the words. -/
theorem Calling.returnsAtOnce {ρ : PeerRun r} (h : Calling r s (ρ.state 0)) (hoften : ρ.Often s)
    (hhang : ¬Hangs s ρ) : ReturnsAtOnce s ρ := by
  have hstep : ∀ {t x y}, Calling r s x → SideStep r t x y →
      (endpointOf y s).Succeeded ∨ Calling r s y ∧ (callMeasure r s y < callMeasure r s x
        ∨ t ≠ helper r s x ∧ helper r s y = helper r s x
          ∧ callMeasure r s y = callMeasure r s x) := by
    intro t x y hx hs
    rcases Side.eq_or_eq_peer s t with rfl | rfl
    · exact hx.own_step hs
    · exact (hx.step hs).imp id fun hy => ⟨hy, hx.peer_step hs⟩
  have hturn : ∀ i, (∀ k < i, Calling r s (ρ.state k)) → Calling r s (ρ.state i) →
      ∃ j ≥ i, ρ.turn j = helper r s (ρ.state i) := by
    intro i hlt hi
    by_cases hstuck : Stuck r s (ρ.state i)
    · unfold helper
      rw [if_pos hstuck]
      by_contra hno
      refine hhang ⟨i, fun k hk => ?_, hstuck.1, hstuck.2, fun j hj => ?_⟩
      · have hk' : Calling r s (ρ.state k) := by
          rcases Nat.lt_or_eq_of_le hk with hk | rfl
          · exact hlt k hk
          · exact hi
        obtain ⟨t, asked, ht, -⟩ := hk'.fast.direct
        simp [ht]
      · exact (Side.eq_or_eq_peer s _).resolve_right fun he => hno ⟨j, hj, he⟩
    · unfold helper
      rw [if_neg hstuck]
      exact hoften i
  obtain ⟨k, hk, hlt⟩ := ρ.reaches hstep hturn h
  exact ⟨k, hk, fun i hi => (hlt i hi).fast.direct⟩

theorem Hangs.not_returnsAtOnce {ρ : PeerRun r} (h : BothFirm r (ρ.state 0)) (hhang : Hangs s ρ) :
    ¬ReturnsAtOnce s ρ := by
  obtain ⟨i, hcall, hseek, hdiffer, halone⟩ := hhang
  have hfirm : ∀ j, BothFirm r (ρ.state j) := ρ.always (fun hx hs => (hs.bothFirm hx).1) h
  have hstuck : ∀ j ≥ i, Stuck r s (ρ.state j) := by
    intro j hj
    induction j, hj using Nat.le_induction with
    | base => exact ⟨hseek, hdiffer⟩
    | succ j hj ih =>
      have hs := ρ.next j
      rw [halone j hj] at hs
      exact (hfirm j s).toEndpointOwn.seeks_step ih.2 ih.1 hs.1
  rintro ⟨k, hk, -⟩
  rcases Nat.le_total k i with hki | hik
  · exact hcall k hki hk.1
  · have hs := (hstuck k hik).1
    simp [Endpoint.Seeks, hk.1] at hs

/-- In every reachable state the count a side last got never decreases until its own next transfer,
and an entity's call for no more than it never waits and never returns false. In a run where the
side takes its turns the call returns true if and only if the peer does not stop for good between
the two stores of its cursor while the call's check is looking at them. -/
theorem check_stands (r : Ring) (m : Segment) {x : PeerState} (h : PeerReach r (peerStart r m) x)
    (s : Side) : CheckStands r s x fun ρ => ¬Hangs s ρ := by
  have hfirm := bothFirm_reach h
  refine ⟨fun y hy => hy.last_le hfirm, fun data hidle hle y hy => ?_,
    fun data hidle hle ρ hρ hoften => ⟨fun hret hhang => ?_, fun hhang => ?_⟩⟩
  · rcases (hfirm.begin hidle hle).during hy with hd | hc
    · exact .inr hd
    · exact .inl hc.fast.direct
  · refine hhang.not_returnsAtOnce ?_ hret
    rw [hρ]
    exact (hfirm.begin hidle hle).both
  · refine Calling.returnsAtOnce ?_ hoften hhang
    rw [hρ]
    exact hfirm.begin hidle hle

end Runs

section Example

variable {x : PeerState}

theorem EndpointOwn.exists_step (h : EndpointOwn r s σ e) :
    ∃ q, EndpointStep r.buffer s (e, σ) q := by
  rcases ht : e.transfer with _ | w
  · rcases hc : e.ring.call with _ | c
    · exact ⟨_, .direct ht (.start (.count hc))⟩
    · obtain ⟨⟨p, σ'⟩, hm⟩ := Option.isSome_iff_exists.1 (h.ring.move_isSome hc)
      exact ⟨_, .direct ht (.move hc hm)⟩
  · obtain ⟨e', σ', hs, -⟩ := h.step ht true
    exact ⟨_, .step true hs⟩

/-- One side's turns alone can go on for ever. -/
theorem BothFirm.exists_alone (h : BothFirm r x) (s : Side) :
    ∃ ρ : PeerRun r, ρ.state 0 = x ∧ ∀ i, ρ.turn i = s := by
  refine Run.exists_alone (P := BothFirm r) (fun x hx => ?_) h
  obtain ⟨⟨e', σ'⟩, hs⟩ := (hx s).toEndpointOwn.exists_step
  have hy : ∃ y, SideStep r s x y := by
    cases s with
    | producer => exact ⟨⟨e', x.right, σ'⟩, hs, rfl⟩
    | consumer => exact ⟨⟨x.left, e', σ'⟩, hs, rfl⟩
  obtain ⟨y, hy⟩ := hy
  exact ⟨y, hy, (hy.bothFirm hx).1⟩

/-- The producer has counted. -/
def countedSchedule : List (Choice ⊕ Choice) := .inl .count :: List.replicate 4 (.inl .move)

theorem counted_run : ((ringStart smallRing fun _ => 0).run smallRing countedSchedule).map
    (fun y => decide (y.left.call = none ∧ y.left.last = 7
      ∧ smallRing.word y.shared.mem .consumer true
        = smallRing.word y.shared.mem .consumer false)) = some true := by
  decide +kernel

theorem check_stands_small : ∃ x, PeerReach smallRing (peerStart smallRing fun _ => 0) x
    ∧ ∃ ρ : PeerRun smallRing, ρ.state 0 = x.begin .producer [7, 9]
      ∧ ReturnsAtOnce .producer ρ := by
  obtain ⟨y, hy, hd⟩ := Option.map_eq_some_iff.1 counted_run
  obtain ⟨hcall, hlast, hw⟩ := of_decide_eq_true hd
  have hreach := (RingState.run_reach hy).ends
  have hidle : (endpointOf ⟨{ ring := y.left }, { ring := y.right }, y.shared⟩ .producer).Idle :=
    ⟨rfl, hcall⟩
  have hle : ([7, 9] : List U8).length ≤ y.left.last.toNat := by
    rw [hlast]
    decide
  have hfirm := ((bothFirm_reach hreach).begin hidle hle).both
  obtain ⟨ρ, hρ, hturn⟩ := hfirm.exists_alone .producer
  refine ⟨_, hreach, ρ, hρ, ((check_stands smallRing (fun _ => 0) hreach .producer).returns [7, 9]
    hidle hle ρ hρ fun i => ⟨i, le_rfl, hturn i⟩).2 ?_⟩
  rintro ⟨i, -, -, hd, -⟩
  have hagree : ∀ i, BothFirm smallRing (ρ.state i)
      ∧ Agree smallRing .producer (ρ.state i).shared := by
    intro i
    induction i with
    | zero =>
      rw [hρ]
      exact ⟨hfirm, hw⟩
    | succ i ih =>
      have hs := ρ.next i
      rw [hturn] at hs
      obtain ⟨hfirm', hkeep⟩ := hs.bothFirm ih.1
      exact ⟨hfirm', hkeep.agree ih.2⟩
  exact hd (hagree i).2

/-- One byte is in the ring and counted, and the write of another is stopped between the two stores
of the cursor. -/
def stoppedAfterSchedule : List (Choice ⊕ Choice) :=
  .inl .count :: List.replicate 4 (.inl .move) ++ .inl (.write [7])
    :: List.replicate 6 (.inl .move) ++ .inr .count :: List.replicate 4 (.inr .move)
    ++ .inl .count :: List.replicate 4 (.inl .move) ++ .inl (.write [9])
    :: List.replicate 5 (.inl .move)

theorem stoppedAfter_run :
    ((ringStart smallRing fun _ => 0).run smallRing stoppedAfterSchedule).map
      (fun y => decide (y.right.call = none ∧ y.right.last = 1
        ∧ smallRing.word y.shared.mem .producer true
          ≠ smallRing.word y.shared.mem .producer false)) = some true := by
  decide +kernel

theorem check_not_stands : ¬∀ x, PeerReach smallRing (peerStart smallRing fun _ => 0) x →
    ∀ s, CheckStands smallRing s x fun _ => True := by
  intro hall
  obtain ⟨y, hy, hd⟩ := Option.map_eq_some_iff.1 stoppedAfter_run
  obtain ⟨hcall, hlast, hw⟩ := of_decide_eq_true hd
  have hreach := (RingState.run_reach hy).ends
  have hidle : (endpointOf ⟨{ ring := y.left }, { ring := y.right }, y.shared⟩ .consumer).Idle :=
    ⟨rfl, hcall⟩
  have hle : ([0] : List U8).length ≤ y.right.last.toNat := by
    rw [hlast]
    decide
  have hfirm := ((bothFirm_reach hreach).begin hidle hle).both
  obtain ⟨ρ, hρ, hturn⟩ := hfirm.exists_alone .consumer
  have hret := ((hall _ hreach .consumer).returns [0] hidle hle ρ hρ
    fun i => ⟨i, le_rfl, hturn i⟩).2 trivial
  refine Hangs.not_returnsAtOnce (s := .consumer) (by rw [hρ]; exact hfirm)
    ⟨0, fun k hk => ?_, ?_, ?_, fun j _ => hturn j⟩ hret
  · rw [Nat.le_zero.1 hk, hρ]
    exact Option.some_ne_none _
  · rw [hρ]
    trivial
  · rw [hρ]
    exact hw

end Example

end MemMapIPC
