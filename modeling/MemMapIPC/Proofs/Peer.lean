import Mathlib.Data.Prod.Lex
import MemMapIPC.Peer
import MemMapIPC.Proofs.Fifo

/-!
# A stopped peer

A side whose peer takes no step comes to the end of every call so long as the peer's two cursor
words agree: each access of a ring call brings its end nearer (`Own.move_rank`), and each step of an
entity's call lowers, in this order, the bytes left, the way to the next chunk once some can move,
and the tests the timer still passes. Where the peer stopped between its two stores the words
differ, and the count's loop is never left.
-/

namespace MemMapIPC

open Interleaving Halting Relation

section Rank

/-- What is still to do once the first half of a wrapping transfer is done. -/
def Call.rest (later : U64) : ℕ := if later = 0 then 0 else later.toNat + 10

/-- A bound on the accesses left in a call, the peer's first word being `first`. -/
def Call.rank (first : U64) : Call → ℕ
  | loadSecond => 4
  | loadFirst v => if v = first then 3 else 5
  | compare _ => 2
  | subtract _ _ => 1
  | span n => n.toNat + 15
  | address now later => now.toNat + 4 + rest later
  | copy _ i now later => now.toNat - i + 3 + rest later
  | publish _ later => 2 + rest later
  | publishSecond _ later => 1 + rest later

def Party.rank (first : U64) (p : Party) : ℕ := p.call.elim 0 (Call.rank first)

variable {r : Ring} {s : Side} {σ σ' : Shared} {p p' : Party}

theorem Own.move_rank {c : Call}
    (hw : c = .loadSecond → r.word σ.mem s.peer true = r.word σ.mem s.peer false)
    (hc : p.call = some c) (hm : p.move r.buffer s c σ = some (p', σ')) :
    p'.rank (r.word σ.mem s.peer false) < p.rank (r.word σ.mem s.peer false) := by
  simp only [Party.rank, hc, Option.elim_some]
  cases c with
  | loadSecond =>
    simp only [Party.move_loadSecond, Ring.loadWord_pointer, hw rfl, Option.some.injEq,
      Prod.mk.injEq] at hm
    obtain ⟨rfl, rfl⟩ := hm
    simp [Call.rank]
  | loadFirst v =>
    simp only [Party.move_loadFirst, Ring.loadWord_pointer, Option.some.injEq,
      Prod.mk.injEq] at hm
    obtain ⟨rfl, rfl⟩ := hm
    by_cases hv : v = r.word σ.mem s.peer false <;> simp [Call.rank, hv]
  | compare v =>
    simp only [Party.move_compare, Option.some.injEq, Prod.mk.injEq] at hm
    obtain ⟨rfl, rfl⟩ := hm
    simp [Call.rank]
  | subtract v isAhead =>
    simp only [Party.move_subtract, Option.some.injEq, Prod.mk.injEq] at hm
    obtain ⟨rfl, rfl⟩ := hm
    simp [Call.rank]
  | span n =>
    rw [Party.move_span, Ring.loadWord_pointer] at hm
    simp only [Option.some.injEq, Prod.mk.injEq] at hm
    obtain ⟨rfl, rfl⟩ := hm
    by_cases hge : r.buffer.numberOfBytesBeforeWraparound s (r.word σ.mem s false) ≥ n
    · rw [if_pos hge]
      simp only [Option.elim_some, Call.rank, Call.rest, if_true]
      omega
    · have hlt := hge
      rw [ge_iff_le, BitVec.le_def] at hlt
      have hsub := BitVec.toNat_sub_of_le (x := n)
        (y := r.buffer.numberOfBytesBeforeWraparound s (r.word σ.mem s false))
        (by rw [BitVec.le_def]; omega)
      rw [if_neg hge]
      simp only [Option.elim_some, Call.rank, Call.rest, hsub]
      split_ifs <;> omega
  | address now later =>
    simp only [Party.move_address, Option.some.injEq, Prod.mk.injEq] at hm
    obtain ⟨rfl, rfl⟩ := hm
    simp only [Option.elim_some, Call.rank]
    omega
  | copy cell i now later =>
    by_cases hi : i < now.toNat
    · cases s with
      | consumer =>
        simp only [Party.move, Call.access, Call.byteAccess, Call.next, hi, if_true, Party.resume,
          Option.map_some, Option.some.injEq, Prod.mk.injEq] at hm
        obtain ⟨rfl, rfl⟩ := hm
        simp only [Option.elim_some, Call.rank]
        omega
      | producer =>
        rcases hb : p.source with _ | ⟨b, rest⟩
        · simp [Party.move, Call.access, Call.byteAccess, hi, hb] at hm
        · simp only [Party.move, Call.access, Call.byteAccess, Call.next, hi, if_true, hb,
            Party.resume, Option.map_some, Option.some.injEq, Prod.mk.injEq] at hm
          obtain ⟨rfl, rfl⟩ := hm
          simp only [Option.elim_some, Call.rank]
          omega
    · rcases hv : r.buffer.wrap (r.word σ.mem s false + now) with _ | v
      · simp [Party.move, Call.access, Call.next, hi, Ring.loadWord_pointer, hv, Party.resume] at hm
      · simp only [Party.move, Call.access, Call.next, hi, if_false, Ring.loadWord_pointer, hv,
          Party.resume, Option.map_some, Option.some.injEq, Prod.mk.injEq] at hm
        obtain ⟨rfl, rfl⟩ := hm
        simp only [Option.elim_some, Call.rank]
        omega
  | publish v later =>
    simp only [Party.move_publish, Option.some.injEq, Prod.mk.injEq] at hm
    obtain ⟨rfl, rfl⟩ := hm
    simp only [Option.elim_some, Call.rank]
    omega
  | publishSecond v later =>
    simp only [Party.move_publishSecond, Option.some.injEq, Prod.mk.injEq] at hm
    obtain ⟨rfl, rfl⟩ := hm
    by_cases hl : later = 0
    · simp [Call.rank, hl]
    · simp only [hl, if_false, Option.elim_some, Call.rank, Call.rest, if_true]
      omega

end Rank

section Own

/-- What an entity knows where it is in a call for `n` bytes, `last` being the ring's last count. -/
def TransferAt (n last : U64) (asked : Bool) : Transfer → Prop
  | .updateTimestamp | .timeoutTimer => asked = false
  | .check => True
  | .whole => asked = false → n ≤ last
  | .elapsed moved => asked = false ∧ moved ≤ n
  | .poll moved => moved < n
  | .restart moved count => asked = false ∧ moved < n ∧ 0 < count ∧ count ≤ last
  | .chunk moved count => moved < n ∧ 0 < count ∧ (asked = false → count ≤ last)

structure EndpointOwn (r : Ring) (s : Side) (σ : Shared) (e : Endpoint) : Prop where
  ring : Own r s σ e.ring
  length_lt : e.data.length < 2 ^ 64
  idle : ∀ t, e.transfer = some (t, false) → e.ring.call = none
  at_transfer : ∀ t asked, e.transfer = some (t, asked) →
    TransferAt e.numberOfBytes e.ring.last asked t

variable {r : Ring} {s : Side} {σ σ' : Shared} {e e' : Endpoint} {t : Transfer}

theorem endpointOwn_stable : Stable (fun e σ => EndpointOwn r s σ e) (Keeps r s) :=
  fun _ _ _ h k => ⟨own_stable _ _ _ h.ring k, h.length_lt, h.idle, h.at_transfer⟩

theorem EndpointOwn.goto (h : EndpointOwn r s σ e) (hc : e.ring.call = none) {t : Transfer}
    (hat : TransferAt e.numberOfBytes e.ring.last false t) :
    EndpointOwn r s σ { e with transfer := some (t, false) } := by
  refine ⟨h.ring, h.length_lt, fun _ _ => hc, fun t' asked ht => ?_⟩
  simp only [Option.some.injEq, Prod.mk.injEq] at ht
  obtain ⟨rfl, rfl⟩ := ht
  exact hat

theorem EndpointOwn.ask (h : EndpointOwn r s σ e) {p : Party} {data : List U8}
    (hp : e.ring.Starts s p data) {t : Transfer}
    (hat : TransferAt e.numberOfBytes p.last true t) :
    EndpointOwn r s { σ with sent := σ.sent ++ data }
        { e with transfer := some (t, true), ring := p }
      ∧ Keeps r s.peer σ { σ with sent := σ.sent ++ data } := by
  have hown := h.ring.start hp
  refine ⟨⟨hown.1, h.length_lt, fun t' ht => ?_, fun t' asked ht => ?_⟩, hown.2⟩
  · simp at ht
  · simp only [Option.some.injEq, Prod.mk.injEq] at ht
    obtain ⟨rfl, rfl⟩ := ht
    exact hat

theorem EndpointOwn.finish (h : EndpointOwn r s σ e) (success : Bool) :
    EndpointOwn r s σ (e.resume (.returned success)) :=
  ⟨h.ring, h.length_lt, (fun _ ht => nomatch ht), (fun _ _ ht => nomatch ht)⟩

theorem EndpointOwn.move (h : EndpointOwn r s σ e) {c : Call} (hc : e.ring.call = some c)
    {p : Party} (hm : e.ring.move r.buffer s c σ = some (p, σ')) :
    EndpointOwn r s σ' { e with ring := p } ∧ Keeps r s.peer σ σ' := by
  obtain ⟨hown, hkeep⟩ := h.ring.move hc hm
  refine ⟨⟨hown, h.length_lt, fun t ht => ?_, fun t asked ht => ?_⟩, hkeep⟩
  · have := h.idle t ht
    rw [hc] at this
    cases this
  · have hat := h.at_transfer t asked ht
    cases asked with
    | false =>
      have := h.idle t ht
      rw [hc] at this
      cases this
    | true =>
      cases t with
      | whole => exact fun hf => nomatch hf
      | chunk moved count => exact ⟨hat.1, hat.2.1, fun hf => nomatch hf⟩
      | restart moved count => exact nomatch hat.1
      | elapsed moved => exact nomatch hat.1
      | updateTimestamp => exact nomatch hat
      | timeoutTimer => exact nomatch hat
      | check => trivial
      | poll moved => exact hat

/-- Where an entity's call goes from a point of it, the ring idle. -/
inductive Onward (n : U64) (below : Bool) :
    Transfer × Bool → Option (Transfer × Bool) → Prop
  | updateTimestamp : Onward n below (.updateTimestamp, false) (some (.check, false))
  | askCheck : Onward n below (.check, false) (some (.check, true))
  | wait : Onward n below (.check, true) (some (.timeoutTimer, false))
  | atOnce : Onward n below (.check, true) (some (.whole, false))
  | askWhole : Onward n below (.whole, false) (some (.whole, true))
  | whole : Onward n below (.whole, true) none
  | timeoutTimer : Onward n below (.timeoutTimer, false) (some (.elapsed 0, false))
  | poll {moved : U64} : below = true →
    Onward n below (.elapsed moved, false) (some (.poll moved, false))
  | returned {moved : U64} : Onward n below (.elapsed moved, false) none
  | askPoll {moved : U64} : Onward n below (.poll moved, false) (some (.poll moved, true))
  | idle {moved : U64} : Onward n below (.poll moved, true) (some (.elapsed moved, false))
  | restart {moved count : U64} :
    Onward n below (.poll moved, true) (some (.restart moved count, false))
  | chunk {moved count : U64} :
    Onward n below (.restart moved count, false) (some (.chunk moved count, false))
  | askChunk {moved count : U64} :
    Onward n below (.chunk moved count, false) (some (.chunk moved count, true))
  | moved {moved moved' count : U64} : moved < moved' → moved' ≤ n →
    Onward n below (.chunk moved count, true) (some (.elapsed moved', false))

/-- What a step of an entity's call from the point `w` does: an access of the ring call it waits
for, or a step onward. -/
def Endpoint.Goes (r : Ring) (s : Side) (below : Bool) (e : Endpoint) (σ : Shared)
    (w : Transfer × Bool) (e' : Endpoint) (σ' : Shared) : Prop :=
  (∃ c p, e.ring.call = some c ∧ e.ring.move r.buffer s c σ = some (p, σ')
      ∧ e' = { e with ring := p })
    ∨ e.ring.call = none ∧ e'.data = e.data ∧ Onward e.numberOfBytes below w e'.transfer

theorem Endpoint.data_resume {q : Progress} : (e.resume q).data = e.data := by
  cases q <;> rfl

theorem EndpointOwn.starts (h : EndpointOwn r s σ e) (ht : e.transfer = some (t, false))
    {offset amount : U64} (ha : t.ask e.numberOfBytes = .transfer offset amount) :
    ∃ data, e.ring.Starts s (e.begun offset.toNat amount.toNat σ s).1 data
      ∧ (e.begun offset.toNat amount.toNat σ s).2 = { σ with sent := σ.sent ++ data } := by
  have hc := h.idle t ht
  have hat := h.at_transfer t false ht
  have hle : amount ≤ e.ring.last := by
    cases t with
    | whole =>
      cases ha
      exact hat rfl
    | chunk moved count =>
      cases ha
      refine BitVec.le_trans ?_ (hat.2.2 rfl)
      unfold Transfer.amount
      split_ifs with hgt
      · exact BitVec.le_of_lt hgt
      · exact BitVec.le_refl _
    | _ => cases ha
  cases s with
  | producer =>
    have hlen : ((e.data.drop offset.toNat).take amount.toNat).length ≤ e.ring.last.toNat := by
      rw [BitVec.le_def] at hle
      rw [List.length_take]
      omega
    exact ⟨_, .write hc hlen, rfl⟩
  | consumer =>
    have hn : BitVec.ofNat 64 amount.toNat = amount := by
      rw [BitVec.ofNat_toNat, BitVec.setWidth_eq]
    refine ⟨[], ?_, by simp [Endpoint.begun]⟩
    simp only [Endpoint.begun, hn]
    exact .read hc hle

theorem EndpointOwn.step (h : EndpointOwn r s σ e) {w : Transfer × Bool}
    (ht : e.transfer = some w) (below : Bool) :
    ∃ e' σ', e.step r.buffer s below σ = some (e', σ') ∧ EndpointOwn r s σ' e'
      ∧ Keeps r s.peer σ σ' ∧ e.Goes r s below σ w e' σ' := by
  obtain ⟨t, asked⟩ := w
  rcases hc : e.ring.call with _ | c
  swap
  · obtain ⟨⟨p, σ'⟩, hm⟩ := Option.isSome_iff_exists.1 (h.ring.move_isSome hc)
    obtain ⟨hown, hkeep⟩ := h.move hc hm
    exact ⟨_, σ', by simp [Endpoint.step, ht, hc, hm], hown, hkeep, .inl ⟨c, p, hc, hm, rfl⟩⟩
  have hat := h.at_transfer t asked ht
  have hkeep := h.ring.sound.keeps_refl (s := s.peer)
  cases asked with
  | true =>
    have hstep : e.step r.buffer s below σ
        = some (e.resume (t.next e.numberOfBytes e.ring.last below), σ) := by
      simp only [Endpoint.step, ht, hc]
    refine ⟨_, σ, hstep, ?_, hkeep, .inr ⟨hc, ?_, ?_⟩⟩
    · cases t with
      | check =>
        refine h.goto hc ?_
        split_ifs with hlt
        · rfl
        · exact fun _ => BitVec.not_lt.1 hlt
      | whole => exact h.finish true
      | poll moved =>
        refine h.goto hc ?_
        split_ifs with hpos
        · exact ⟨rfl, hat, hpos, BitVec.le_refl _⟩
        · exact ⟨rfl, BitVec.le_of_lt hat⟩
      | chunk moved count => exact h.goto hc ⟨rfl, (moved_chunk hat.1 hat.2.1).2⟩
      | updateTimestamp => exact nomatch hat
      | timeoutTimer => exact nomatch hat
      | elapsed moved => exact nomatch hat.1
      | restart moved count => exact nomatch hat.1
    · exact Endpoint.data_resume
    · cases t with
      | check =>
        simp only [Endpoint.resume, Transfer.next]
        split_ifs
        · exact .wait
        · exact .atOnce
      | whole => exact .whole
      | poll moved =>
        simp only [Endpoint.resume, Transfer.next]
        split_ifs
        · exact .restart
        · exact .idle
      | chunk moved count =>
        have hm := moved_chunk hat.1 hat.2.1
        exact .moved hm.1 hm.2
      | updateTimestamp => exact nomatch hat
      | timeoutTimer => exact nomatch hat
      | elapsed moved => exact nomatch hat.1
      | restart moved count => exact nomatch hat.1
  | false =>
    cases t with
    | updateTimestamp =>
      exact ⟨_, σ, by simp only [Endpoint.step, ht, hc]; rfl,
        h.goto (t := .check) hc trivial, hkeep, .inr ⟨hc, rfl, .updateTimestamp⟩⟩
    | check =>
      have ha := h.ask (.count hc) (t := .check) trivial
      simp only [List.append_nil] at ha
      exact ⟨_, _, by simp only [Endpoint.step, ht, hc]; rfl, ha.1, ha.2, .inr ⟨hc, rfl, .askCheck⟩⟩
    | whole =>
      obtain ⟨data, hp, hσ⟩ := h.starts ht rfl
      have ha := h.ask hp (t := .whole) fun hf => nomatch hf
      rw [← hσ] at ha
      exact ⟨_, _, by simp only [Endpoint.step, ht, hc]; rfl, ha.1, ha.2, .inr ⟨hc, rfl, .askWhole⟩⟩
    | timeoutTimer =>
      exact ⟨_, σ, by simp only [Endpoint.step, ht, hc]; rfl,
        h.goto (t := .elapsed 0) hc ⟨rfl, BitVec.le_def.2 (Nat.zero_le _)⟩, hkeep,
        .inr ⟨hc, rfl, .timeoutTimer⟩⟩
    | elapsed moved =>
      have hstep : e.step r.buffer s below σ
          = some (e.resume ((Transfer.elapsed moved).next e.numberOfBytes 0 below), σ) := by
        simp only [Endpoint.step, ht, hc]
        rfl
      refine ⟨_, σ, hstep, ?_⟩
      by_cases hcond : below ∧ moved ≠ e.numberOfBytes
      · simp only [Transfer.next, if_pos hcond]
        exact ⟨h.goto hc (BitVec.lt_of_le_ne hat.2 hcond.2), hkeep, .inr ⟨hc, rfl, .poll hcond.1⟩⟩
      · simp only [Transfer.next, if_neg hcond]
        exact ⟨h.finish _, hkeep, .inr ⟨hc, Endpoint.data_resume, .returned⟩⟩
    | poll moved =>
      have ha := h.ask (.count hc) (t := .poll moved) hat
      simp only [List.append_nil] at ha
      exact ⟨_, _, by simp only [Endpoint.step, ht, hc]; rfl, ha.1, ha.2, .inr ⟨hc, rfl, .askPoll⟩⟩
    | restart moved count =>
      exact ⟨_, σ, by simp only [Endpoint.step, ht, hc]; rfl,
        h.goto (t := .chunk moved count) hc ⟨hat.2.1, hat.2.2.1, fun _ => hat.2.2.2⟩, hkeep,
        .inr ⟨hc, rfl, .chunk⟩⟩
    | chunk moved count =>
      obtain ⟨data, hp, hσ⟩ := h.starts ht rfl
      have ha := h.ask hp (t := .chunk moved count) ⟨hat.1, hat.2.1, fun hf => nomatch hf⟩
      rw [← hσ] at ha
      exact ⟨_, _, by simp only [Endpoint.step, ht, hc]; rfl, ha.1, ha.2, .inr ⟨hc, rfl, .askChunk⟩⟩

theorem endpointStep_guarantees (r : Ring) (s : Side) :
    Guarantees (EndpointStep r.buffer s) (fun e σ => EndpointOwn r s σ e) (Keeps r s.peer) := by
  rintro e σ e' σ' h hstep
  cases hstep with
  | direct ht hs =>
    obtain ⟨hown, hkeep⟩ := ringStep_guarantees r s _ _ _ _ h.ring hs
    refine ⟨⟨hown, h.length_lt, fun t ht' => ?_, fun t asked ht' => ?_⟩, hkeep⟩
    · rw [show e.transfer = none from ht] at ht'
      cases ht'
    · rw [show e.transfer = none from ht] at ht'
      cases ht'
  | begin hidle hlt =>
    refine ⟨⟨h.ring, hlt, fun t _ => hidle.2, fun t asked ht => ?_⟩, h.ring.sound.keeps_refl⟩
    cases ht
    rfl
  | step below hs =>
    rcases ht : e.transfer with _ | w
    · simp [Endpoint.step, ht] at hs
    · obtain ⟨e'', σ'', hs', hown, hkeep, -⟩ := h.step ht below
      obtain ⟨rfl, rfl⟩ := Prod.mk.inj (Option.some_inj.1 (hs'.symm.trans hs))
      exact ⟨hown, hkeep⟩

end Own

section Alone

variable {r : Ring} {s : Side} {σ σ' : Shared} {e e' : Endpoint}

/-- How far an entity's call for `n` bytes is from its end: the bytes left, whether it has still to
find some it can move, the tests its timer passes until then, and the steps to the next of these. -/
def weight (n : ℕ) (tests : ℕ) : Option (Transfer × Bool) → ℕ ×ₗ ℕ ×ₗ ℕ ×ₗ ℕ
  | none => toLex (0, toLex (0, toLex (0, 0)))
  | some (.updateTimestamp, _) => toLex (n + 2, toLex (0, toLex (0, 6)))
  | some (.check, false) => toLex (n + 2, toLex (0, toLex (0, 5)))
  | some (.check, true) => toLex (n + 2, toLex (0, toLex (0, 4)))
  | some (.timeoutTimer, _) => toLex (n + 2, toLex (0, toLex (0, 3)))
  | some (.whole, false) => toLex (n + 2, toLex (0, toLex (0, 3)))
  | some (.whole, true) => toLex (n + 2, toLex (0, toLex (0, 2)))
  | some (.elapsed moved, _) => toLex (n - moved.toNat + 1, toLex (1, toLex (tests, 0)))
  | some (.poll moved, false) => toLex (n - moved.toNat + 1, toLex (1, toLex (tests, 2)))
  | some (.poll moved, true) => toLex (n - moved.toNat + 1, toLex (1, toLex (tests, 1)))
  | some (.restart moved _, _) => toLex (n - moved.toNat + 1, toLex (0, toLex (0, 3)))
  | some (.chunk moved _, false) => toLex (n - moved.toNat + 1, toLex (0, toLex (0, 2)))
  | some (.chunk moved _, true) => toLex (n - moved.toNat + 1, toLex (0, toLex (0, 1)))

/-- A step onward lowers it, if it has fewer tests to pass after one it passed. -/
theorem Onward.weight_lt {n : U64} {below : Bool} {w : Transfer × Bool}
    {w' : Option (Transfer × Bool)} (h : Onward n below w w') {tests tests' : ℕ}
    (hle : ∀ moved, w.1 = .poll moved → tests' = tests)
    (hlt : ∀ moved, w.1 = .elapsed moved → below = true → tests' < tests) :
    weight n.toNat tests' w' < weight n.toNat tests (some w) := by
  cases h with
  | @moved moved moved' count h1 h2 =>
    rw [BitVec.lt_def] at h1
    rw [BitVec.le_def] at h2
    refine Prod.Lex.toLex_lt_toLex.2 (.inl ?_)
    simp only
    omega
  | @poll moved hb =>
    have := hlt moved rfl hb
    simp [weight, Prod.Lex.toLex_lt_toLex, this]
  | @askPoll moved =>
    obtain rfl := hle moved rfl
    simp [weight, Prod.Lex.toLex_lt_toLex]
  | @idle moved =>
    obtain rfl := hle moved rfl
    simp [weight, Prod.Lex.toLex_lt_toLex]
  | timeoutTimer =>
    refine Prod.Lex.toLex_lt_toLex.2 (.inl ?_)
    simp only
    omega
  | _ => simp [weight, Prod.Lex.toLex_lt_toLex]

def Agree (r : Ring) (s : Side) (σ : Shared) : Prop :=
  r.word σ.mem s.peer true = r.word σ.mem s.peer false

theorem Keeps.agree (h : Keeps r s.peer σ σ') (ha : Agree r s σ) : Agree r s σ' := by
  unfold Agree
  rw [h.word, h.word]
  exact ha

/-- An end going on alone, with the tests of its timer so far all passed. -/
structure Going (r : Ring) (s : Side) (oracle : ℕ → ℕ → Bool) (a : Alone) : Prop where
  own : EndpointOwn r s a.shared a.endpoint
  agree : Agree r s a.shared
  passed : a.endpoint.transfer ≠ none → ∀ j < a.tests, oracle a.restarts j = true

section Measure

variable {oracle : ℕ → ℕ → Bool} (limit : ∀ i, ∃ j, oracle i j = false)

def testsLeft (i j : ℕ) : ℕ := Nat.find (limit i) - j

def Alone.measure (r : Ring) (s : Side) (a : Alone) : (ℕ ×ₗ ℕ ×ₗ ℕ ×ₗ ℕ) ×ₗ ℕ :=
  toLex (weight a.endpoint.numberOfBytes.toNat (testsLeft limit a.restarts a.tests)
    a.endpoint.transfer, a.endpoint.ring.rank (r.word a.shared.mem s.peer false))

variable {limit}

theorem testsLeft_lt {i j : ℕ} (h : ∀ k < j, oracle i k = true) (hj : oracle i j = true) :
    testsLeft limit i (j + 1) < testsLeft limit i j := by
  have hlt : j < Nat.find (limit i) := by
    by_contra hle
    have hspec := Nat.find_spec (limit i)
    rcases Nat.lt_or_ge (Nat.find (limit i)) j with hk | hk
    · rw [h _ hk] at hspec
      cases hspec
    · rw [show Nat.find (limit i) = j by omega, hj] at hspec
      cases hspec
  unfold testsLeft
  omega

/-- A step of the end alone, if it is in a call, brings it nearer to the end of the call. -/
theorem Going.step {a : Alone} (h : Going r s oracle a) (hidle : ¬a.endpoint.Idle) :
    ∃ b, Alone.step r.buffer s oracle a = some b ∧ Going r s oracle b
      ∧ Alone.measure limit r s b < Alone.measure limit r s a := by
  obtain ⟨e, σ, i, j⟩ := a
  have hown := h.own
  have hagree := h.agree
  have hpassed := h.passed
  simp only at hown hagree hpassed
  rcases ht : e.transfer with _ | ⟨t, asked⟩
  · rcases hc : e.ring.call with _ | c
    · exact absurd ⟨ht, hc⟩ hidle
    obtain ⟨⟨p, σ'⟩, hm⟩ := Option.isSome_iff_exists.1 (hown.ring.move_isSome hc)
    obtain ⟨hown', hkeep⟩ := hown.move hc hm
    refine ⟨⟨{ e with ring := p }, σ', i, j⟩, by simp [Alone.step, ht, hc, hm],
      ⟨hown', hkeep.agree hagree, fun hn => absurd ht hn⟩, ?_⟩
    refine Prod.Lex.toLex_lt_toLex.2 (.inr ⟨by simp only [ht, weight], ?_⟩)
    simp only [hkeep.word]
    exact Own.move_rank (fun _ => hagree) hc hm
  · obtain ⟨e', σ', hs, hown', hkeep, hgoes⟩ := hown.step ht (oracle i j)
    rcases hgoes with ⟨c, p, hc, hm, rfl⟩ | ⟨hc, hdata, hon⟩
    · refine ⟨⟨{ e with ring := p }, σ', i, j⟩, ?_,
        ⟨hown', hkeep.agree hagree, fun _ => hpassed (by simp [ht])⟩, ?_⟩
      · simp only [Alone.step, ht, hs, hc, Option.map_some]
      · refine Prod.Lex.toLex_lt_toLex.2 (.inr ⟨rfl, ?_⟩)
        simp only [hkeep.word]
        exact Own.move_rank (fun _ => hagree) hc hm
    · have hn : e'.numberOfBytes = e.numberOfBytes := by
        rw [Endpoint.numberOfBytes, hdata, Endpoint.numberOfBytes]
      have key : ∀ i' j', Alone.step r.buffer s oracle ⟨e, σ, i, j⟩ = some ⟨e', σ', i', j'⟩ →
          (e'.transfer ≠ none → ∀ k < j', oracle i' k = true) →
          (∀ moved, t = .poll moved → testsLeft limit i' j' = testsLeft limit i j) →
          (∀ moved, t = .elapsed moved → oracle i j = true →
            testsLeft limit i' j' < testsLeft limit i j) →
          ∃ b, Alone.step r.buffer s oracle ⟨e, σ, i, j⟩ = some b ∧ Going r s oracle b
            ∧ Alone.measure limit r s b < Alone.measure limit r s ⟨e, σ, i, j⟩ := by
        intro i' j' hstep hpass hle hlt
        refine ⟨_, hstep, ⟨hown', hkeep.agree hagree, hpass⟩, ?_⟩
        refine Prod.Lex.toLex_lt_toLex.2 (.inl ?_)
        simp only [hn, ht]
        exact hon.weight_lt hle hlt
      have hpassed' : e'.transfer ≠ none → ∀ k < j, oracle i k = true :=
        fun _ => hpassed (by simp [ht])
      cases t with
      | elapsed moved =>
        cases asked with
        | true => cases hon
        | false =>
          refine key i (j + 1) (by simp [Alone.step, ht, hs, hc, Transfer.ask]) (fun hne k hk => ?_)
            (fun _ he => nomatch he) fun _ _ hb => testsLeft_lt (hpassed (by simp [ht])) hb
          rcases Nat.lt_succ_iff_lt_or_eq.1 hk with hk | rfl
          · exact hpassed (by simp [ht]) k hk
          · generalize e'.transfer = w' at hon hne
            cases hon with
            | poll hb => exact hb
            | returned => exact absurd rfl hne
      | restart moved count =>
        cases asked with
        | true => cases hon
        | false =>
          exact key (i + 1) 0 (by simp [Alone.step, ht, hs, hc, Transfer.ask])
            (fun _ k hk => absurd hk (Nat.not_lt_zero k)) (fun _ he => nomatch he)
            fun _ he => nomatch he
      | timeoutTimer =>
        cases asked with
        | true => cases hon
        | false =>
          exact key (i + 1) 0 (by simp [Alone.step, ht, hs, hc, Transfer.ask])
            (fun _ k hk => absurd hk (Nat.not_lt_zero k)) (fun _ he => nomatch he)
            fun _ he => nomatch he
      | _ =>
        exact key i j (by cases asked <;> simp [Alone.step, ht, hs, hc, Transfer.ask]) hpassed'
          (fun _ _ => rfl) fun _ he => nomatch he

theorem Going.returns {a : Alone} (h : Going r s oracle a) (limit : ∀ i, ∃ j, oracle i j = false) :
    Alone.Returns r.buffer s oracle a :=
  Halts.of_measure (Alone.measure limit r s) (fun _ h hidle => h.step hidle) h

end Measure

end Alone

section Detect

variable {r : Ring} {m : Segment} {s : Side} {σ σ' : Shared} {e e' : Endpoint}

theorem endpointOwn_reach {x : PeerState} (h : PeerReach r (peerStart r m) x) (s : Side) :
    EndpointOwn r s x.shared (endpointOf x s) := by
  have hstart : ∀ s, EndpointOwn r s (peerStart r m).shared {} := fun s =>
    ⟨own_start s, by simp, (fun _ ht => nomatch ht), (fun _ _ ht => nomatch ht)⟩
  have hreach := Reach.of_rely (endpointStep_guarantees r .producer)
    (endpointStep_guarantees r .consumer) endpointOwn_stable endpointOwn_stable h
    ⟨hstart .producer, hstart .consumer⟩
  cases s with
  | producer => exact hreach.1
  | consumer => exact hreach.2

theorem EndpointOwn.alone {x y : Endpoint × Shared} (h : EndpointOwn r s x.2 x.1)
    (hs : ReflTransGen (EndpointStep r.buffer s) x y) :
    EndpointOwn r s y.2 y.1 ∧ (Agree r s y.2 ↔ Agree r s x.2) := by
  induction hs with
  | refl => exact ⟨h, Iff.rfl⟩
  | tail _ hstep ih =>
    obtain ⟨hown, hkeep⟩ := endpointStep_guarantees r s _ _ _ _ ih.1 hstep
    refine ⟨hown, ?_⟩
    rw [← ih.2]
    unfold Agree
    rw [hkeep.word, hkeep.word]

theorem Alone.step_sound {oracle : ℕ → ℕ → Bool} {a b : Alone}
    (h : Alone.step r.buffer s oracle a = some b) :
    EndpointStep r.buffer s (a.endpoint, a.shared) (b.endpoint, b.shared) := by
  obtain ⟨⟨w, data, result, p⟩, σ, i, j⟩ := a
  rcases w with _ | ⟨t, asked⟩
  · rcases hc : p.call with _ | c
    · simp [Alone.step, hc] at h
    · simp only [Alone.step, hc, Option.map_eq_some_iff] at h
      obtain ⟨q, hq, rfl⟩ := h
      exact .direct rfl (.move hc hq)
  · simp only [Alone.step, Option.map_eq_some_iff] at h
    obtain ⟨q, hq, rfl⟩ := h
    refine .step (oracle i j) (hq.trans ?_)
    split <;> rfl

theorem Alone.reach_sound {oracle : ℕ → ℕ → Bool} {a b : Alone}
    (h : ReflTransGen (fun x y => Alone.step r.buffer s oracle x = some y) a b) :
    ReflTransGen (EndpointStep r.buffer s) (a.endpoint, a.shared) (b.endpoint, b.shared) :=
  h.lift (fun a => (a.endpoint, a.shared)) fun _ _ => Alone.step_sound

/-- A count's loop whose two loads do not agree. -/
structure Looping (r : Ring) (s : Side) (a : Alone) : Prop where
  direct : a.endpoint.transfer = none
  call : a.endpoint.ring.call = some .loadSecond
    ∨ a.endpoint.ring.call = some (.loadFirst (r.word a.shared.mem s.peer true))
  differ : ¬Agree r s a.shared

theorem Looping.step {oracle : ℕ → ℕ → Bool} {a b : Alone} (h : Looping r s a)
    (hs : Alone.step r.buffer s oracle a = some b) : Looping r s b := by
  obtain ⟨e, σ, i, j⟩ := a
  obtain ⟨ht, hc, hd⟩ := h
  simp only at ht hc hd
  have hne : r.word σ.mem s.peer true ≠ r.word σ.mem s.peer false := hd
  rcases hc with hc | hc
  · simp only [Alone.step, ht, hc, Party.move_loadSecond, Option.map_some, Option.some.injEq,
      Ring.loadWord_pointer] at hs
    subst hs
    exact ⟨rfl, .inr rfl, hd⟩
  · simp only [Alone.step, ht, hc, Party.move_loadFirst, Option.map_some, Option.some.injEq,
      Ring.loadWord_pointer] at hs
    subst hs
    refine ⟨rfl, .inl ?_, hd⟩
    simp [hne]

theorem Looping.not_returns {oracle : ℕ → ℕ → Bool} {a : Alone} (h : Looping r s a) :
    ¬Alone.Returns r.buffer s oracle a := by
  refine Halts.not_of_invariant (fun _ _ h hs => h.step hs) (fun b h hidle => ?_) h
  rcases h.call with hc | hc <;> rw [hidle.2] at hc <;> cases hc

/-- The call in progress may return, and then the next count does not. -/
theorem not_detectsStopped (h : EndpointOwn r s σ e) (hd : ¬Agree r s σ) :
    ¬DetectsStopped r.buffer s e σ := by
  intro hdet
  have hlimit : ∀ i : ℕ, ∃ j : ℕ, (fun _ _ => false : ℕ → ℕ → Bool) i j = false :=
    fun _ => ⟨0, rfl⟩
  obtain ⟨b, hb, hidle⟩ := (hdet e σ .refl _ hlimit).exists_done
  have hreach := Alone.reach_sound hb
  have hagree := (EndpointOwn.alone (x := (e, σ)) h hreach).2
  have hstart : EndpointStep r.buffer s (b.endpoint, b.shared)
      ({ b.endpoint with ring := { b.endpoint.ring with call := some .loadSecond } },
        { b.shared with sent := b.shared.sent ++ [] }) :=
    .direct hidle.1 (.start (.count hidle.2))
  have hreturns := hdet _ _ (hreach.tail hstart) _ hlimit
  have hloop : Looping r s
      { endpoint := { b.endpoint with ring := { b.endpoint.ring with call := some .loadSecond } }
        shared := { b.shared with sent := b.shared.sent ++ [] } } :=
    ⟨hidle.1, .inl rfl, fun ha => hd (hagree.1 ha)⟩
  exact hloop.not_returns hreturns

theorem detectsStopped (h : EndpointOwn r s σ e) (ha : Agree r s σ) :
    DetectsStopped r.buffer s e σ := by
  intro e' σ' hs oracle hlimit
  obtain ⟨hown, hagree⟩ := EndpointOwn.alone (x := (e, σ)) (y := (e', σ')) h hs
  have hgoing : Going r s oracle { endpoint := e', shared := σ' } :=
    ⟨hown, hagree.2 ha, fun _ k hk => absurd hk (Nat.not_lt_zero k)⟩
  exact hgoing.returns hlimit

theorem RingReach.ends {x y : RingState} (h : RingReach r x y) :
    PeerReach r ⟨{ ring := x.left }, { ring := x.right }, x.shared⟩
      ⟨{ ring := y.left }, { ring := y.right }, y.shared⟩ := by
  induction h with
  | refl => exact .refl
  | tail _ hs ih =>
    cases hs with
    | left hs => exact ih.tail (.left (.direct rfl hs))
    | right hs => exact ih.tail (.right (.direct rfl hs))

/-- A write of one byte stopped between the two stores of the cursor. -/
def stoppedSchedule : List (Choice ⊕ Choice) :=
  .inl .count :: List.replicate 4 (.inl .move) ++ .inl (.write [7])
    :: List.replicate 5 (.inl .move)

theorem stopped_before_run :
    ((ringStart smallRing fun _ => 0).run smallRing stoppedSchedule.dropLast).map (fun y => decide
      (y.left.call.isSome ∧ y.shared.moved .producer = [7]
        ∧ smallRing.word y.shared.mem .producer true
          = smallRing.word y.shared.mem .producer false)) = some true := by
  decide +kernel

/-- In every reachable state, an end whose peer takes no further step comes to the end of every
call it is in or begins if and only if the peer's two cursor words agree there. -/
theorem stopped_peer_detected_iff (r : Ring) (m : Segment) {x : PeerState}
    (h : PeerReach r (peerStart r m) x) (s : Side) :
    DetectsStopped r.buffer s (endpointOf x s) x.shared
      ↔ r.word x.shared.mem s.peer true = r.word x.shared.mem s.peer false := by
  have hown := endpointOwn_reach h s
  exact ⟨fun hdet => by_contra fun hd => not_detectsStopped hown hd hdet, detectsStopped hown⟩

/-- The producer has stopped in its write, its byte copied and neither word stored. -/
theorem stopped_peer_detected_iff_small : ∃ x : PeerState,
    PeerReach smallRing (peerStart smallRing fun _ => 0) x
      ∧ (endpointOf x .producer).ring.call.isSome ∧ x.shared.moved .producer = [7]
      ∧ DetectsStopped smallRing.buffer .consumer (endpointOf x .consumer) x.shared := by
  obtain ⟨y, hy, hd⟩ := Option.map_eq_some_iff.1 stopped_before_run
  have hreach := (RingState.run_reach hy).ends
  simp only [decide_eq_true_eq] at hd
  obtain ⟨hcall, hmoved, hwords⟩ := hd
  exact ⟨_, hreach, hcall, hmoved,
    (stopped_peer_detected_iff smallRing (fun _ => 0) hreach .consumer).2 hwords⟩

theorem stopped_run : ((ringStart smallRing fun _ => 0).run smallRing stoppedSchedule).map
    (fun y => decide (smallRing.word y.shared.mem .producer true
      = smallRing.word y.shared.mem .producer false)) = some false := by
  decide +kernel

theorem stopped_peer_waited_on : ¬∀ x, PeerReach smallRing (peerStart smallRing fun _ => 0) x →
    ∀ s, DetectsStopped smallRing.buffer s (endpointOf x s) x.shared := by
  intro hall
  obtain ⟨y, hy, hw⟩ := Option.map_eq_some_iff.1 stopped_run
  have hreach := (RingState.run_reach hy).ends
  have hd : smallRing.word y.shared.mem .producer true
      ≠ smallRing.word y.shared.mem .producer false := of_decide_eq_false hw
  exact not_detectsStopped (endpointOwn_reach hreach .consumer) hd (hall _ hreach .consumer)

end Detect

end MemMapIPC
