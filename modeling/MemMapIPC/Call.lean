import MemMapIPC.CircularBuffer
import MemMapIPC.Library.Interleaving

/-!
# A ring's calls, one access at a time

Both counts and both transfers as programs of single accesses to the shared segment: a word loaded
or stored, or one byte of a copy. A `Call` is where a side is in its call, with the values the code
holds in locals there; `Call.access` is the access it makes next and `Call.next` what it does with
what a load gave it. A side between two calls starts any count, and any transfer of no more than
the last count it got since its own last transfer.

`RingStep` takes each access of a word as one step. `TornStep` takes it in two, the low `k` bytes
first.
-/

namespace MemMapIPC

open ByteMemory

/-- Where a side is in a call. -/
inductive Call
  /-- At the load of the peer's second word. -/
  | loadSecond
  /-- At the load of its first, for the check. -/
  | loadFirst (nonvolatile : U64)
  /-- At the load of the side's own cursor, for the count's test. -/
  | compare (nonvolatile : U64)
  /-- At its load for the difference. -/
  | subtract (nonvolatile : U64) (isAhead : Bool)
  /-- At its load for the number of bytes before the wraparound. -/
  | span (numberOfBytes : U64)
  /-- At its load for the memory address, to copy `now` bytes here and `later` after wrapping. -/
  | address (now later : U64)
  /-- Copying from or to `cell`, the first `i` bytes done. -/
  | copy (cell : U64) (i : ℕ) (now later : U64)
  /-- At the store of the cursor's first word. -/
  | publish (newPointerValue later : U64)
  /-- At the store of its second. -/
  | publishSecond (newPointerValue later : U64)
  deriving DecidableEq

inductive Access
  | load (p : U64)
  | store (p value : U64)
  | get (p : U64)
  | put (p : U64)

/-- What an access leads to: more of the call, the count returned, the transfer finished, or the
division by zero. -/
inductive Outcome
  | more (c : Call)
  | counted (n : U64)
  | finished
  | fault

namespace Call

variable (cb : CircularBuffer) (s : Side)

def byteAccess : Side → U64 → Access
  | .producer, p => .put p
  | .consumer, p => .get p

def access : Call → Access
  | loadSecond => .load (cb.pointer s.peer true)
  | loadFirst _ => .load (cb.pointer s.peer false)
  | compare _ => .load (cb.pointer s false)
  | subtract _ _ => .load (cb.pointer s false)
  | span _ => .load (cb.pointer s false)
  | address _ _ => .load (cb.pointer s false)
  | copy cell i now _ =>
    if i < now.toNat then byteAccess s (cell + BitVec.ofNat 64 i)
    else .load (cb.pointer s false)
  | publish v _ => .store (cb.pointer s false) v
  | publishSecond v _ => .store (cb.pointer s true) v

/-- What the call does with the word `v` a load gave it. -/
def next : Call → (v : U64) → Outcome
  | loadSecond, v => .more (.loadFirst v)
  | loadFirst nonvolatile, v =>
    .more (if nonvolatile ≠ v then .loadSecond else .compare nonvolatile)
  | compare nonvolatile, v => .more (.subtract nonvolatile (CircularBuffer.ahead s nonvolatile v))
  | subtract nonvolatile isAhead, v => .counted (cb.difference s isAhead nonvolatile v)
  | span n, v =>
    let before := cb.numberOfBytesBeforeWraparound s v
    .more (if before ≥ n then .address n 0 else .address before (n - before))
  | address now later, v => .more (.copy (cb.buffer + v) 0 now later)
  | copy cell i now later, v =>
    if i < now.toNat then .more (.copy cell (i + 1) now later)
    else match cb.wrap (v + now) with
      | none => .fault
      | some newPointerValue => .more (.publish newPointerValue later)
  | publish v later, _ => .more (.publishSecond v later)
  | publishSecond _ later, _ => if later = 0 then .finished else .more (.address later 0)

variable {cb s} {c : Call} {a v : U64}

theorem access_load_cases (h : c.access cb s = .load a) :
    (c = .loadSecond ∧ a = cb.pointer s.peer true)
      ∨ (∃ v, c = .loadFirst v ∧ a = cb.pointer s.peer false) ∨ a = cb.pointer s false := by
  cases c with
  | loadSecond =>
    cases h
    exact .inl ⟨rfl, rfl⟩
  | loadFirst v =>
    cases h
    exact .inr (.inl ⟨v, rfl, rfl⟩)
  | copy cell i now later =>
    simp only [access] at h
    split_ifs at h
    · cases s <;> cases h
    · cases h
      exact .inr (.inr rfl)
  | publish v later => cases h
  | publishSecond v later => cases h
  | _ =>
    cases h
    exact .inr (.inr rfl)

theorem access_load (h : c.access cb s = .load a) : ∃ t b, a = cb.pointer t b := by
  rcases access_load_cases h with ⟨-, h⟩ | ⟨-, -, h⟩ | h <;> exact ⟨_, _, h⟩

theorem access_store (h : c.access cb s = .store a v) :
    ∃ b later, a = cb.pointer s b ∧ (c = .publish v later ∨ c = .publishSecond v later) := by
  cases c with
  | copy cell i now later =>
    simp only [access] at h
    split_ifs at h
    cases s <;> cases h
  | publish w later =>
    cases h
    exact ⟨_, later, rfl, .inl rfl⟩
  | publishSecond w later =>
    cases h
    exact ⟨_, later, rfl, .inr rfl⟩
  | _ => cases h

theorem access_byte (h : c.access cb s = .get a ∨ c.access cb s = .put a) :
    ∃ cell i now later, c = .copy cell i now later ∧ i < now.toNat
      ∧ a = cell + BitVec.ofNat 64 i := by
  cases c with
  | copy cell i now later =>
    simp only [access] at h
    split_ifs at h with hi
    · refine ⟨cell, i, now, later, rfl, hi, ?_⟩
      cases s <;> rcases h with h | h <;> cases h <;> rfl
    · simp at h
  | _ => rcases h with h | h <;> cases h

theorem access_ne_put : c.access cb .consumer ≠ .put a := by
  intro h
  cases c with
  | copy cell i now later =>
    simp only [access] at h
    split_ifs at h
    cases h
  | _ => cases h

end Call

/-- One side's locals: its call, the last count it got since its own last transfer, and, for a
write, what is still to be copied in. -/
structure Party where
  call : Option Call := none
  last : U64 := 0
  source : List U8 := []
  deriving DecidableEq

def Party.resume (p : Party) : Outcome → Option Party
  | .more c => some { p with call := some c }
  | .counted n => some { p with call := none, last := n }
  | .finished => some { p with call := none }
  | .fault => none

/-- What the two sides share: the segment, and the history of the ring. -/
structure Shared where
  mem : Segment
  /-- The bytes handed to `WriteData` so far. -/
  sent : List U8 := []
  /-- The bytes copied into the cells, and out of them to the sinks. -/
  moved : Side → List U8 := fun _ => []
  /-- The bytes each side's first cursor word has been moved over. -/
  advanced : Side → ℕ := fun _ => 0

namespace Shared

def copied (σ : Shared) (s : Side) (b : U8) : Shared :=
  { σ with moved := Function.update σ.moved s (σ.moved s ++ [b]) }

/-- The history at a store of the cursor's first word. -/
def advance (σ : Shared) (s : Side) : Call → Shared
  | .publish _ _ => { σ with advanced := Function.update σ.advanced s (σ.moved s).length }
  | _ => σ

end Shared

variable (cb : CircularBuffer) (s : Side)

/-- One access of the call `c`. A division by zero, or a copy past the end of the source, is no
step. -/
def Party.move (p : Party) (c : Call) (σ : Shared) : Option (Party × Shared) :=
  match c.access cb s with
  | .load a => (p.resume (c.next cb s (σ.mem.loadWord a))).map fun p' => (p', σ)
  | .store a v =>
    (p.resume (c.next cb s 0)).map fun p' =>
      (p', { σ.advance s c with mem := σ.mem.storeWord a v })
  | .get a => (p.resume (c.next cb s 0)).map fun p' => (p', σ.copied s (σ.mem a))
  | .put a =>
    match p.source with
    | [] => none
    | b :: rest =>
      ({ p with source := rest }.resume (c.next cb s 0)).map fun p' =>
        (p', { σ.copied s b with mem := σ.mem.write a [b] })

section Move

variable {cb s} {p : Party} {c : Call} {σ : Shared} {a v : U64}

theorem Party.move_of_load (h : c.access cb s = .load a) : p.move cb s c σ
    = (p.resume (c.next cb s (σ.mem.loadWord a))).map fun p' => (p', σ) := by
  rw [move, h]

theorem Party.move_of_store (h : c.access cb s = .store a v) : p.move cb s c σ
    = (p.resume (c.next cb s 0)).map fun p' =>
      (p', { σ.advance s c with mem := σ.mem.storeWord a v }) := by
  rw [move, h]

theorem Party.move_of_get (h : c.access cb s = .get a) : p.move cb s c σ
    = (p.resume (c.next cb s 0)).map fun p' => (p', σ.copied s (σ.mem a)) := by
  rw [move, h]

theorem Party.move_of_put (h : c.access cb s = .put a) {b : U8} {rest : List U8}
    (hp : p.source = b :: rest) : p.move cb s c σ
    = ({ p with source := rest }.resume (c.next cb s 0)).map fun p' =>
      (p', { σ.copied s b with mem := σ.mem.write a [b] }) := by
  rw [move, h]
  simp only [hp]

theorem Party.move_loadSecond : p.move cb s .loadSecond σ
    = some ({ p with call := some (.loadFirst (σ.mem.loadWord (cb.pointer s.peer true))) }, σ) :=
  rfl

theorem Party.move_loadFirst : p.move cb s (.loadFirst v) σ
    = some ({ p with call := some (if v ≠ σ.mem.loadWord (cb.pointer s.peer false) then .loadSecond
        else .compare v) }, σ) := rfl

theorem Party.move_compare : p.move cb s (.compare v) σ
    = some ({ p with call := some (.subtract v
        (CircularBuffer.ahead s v (σ.mem.loadWord (cb.pointer s false)))) }, σ) := rfl

theorem Party.move_subtract {isAhead : Bool} : p.move cb s (.subtract v isAhead) σ
    = some ({ p with
        call := none
        last := cb.difference s isAhead v (σ.mem.loadWord (cb.pointer s false)) }, σ) := rfl

theorem Party.move_span {n : U64} : p.move cb s (.span n) σ
    = some ({ p with
        call := some (
          let before := cb.numberOfBytesBeforeWraparound s (σ.mem.loadWord (cb.pointer s false))
          if before ≥ n then .address n 0 else .address before (n - before)) }, σ) := rfl

theorem Party.move_address {now later : U64} : p.move cb s (.address now later) σ
    = some ({ p with
        call := some (.copy (cb.buffer + σ.mem.loadWord (cb.pointer s false)) 0 now later) }, σ) :=
  rfl

theorem Party.move_publish {later : U64} : p.move cb s (.publish v later) σ
    = some ({ p with call := some (.publishSecond v later) },
        { σ.advance s (.publish v later) with
          mem := σ.mem.storeWord (cb.pointer s false) v }) := rfl

theorem Party.move_publishSecond {later : U64} : p.move cb s (.publishSecond v later) σ
    = some ({ p with call := if later = 0 then none else some (.address later 0) },
        { σ with mem := σ.mem.storeWord (cb.pointer s true) v }) := by
  change (p.resume (if later = 0 then .finished else .more (.address later 0))).map _ = _
  by_cases hl : later = 0
  · rw [if_pos hl, if_pos hl]
    rfl
  · rw [if_neg hl, if_neg hl]
    rfl

end Move

/-- A side between two calls starting one: the party and the bytes it hands over. -/
inductive Party.Starts : Side → Party → Party → List U8 → Prop
  | count {s : Side} {p : Party} : p.call = none →
    Starts s p { p with call := some .loadSecond } []
  | write {p : Party} {data : List U8} : p.call = none → data.length ≤ p.last.toNat →
    Starts .producer p
      { call := some (.span (BitVec.ofNat 64 data.length)), last := 0, source := data } data
  | read {p : Party} {n : U64} : p.call = none → n ≤ p.last →
    Starts .consumer p { call := some (.span n), last := 0, source := [] } []

/-- A step of side `s`, a word accessed at once. -/
inductive RingStep : Party × Shared → Party × Shared → Prop
  | start {p p' : Party} {σ : Shared} {data : List U8} : p.Starts s p' data →
    RingStep (p, σ) (p', { σ with sent := σ.sent ++ data })
  | move {p : Party} {c : Call} {σ : Shared} {q : Party × Shared} : p.call = some c →
    p.move cb s c σ = some q → RingStep (p, σ) q

/-- A party in the middle of a word: `half` holds the low bytes of a load under way, and anything
during a store. -/
structure TornParty where
  party : Party := {}
  half : Option ℕ := none
  deriving DecidableEq

/-- One part of an access of the call `c`: the low `k` bytes of the word, then the others. -/
def TornParty.move (k : ℕ) (t : TornParty) (c : Call) (σ : Shared) : Option (TornParty × Shared) :=
  match c.access cb s, t.half with
  | .load a, none => some ({ t with half := some (σ.mem.load a k) }, σ)
  | .load a, some low =>
    let value := low + 256 ^ k * σ.mem.load (a + BitVec.ofNat 64 k) (8 - k)
    (t.party.resume (c.next cb s (BitVec.ofNat 64 value))).map fun p' => (⟨p', none⟩, σ)
  | .store a v, none =>
    some ({ t with half := some 0 }, { σ.advance s c with mem := σ.mem.store a k v.toNat })
  | .store a v, some _ =>
    (t.party.resume (c.next cb s 0)).map fun p' =>
      (⟨p', none⟩,
        { σ with mem := σ.mem.store (a + BitVec.ofNat 64 k) (8 - k) (v.toNat / 256 ^ k) })
  | _, _ => (t.party.move cb s c σ).map fun q => (⟨q.1, none⟩, q.2)

/-- A step of side `s`, a word accessed in two parts. -/
inductive TornStep (k : ℕ) : TornParty × Shared → TornParty × Shared → Prop
  | start {p p' : Party} {σ : Shared} {data : List U8} : p.Starts s p' data →
    TornStep k (⟨p, none⟩, σ) (⟨p', none⟩, { σ with sent := σ.sent ++ data })
  | move {t : TornParty} {c : Call} {σ : Shared} {q : TornParty × Shared} :
    t.party.call = some c → t.move cb s k c σ = some q → TornStep k (t, σ) q

end MemMapIPC
