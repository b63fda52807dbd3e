import MemMapIPC.CircularBuffer

/-!
# An entity's transfer

`cEntity::WriteData` and `cEntity::ReadData` are one program at opposite sides of a ring. A
`Transfer` is where the entity is in its call, `Transfer.ask` is what it asks of the ring and of its
timer there, and `Transfer.next` what it does with the answer. The ring and the timer are for the
reader of this module to choose: a queue in `Stream`, the ring itself in `Peer`.
-/

namespace MemMapIPC

inductive Transfer
  | updateTimestamp
  /-- At the count that chooses between transferring at once and waiting. -/
  | check
  | whole
  | timeoutTimer
  /-- At the loop's condition, `moved` bytes transferred. -/
  | elapsed (moved : U64)
  | poll (moved : U64)
  | restart (moved count : U64)
  | chunk (moved count : U64)
  deriving DecidableEq

inductive Ask
  | updateTimestamp
  /-- How many bytes the ring can take, or has. -/
  | count
  | timeoutTimer
  /-- Whether the timer is below the limit. -/
  | elapsed
  | restart
  /-- Transfer `amount` bytes at `offset` of the source or the sink. -/
  | transfer (offset amount : U64)

inductive Progress
  | more (t : Transfer)
  | returned (success : Bool)

namespace Transfer

variable (numberOfBytes : U64)

/-- How much is transferred when `count` bytes can be: what is left, or all of them. -/
def amount (moved count : U64) : U64 :=
  if count > numberOfBytes - moved then numberOfBytes - moved else count

def ask : Transfer → Ask
  | updateTimestamp => .updateTimestamp
  | check => .count
  | whole => .transfer 0 numberOfBytes
  | timeoutTimer => .timeoutTimer
  | elapsed _ => .elapsed
  | poll _ => .count
  | restart _ _ => .restart
  | chunk moved count => .transfer moved (amount numberOfBytes moved count)

/-- What the entity does with the count, or with whether the timer is `below` its limit. -/
def next (count : U64) (below : Bool) : Transfer → Progress
  | updateTimestamp => .more check
  | check => .more (if count < numberOfBytes then timeoutTimer else whole)
  | whole => .returned true
  | timeoutTimer => .more (elapsed 0)
  | elapsed moved =>
    if below ∧ moved ≠ numberOfBytes then .more (poll moved)
    else .returned (moved = numberOfBytes)
  | poll moved => .more (if 0 < count then restart moved count else elapsed moved)
  | restart moved count => .more (chunk moved count)
  | chunk moved count =>
    .more (elapsed (if count > numberOfBytes - moved then numberOfBytes else moved + count))

end Transfer

/-- After a chunk the count has grown by what was transferred and is no more than asked for. -/
theorem moved_chunk {n moved count : U64} (hlt : moved < n) (hpos : 0 < count) :
    moved < (if count > n - moved then n else moved + count)
      ∧ (if count > n - moved then n else moved + count) ≤ n := by
  have hsub := BitVec.toNat_sub_of_le (BitVec.le_of_lt hlt)
  rw [BitVec.lt_def] at hlt hpos
  have h0 : (0 : U64).toNat = 0 := rfl
  split_ifs with hgt
  · exact ⟨BitVec.lt_def.2 hlt, BitVec.le_refl n⟩
  · rw [gt_iff_lt, BitVec.lt_def, hsub] at hgt
    have hn := n.isLt
    have hadd : (moved + count).toNat = moved.toNat + count.toNat := by
      rw [BitVec.toNat_add, Nat.mod_eq_of_lt (by omega)]
    rw [BitVec.lt_def, BitVec.le_def, hadd]
    omega

end MemMapIPC
