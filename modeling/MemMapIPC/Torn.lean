import MemMapIPC.Fifo

/-!
# The ring with its words torn

Nothing aligns the cursor words, so a load or a store of one may be seen in two parts. The two
sides then take `TornStep`s. `CountsSafe` is what the second word of each cursor is there for: a
count the retry loop lets through is no more than what there is.
-/

namespace MemMapIPC

open Interleaving

abbrev TornState := State TornParty TornParty Shared

variable (r : Ring)

def tornStart (m : Segment) : TornState :=
  ⟨{}, {}, { mem := (CircularBuffer.circularWriteBuffer r.location r.size m).2 }⟩

abbrev TornReach (k : ℕ) (x y : TornState) : Prop :=
  Reach (TornStep r.buffer .producer k) (TornStep r.buffer .consumer k) x y

/-- The count a side returns once its retry loop is left with `nonvolatile`. -/
def Ring.countOf (s : Side) (nonvolatile : U64) (m : Segment) : U64 :=
  let own := r.word m s false
  r.buffer.difference s (CircularBuffer.ahead s nonvolatile own) nonvolatile own

/-- A side that has just left its retry loop counts no byte that is not copied in, and no cell that
is not free. -/
structure CountsSafe (x : TornState) : Prop where
  available : ∀ v, x.right.party.call = some (.compare v) →
    (x.shared.moved .consumer).length + (r.countOf .consumer v x.shared.mem).toNat
      ≤ (x.shared.moved .producer).length
  free : ∀ v, x.left.party.call = some (.compare v) →
    (x.shared.moved .producer).length + (r.countOf .producer v x.shared.mem).toNat
      < (x.shared.moved .consumer).length + r.cells

def TornSafe (k : ℕ) (m : Segment) : Prop :=
  ∀ x, TornReach r k (tornStart r m) x → CountsSafe r x

end MemMapIPC
