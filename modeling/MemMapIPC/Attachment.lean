import MemMapIPC.Entity

/-!
# What an object is attached to

An object's shared memory, the region it has mapped and the pointers into it, which `SetMemoryID`
replaces one after the other. Whether the shared memory can be had, and whether it can then be
mapped, is for the system to say (`Attempt`): each constructor throws, or leaves something to be
moved into the member, whose old resource is released.
-/

namespace MemMapIPC

structure MappedRegion where
  address : U64
  size : U64

/-- What the system makes of one call: what each of the two constructors returns or throws, and the
size of the rings, which a server is given and a client finds in the region. -/
structure Attempt (H ε : Type*) where
  sharedMemory : Except ε H
  mapping : Except ε MappedRegion
  bufferSize : U64

/-- An object's members, `none` before anything is assigned to them, and what it has released. -/
structure Attachment (H : Type*) where
  sharedMemoryObject : Option H := none
  mappedRegion : Option MappedRegion := none
  header : Option Header := none
  /-- What it reads from and what it writes to. -/
  rings : Option (CircularBuffer × CircularBuffer) := none
  released : List (H ⊕ MappedRegion) := []

namespace Attachment

variable {H ε : Type*} (sizeofPtime : U64)

def assignSharedMemory (a : Attachment H) (h : H) : Attachment H :=
  { a with
    sharedMemoryObject := some h
    released := a.released ++ a.sharedMemoryObject.toList.map .inl }

def assignRegion (a : Attachment H) (region : MappedRegion) : Attachment H :=
  { a with
    mappedRegion := some region
    released := a.released ++ a.mappedRegion.toList.map .inr }

/-- The three `try` blocks: `point` sets the pointers once the region is mapped. The second part of
the result is what was thrown. -/
def trySetMemoryID (point : MappedRegion → Attachment H → Attachment H) (t : Attempt H ε)
    (a : Attachment H) : Attachment H × Option ε :=
  match t.sharedMemory with
  | .error e => (a, some e)
  | .ok h =>
    let a := a.assignSharedMemory h
    match t.mapping with
    | .error e => (a, some e)
    | .ok region => (point region (a.assignRegion region), none)

/-- The pointers and rings of `e`. -/
def pointAt (a : Attachment H) (e : Entity) : Attachment H :=
  { a with header := some e.toHeader, rings := some (e.readBuffer, e.writeBuffer) }

/-- The object after the call, and what the caller gets of what was thrown. -/
def serverSetMemoryID (t : Attempt H ε) (a : Attachment H) : Attachment H × Option ε :=
  trySetMemoryID
    (fun region a => a.pointAt (Server.entity sizeofPtime region.address t.bufferSize)) t a

def clientSetMemoryID (t : Attempt H ε) (a : Attachment H) : Attachment H × Option ε :=
  trySetMemoryID
    (fun region a => a.pointAt (Client.entity sizeofPtime region.address t.bufferSize)) t a

/-- An observer has no rings, and what is thrown ends in its `catch`. -/
def observerSetMemoryID (t : Attempt H ε) (a : Attachment H) : Attachment H × Option ε :=
  let q := trySetMemoryID
    (fun region a => { a with header := some (Observer.setMemoryID sizeofPtime region.address) })
    t a
  (q.1, none)

end Attachment

/-- The three classes. -/
inductive Kind
  | server
  | client
  | observer
  deriving DecidableEq

namespace Kind

variable {H ε : Type*} (k : Kind) (sizeofPtime : U64)

def setMemoryID (t : Attempt H ε) (a : Attachment H) : Attachment H × Option ε :=
  match k with
  | .server => Attachment.serverSetMemoryID sizeofPtime t a
  | .client => Attachment.clientSetMemoryID sizeofPtime t a
  | .observer => Attachment.observerSetMemoryID sizeofPtime t a

/-- An object after calls one after the other, the one of its constructor among them if it has
one. -/
def after (calls : List (Attempt H ε)) : Attachment H :=
  calls.foldl (fun a t => (k.setMemoryID sizeofPtime t a).1) {}

/-- Where the pointers and rings of an object of this class are when it has mapped a region at
`address`, for rings of `bufferSize`. -/
def pointsTo (address bufferSize : U64) : Header × Option (CircularBuffer × CircularBuffer) :=
  match k with
  | .server =>
    let e := Server.entity sizeofPtime address bufferSize
    (e.toHeader, some (e.readBuffer, e.writeBuffer))
  | .client =>
    let e := Client.entity sizeofPtime address bufferSize
    (e.toHeader, some (e.readBuffer, e.writeBuffer))
  | .observer => (Observer.setMemoryID sizeofPtime address, none)

end Kind

namespace Attachment

variable {H ε : Type*}

/-- Either nothing was ever mapped, or the pointers and rings are those for the region that is. -/
inductive Intact (k : Kind) (sizeofPtime : U64) (a : Attachment H) : Prop
  | unmapped : a.mappedRegion = none → a.header = none → a.rings = none → Intact k sizeofPtime a
  | mapped (region : MappedRegion) (bufferSize : U64) : a.mappedRegion = some region →
    a.header = some (k.pointsTo sizeofPtime region.address bufferSize).1 →
    a.rings = (k.pointsTo sizeofPtime region.address bufferSize).2 → Intact k sizeofPtime a

/-- What it holds now. -/
def held (a : Attachment H) : List (H ⊕ MappedRegion) :=
  a.sharedMemoryObject.toList.map .inl ++ a.mappedRegion.toList.map .inr

end Attachment

/-- What the system has given the object in one call. -/
def Attempt.given {H ε : Type*} (t : Attempt H ε) : List (H ⊕ MappedRegion) :=
  match t.sharedMemory, t.mapping with
  | .error _, _ => []
  | .ok h, .error _ => [.inl h]
  | .ok h, .ok region => [.inl h, .inr region]

end MemMapIPC
