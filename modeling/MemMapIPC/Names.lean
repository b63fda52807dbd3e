import Mathlib.Algebra.BigOperators.Group.Finset.Basic
import Mathlib.Data.Fintype.Basic
import Mathlib.Logic.Function.Basic
import Mathlib.Logic.Relation
import MemMapIPC.Attachment

/-!
# The names of segments

Any number of objects of the three classes attaching to named segments and being destroyed, and any
number of `IsSharedMemoryIDFree` probes, a step of one of them at a time. The system counts the
handles and mappings of each name (`Handles`): a name with none does not exist. A step of
`SetMemoryID` is one thing it asks of the system, the ones that throw among them.
-/

namespace MemMapIPC

/-- How many handles and mappings of each name are open. -/
abbrev Handles (ν : Type*) := ν → ℕ

inductive ErrorCode
  | alreadyExists
  | notFound
  deriving DecidableEq

namespace Handles

variable {ν : Type*} [DecidableEq ν]

def opened (handles : Handles ν) (name : ν) : Handles ν :=
  Function.update handles name (handles name + 1)

/-- What an object held is released. -/
def closed (handles : Handles ν) : Option ν → Handles ν
  | none => handles
  | some name => Function.update handles name (handles name - 1)

/-- The constructor of `windows_shared_memory` for `create_only`. -/
def createOnly (handles : Handles ν) (name : ν) : Except ErrorCode (Handles ν) :=
  if handles name = 0 then .ok (handles.opened name) else .error .alreadyExists

/-- Its constructor for `open_only`. -/
def openOnly (handles : Handles ν) (name : ν) : Except ErrorCode (Handles ν) :=
  if handles name = 0 then .error .notFound else .ok (handles.opened name)

end Handles

/-- Where an object is in `SetMemoryID` or its destructor. -/
inductive AttachStage (ν : Type*)
  | idle
  /-- At a server's `shared_memory_object::remove`. -/
  | remove (name : ν)
  /-- At the constructor of the shared memory. -/
  | construct (name : ν)
  /-- At its assignment to the member. -/
  | assign (name : ν)
  /-- At the constructor of the region. -/
  | map
  /-- At its assignment. -/
  | assignRegion (name : ν)
  /-- The region destroyed, the shared memory not yet. -/
  | destroy
  deriving DecidableEq

/-- An object, and the names its members keep open. -/
structure NamedObject (ν : Type*) where
  kind : Kind
  stage : AttachStage ν := .idle
  sharedMemoryObject : Option ν := none
  mappedRegion : Option ν := none

/-- What an object is told to do, or the system to do to it. -/
inductive Event (ν : Type*)
  | setMemoryID (name : ν)
  | proceed
  /-- The mapping throws. -/
  | mappingFails
  | destroy

namespace NamedObject

variable {ν : Type*} [DecidableEq ν] (o : NamedObject ν) (handles : Handles ν)

def construct (name : ν) : Except ErrorCode (Handles ν) :=
  match o.kind with
  | .server => handles.createOnly name
  | .client | .observer => handles.openOnly name

/-- What `cServer` removes is a file of that name, whatever the segment. -/
def step (e : Event ν) : Option (NamedObject ν × Handles ν) :=
  match e, o.stage with
  | .setMemoryID name, .idle =>
    some ({ o with stage := if o.kind = .server then .remove name else .construct name }, handles)
  | .proceed, .remove name => some ({ o with stage := .construct name }, handles)
  | .proceed, .construct name =>
    match o.construct handles name with
    | .error _ => some ({ o with stage := .idle }, handles)
    | .ok handles => some ({ o with stage := .assign name }, handles)
  | .proceed, .assign name =>
    some ({ o with sharedMemoryObject := some name, stage := .map },
      handles.closed o.sharedMemoryObject)
  | .proceed, .map =>
    o.sharedMemoryObject.map fun name =>
      ({ o with stage := .assignRegion name }, handles.opened name)
  | .mappingFails, .map => some ({ o with stage := .idle }, handles)
  | .proceed, .assignRegion name =>
    some ({ o with mappedRegion := some name, stage := .idle }, handles.closed o.mappedRegion)
  | .destroy, .idle =>
    some ({ o with mappedRegion := none, stage := .destroy }, handles.closed o.mappedRegion)
  | .proceed, .destroy =>
    some ({ o with sharedMemoryObject := none, stage := .idle },
      handles.closed o.sharedMemoryObject)
  | _, _ => none

/-- The names of the handles and mappings it has, those not yet in a member among them. -/
def held : List ν :=
  o.sharedMemoryObject.toList ++ o.mappedRegion.toList ++
    match o.stage with
    | .assign name | .assignRegion name => [name]
    | _ => []

end NamedObject

/-- A call of `IsSharedMemoryIDFree`, once it has made its object with whether anyone had the name
open then. -/
inductive Probe (ν : Type*)
  | idle
  | create (name : ν)
  /-- At the end of the `try` block. -/
  | release (name : ν) (wasHeld : Prop)
  /-- At `shared_memory_object::remove`. -/
  | remove (name : ν) (wasHeld : Prop)
  | returned (name : ν) (free : Bool) (wasHeld : Prop)

namespace Probe

variable {ν : Type*} [DecidableEq ν]

/-- The next step, `isHeld` saying of each name whether anyone has it open. -/
def step (isHeld : ν → Prop) (handles : Handles ν) : Probe ν → Option (Probe ν × Handles ν)
  | idle | returned _ _ _ => none
  | create name =>
    match handles.createOnly name with
    | .ok handles => some (release name (isHeld name), handles)
    | .error .alreadyExists => some (returned name false (isHeld name), handles)
    | .error _ => some (remove name (isHeld name), handles)
  | release name wasHeld => some (remove name wasHeld, handles.closed (some name))
  | remove name wasHeld => some (returned name true wasHeld, handles)

def held : Probe ν → List ν
  | release name _ => [name]
  | _ => []

end Probe

/-- The objects `ι` and the probes `κ` of all processes. -/
structure Naming (ι κ ν : Type*) where
  handles : Handles ν := fun _ => 0
  objects : ι → NamedObject ν
  probes : κ → Probe ν := fun _ => .idle

namespace Naming

variable {ι κ ν : Type*} [DecidableEq ι] [DecidableEq κ] [DecidableEq ν]

def IsHeld (x : Naming ι κ ν) (name : ν) : Prop :=
  (∃ i, name ∈ (x.objects i).held) ∨ ∃ k, name ∈ (x.probes k).held

/-- The object `i` does as told, or the probe `k` asks for a name or goes on. -/
inductive Step : Naming ι κ ν → Naming ι κ ν → Prop
  | object {x : Naming ι κ ν} (i : ι) (e : Event ν) {o : NamedObject ν} {handles : Handles ν} :
    (x.objects i).step x.handles e = some (o, handles) →
    Step x { x with handles, objects := Function.update x.objects i o }
  | ask {x : Naming ι κ ν} (k : κ) (name : ν) : (x.probes k).step x.IsHeld x.handles = none →
    Step x { x with probes := Function.update x.probes k (.create name) }
  | probe {x : Naming ι κ ν} (k : κ) {p : Probe ν} {handles : Handles ν} :
    (x.probes k).step x.IsHeld x.handles = some (p, handles) →
    Step x { x with handles, probes := Function.update x.probes k p }

/-- Objects of these classes, none of them attached. -/
def start (kinds : ι → Kind) : Naming ι κ ν := { objects := fun i => { kind := kinds i } }

abbrev Reached (kinds : ι → Kind) (x : Naming ι κ ν) : Prop :=
  Relation.ReflTransGen Step (start kinds) x

/-- The state after the objects have done as told, one after the other, if they could. -/
def run : List (ι × Event ν) → Naming ι κ ν → Option (Naming ι κ ν)
  | [], x => some x
  | (i, e) :: rest, x =>
    ((x.objects i).step x.handles e).bind fun q =>
      run rest { x with handles := q.2, objects := Function.update x.objects i q.1 }

/-- At the create step of a server's `SetMemoryID`, no server having the name open. -/
structure Creating (x : Naming ι κ ν) (i : ι) (name : ν) : Prop where
  server : (x.objects i).kind = .server
  stage : (x.objects i).stage = .construct name
  free_of_servers : ∀ j, (x.objects j).kind = .server → name ∉ (x.objects j).held

def Creates (x : Naming ι κ ν) (i : ι) (name : ν) : Prop :=
  ∃ handles, (x.objects i).construct x.handles name = .ok handles

end Naming

end MemMapIPC
