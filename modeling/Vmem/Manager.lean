import Vmem.Driver

/-!
# The manager

`primitives/src/vmem.cuh`: a blocking wrapper over the driver's virtual memory management. A manager owns chunks of physical memory,
named by tokens, and address reservations; a chunk is mapped at an address of a reservation or nowhere.
-/

namespace Vmem

/-- What callers hold for a chunk. Owner 0 is no manager. -/
structure ChunkToken where
  owner : BitVec 32 := 0
  id : BitVec 32 := -1
deriving DecidableEq, Repr

def ChunkToken.valid (t : ChunkToken) : Bool := t.owner != 0

/-- One handle of the driver; address 0 is unmapped. -/
structure ManagedChunk where
  id : BitVec 32
  size : Size
  loc : Loc
  handle : Handle
  va : Ptr := 0
deriving DecidableEq, Repr

def ManagedChunk.mapped (c : ManagedChunk) : Bool := c.va != 0

/-- Read-only copy of a chunk's state. -/
structure ChunkInfo where
  id : BitVec 32
  size : Size
  loc : Loc
  va : Ptr
deriving DecidableEq, Repr

/-- A manager that was made: its device and host node, its serial number, the granularity, and its records. -/
structure Manager where
  device : Int
  numa : Int
  serial : BitVec 32
  gran : Size
  nextId : BitVec 32 := 0
  chunks : OrdMap (BitVec 32) ManagedChunk := ∅
  reservations : OrdMap Ptr Size := ∅
deriving DecidableEq

/-- What a thrown `Error` says: a failed call of the driver, or the rule that the caller broke. -/
inductive Fault
  | cu (e : CuError)
  | createSize
  | invalidToken (what : String)
  | foreignToken (what : String)
  | released (what : String) (id : BitVec 32)
  | alreadyMapped (id : BitVec 32) (va : Ptr)
  | unaligned (va : Ptr) (gran : Size)
  | outside (va : Ptr) (size : Size)
  | notMapped (what : String) (id : BitVec 32)
  | stillMapped (id : BitVec 32) (va : Ptr)
  | notReservation (va : Ptr)
  | mappedInside (id : BitVec 32) (va : Ptr) (size : Size)
deriving DecidableEq, Repr

/-- Code of a manager. -/
abbrev ManagerM := Throwing Op Op.Answer Manager Fault

namespace Manager

/-! ## Helpers -/

/-- `VMEM_CU`. -/
def cu (c : CuCall) : ManagerM (BitVec 64) := do
  let r : Except CuError (BitVec 64) ← Throwing.call (Op.cu c)
  match r with
  | .ok v => pure v
  | .error e => throw (.cu e)

/-- `VMEM_REQUIRE`. -/
def require (c : Prop) [Decidable c] (f : Fault) : ManagerM Unit := if c then pure () else throw f

def prop (m : Manager) (loc : Loc) : MemProp :=
  match loc with
  | .device => ⟨.device, m.device⟩
  | .host => ⟨.host, m.numa⟩

/-- Device access, host chunks too. -/
def grant (va : Ptr) (size : Size) : ManagerM Unit := do
  let m ← get
  let _ ← cu (.setAccess va size m.device)
  pure ()

def roundUp (m : Manager) (x : Size) : Size := (x + m.gran - 1) / m.gran * m.gran

/-- The last reservation at or below the address, if the range ends in it. -/
def insideReservation (m : Manager) (va : Ptr) (size : Size) : Bool :=
  match m.reservations.floor? va with
  | none => false
  | some (base, len) => decide (va + size ≤ base + len)

/-- Token to chunk; rejects invalid, foreign and released ones. -/
def chunkOf (t : ChunkToken) (what : String) : ManagerM ManagedChunk := do
  require (t.valid = true) (.invalidToken what)
  let m ← get
  require (t.owner = m.serial) (.foreignToken what)
  match m.chunks[t.id]? with
  | some c => pure c
  | none => throw (.released what t.id)

/-- Write a chunk. -/
def setChunk (m : Manager) (t : ChunkToken) (c : ManagedChunk) : Manager := { m with chunks := m.chunks.insert t.id c }

/-! ## Queries -/

def info (t : ChunkToken) : ManagerM ChunkInfo := do
  let c ← chunkOf t "info"
  pure ⟨c.id, c.size, c.loc, c.va⟩

/-- The mapped address. -/
def va (t : ChunkToken) : ManagerM Ptr := do
  let c ← chunkOf t "va"
  require (c.mapped = true) (.notMapped "va" c.id)
  pure c.va

def loc (t : ChunkToken) : ManagerM Loc := do
  let c ← chunkOf t "loc"
  pure c.loc

/-! ## Primitives -/

/-- A virtual range without memory behind it. -/
def reserve (size : Size) : ManagerM Ptr := do
  let m ← get
  let va ← cu (.reserve (m.roundUp size) m.gran)
  modify fun m => { m with reservations := m.reservations.insert va (m.roundUp size) }
  pure va

/-- Physical memory. -/
def create (size : Size) (loc : Loc) : ManagerM ChunkToken := do
  require (size > 0) .createSize
  let m ← get
  let h ← cu (.create (m.roundUp size) (m.prop loc))
  modify fun m => { m with nextId := m.nextId + 1 }
  modify fun m' => { m' with chunks := m'.chunks.insert m.nextId ⟨m.nextId, m.roundUp size, loc, h, 0⟩ }
  pure ⟨m.serial, m.nextId⟩

/-- Map inside a reservation. -/
def map (t : ChunkToken) (va : Ptr) : ManagerM Ptr := do
  let c ← chunkOf t "map"
  require (c.mapped = false) (.alreadyMapped c.id c.va)
  let m ← get
  require (va % m.gran = 0) (.unaligned va m.gran)
  require (m.insideReservation va c.size = true) (.outside va c.size)
  let _ ← cu (.map va c.size c.handle)
  grant va c.size
  modify fun m => m.setChunk t { c with va }
  pure va

/-- The memory stays. -/
def unmap (t : ChunkToken) : ManagerM Ptr := do
  let c ← chunkOf t "unmap"
  require (c.mapped = true) (.notMapped "unmap" c.id)
  let _ ← cu (.unmap c.va c.size)
  modify fun m => m.setChunk t { c with va := 0 }
  pure c.va

/-- Copy a chunk into a new handle, by way of a scratch range. -/
def copyTo (c : ManagedChunk) (scratch : Ptr) (nh : Handle) : ManagerM Unit := do
  let _ ← cu (.map scratch c.size nh)
  grant scratch c.size
  let _ ← cu (.memcpyDtoD scratch c.va c.size)
  let _ ← cu .synchronize
  pure ()

/-- Swap the backing of a chunk under its address. -/
def swap (c : ManagedChunk) (nh : Handle) : ManagerM Unit := do
  let _ ← cu (.unmap c.va c.size)
  let _ ← cu (.release c.handle)
  let _ ← cu (.map c.va c.size nh)
  grant c.va c.size

/-- Move the contents to a place, at the same address; nothing to do if they are there. -/
def remap (t : ChunkToken) (target : Loc) : ManagerM Ptr := do
  let c ← chunkOf t "remap"
  require (c.mapped = true) (.notMapped "remap" c.id)
  if c.loc = target then pure c.va
  else do
    let m ← get
    let nh ← cu (.create c.size (m.prop target))
    let scratch ← cu (.reserve c.size m.gran)
    copyTo c scratch nh
    swap c nh
    let _ ← cu (.unmap scratch c.size)
    let _ ← cu (.addressFree scratch c.size)
    modify fun m => m.setChunk t { c with handle := nh, loc := target }
    pure c.va

/-- The chunk must be unmapped. -/
def release (t : ChunkToken) : ManagerM Size := do
  let c ← chunkOf t "release"
  require (c.mapped = false) (.stillMapped c.id c.va)
  let _ ← cu (.release c.handle)
  modify fun m => { m with chunks := m.chunks.erase c.id }
  pure c.size

/-- A chunk that is mapped inside a range; the first in the order of ids. -/
def mappedInside (m : Manager) (va : Ptr) (size : Size) : Option (BitVec 32 × ManagedChunk) :=
  m.chunks.toList.find? fun x => x.2.mapped && decide (x.2.va ≥ va) && decide (x.2.va < va + size)

/-- `va` must be the start of a reservation with nothing mapped inside. -/
def free (va : Ptr) : ManagerM Size := do
  let m ← get
  match m.reservations[va]? with
  | none => throw (.notReservation va)
  | some size =>
    match m.mappedInside va size with
    | some (_, c) => throw (.mappedInside c.id va size)
    | none => do
      let _ ← cu (.addressFree va size)
      modify fun m => { m with reservations := m.reservations.erase va }
      pure size

/-! ## The end -/

/-- A call of the destructor; a failure is only printed. -/
def drop (c : CuCall) : ManagerM Unit := Throwing.call (Op.drop c)

def dropMapping (c : ManagedChunk) : ManagerM Unit := if c.mapped then drop (.unmap c.va c.size) else pure ()

def dropChunks : List (BitVec 32 × ManagedChunk) → ManagerM Unit
  | [] => pure ()
  | (_, c) :: cs => do
    dropMapping c
    drop (.release c.handle)
    dropChunks cs

def dropReservations : List (Ptr × Size) → ManagerM Unit
  | [] => pure ()
  | (va, size) :: rs => do
    drop (.addressFree va size)
    dropReservations rs

/-- The destructor. -/
def destruct : ManagerM Unit := do
  let m ← get
  dropChunks m.chunks.toList
  dropReservations m.reservations.toList

end Manager

/-- A call of a manager. -/
inductive ManagerCall
  | reserve (size : Size)
  | create (size : Size) (loc : Loc)
  | map (t : ChunkToken) (va : Ptr)
  | unmap (t : ChunkToken)
  | remap (t : ChunkToken) (target : Loc)
  | release (t : ChunkToken)
  | free (va : Ptr)
  | va (t : ChunkToken)
  | loc (t : ChunkToken)
  | info (t : ChunkToken)
deriving DecidableEq, Repr

namespace ManagerCall

@[reducible] def Result : ManagerCall → Type
  | .reserve _ => Ptr
  | .create _ _ => ChunkToken
  | .map _ _ => Ptr
  | .unmap _ => Ptr
  | .remap _ _ => Ptr
  | .release _ => Size
  | .free _ => Size
  | .va _ => Ptr
  | .loc _ => Loc
  | .info _ => ChunkInfo

def program : (c : ManagerCall) → ManagerM c.Result
  | .reserve size => Manager.reserve size
  | .create size l => Manager.create size l
  | .map t p => Manager.map t p
  | .unmap t => Manager.unmap t
  | .remap t target => Manager.remap t target
  | .release t => Manager.release t
  | .free p => Manager.free p
  | .va t => Manager.va t
  | .loc t => Manager.loc t
  | .info t => Manager.info t

end ManagerCall

end Vmem
