import Vmem.Calls
import Vmem.Backend
import Vmem.Lib.OrdMap
import Vmem.Lib.Slots

/-!
# The allocator

`libvmem.cuh`: a small pool of power-of-two objects in shared chunks and a large pool of one chunk per allocation, over one backend.
The backend is outside, behind the calls of its interface; so is what C++ leaves undefined, which then may be anything.
-/

namespace Vmem

inductive Kind
  | vmem
  | uvm
  | cuda
deriving DecidableEq, Repr

structure Config where
  backend : Kind := .vmem
  device : Int := 0
  smallMax : Size := 1 <<< 20
  smallChunk : Size := 2 <<< 20
  minObj : Size := 512
  daemon : Option (List UInt8) := some "/tmp/vmemd.sock".toUTF8.toList
  name : Option (List UInt8) := none
  autoReconnect : Bool := false
deriving DecidableEq, Repr

/-- The environment variables `VMEM_BACKEND` and `VMEM_DAEMON`. -/
structure Env where
  backend : Option String := none
  daemon : Option (List UInt8) := none
deriving DecidableEq, Repr

/-- What a thrown `Error` says; the text is built from it, the backend's name and its last error. -/
inductive Complaint
  | envKind (value : String)
  | opening
  | config
  | dead
  | create
  | destroy
  | foreign (what : String)
  | notLive
  | notStart
  | sync (e : CuError)
  | backend
deriving DecidableEq, Repr

structure Error where
  status : Status
  complaint : Complaint
deriving DecidableEq, Repr

/-- The calls of an allocator: those of the backend's interface, the fence, and what is undefined: a bit past the end of `busy`, the
back of an empty stack, and a power of two that is not representable. -/
inductive BackendCall
  | make (k : Kind)
  | openWith (c : BackendConfig)
  | close
  | granularity
  | canMove
  | create (size : Size)
  | destroy (c : Chunk)
  | move (c : Chunk) (target : Loc)
  | link
  | reconnect
  | used
  | usedAt (l : Loc)
  | synchronize
  | pastEnd (slot : BitVec 32)
  | backOfEmpty
  | bitCeilOverflow (x : Size)
  | atFailed
deriving DecidableEq, Repr

/-- What a call answers; a chunk that the call may write is answered as it is afterwards. -/
@[reducible] def BackendCall.Answer : BackendCall → Type
  | .make _ => Unit
  | .openWith _ => Status
  | .close => Unit
  | .granularity => Size
  | .canMove => Bool
  | .create _ => Status × Chunk
  | .destroy _ => Status × Chunk
  | .move _ _ => Status × Chunk
  | .link => Link
  | .reconnect => Status
  | .used => Size
  | .usedAt _ => Except Status Size
  | .synchronize => Option CuError
  | .pastEnd _ => Bool
  | .backOfEmpty => BitVec 32
  | .bitCeilOverflow _ => Size
  | .atFailed => Empty

/-- One backend chunk: slots of `obj` bytes, or a single allocation when `obj` is 0. The back of `free_slots` is the head here. -/
structure Region where
  c : Chunk
  obj : Size
  freeSlots : List (BitVec 32) := []
  busy : List Bool := []
  used : BitVec 32 := 0
deriving DecidableEq, Repr

structure Allocator where
  cfg : Config := {}
  dead : Bool := false
  regions : OrdMap Ptr Region := ∅
  partials : OrdMap Size (OrdMap Ptr Unit) := ∅
deriving DecidableEq

/-- Code of the allocator. -/
abbrev AllocatorM := Throwing BackendCall BackendCall.Answer Allocator Error

namespace Allocator

/-- Make a call. -/
def ask (i : BackendCall) : AllocatorM i.Answer := Throwing.call i

/-! ## State -/

/-- The chunks of a size class with a free slot: `partial_[obj]`. -/
def part (a : Allocator) (obj : Size) : OrdMap Ptr Unit := a.partials.getD obj ∅

/-- `partial_[obj].insert(base)`. -/
def insertPartial (a : Allocator) (obj : Size) (base : Ptr) : Allocator :=
  { a with partials := a.partials.insert obj ((a.part obj).insert base ()) }

/-- `partial_[obj].erase(base)`. -/
def erasePartial (a : Allocator) (obj : Size) (base : Ptr) : Allocator :=
  { a with partials := a.partials.insert obj ((a.part obj).erase base) }

/-- Write a region. -/
def setRegion (a : Allocator) (base : Ptr) (r : Region) : Allocator := { a with regions := a.regions.insert base r }

/-- `regions_.emplace`: a region that is there stays. -/
def emplace (a : Allocator) (base : Ptr) (r : Region) : Allocator :=
  if a.regions.contains base then a else a.setRegion base r

/-- The region that holds an address: the last one at or below it, if the address is inside its chunk. -/
def lookup (a : Allocator) (p : Ptr) : Option (Ptr × Region) :=
  match a.regions.floor? p with
  | none => none
  | some (base, r) => if p < base + r.c.size then some (base, r) else none

/-! ## Errors -/

/-- A thrown `Error`; a fatal one leaves the allocator dead. -/
def fail {α : Type} (s : Status) (what : Complaint) : AllocatorM α := do
  modify fun a => if s = .fatal then { a with dead := true } else a
  throw ⟨s, what⟩

def live : AllocatorM Unit := do
  let a ← get
  if a.dead then throw ⟨.fatal, .dead⟩ else pure ()

/-- A failed sync means the context is gone. -/
def sync : AllocatorM Unit := do
  let e : Option CuError ← ask .synchronize
  match e with
  | none => pure ()
  | some e => do
    modify fun a => { a with dead := true }
    throw ⟨.fatal, .sync e⟩

/-- The region of an address; a foreign pointer is a bug. -/
def find (p : Ptr) (what : String) : AllocatorM (Ptr × Region) := do
  let a ← get
  match a.lookup p with
  | none => fail .unsupported (.foreign what)
  | some x => pure x

/-! ## Sizes -/

def roundUp (x : Size) : AllocatorM Size := do
  let g : Size ← ask .granularity
  pure ((x + g - 1) / g * g)

/-- `std::bit_ceil`: the least power of two that is at least `x`. -/
def bitCeil (x : Size) : AllocatorM Size :=
  if x.toNat ≤ 2 ^ 63 then pure (BitVec.ofNat 64 (2 ^ Nat.clog 2 x.toNat)) else ask (.bitCeilOverflow x)

/-- `std::max`. -/
def maxSize (x y : Size) : Size := if x < y then y else x

/-! ## Start and end -/

def envKind (env : Env) (k : Kind) : Except Error Kind :=
  match env.backend with
  | none => .ok k
  | some e =>
    if e = "vmem" then .ok .vmem
    else if e = "uvm" then .ok .uvm
    else if e = "cuda" then .ok .cuda
    else .error ⟨.unsupported, .envKind e⟩

/-- The constructor, on a new object. -/
def construct (cfg : Config) (env : Env) : AllocatorM Unit := do
  modify fun a => { a with cfg := cfg }
  match envKind env cfg.backend with
  | .error e => throw e
  | .ok k => do
    ask (.make k)
    let s : Status ← ask (.openWith ⟨cfg.device, env.daemon.or cfg.daemon, cfg.name, cfg.autoReconnect⟩)
    if s ≠ .ok then throw ⟨s, .opening⟩
    else do
      let chunk ← roundUp cfg.smallChunk
      modify fun a => { a with cfg := { a.cfg with smallChunk := chunk } }
      let max ← bitCeil cfg.smallMax
      if max > chunk then throw ⟨.unsupported, .config⟩ else pure ()

/-- `destroy` of every chunk, whatever it answers. -/
def destroyAll : List (Ptr × Region) → AllocatorM Unit
  | [] => pure ()
  | (_, r) :: rs => do
    let _ ← ask (.destroy r.c)
    destroyAll rs

/-- The destructor. -/
def destruct : AllocatorM Unit := do
  let a ← get
  if a.dead then ask .close
  else do
    let e : Option CuError ← ask .synchronize
    if e = none then do
      destroyAll a.regions.toList
      ask .close
    else ask .close

/-! ## alloc -/

/-- The region of a new chunk; all slots of a slab are free. -/
def newRegion (c : Chunk) (size obj : Size) : Region :=
  if obj = 0 then { c, obj }
  else
    let n : BitVec 32 := (size / obj).setWidth 32
    { c, obj, freeSlots := Slots.fresh 32 n.toNat, busy := List.replicate n.toNat false }

/-- A new region holds its chunk. -/
theorem newRegion_c (c : Chunk) (size obj : Size) : (newRegion c size obj).c = c := by
  unfold newRegion
  split <;> rfl

/-- Its slots have the size of the objects. -/
theorem newRegion_obj (c : Chunk) (size obj : Size) : (newRegion c size obj).obj = obj := by
  unfold newRegion
  split <;> rfl

/-- A new chunk; `none` on no memory. The answer names its region by the base address. -/
def add (size obj : Size) : AllocatorM (Option Ptr) := do
  let x : Status × Chunk ← ask (.create size)
  if x.1 = .noMemory then pure none
  else if x.1 ≠ .ok then fail x.1 .create
  else do
    modify fun a => if obj ≠ 0 then a.insertPartial obj x.2.ptr else a
    modify fun a => a.emplace x.2.ptr (newRegion x.2 size obj)
    pure (some x.2.ptr)

/-- `regions_.at(base)`. -/
def regionAt (base : Ptr) : AllocatorM Region := do
  let a ← get
  match a.regions[base]? with
  | some r => pure r
  | none => do
    let e : Empty ← ask .atFailed
    e.elim

/-- `busy[slot]`. -/
def busyAt (r : Region) (slot : BitVec 32) : AllocatorM Bool :=
  match r.busy[slot.toNat]? with
  | some x => pure x
  | none => ask (.pastEnd slot)

/-- `busy[slot] = x`. -/
def setBusy (r : Region) (slot : BitVec 32) (x : Bool) : AllocatorM Region :=
  if slot.toNat < r.busy.length then pure { r with busy := r.busy.set slot.toNat x }
  else do
    let _ ← ask (.pastEnd slot)
    pure r

/-- The back of `free_slots`. -/
def backSlot (r : Region) : AllocatorM (BitVec 32) :=
  match r.freeSlots with
  | slot :: _ => pure slot
  | [] => ask .backOfEmpty

/-- Take a slot of the region at `base`. -/
def takeSlot (base : Ptr) (obj : Size) : AllocatorM Ptr := do
  let r ← regionAt base
  let slot ← backSlot r
  let r ← setBusy { r with freeSlots := r.freeSlots.tail } slot true
  modify fun a => a.setRegion base { r with used := r.used + 1 }
  modify fun a => if r.freeSlots = [] then a.erasePartial obj r.c.ptr else a
  pure (r.c.ptr + slot.setWidth 64 * obj)

/-- The small pool's part of `alloc`. -/
def allocSmall (bytes : Size) : AllocatorM Ptr := do
  let a ← get
  let obj ← bitCeil (maxSize bytes a.cfg.minObj)
  let found ← (match (a.part obj).min? with
    | some base => pure (some base)
    | none => add a.cfg.smallChunk obj)
  match found with
  | none => pure 0
  | some base => takeSlot base obj

/-- The large pool's part of `alloc`. -/
def allocLarge (bytes : Size) : AllocatorM Ptr := do
  let size ← roundUp bytes
  let found ← add size 0
  match found with
  | none => pure 0
  | some base => do
    let r ← regionAt base
    pure r.c.ptr

def alloc (bytes : Size) : AllocatorM Ptr := do
  live
  if bytes = 0 then pure 0
  else do
    let a ← get
    if bytes > a.cfg.smallMax then allocLarge bytes else allocSmall bytes

/-- `vmem::alloc<T>`, with the size of the element type. -/
def allocArray (sizeofT n : Size) : AllocatorM Ptr := alloc (n * sizeofT)

/-! ## free -/

/-- The slot of an address in a slab chunk. -/
def slotOf (base : Ptr) (r : Region) (p : Ptr) : BitVec 32 := ((p - base) / r.obj).setWidth 32

/-- The small pool's part of `free`; `true` if the chunk is empty now and goes back. -/
def freeSlot (base : Ptr) (r : Region) (p : Ptr) : AllocatorM Bool := do
  let slot := slotOf base r p
  if (p - base) % r.obj ≠ 0 then fail .unsupported .notLive
  else do
    let busy ← busyAt r slot
    if !busy then fail .unsupported .notLive
    else do
      let r ← setBusy r slot false
      modify fun a => a.setRegion base { r with freeSlots := slot :: r.freeSlots, used := r.used - 1 }
      if r.used - 1 ≠ 0 then do
        modify fun a => a.insertPartial r.obj base
        pure false
      else do
        modify fun a => a.erasePartial r.obj base
        pure true

/-- A chunk goes back to the backend. -/
def release (base : Ptr) (c : Chunk) : AllocatorM Unit := do
  sync
  let x : Status × Chunk ← ask (.destroy c)
  modify fun a => { a with regions := a.regions.erase base }
  if x.1 ≠ .ok then fail x.1 .destroy else pure ()

def free (p : Ptr) : AllocatorM Unit :=
  if p = 0 then pure ()
  else do
    live
    let (base, r) ← find p "free"
    if r.obj ≠ 0 then do
      let gone ← freeSlot base r p
      if gone then release base r.c else pure ()
    else if p ≠ base then fail .unsupported .notStart
    else release base r.c

/-! ## Hints and queries -/

/-- A hint; it never throws. -/
def move (p : Ptr) (target : Loc) : AllocatorM Status := do
  let a ← get
  if a.dead then pure .fatal
  else
    match a.lookup p with
    | none => pure .unsupported
    | some (base, r) =>
      if r.obj ≠ 0 then pure .unsupported
      else do
        let can : Bool ← ask .canMove
        if !can then pure .unsupported
        else if r.c.loc = target then pure .ok
        else do
          let failed ← tryCatch (do sync; pure none) fun e => pure (some e.status)
          match failed with
          | some s => pure s
          | none => do
            let x : Status × Chunk ← ask (.move r.c target)
            modify fun a => a.setRegion base { r with c := x.2 }
            if x.1 = .fatal then do
              modify fun a => { a with dead := true }
              pure x.1
            else pure x.1

def evict (p : Ptr) : AllocatorM Status := move p .host

def prefetch (p : Ptr) : AllocatorM Status := move p .device

/-- `where`. -/
def locate (p : Ptr) : AllocatorM Loc := do
  let x ← find p "where"
  pure x.2.c.loc

structure Info where
  link : Link
  bytes : Size
  smallChunks : Nat
  largeChunks : Nat
deriving DecidableEq, Repr

/-- The regions of the small pool. -/
def countSmall (a : Allocator) : Nat := a.regions.toList.countP fun x => decide (x.2.obj ≠ 0)

def info : AllocatorM Info := do
  let a ← get
  let link : Link ← ask .link
  let bytes : Size ← ask .used
  pure ⟨link, bytes, a.countSmall, a.regions.size - a.countSmall⟩

def reconnect : AllocatorM Status := ask .reconnect

def used : AllocatorM Size := ask .used

/-- `used(Loc)`: backends that do not track placement throw. -/
def usedAt (l : Loc) : AllocatorM Size := do
  let x : Except Status Size ← ask (.usedAt l)
  match x with
  | .ok bytes => pure bytes
  | .error s => throw ⟨s, .backend⟩

end Allocator

end Vmem
