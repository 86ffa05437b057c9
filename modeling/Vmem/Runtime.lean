import Vmem.Stack

/-!
# The backends over the CUDA runtime

`backends/uvm.h`: chunks from `cudaMallocManaged`, whose pages the driver places. `backends/cuda.h`: chunks from `cudaMalloc`, which never move.
Under both lies a `Runtime`, the allocations that are live.
-/

namespace Vmem

/-! ## Calls -/

/-- A `cudaError_t` other than `cudaSuccess`. -/
inductive RtError
  | memoryAllocation
  | other (code : Nat)
deriving DecidableEq, Repr

inductive RtCall
  | setDevice (dev : Int)
  | managedMemory (dev : Int)
  | malloc (size : Size)
  | mallocManaged (size : Size)
  | free (p : Ptr)
  | prefetch (p : Ptr) (size : Size) (target : Loc) (id : Int)
  | streamSynchronize
  | getLastError
deriving DecidableEq, Repr

@[reducible] def RtCall.Answer : RtCall → Type
  | .managedMemory _ => Except RtError Int
  | .malloc _ => Except RtError Ptr
  | .mallocManaged _ => Except RtError Ptr
  | .getLastError => Unit
  | _ => Option RtError

/-- What `last_error()` tells. -/
inductive RtText
  | none
  | rt (what : String) (e : RtError)
  | outOfMemory
  | noManaged
deriving DecidableEq, Repr

/-- Code of these backends. -/
abbrev RtM (σ : Type) := Code RtCall RtCall.Answer σ

namespace RtM

variable {σ : Type}

/-- Make a call. -/
def ask (i : RtCall) : RtM σ i.Answer := Code.call i

/-- The error of a call that answers a value. -/
def errorOf {α : Type} : Except RtError α → Option RtError
  | .ok _ => none
  | .error e => some e

/-- `ok`: whether a call succeeded; its error is told by `write`. -/
def ok (write : RtText → σ → σ) (e : Option RtError) (what : String) : RtM σ Bool :=
  match e with
  | none => pure true
  | some e => do
    modify (write (.rt what e))
    pure false

/-- The end of `open`. -/
def initContext (write : RtText → σ → σ) : RtM σ Status := do
  let e : Option RtError ← ask (.free 0)
  let fine ← ok write e "context init"
  pure (if fine then .ok else .fatal)

/-- `destroy`; `spend` takes the bytes off the count. -/
def destroyChunk (write : RtText → σ → σ) (spend : Size → σ → σ) (c : Chunk) : RtM σ (Status × Chunk) := do
  let e : Option RtError ← ask (.free c.ptr)
  let fine ← ok write e "cudaFree"
  if !fine then pure (.fatal, c)
  else do
    modify (spend c.size)
    pure (.ok, {})

end RtM

open RtM

/-! ## backends/uvm.h -/

structure UvmBackend where
  dev : Int := 0
  used : Size := 0
  err : RtText := .none
deriving DecidableEq, Repr

namespace UvmBackend

def write (t : RtText) (b : UvmBackend) : UvmBackend := { b with err := t }

/-- Writing the text leaves the bytes. -/
@[simp] theorem used_write (t : RtText) (b : UvmBackend) : (write t b).used = b.used := rfl

/-- Out of memory is not sticky; anything else is treated as fatal. -/
def fail (e : Option RtError) (what : String) : RtM UvmBackend Status := do
  let fine ← ok write e what
  if fine then pure .ok
  else if e ≠ some .memoryAllocation then pure .fatal
  else do
    ask .getLastError
    pure .noMemory

/-- `open`. -/
def openBackend (c : BackendConfig) : RtM UvmBackend Status := do
  modify fun b => { b with dev := c.device }
  let set : Option RtError ← ask (.setDevice c.device)
  let fine ← ok write set "cudaSetDevice"
  if !fine then pure .fatal
  else do
    let managed : Except RtError Int ← ask (.managedMemory c.device)
    let fine ← ok write (errorOf managed) "managed memory attribute"
    if !fine then pure .fatal
    else if managed.toOption = some 0 then do
      modify (write .noManaged)
      pure .unsupported
    else initContext write

def create (size : Size) (out : Chunk) : RtM UvmBackend (Status × Chunk) := do
  let p : Except RtError Ptr ← ask (.mallocManaged size)
  let s ← fail (errorOf p) "cudaMallocManaged"
  match p with
  | .error _ => pure (s, out)
  | .ok p => do
    modify fun b => { b with used := b.used + size }
    pure (.ok, ⟨p, size, .device⟩)

def destroy (c : Chunk) : RtM UvmBackend (Status × Chunk) := destroyChunk write (fun n b => { b with used := b.used - n }) c

/-- A blocking prefetch. -/
def move (c : Chunk) (target : Loc) : RtM UvmBackend (Status × Chunk) := do
  if c.loc = target then pure (.ok, c)
  else do
    let b ← get
    let e : Option RtError ← ask (.prefetch c.ptr c.size target (if target = .device then b.dev else 0))
    let s ← fail e "cudaMemPrefetchAsync"
    let s ← (if s = .ok then do
      let e : Option RtError ← ask .streamSynchronize
      fail e "prefetch sync"
    else pure s)
    pure (s, if s = .ok then { c with loc := target } else c)

end UvmBackend

/-! ## backends/cuda.h -/

structure CudaBackend where
  used : Size := 0
  err : RtText := .none
deriving DecidableEq, Repr

namespace CudaBackend

def write (t : RtText) (b : CudaBackend) : CudaBackend := { b with err := t }

/-- Writing the text leaves the bytes. -/
@[simp] theorem used_write (t : RtText) (b : CudaBackend) : (write t b).used = b.used := rfl

/-- `open`. -/
def openBackend (c : BackendConfig) : RtM CudaBackend Status := do
  let set : Option RtError ← ask (.setDevice c.device)
  let fine ← ok write set "cudaSetDevice"
  if !fine then pure .fatal
  else initContext write

def create (size : Size) (out : Chunk) : RtM CudaBackend (Status × Chunk) := do
  let p : Except RtError Ptr ← ask (.malloc size)
  if errorOf p = some .memoryAllocation then do
    ask .getLastError
    modify (write .outOfMemory)
    pure (.noMemory, out)
  else do
    let _ ← ok write (errorOf p) "cudaMalloc"
    match p with
    | .error _ => pure (.fatal, out)
    | .ok p => do
      modify fun b => { b with used := b.used + size }
      pure (.ok, ⟨p, size, .device⟩)

def destroy (c : Chunk) : RtM CudaBackend (Status × Chunk) := destroyChunk write (fun n b => { b with used := b.used - n }) c

def move (c : Chunk) (target : Loc) : RtM CudaBackend (Status × Chunk) := pure (if c.loc = target then .ok else .unsupported, c)

/-- `used(l)`. -/
def usedAt (b : CudaBackend) (l : Loc) : Size := if l = .device then b.used else 0

end CudaBackend

/-! ## Behind the interface -/

/-- A backend that `make_backend` makes, other than that of `backends/vmem.h`. -/
inductive RtBackend
  | uvm (b : UvmBackend)
  | cuda (b : CudaBackend)
deriving DecidableEq, Repr

namespace RtBackend

/-- The same granularity as that of VMM. -/
def granularity : Size := 2 <<< 20

/-- `used()`. -/
def used : RtBackend → Size
  | .uvm b => b.used
  | .cuda b => b.used

/-- What a call leaves behind. -/
def served {σ α : Type} (wrap : σ → RtBackend) (x : RtM σ α) (b : σ) : Prog RtCall RtCall.Answer (α × Option RtBackend) := do
  let r ← x b
  pure (r.1, some (wrap r.2))

/-- The code behind a call of the interface. -/
def serve : Option RtBackend → (c : BackendCall) → Option (Prog RtCall RtCall.Answer (c.Answer × Option RtBackend))
  | _, .make .uvm => some (pure ((), some (.uvm {})))
  | _, .make .cuda => some (pure ((), some (.cuda {})))
  | some (.uvm b), .openWith c => some (served .uvm (UvmBackend.openBackend c) b)
  | some (.cuda b), .openWith c => some (served .cuda (CudaBackend.openBackend c) b)
  | some b, .close => some (pure ((), some b))
  | some b, .granularity => some (pure (granularity, some b))
  | some (.uvm b), .canMove => some (pure (true, some (.uvm b)))
  | some (.cuda b), .canMove => some (pure (false, some (.cuda b)))
  | some (.uvm b), .create size => some (served .uvm (UvmBackend.create size {}) b)
  | some (.cuda b), .create size => some (served .cuda (CudaBackend.create size {}) b)
  | some (.uvm b), .destroy c => some (served .uvm (UvmBackend.destroy c) b)
  | some (.cuda b), .destroy c => some (served .cuda (CudaBackend.destroy c) b)
  | some (.uvm b), .move c target => some (served .uvm (UvmBackend.move c target) b)
  | some (.cuda b), .move c target => some (served .cuda (CudaBackend.move c target) b)
  | some b, .link => some (pure (.localMode, some b))
  | some b, .reconnect => some (pure (.unsupported, some b))
  | some b, .used => some (pure (b.used, some b))
  | some (.uvm b), .usedAt _ => some (pure (.error .unsupported, some (.uvm b)))
  | some (.cuda b), .usedAt l => some (pure (.ok (b.usedAt l), some (.cuda b)))
  | _, _ => none

end RtBackend

/-! ## The runtime -/

/-- A live allocation; contents are of any type. -/
structure Block (β : Type) where
  size : Size
  data : β
deriving DecidableEq

/-- The live allocations. -/
structure Runtime (β : Type) where
  blocks : OrdMap Ptr (Block β) := ∅
deriving DecidableEq

namespace Runtime

variable {β : Type}

/-- The contents of an allocation. -/
def contents (r : Runtime β) (p : Ptr) : Option β := r.blocks[p]?.map Block.data

/-- A kernel overwrites an allocation. -/
def write (r : Runtime β) (p : Ptr) (x : β) : Runtime β :=
  match r.blocks[p]? with
  | none => r
  | some b => { blocks := r.blocks.insert p { b with data := x } }

/-- An allocation of `size` bytes at `p` is new: it is not null, does not reach the end of the address space and lies apart from the
others. -/
def Fresh (r : Runtime β) (p : Ptr) (size : Size) : Prop :=
  p ≠ 0 ∧ p.toNat + size.toNat < 2 ^ 64 ∧ ∀ (q : Ptr) (b : Block β), r.blocks[q]? = some b → Apart p size q b.size

/-- A new allocation, with any contents. -/
def Grown (r : Runtime β) (p : Ptr) (size : Size) (r' : Runtime β) : Prop :=
  size ≠ 0 ∧ r.Fresh p size ∧ ∃ x, r' = { blocks := r.blocks.insert p ⟨size, x⟩ }

/-- Of no bytes `cudaMalloc` gives the null pointer, which `cudaFree` takes back; `cudaMallocManaged` fails. A prefetch leaves the
contents. -/
def world (β : Type) : Prog.World RtCall RtCall.Answer (Runtime β) where
  permits _ _ := True
  answers
    | .malloc size, r, .ok p, r' => (size = 0 ∧ p = 0 ∧ r' = r) ∨ r.Grown p size r'
    | .mallocManaged size, r, .ok p, r' => r.Grown p size r'
    | .free p, r, none, r' => (p = 0 ∧ r' = r) ∨ ((∃ b, r.blocks[p]? = some b) ∧ r' = { blocks := r.blocks.erase p })
    | _, r, _, r' => r' = r

/-- The outside of an allocator over one of these backends. -/
def stack (β : Type) : Prog.World BackendCall BackendCall.Answer (Option RtBackend × Runtime β) := (world β).over RtBackend.serve

/-- A kernel writes an allocation. -/
def Kernel (s s' : Option RtBackend × Runtime β) : Prop := ∃ (p : Ptr) (x : β), s' = (s.1, s.2.write p x)

/-- A chunk is an allocation of its size. -/
def Backed (s : Option RtBackend × Runtime β) (c : Chunk) : Prop := ∃ y : β, s.2.blocks[c.ptr]? = some ⟨c.size, y⟩

end Runtime

/-- Memory is taken back. -/
def RtCall.Succeeds : (i : RtCall) → i.Answer → Prop
  | .free _, some _ => False
  | _, _ => True

/-- The outside of an allocator over one of these backends, where the runtime takes back all memory. -/
def Runtime.faultless (β : Type) : Prog.World BackendCall BackendCall.Answer (Option RtBackend × Runtime β) :=
  (((Runtime.world β).filter RtCall.Succeeds).over RtBackend.serve).filter BackendCall.Succeeds

end Vmem
