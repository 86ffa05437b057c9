import Vmem.Calls
import Vmem.Lib.OrdMap

/-!
# The vmem backend

`backends/vmem.h`: chunks over CUDA virtual memory management, with or without a broker. Each function is the program of the
source, call by call; the backend object is the state it works on.
-/

namespace Vmem

/-- What `last_error()` tells; the texts are built from these values. -/
inductive ErrText
  | none
  | contextInit
  | noVmm
  | cu (what : String) (e : CuError)
  | vmemd (path : List UInt8) (e : Errno)
  | noSocket
  | refusedAlloc
  | refusedMove (target : Loc)
  | send (e : Errno)
  | recv (e : Errno)
  | recvClosed
deriving DecidableEq, Repr

structure BackendConfig where
  device : Int := 0
  daemon : Option (List UInt8) := none
  name : Option (List UInt8) := none
  autoReconnect : Bool := false
deriving DecidableEq, Repr

/-- `VmemBackend::Rec`: one live chunk. -/
structure Rec where
  h : Handle
  size : Size
  loc : Loc
deriving DecidableEq, Repr

/-- The fields of `VmemBackend`; `fd` is `none` for `-1`, and `used_` is one field per location. -/
structure VmemBackend where
  dev : Int := 0
  numa : Int := 0
  gran : Size := 0
  auto : Bool := false
  usedDevice : Size := 0
  usedHost : Size := 0
  chunks : OrdMap Ptr Rec := ∅
  name : List UInt8 := []
  path : List UInt8 := []
  fd : Option Fd := none
  link : Link := .localMode
  err : ErrText := .none
deriving DecidableEq

namespace VmemBackend

def recvTimeoutS : Nat := 3

/-- `sizeof(sockaddr_un::sun_path)`. -/
def sunPathLen : Nat := 108

/-- `used(l)`. -/
def used (b : VmemBackend) : Loc → Size
  | .device => b.usedDevice
  | .host => b.usedHost

/-- Write `used_[l]`. -/
def setUsed (b : VmemBackend) (l : Loc) (x : Size) : VmemBackend :=
  match l with
  | .device => { b with usedDevice := x }
  | .host => { b with usedHost := x }

/-- Setting the bytes of a place sets those and no others. -/
@[simp] theorem used_setUsed (b : VmemBackend) (l l' : Loc) (x : Size) :
    (b.setUsed l x).used l' = if l = l' then x else b.used l' := by
  cases l <;> cases l' <;> rfl

/-- The chunks do not change the bytes. -/
@[simp] theorem used_setChunks (b : VmemBackend) (m : OrdMap Ptr Rec) (l : Loc) :
    ({ b with chunks := m } : VmemBackend).used l = b.used l := by
  cases l <;> rfl

/-- Setting the bytes leaves the chunks. -/
@[simp] theorem setUsed_chunks (b : VmemBackend) (l : Loc) (x : Size) : (b.setUsed l x).chunks = b.chunks := by
  cases l <;> rfl

/-- It leaves the link. -/
@[simp] theorem setUsed_link (b : VmemBackend) (l : Loc) (x : Size) : (b.setUsed l x).link = b.link := by cases l <;> rfl

/-- It leaves the descriptor. -/
@[simp] theorem setUsed_fd (b : VmemBackend) (l : Loc) (x : Size) : (b.setUsed l x).fd = b.fd := by cases l <;> rfl

/-- The chunks and their counts are the same in two backend objects. -/
structure SameMemory (b b' : VmemBackend) : Prop where
  chunks : b'.chunks = b.chunks
  device : b'.usedDevice = b.usedDevice
  host : b'.usedHost = b.usedHost

/-- An object has the memory that it has. -/
theorem SameMemory.refl (b : VmemBackend) : b.SameMemory b := ⟨rfl, rfl, rfl⟩

/-- The memory is the same through two steps. -/
theorem SameMemory.trans {b b' b'' : VmemBackend} (h : b.SameMemory b') (h' : b'.SameMemory b'') :
    b.SameMemory b'' :=
  ⟨h'.chunks.trans h.chunks, h'.device.trans h.device, h'.host.trans h.host⟩

/-- The same memory is counted the same. -/
theorem SameMemory.used {b b' : VmemBackend} (h : b.SameMemory b') (l : Loc) : b'.used l = b.used l := by
  cases l
  · exact h.device
  · exact h.host

/-- `used()`. -/
def usedAll (b : VmemBackend) : Size := b.usedDevice + b.usedHost

/-- `prop(l)`. -/
def prop (b : VmemBackend) (l : Loc) : MemProp := ⟨l, if l = .device then b.dev else b.numa⟩

end VmemBackend

/-- Code of the backend. -/
abbrev BackendM := Code Op Op.Answer VmemBackend

namespace VmemBackend

/-- Make a call. -/
def ask (i : Op) : BackendM i.Answer := Code.call i

/-! ## Driver calls -/

/-- Out of memory is not sticky; anything else is treated as fatal. -/
def cu (c : CuCall) (what : String) : BackendM (Status × BitVec 64) := do
  let r : Except CuError (BitVec 64) ← ask (.cu c)
  match r with
  | .ok v => pure (.ok, v)
  | .error e => do
    modify fun b => { b with err := .cu what e }
    pure (if e = .outOfMemory then .noMemory else .fatal, 0)

/-- A clean-up call, unchecked. -/
def drop (c : CuCall) : BackendM Unit := ask (.drop c)

/-- `_create`: a handle for `size` bytes at `l`. -/
def createHandle (size : Size) (l : Loc) : BackendM (Status × Handle) := do
  let b ← get
  cu (.create size (b.prop l)) (if l = .device then "cuMemCreate device" else "cuMemCreate host")

/-- Map and give the device read/write; unmaps again on failure. -/
def map (va : Ptr) (size : Size) (h : Handle) : BackendM Status := do
  let r ← cu (.map va size h) "cuMemMap"
  if r.1 ≠ .ok then pure r.1
  else do
    let b ← get
    let r ← cu (.setAccess va size b.dev) "cuMemSetAccess"
    if r.1 ≠ .ok then do
      drop (.unmap va size)
      pure r.1
    else pure r.1

/-! ## The link -/

/-- Close the socket, if there is one. -/
def closeFd : BackendM Unit := do
  let b ← get
  match b.fd with
  | some fd => ask (.close fd)
  | none => pure ()

/-- A failed send or receive breaks the link; the backend goes on in local mode. -/
def disconnectBroker (next : Link) : BackendM Unit := do
  closeFd
  modify fun b => { b with fd := none, link := next }

/-- Send a message; `false` if that failed. -/
def sendMsg (m : Msg) : BackendM Bool := do
  let b ← get
  if b.link ≠ .connected then pure false
  else do
    let r : Option Errno ← ask (.send b.fd m)
    match r with
    | none => pure true
    | some e => do
      modify fun b => { b with err := .send e }
      disconnectBroker .broken
      pure false

/-- Send a message and wait for its reply; `none` if that failed. -/
def sendAndRecv (m : Msg) : BackendM (Option Reply) := do
  let sent ← sendMsg m
  if !sent then pure none
  else do
    let b ← get
    let r : Received ← ask (.recv b.fd)
    match r with
    | .reply rep => pure (some rep)
    | .error e => do
      modify fun b => { b with err := .recv e }
      disconnectBroker .broken
      pure none
    | .short _ => do
      modify fun b => { b with err := .recvClosed }
      disconnectBroker .broken
      pure none

/-- The connected descriptor is taken over and the broker greeted; the reply is awaited. -/
def greet (fd : Fd) : BackendM (Option Errno) := do
  modify fun b => { b with fd := some fd, link := .connected }
  let b ← get
  let rep ← sendAndRecv { type := .hello, name := b.name.take (nameLen - 1) }
  pure (if rep.isSome then none else some .etimedout)

/-- Connect and say `Hello`; the errno of the failed step. -/
def connectBroker : BackendM (Option Errno) := do
  let b ← get
  if sunPathLen ≤ b.path.length then pure (some .enametoolong)
  else do
    let s : Except Errno Fd ← ask .socket
    match s with
    | .error e => pure (some e)
    | .ok fd => do
      let r : Option Errno ← ask (.setsockopt fd recvTimeoutS)
      match r with
      | some e => do
        ask (.close fd)
        pure (some e)
      | none => do
        let r : Option Errno ← ask (.connect fd b.path)
        match r with
        | some e => do
          ask (.close fd)
          pure (some e)
        | none => greet fd

/-- One `Resync` per live chunk. -/
def resyncAll : List (Ptr × Rec) → BackendM Unit
  | [] => pure ()
  | (va, c) :: cs => do
    let _ ← sendMsg { type := .resync, loc := c.loc.field, ptr := va, size := c.size }
    resyncAll cs

/-- After the broker restarts: `Hello`, then one `Resync` per live chunk. -/
def reconnect : BackendM Status := do
  let b ← get
  if b.path = [] then do
    modify fun b => { b with err := .noSocket }
    pure .unsupported
  else do
    disconnectBroker .broken
    let e ← connectBroker
    match e with
    | some e => do
      modify fun b => { b with err := .vmemd b.path e }
      pure .disconnected
    | none => do
      resyncAll b.chunks.toList
      let b ← get
      pure (if b.link = .connected then .ok else .disconnected)

/-- One attempt per decision point while unlinked, when `auto_reconnect` is set. -/
def maybeReconnect : BackendM Unit := do
  let b ← get
  if b.auto ∧ b.path ≠ [] ∧ b.link ≠ .connected then do
    let _ ← reconnect
    pure ()
  else pure ()

/-- Where a new chunk goes, and whether the broker has it in its counts now. Without a link the answer is the device. -/
def decidePlace (va : Ptr) (size : Size) : BackendM (Status × Loc × Bool) := do
  let b ← get
  if b.link ≠ .connected then pure (.ok, .device, false)
  else do
    let rep ← sendAndRecv { type := .alloc, loc := .device, ptr := va, size := size }
    match rep with
    | none => pure (.ok, .device, false)
    | some rep =>
      if rep.status ≠ .ok then do
        modify fun b => { b with err := .refusedAlloc }
        pure (.noMemory, .device, false)
      else pure (.ok, rep.loc, true)

/-! ## Opening and closing -/

/-- The tail of `open`: enter daemon mode if a broker answers; none running means local mode. -/
def openDaemon (c : BackendConfig) (invocation : List UInt8) : BackendM Status :=
  match c.daemon with
  | none => pure .ok
  | some path => do
    modify fun b => { b with path := path, name := c.name.getD invocation, auto := c.autoReconnect }
    let e ← connectBroker
    match e with
    | none => pure .ok
    | some e =>
      if e = .enoent ∨ e = .econnrefused then pure .ok
      else do
        modify fun b => { b with err := .vmemd b.path e }
        pure .disconnected

/-- The granularity, the same on both sides, so that a move keeps the size. -/
def readGranularity : BackendM Status := do
  let b ← get
  let gd ← cu (.granularity (b.prop .device)) "granularity"
  if gd.1 ≠ .ok then pure gd.1
  else do
    let gh ← cu (.granularity (b.prop .host)) "granularity"
    if gh.1 ≠ .ok then pure gh.1
    else do
      modify fun b => { b with gran := if gd.2 > gh.2 then gd.2 else gh.2 }
      pure .ok

/-- `open`; `invocation` is the program's name, the default for the tenant's. -/
def openBackend (c : BackendConfig) (invocation : List UInt8) : BackendM Status := do
  modify fun b => { b with dev := c.device }
  let set : Bool ← ask (.cudaSetDevice c.device)
  let ctx : Bool ← (if set then ask .cudaFreeNull else pure false)
  if !ctx then do
    modify fun b => { b with err := .contextInit }
    pure .fatal
  else do
    let vmm : Int ← ask (.attribute .vmm c.device)
    let hostVmm : Int ← ask (.attribute .hostVmm c.device)
    let numa : Int ← ask (.attribute .hostNumaId c.device)
    if vmm = 0 ∨ hostVmm = 0 then do
      modify fun b => { b with err := .noVmm }
      pure .unsupported
    else do
      modify fun b => { b with numa := if numa < 0 then 0 else numa }
      let s ← readGranularity
      if s ≠ .ok then pure s
      else openDaemon c invocation

/-- `close`: an explicit disconnect goes back to local mode. -/
def closeBackend : BackendM Unit := disconnectBroker .localMode

/-! ## Create and destroy -/

/-- The handle of a new chunk: where it was placed, or on host when the device turns out to be full, which the broker is told
if it has the chunk in its counts. -/
def createAt (va : Ptr) (size : Size) (loc : Loc) (counted : Bool) : BackendM (Status × Loc × Handle) := do
  let r ← createHandle size loc
  if r.1 = .noMemory ∧ loc = .device then do
    let r ← createHandle size .host
    if r.1 = .ok ∧ counted then do
      let _ ← sendMsg { type := .allocFail, loc := Loc.field .host, ptr := va }
      pure (r.1, .host, r.2)
    else pure (r.1, .host, r.2)
  else pure (r.1, loc, r.2)

/-- The handle, mapped. -/
def createMapped (va : Ptr) (size : Size) (loc : Loc) (counted : Bool) : BackendM (Status × Loc × Handle) := do
  let r ← createAt va size loc counted
  if r.1 = .ok then do
    let s ← map va size r.2.2
    if s ≠ .ok then do
      drop (.release r.2.2)
      pure (s, r.2)
    else pure (s, r.2)
  else pure r

/-- The broker counted a chunk that failed: tell it. -/
def unplace (va : Ptr) (loc : Loc) (counted : Bool) : BackendM Unit :=
  if counted then do
    let _ ← sendMsg { type := .free, loc := loc.field, ptr := va }
    pure ()
  else pure ()

/-- `create`; `out` is written on success. -/
def create (size : Size) (out : Chunk) : BackendM (Status × Chunk) := do
  let b ← get
  let r ← cu (.reserve size b.gran) "cuMemAddressReserve"
  let va := r.2
  if r.1 ≠ .ok then pure (r.1, out)
  else do
    maybeReconnect
    let d ← decidePlace va size
    if d.1 ≠ .ok then do
      drop (.addressFree va size)
      pure (d.1, out)
    else do
      let counted := d.2.2
      let r ← createMapped va size d.2.1 counted
      let loc := r.2.1
      if r.1 ≠ .ok then do
        unplace va loc counted
        drop (.addressFree va size)
        pure (r.1, out)
      else do
        modify fun b =>
          ({ b with chunks := b.chunks.insert va ⟨r.2.2, size, loc⟩ } : VmemBackend).setUsed loc (b.used loc + size)
        pure (.ok, ⟨va, size, loc⟩)

/-- `chunks_.at(va).h`. -/
def handleOf (va : Ptr) : BackendM Handle := do
  let b ← get
  match b.chunks[va]? with
  | some r => pure r.h
  | none => do
    let e : Empty ← ask .atFailed
    e.elim

/-- The driver calls of `destroy`: unmap, release, free the address, each after the last succeeded. -/
def destroyCalls (va : Ptr) (size : Size) : BackendM Status := do
  let r ← cu (.unmap va size) "cuMemUnmap"
  if r.1 ≠ .ok then pure r.1
  else do
    let h ← handleOf va
    let r ← cu (.release h) "cuMemRelease"
    if r.1 ≠ .ok then pure r.1
    else do
      let r ← cu (.addressFree va size) "cuMemAddressFree"
      pure r.1

/-- `destroy`; the caller's chunk is cleared on success. -/
def destroy (c : Chunk) : BackendM (Status × Chunk) := do
  let s ← destroyCalls c.ptr c.size
  if s ≠ .ok then pure (.fatal, c)
  else do
    modify fun b => ({ b with chunks := b.chunks.erase c.ptr } : VmemBackend).setUsed c.loc (b.used c.loc - c.size)
    let _ ← sendMsg { type := .free, loc := c.loc.field, ptr := c.ptr }
    pure (.ok, {})

/-! ## Move -/

/-- The copy of `copyInto`, once the new handle is mapped at the scratch range: copy and fence. -/
def copyFenced (dst src : Ptr) (size : Size) : BackendM Status := do
  let r ← cu (.memcpyDtoD dst src size) "cuMemcpyDtoD"
  if r.1 ≠ .ok then pure r.1
  else do
    let r ← cu .synchronize "copy sync"
    pure r.1

/-- The copy through the scratch range `tmp`: mapped for the copy only. -/
def copyVia (tmp : Ptr) (nh : Handle) (va : Ptr) (size : Size) : BackendM Status := do
  let s ← map tmp size nh
  if s = .ok then do
    let s ← copyFenced tmp va size
    drop (.unmap tmp size)
    pure s
  else pure s

/-- Copy the chunk at `va` into `nh`; the scratch range is gone afterwards. -/
def copyInto (nh : Handle) (va : Ptr) (size : Size) : BackendM Status := do
  let b ← get
  let r ← cu (.reserve size b.gran) "cuMemAddressReserve"
  let tmp := r.2
  let s ← (if r.1 = .ok then copyVia tmp nh va size else pure r.1)
  if tmp ≠ 0 then do
    drop (.addressFree tmp size)
    pure s
  else pure s

/-- Swap `nh` in under `va`; if it will not map, put `old` back. `Fatal` if even that fails. -/
def replaceBacking (va : Ptr) (size : Size) (old nh : Handle) : BackendM Status := do
  let r ← cu (.unmap va size) "cuMemUnmap"
  if r.1 ≠ .ok then pure r.1
  else do
    let s ← map va size nh
    if s = .ok then pure s
    else do
      let back ← map va size old
      pure (if back = .ok then s else .fatal)

/-- Copy into a new handle, then swap it in under the same address. On failure the chunk keeps its old handle. -/
def swap (c : Chunk) (target : Loc) : BackendM (Status × Chunk) := do
  let old ← handleOf c.ptr
  let n ← createHandle c.size target
  if n.1 ≠ .ok then pure (n.1, c)
  else do
    let s ← copyInto n.2 c.ptr c.size
    let s ← (if s = .ok then replaceBacking c.ptr c.size old n.2 else pure s)
    if s ≠ .ok then do
      drop (.release n.2)
      pure (s, c)
    else do
      drop (.release old)
      modify fun b => { b with chunks := b.chunks.insert c.ptr ⟨n.2, c.size, target⟩ }
      modify fun b => b.setUsed c.loc (b.used c.loc - c.size)
      modify fun b => b.setUsed target (b.used target + c.size)
      pure (.ok, { c with loc := target })

/-- Swap, and report where the chunk is if the broker granted the move. -/
def swapReported (c : Chunk) (target : Loc) (asked : Bool) : BackendM (Status × Chunk) := do
  let r ← swap c target
  if asked then do
    let _ ← sendMsg { type := .moveDone, loc := r.2.loc.field, ptr := c.ptr }
    pure r
  else pure r

/-- `move`; the caller's chunk gets its new location on success. -/
def move (c : Chunk) (target : Loc) : BackendM (Status × Chunk) := do
  if c.loc = target then pure (.ok, c)
  else do
    maybeReconnect
    let b ← get
    if b.link = .connected then do
      let rep ← sendAndRecv { type := .move, loc := target.field, ptr := c.ptr }
      match rep with
      | none => swapReported c target false
      | some rep =>
        if rep.status ≠ .ok then do
          modify fun b => { b with err := .refusedMove target }
          pure (.noMemory, c)
        else swapReported c target true
    else swapReported c target false

end VmemBackend

end Vmem
