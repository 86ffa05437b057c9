import Vmem.Protocol

/-!
# The broker

`daemon/vmemd.cpp`: the records the broker keeps for each tenant, the global counts, one handler per message, and the events
of its loop. A handler works on the tenant record it is passed and on the global counts (`Work`); it also collects the lines
it logs. The global counts are kept incrementally, modulo 2^64, exactly where the source updates them.
-/

namespace Vmem

/-- `UNLIMITED`, `SIZE_MAX`. -/
def unlimited : Size := BitVec.allOnes 64

structure ChunkRec where
  size : Size
  loc : LocField
deriving DecidableEq, Repr

/-- `Tenant::Move`: a granted move, waiting for its `MoveDone`. -/
structure Move where
  ptr : Ptr
  target : LocField
deriving DecidableEq, Repr

structure Tenant where
  pid : Nat := 0
  name : List UInt8 := []
  hello : Bool := false
  chunks : OrdMap Ptr ChunkRec := ∅
  moving : Option Move := none
  device : Size := 0
  host : Size := 0
  vramLimit : Size := unlimited
  dramLimit : Size := unlimited
deriving DecidableEq

structure Global where
  vramLimit : Size := unlimited
  dramLimit : Size := unlimited
  ctxOverhead : Size := 0
  device : Size := 0
  host : Size := 0
deriving DecidableEq, Repr

structure Broker where
  tenants : OrdMap Fd Tenant := ∅
  g : Global := {}
deriving DecidableEq

/-! ## Logging -/

/-- The lines of the log, with the values they print (sizes in bytes here; the log rounds them to MiB). -/
inductive LogLine
  | connect (pid : Nat) (fd : Fd)
  | disconnect (pid : Nat) (name : List UInt8)
  | hello (pid : Nat) (name : List UInt8)
  | allocHeld (pid : Nat) (ptr : Ptr)
  | allocRefused (pid : Nat) (size : Size)
  | alloc (pid : Nat) (size : Size) (l : Loc)
  | allocFailUnknown (pid : Nat) (ptr : Ptr)
  | allocFailOnHost (pid : Nat) (ptr : Ptr)
  | allocFail (pid : Nat) (size : Size)
  | moveUnknown (pid : Nat) (ptr : Ptr)
  | moveBusy (pid : Nat) (ptr moving : Ptr)
  | moveRefused (pid : Nat) (size : Size) (target : LocField)
  | move (pid : Nat) (size : Size) (loc target : LocField)
  | moveDoneUnknown (pid : Nat) (ptr : Ptr)
  | moveDoneUngranted (pid : Nat) (ptr : Ptr) (place : LocField)
  | moveFailed (pid : Nat) (ptr : Ptr) (place : LocField)
  | resyncTracked (pid : Nat) (ptr : Ptr)
  | resync (pid : Nat) (size : Size) (place : LocField)
  | freeUnknown (pid : Nat) (ptr : Ptr)
  | freeMoving (pid : Nat) (ptr : Ptr)
  | free (pid : Nat) (size : Size) (loc : LocField)
  | overLimit (l : LocField) (pid : Nat) (tenant all limit : Size)
  | unhandled (pid : Nat) (type : MsgType)
  | wrongSize (pid : Nat) (n : Int)
deriving DecidableEq

/-- What a handler works on: the tenant it is passed, the global counts and the lines logged so far. `wrapped` is no data of
the source: it records that a subtraction of `updateCount` went below zero. -/
structure Work where
  t : Tenant
  g : Global
  log : List LogLine := []
  wrapped : Bool := false
deriving DecidableEq

def Work.say (w : Work) (line : LogLine) : Work := { w with log := w.log ++ [line] }

/-! ## Accounting -/

/-- `used_bytes(t, l)`: every value but `Device` reads the host count. -/
def Tenant.usedBytes (t : Tenant) : LocField → Size
  | .device => t.device
  | _ => t.host

/-- `used_bytes(l)`. -/
def Global.usedBytes (g : Global) : LocField → Size
  | .device => g.device
  | _ => g.host

/-- The limit of a tenant at a location. -/
def Tenant.limit (t : Tenant) : LocField → Size
  | .device => t.vramLimit
  | _ => t.dramLimit

/-- The global limit at a location. -/
def Global.limit (g : Global) : LocField → Size
  | .device => g.vramLimit
  | _ => g.dramLimit

/-- Write the count that `usedBytes` reads. -/
def Tenant.setUsed (t : Tenant) (l : LocField) (x : Size) : Tenant :=
  match l with
  | .device => { t with device := x }
  | _ => { t with host := x }

/-- Write the count that `usedBytes` reads. -/
def Global.setUsed (g : Global) (l : LocField) (x : Size) : Global :=
  match l with
  | .device => { g with device := x }
  | _ => { g with host := x }

/-- Room for `size` more bytes at `l`, under both the tenant's and the global limit. The sums wrap. -/
def fitsLimit (w : Work) (l : LocField) (size : Size) : Bool :=
  decide (w.t.usedBytes l + size ≤ w.t.limit l) && decide (w.g.usedBytes l + size ≤ w.g.limit l)

/-- Add or remove a chunk's bytes at `l`, for the tenant and the global total. -/
def updateCount (w : Work) (l : LocField) (size : Size) (add : Bool) : Work :=
  if add then
    { w with
      t := w.t.setUsed l (w.t.usedBytes l + size)
      g := w.g.setUsed l (w.g.usedBytes l + size) }
  else
    { w with
      t := w.t.setUsed l (w.t.usedBytes l - size)
      g := w.g.setUsed l (w.g.usedBytes l - size)
      wrapped := w.wrapped || decide (w.t.usedBytes l < size) || decide (w.g.usedBytes l < size) }

/-- Log usage over a limit after a chunk the broker could not refuse. -/
def checkOverLimit (w : Work) (l : LocField) : Work :=
  if w.t.usedBytes l > w.t.limit l ∨ w.g.usedBytes l > w.g.limit l then
    w.say (.overLimit l w.t.pid (w.t.usedBytes l) (w.g.usedBytes l) (w.g.limit l))
  else w

/-- Record a chunk in the tenant's table. -/
def Work.setChunk (w : Work) (ptr : Ptr) (c : ChunkRec) : Work :=
  { w with t := { w.t with chunks := w.t.chunks.insert ptr c } }

/-- Drop a chunk from the tenant's table. -/
def Work.eraseChunk (w : Work) (ptr : Ptr) : Work :=
  { w with t := { w.t with chunks := w.t.chunks.erase ptr } }

def Work.setMoving (w : Work) (mv : Option Move) : Work := { w with t := { w.t with moving := mv } }

/-! ## Handlers -/

/-- A new chunk counted at `l`: the end of `handle_alloc` once there is room. -/
def countAlloc (w : Work) (size : Size) (ptr : Ptr) (l : Loc) : Work × Reply :=
  ((updateCount (w.setChunk ptr ⟨size, l.field⟩) l.field size true).say (.alloc w.t.pid size l), ⟨.ok, l⟩)

/-- Device until the VRAM limit, then host until the DRAM limit, then `NoMemory`. The reply's location is the caller's default
`Host` when there is none. -/
def handleAlloc (w : Work) (size : Size) (ptr : Ptr) : Work × Reply :=
  if w.t.chunks.contains ptr then (w.say (.allocHeld w.t.pid ptr), ⟨.unsupported, .host⟩)
  else if fitsLimit w .device size then countAlloc w size ptr .device
  else if fitsLimit w .host size then countAlloc w size ptr .host
  else (w.say (.allocRefused w.t.pid size), ⟨.noMemory, .host⟩)

/-- The device `cuMemCreate` failed after the broker said device; the chunk is on host now. -/
def handleAllocFail (w : Work) (ptr : Ptr) : Work :=
  match w.t.chunks[ptr]? with
  | none => w.say (.allocFailUnknown w.t.pid ptr)
  | some c =>
    if c.loc ≠ .device then w.say (.allocFailOnHost w.t.pid ptr)
    else
      let w := updateCount w .device c.size false
      let w := updateCount w .host c.size true
      let w := w.setChunk ptr { c with loc := .host }
      checkOverLimit (w.say (.allocFail w.t.pid c.size)) .host

/-- Evict or prefetch: grant if the target has room, and reserve the bytes there until `MoveDone`. -/
def handleMove (w : Work) (ptr : Ptr) (target : LocField) : Work × Status :=
  match w.t.chunks[ptr]? with
  | none => (w.say (.moveUnknown w.t.pid ptr), .noMemory)
  | some c =>
    if c.loc = target then (w, .ok)
    else
      match w.t.moving with
      | some mv => (w.say (.moveBusy w.t.pid ptr mv.ptr), .noMemory)
      | none =>
        if !fitsLimit w target c.size then (w.say (.moveRefused w.t.pid c.size target), .noMemory)
        else
          -- the chunk still counts at its old location too
          let w := (updateCount w target c.size true).setMoving (some ⟨ptr, target⟩)
          (w.say (.move w.t.pid c.size c.loc target), .ok)

/-- The first half of `handle_move_done`: release the reservation of the granted move of `ptr`, if there is one. -/
def releaseMove (w : Work) (ptr : Ptr) (size : Size) (place : LocField) : Work :=
  match w.t.moving with
  | none => w.say (.moveDoneUngranted w.t.pid ptr place)
  | some mv =>
    if mv.ptr ≠ ptr then w.say (.moveDoneUngranted w.t.pid ptr place)
    else
      let w := updateCount w mv.target size false
      let w := if place ≠ mv.target then w.say (.moveFailed w.t.pid ptr place) else w
      w.setMoving none

/-- The second half of `handle_move_done`: count the chunk where the tenant says it is. -/
def relocate (w : Work) (ptr : Ptr) (c : ChunkRec) (place : LocField) : Work :=
  if place ≠ c.loc then
    let w := updateCount w c.loc c.size false
    let w := updateCount w place c.size true
    checkOverLimit (w.setChunk ptr { c with loc := place }) place
  else w

/-- The move finished or failed; a tenant may also report a place without a granted move. -/
def handleMoveDone (w : Work) (ptr : Ptr) (place : LocField) : Work :=
  match w.t.chunks[ptr]? with
  | none => w.say (.moveDoneUnknown w.t.pid ptr)
  | some c => relocate (releaseMove w ptr c.size place) ptr c place

/-- The start of `handle_resync`: a pointer that is already tracked is overwritten, so its old bytes go. -/
def dropTracked (w : Work) (ptr : Ptr) : Work :=
  match w.t.chunks[ptr]? with
  | none => w
  | some c => updateCount (w.say (.resyncTracked w.t.pid ptr)) c.loc c.size false

/-- The tenant reports a live chunk; the broker trusts it, even over a limit. -/
def handleResync (w : Work) (ptr : Ptr) (size : Size) (place : LocField) : Work :=
  let w := updateCount ((dropTracked w ptr).setChunk ptr ⟨size, place⟩) place size true
  checkOverLimit (w.say (.resync w.t.pid size place)) place

/-- The start of `handle_free`: a chunk that is moving also gives up its reservation. -/
def dropMove (w : Work) (ptr : Ptr) (size : Size) : Work :=
  match w.t.moving with
  | none => w
  | some mv =>
    if mv.ptr ≠ ptr then w
    else (updateCount (w.say (.freeMoving w.t.pid ptr)) mv.target size false).setMoving none

def handleFree (w : Work) (ptr : Ptr) : Work :=
  match w.t.chunks[ptr]? with
  | none => w.say (.freeUnknown w.t.pid ptr)
  | some c =>
    let w := updateCount (dropMove w ptr c.size) c.loc c.size false
    (w.say (.free w.t.pid c.size c.loc)).eraseChunk ptr

/-- The first `Hello` names the tenant and counts its context overhead; later ones only sync. -/
def handleHello (w : Work) (name : List UInt8) : Work :=
  if w.t.hello then w
  else
    let name := (name.take nameLen).takeWhile (· ≠ 0)
    let w := updateCount { w with t := { w.t with hello := true, name } } .device w.g.ctxOverhead true
    w.say (.hello w.t.pid name)

/-- One message from one tenant, with the reply it gets: `Hello`, `Alloc` and `Move` get one. -/
def handle (w : Work) (m : Msg) : Work × Option Reply :=
  match m.type with
  | .hello => (handleHello w m.name, some ⟨.ok, .device⟩)
  | .alloc =>
    let r := handleAlloc w m.size m.ptr
    (r.1, some r.2)
  | .allocFail => (handleAllocFail w m.ptr, none)
  | .move =>
    let r := handleMove w m.ptr m.loc
    (r.1, some ⟨r.2, .device⟩)
  | .moveDone => (handleMoveDone w m.ptr m.loc, none)
  | .resync => (handleResync w m.ptr m.size m.loc, none)
  | .free => (handleFree w m.ptr, none)
  | .other raw => (w.say (.unhandled w.t.pid (.other raw)), none)

/-! ## Events -/

/-- What one event of the loop leaves behind: the broker, the reply it sent, the lines it logged, and whether a subtraction of
`updateCount` went below zero. -/
structure Outcome where
  b : Broker
  reply : Option Reply := none
  log : List LogLine := []
  wrapped : Bool := false
deriving DecidableEq

/-- A connection was accepted; the record is created with its defaults. -/
def Broker.onConnect (b : Broker) (fd : Fd) (pid : Nat) : Outcome :=
  { b := { b with tenants := b.tenants.insert fd { b.tenants.getD fd {} with pid } }
    log := [.connect pid fd] }

/-- Clean exit and crash look the same: the socket closed. -/
def Broker.onDisconnect (b : Broker) (fd : Fd) (t : Tenant) : Outcome :=
  { b :=
      { tenants := b.tenants.erase fd
        g := { b.g with device := b.g.device - t.device, host := b.g.host - t.host } }
    log := [.disconnect t.pid t.name] }

/-- Run the handler of a message on the tenant's record and the global counts. -/
def Broker.onMsg (b : Broker) (fd : Fd) (t : Tenant) (m : Msg) : Outcome :=
  let r := handle { t, g := b.g } m
  { b := { tenants := b.tenants.insert fd r.1.t, g := r.1.g }
    reply := r.2
    log := r.1.log
    wrapped := r.1.wrapped }

/-- What `recv` of one packet returned: its result, whether `errno` is `EINTR`, and the message read. -/
structure Recv where
  n : Int
  eintr : Bool := false
  m : Msg
deriving DecidableEq

def Broker.onReadable (b : Broker) (fd : Fd) (t : Tenant) (r : Recv) : Outcome :=
  if r.n < 0 ∧ r.eintr then { b }
  else if r.n ≤ 0 then b.onDisconnect fd t
  else if r.n ≠ sizeofMsg then
    let o := b.onDisconnect fd t
    { o with log := .wrongSize t.pid r.n :: o.log }
  else b.onMsg fd t r.m

/-- An event of the loop: a connection accepted by the kernel, or a readable tenant socket. -/
inductive Event
  | connect (fd : Fd) (pid : Nat)
  | readable (fd : Fd) (r : Recv)
deriving DecidableEq

/-- The tenant an event comes from. -/
def Event.fd : Event → Fd
  | .connect fd _ => fd
  | .readable fd _ => fd

/-- A whole message arrives. -/
def Event.msg (fd : Fd) (m : Msg) : Event := .readable fd ⟨sizeofMsg, false, m⟩

/-- The socket closed. -/
def Event.disconnect (fd : Fd) : Event := .readable fd ⟨0, false, ⟨.hello, .device, 0, 0, []⟩⟩

/-- One event. Only descriptors of connected tenants are watched. -/
def Broker.step (b : Broker) : Event → Outcome
  | .connect fd pid => b.onConnect fd pid
  | .readable fd r =>
    match b.tenants[fd]? with
    | none => { b }
    | some t => b.onReadable fd t r

/-- The broker after a sequence of events. -/
def Broker.run (b : Broker) (es : List Event) : Broker := es.foldl (fun b e => (b.step e).b) b

/-- The broker as it starts, with the limits and the overhead of its configuration. -/
def Broker.start (cfg : Global) : Broker := { g := { cfg with device := 0, host := 0 } }

end Vmem
