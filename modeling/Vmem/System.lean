import Vmem.Backend
import Vmem.Counts

/-!
# Clients and broker

Processes that each run one vmem backend, connected to one broker by in-order channels. A process takes the calls of its
program one at a time; between any two steps the broker may accept, read or drop a connection, or crash and start again, and
other processes may act, come and go. Every call may fail. Of the driver only this is assumed: it hands out no address range
and no handle that is still in use.
-/

namespace Vmem

/-- The number of a connection; numbers are not used again. They stand for the broker's descriptors. -/
abbrev ConnId := Fd

/-! ## The driver, as far as the counts depend on it -/

/-- Physical memory that backs a chunk, or will once a call is through. -/
structure Copy where
  size : Size
  loc : Loc
deriving DecidableEq, Repr

/-- The reserved address ranges of a process by their base, and the copies it holds by their handle. -/
structure Gpu where
  reserved : OrdMap Ptr Size := ∅
  copies : OrdMap Handle Copy := ∅
deriving DecidableEq

/-- What a call hands out is not in use. -/
def Gpu.Fresh (g : Gpu) (c : CuCall) (v : BitVec 64) : Prop :=
  match c with
  | .reserve _ _ => g.reserved[v]? = none
  | .create _ _ => g.copies[v]? = none
  | _ => True

/-- The effect of a successful call that answered `v`. -/
def Gpu.after (g : Gpu) (c : CuCall) (v : BitVec 64) : Gpu :=
  match c with
  | .reserve size _ => { g with reserved := g.reserved.insert v size }
  | .addressFree va _ => { g with reserved := g.reserved.erase va }
  | .create size p => { g with copies := g.copies.insert v ⟨size, p.loc⟩ }
  | .release h => { g with copies := g.copies.erase h }
  | _ => g

/-- A checked call: it fails and changes nothing, or succeeds. -/
def Gpu.Calls (g : Gpu) (c : CuCall) (r : Except CuError (BitVec 64)) (g' : Gpu) : Prop :=
  match r with
  | .error _ => g' = g
  | .ok v => g.Fresh c v ∧ g' = g.after c v

/-- An unchecked call: it may fail unseen. A handle is given up either way: one that could not be released is leaked, and backs
no chunk. -/
def Gpu.Drops (g : Gpu) (c : CuCall) (g' : Gpu) : Prop :=
  g' = g.after c 0 ∨ ((∀ h, c ≠ .release h) ∧ g' = g)

/-! ## Processes and connections -/

/-- The calls of the program that uses the backend; a chunk is named by its address. -/
inductive ClientCall
  | create (size : Size)
  | destroy (va : Ptr)
  | move (va : Ptr) (target : Loc)
  | reconnect
  | close
deriving DecidableEq, Repr

/-- The rest of a call: what is left to do, ending with the chunks the program holds and the backend object. -/
abbrev ClientProg := Prog Op Op.Answer (OrdMap Ptr Chunk × VmemBackend)

/-- A process: its backend and the chunks it holds as the last call left them, its part of the driver, its open sockets with
the connection of each, and the rest of the call it is in. -/
structure Client where
  b : VmemBackend := {}
  held : OrdMap Ptr Chunk := ∅
  gpu : Gpu := {}
  socks : OrdMap Fd (Option ConnId) := ∅
  run : Option ClientProg := none

/-- The call that a process makes, if it has the chunk. -/
def ClientCall.program (held : OrdMap Ptr Chunk) (b : VmemBackend) : ClientCall → Option ClientProg
  | .create size => some do
    let r ← VmemBackend.create size {} b
    pure (if r.1.1 = .ok then held.insert r.1.2.ptr r.1.2 else held, r.2)
  | .destroy va =>
    match held[va]? with
    | none => none
    | some c => some do
      let r ← VmemBackend.destroy c b
      pure (if r.1.1 = .ok then held.erase va else held.insert va r.1.2, r.2)
  | .move va target =>
    match held[va]? with
    | none => none
    | some c => some do
      let r ← VmemBackend.move c target b
      pure (held.insert va r.1.2, r.2)
  | .reconnect => some do
    let r ← VmemBackend.reconnect b
    pure (held, r.2)
  | .close => some do
    let r ← VmemBackend.closeBackend b
    pure (held, r.2)

/-- `open`, on a new backend. -/
def opening (c : BackendConfig) (invocation : List UInt8) : ClientProg := do
  let r ← VmemBackend.openBackend c invocation {}
  pure (∅, r.2)

/-- A connection: the messages sent and not read yet, the replies not received yet, whether the client closed its end and
whether the broker's end is gone. `whole` is no data of the source: it records that the client held no copy when it connected
and sent no `Resync`, so the broker was asked about all its memory. -/
structure Conn where
  owner : Nat
  whole : Bool
  accepted : Bool := false
  up : List Msg := []
  down : List Reply := []
  shut : Bool := false
  gone : Bool := false
deriving DecidableEq

/-- A message is sent: it waits for the broker, or is lost when the broker's end is gone. -/
def Conn.push (c : Conn) (m : Msg) : Conn :=
  if c.gone then c else { c with up := c.up ++ [m], whole := c.whole && decide (m.type ≠ .resync) }

/-- The connections after a descriptor of them is closed. -/
def shutConn (conns : OrdMap ConnId Conn) : Option (Option ConnId) → OrdMap ConnId Conn
  | some (some n) =>
    match conns[n]? with
    | none => conns
    | some c => conns.insert n { c with shut := true }
  | _ => conns

structure Sys where
  broker : Broker
  clients : OrdMap Nat Client := ∅
  conns : OrdMap ConnId Conn := ∅

/-! ## Steps -/

/-- One call of process `i` with its answer, and the process and the connections after it. -/
def Act (conns : OrdMap ConnId Conn) (i : Nat) (cl : Client) :
    (o : Op) → o.Answer → Client → OrdMap ConnId Conn → Prop
  | .cu c, r, cl', cs => cs = conns ∧ ∃ g, cl.gpu.Calls c r g ∧ cl' = { cl with gpu := g }
  | .drop c, _, cl', cs => cs = conns ∧ ∃ g, cl.gpu.Drops c g ∧ cl' = { cl with gpu := g }
  | .socket, r, cl', cs => cs = conns ∧
    match r with
    | .error _ => cl' = cl
    | .ok fd => cl.socks[fd]? = none ∧ cl' = { cl with socks := cl.socks.insert fd none }
  | .connect fd _, r, cl', cs =>
    match r with
    | some _ => cl' = cl ∧ cs = conns
    | none => cl.socks[fd]? = some none ∧ ∃ n : ConnId, conns[n]? = none ∧
      cl' = { cl with socks := cl.socks.insert fd (some n) } ∧
      cs = conns.insert n { owner := i, whole := cl.gpu.copies.isEmpty }
  | .close fd, _, cl', cs => cl' = { cl with socks := cl.socks.erase fd } ∧ cs = shutConn conns cl.socks[fd]?
  | .send fd m, r, cl', cs => cl' = cl ∧
    match r with
    | some _ => cs = conns
    | none => ∃ (f : Fd) (n : ConnId) (c : Conn), fd = some f ∧ cl.socks[f]? = some (some n) ∧ conns[n]? = some c ∧
      cs = conns.insert n (c.push m)
  | .recv fd, r, cl', cs => cl' = cl ∧
    match r with
    | .reply rep => ∃ (f : Fd) (n : ConnId) (c : Conn) (rest : List Reply), fd = some f ∧ cl.socks[f]? = some (some n) ∧
      conns[n]? = some c ∧ c.down = rep :: rest ∧ cs = conns.insert n { c with down := rest }
    | _ => cs = conns
  | .setsockopt _ _, _, cl', cs => cl' = cl ∧ cs = conns
  | .cudaSetDevice _, _, cl', cs => cl' = cl ∧ cs = conns
  | .cudaFreeNull, _, cl', cs => cl' = cl ∧ cs = conns
  | .attribute _ _, _, cl', cs => cl' = cl ∧ cs = conns
  | .atFailed, _, _, _ => False

/-- What happens in one step. -/
inductive Label
  | join (i : Nat) (c : BackendConfig) (invocation : List UInt8)
  | call (i : Nat) (c : ClientCall)
  | act (i : Nat) (o : Op) (r : o.Answer)
  | ret (i : Nat)
  | exit (i : Nat)
  | accept (n : ConnId)
  | deliver (n : ConnId) (m : Msg)
  | hangup (n : ConnId)
  | fail (n : ConnId)
  | crash

/-- The connections after a process is gone: every socket of it is closed. -/
def shutAll (conns : OrdMap ConnId Conn) (socks : OrdMap Fd (Option ConnId)) : OrdMap ConnId Conn :=
  socks.toList.foldl (fun cs p => shutConn cs (some p.2)) conns

/-- A crash takes every connection with it. -/
def dropAll (conns : OrdMap ConnId Conn) : OrdMap ConnId Conn := conns.map fun _ c => { c with gone := true }

/-- One step of the system; `cfg` is the configuration the broker starts with. -/
inductive Sys.Step (cfg : Global) (s : Sys) : Label → Sys → Prop
  | join {i : Nat} {c : BackendConfig} {invocation : List UInt8} (hi : s.clients[i]? = none) :
      Step cfg s (.join i c invocation) { s with clients := s.clients.insert i { run := some (opening c invocation) } }
  | call {i : Nat} {c : ClientCall} {cl : Client} {p : ClientProg} (hi : s.clients[i]? = some cl) (hrun : cl.run = none)
      (hp : c.program cl.held cl.b = some p) :
      Step cfg s (.call i c) { s with clients := s.clients.insert i { cl with run := some p } }
  | act {i : Nat} {o : Op} {r : o.Answer} {cl cl' : Client} {k : o.Answer → ClientProg} {cs : OrdMap ConnId Conn}
      (hi : s.clients[i]? = some cl) (hrun : cl.run = some (.op o k)) (h : Act s.conns i cl o r cl' cs) :
      Step cfg s (.act i o r) { s with clients := s.clients.insert i { cl' with run := some (k r) }, conns := cs }
  | ret {i : Nat} {cl : Client} {held : OrdMap Ptr Chunk} {b : VmemBackend} (hi : s.clients[i]? = some cl)
      (hrun : cl.run = some (.ret (held, b))) :
      Step cfg s (.ret i) { s with clients := s.clients.insert i { cl with b, held, run := none } }
  | exit {i : Nat} {cl : Client} (hi : s.clients[i]? = some cl) :
      Step cfg s (.exit i) { s with clients := s.clients.erase i, conns := shutAll s.conns cl.socks }
  | accept {n : ConnId} {c : Conn} (hn : s.conns[n]? = some c) (ha : c.accepted = false) (hg : c.gone = false) :
      Step cfg s (.accept n)
        { s with broker := (s.broker.step (.connect n c.owner)).b, conns := s.conns.insert n { c with accepted := true } }
  | deliver {n : ConnId} {c : Conn} {m : Msg} {ms : List Msg} (hn : s.conns[n]? = some c) (ha : c.accepted = true)
      (hg : c.gone = false) (hup : c.up = m :: ms) :
      Step cfg s (.deliver n m)
        { s with
          broker := (s.broker.step (.msg n m)).b
          conns := s.conns.insert n { c with up := ms, down := c.down ++ (s.broker.step (.msg n m)).reply.toList } }
  | hangup {n : ConnId} {c : Conn} (hn : s.conns[n]? = some c) (ha : c.accepted = true) (hg : c.gone = false)
      (hup : c.up = []) (hs : c.shut = true) :
      Step cfg s (.hangup n)
        { s with broker := (s.broker.step (.disconnect n)).b, conns := s.conns.insert n { c with gone := true } }
  | fail {n : ConnId} {c : Conn} {m : Msg} (hn : s.conns[n]? = some c) (ha : c.accepted = true) (hg : c.gone = false) :
      Step cfg s (.fail n)
        { s with
          broker := (s.broker.step (.readable n ⟨-1, false, m⟩)).b
          conns := s.conns.insert n { c with gone := true } }
  | crash : Step cfg s .crash { s with broker := Broker.start cfg, conns := dropAll s.conns }

/-- The system before anything happened. -/
def Sys.start (cfg : Global) : Sys := { broker := Broker.start cfg }

/-- The states of the runs whose steps all satisfy `A`. -/
inductive Sys.Reached (cfg : Global) (A : Sys → Label → Sys → Prop) : Sys → Prop
  | start : Reached cfg A (Sys.start cfg)
  | step {s s' : Sys} {l : Label} (h : Reached cfg A s) (hs : s.Step cfg l s') (ha : A s l s') : Reached cfg A s'

/-- What holds at the start and is kept by every step holds in every state. -/
theorem Sys.Reached.induct {cfg : Global} {A : Sys → Label → Sys → Prop} {P : Sys → Prop} {s : Sys} (h : Reached cfg A s)
    (h0 : P (Sys.start cfg)) (hstep : ∀ (s : Sys) (l : Label) (s' : Sys), Reached cfg A s → P s → s.Step cfg l s' → A s l s' → P s') :
    P s := by
  induction h with
  | start => exact h0
  | step h hs ha ih => exact hstep _ _ _ h ih hs ha

/-! ## What is held -/

/-- The bytes of the copies at a place. -/
def Gpu.bytes (g : Gpu) (l : Loc) : ℕ := OrdMap.total g.copies fun _ c => if c.loc = l then c.size.toNat else 0

/-- The record of a connection: the broker's, or the one it will start with. -/
def Broker.record (b : Broker) (n : ConnId) (owner : Nat) : Tenant := b.tenants[n]?.getD { pid := owner }

/-- Those of all messages in flight to the broker. -/
def Sys.allocFails (s : Sys) : ℕ := OrdMap.total s.conns fun n c =>
  if c.gone = true then 0 else (s.broker.record n c.owner).allocFails s.broker.g.ctxOverhead c.up

/-- A process has a connection that is open at both ends. -/
def Sys.connected (s : Sys) (cl : Client) : Bool := cl.socks.toList.any fun p =>
  match p.2 with
  | none => false
  | some n =>
    match s.conns[n]? with
    | none => false
    | some c => !c.gone

/-- The bytes on the device that connected processes hold, second copies of moving chunks included. -/
def Sys.deviceHeld (s : Sys) : ℕ := OrdMap.total s.clients fun _ cl =>
  if s.connected cl = true then cl.gpu.bytes .device else 0

/-- The bytes on the host that connected processes hold, of those that are between two calls. -/
def Sys.hostHeld (s : Sys) : ℕ := OrdMap.total s.clients fun _ cl =>
  if s.connected cl = true ∧ cl.run.isNone = true then cl.gpu.bytes .host else 0

/-- A step of a run without `Resync`: no process sends one, and none connects while it holds memory that it would have to report
with one. -/
def Plain (s : Sys) : Label → Prop
  | .act _ (.send _ m) _ => m.type ≠ .resync
  | .act i (.connect _ _) _ => ∀ cl, s.clients[i]? = some cl → cl.gpu.copies = ∅
  | _ => True

end Vmem
