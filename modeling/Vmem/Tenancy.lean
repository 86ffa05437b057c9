import Vmem.App
import Vmem.System
import Vmem.Lib.Layer

/-!
# Allocators and their connections

One process with any number of allocators, each over the vmem backend or over one without a broker, and the sockets that they hold. Every
call of a backend runs to its end; at any point between two calls outside, the broker may accept and read connections, other processes may
connect, and the broker may crash and start again. Everything outside may fail.
-/

namespace Vmem

/-! ## Sockets -/

/-- An open descriptor: the allocator that opened it, and its connection once it has one. -/
structure Sock where
  owner : Nat
  conn : Option ConnId := none
deriving DecidableEq, Repr

/-- The open descriptors of a process, the connections that it ever made, each with whether the broker may still accept it, and the
broker. -/
structure Net where
  broker : Broker
  socks : OrdMap Fd Sock := ∅
  made : OrdMap ConnId Bool := ∅

/-- What a process has no say in: the configuration of the broker, and what the broker reads from its tenants. -/
structure Outside where
  cfg : Global
  reads : Broker → Event → Prop := fun _ _ => True

namespace Net

/-- A step of the broker. It accepts a connection of this process or of another one, it reads something from a tenant, or it crashes and
starts again. -/
inductive BrokerStep (out : Outside) (s : Net) : Net → Prop
  | accept {n : ConnId} {pid : Nat} (h : s.made[n]? = some true) :
      BrokerStep out s { s with broker := (s.broker.step (.connect n pid)).b, made := s.made.insert n false }
  | foreign {n : ConnId} {pid : Nat} (h : s.made[n]? = none) : BrokerStep out s { s with broker := (s.broker.step (.connect n pid)).b }
  | read {n : ConnId} {r : Recv} (h : out.reads s.broker (.readable n r)) :
      BrokerStep out s { s with broker := (s.broker.step (.readable n r)).b }
  | crash : BrokerStep out s { s with broker := Broker.start out.cfg, made := s.made.map fun _ _ => false }

/-- The broker went on. -/
def Later (out : Outside) : Net → Net → Prop := Relation.ReflTransGen (BrokerStep out)

/-- A call of the backend of allocator `i`, with its answer and the sockets after it. A connection gets a number of its own. -/
def After (i : Nat) (s : Net) : (o : Op) → o.Answer → Net → Prop
  | .socket, .ok fd, s' => s.socks[fd]? = none ∧ s' = { s with socks := s.socks.insert fd { owner := i } }
  | .connect fd _, none, s' => ∃ n : ConnId, s.made[n]? = none ∧ s.broker.tenants[n]? = none ∧
      s' = { s with socks := s.socks.insert fd { owner := i, conn := some n }, made := s.made.insert n true }
  | .close fd, _, s' => s' = { s with socks := s.socks.erase fd }
  | _, _, s' => s' = s

/-- Allocator `i` opens a descriptor only if it holds none, connects and closes only its own, and sends and receives only on a connection
of its own. -/
def permits (i : Nat) (o : Op) (s : Net) : Prop :=
  match o with
  | .socket => ∀ (fd : Fd) (k : Sock), s.socks[fd]? = some k → k.owner ≠ i
  | .connect fd _ => s.socks[fd]? = some { owner := i }
  | .close fd => ∃ k : Sock, s.socks[fd]? = some k ∧ k.owner = i
  | .send fd _ => ∃ (f : Fd) (n : ConnId), fd = some f ∧ s.socks[f]? = some { owner := i, conn := some n }
  | .recv fd => ∃ (f : Fd) (n : ConnId), fd = some f ∧ s.socks[f]? = some { owner := i, conn := some n }
  | _ => True

/-- The outside of the backend of allocator `i`. -/
def world (out : Outside) (i : Nat) : Prog.World Op Op.Answer Net where
  permits := permits i
  answers o s r s' := ∃ t, Later out s t ∧ After i t o r s'

/-- The broker has read the end of every connection of this process that is closed. -/
def Settled (s : Net) : Prop := ∀ (n : ConnId) (t : Tenant), s.broker.tenants[n]? = some t → s.made[n]? ≠ none →
  ∃ (fd : Fd) (k : Sock), s.socks[fd]? = some k ∧ k.conn = some n

/-- What the broker counts on the device for the tenants of this process. -/
def counted (s : Net) : Size := OrdMap.total s.broker.tenants fun n t => if s.made.contains n then t.device else 0

/-- The bytes on the device that it has on record for them: their chunks there, and the targets of their moves in flight. -/
def chunkBytes (s : Net) : Size := OrdMap.total s.broker.tenants fun n t =>
  if s.made.contains n then t.recorded id .device + t.reserved id .device else 0

end Net

/-! ## Backends behind the interface -/

/-- What a call leaves behind. -/
def VmemBackend.served {α : Type} (x : BackendM α) (b : VmemBackend) : Prog Op Op.Answer (α × Option VmemBackend) := do
  let r ← x b
  pure (r.1, some r.2)

/-- The code behind a call of the interface; `invocation` is the name of the program. The backends without a broker have no object here:
all that is known of them is that they are always `Local`. -/
def VmemBackend.serve (invocation : List UInt8) :
    Option VmemBackend → (c : BackendCall) → Option (Prog Op Op.Answer (c.Answer × Option VmemBackend))
  | _, .make k => some (pure ((), if k = .vmem then some {} else none))
  | some b, .openWith c => some (served (openBackend c invocation) b)
  | some b, .close => some (served closeBackend b)
  | some b, .granularity => some (pure (b.gran, some b))
  | some b, .canMove => some (pure (true, some b))
  | some b, .create size => some (served (create size {}) b)
  | some b, .destroy c => some (served (destroy c) b)
  | some b, .move c target => some (served (move c target) b)
  | some b, .link => some (pure (b.link, some b))
  | some b, .reconnect => some (served reconnect b)
  | some b, .used => some (pure (b.usedAll, some b))
  | some b, .usedAt l => some (pure (.ok (b.used l), some b))
  | none, .link => some (pure (.localMode, none))
  | none, .reconnect => some (pure (.unsupported, none))
  | _, _ => none

/-- The outside of allocator `i`: its backend, and the sockets behind that. -/
def tenancy (out : Outside) (invocation : List UInt8) (i : Nat) : Prog.World BackendCall BackendCall.Answer (Option VmemBackend × Net) :=
  (Net.world out i).over (VmemBackend.serve invocation)

/-! ## Processes -/

/-- An allocator between calls, with its backend. -/
structure Holder where
  a : Allocator
  b : Option VmemBackend

/-- `link()`. -/
def Holder.link (h : Holder) : Link := (h.b.map VmemBackend.link).getD .localMode

/-- The live allocators by their numbers, and the number of the next one. -/
structure Process where
  net : Net
  live : OrdMap Nat Holder := ∅
  next : Nat := 0

/-- What a process does: it makes an allocator, which ends with a backend, whether the constructor returns or throws; it calls or destroys
one; or the broker goes on. -/
inductive Deed
  | construct (c : Config) (env : Env) (b : Option VmemBackend)
  | call (i : Nat) (c : AppCall)
  | destroy (i : Nat)
  | broker

/-- One step. An allocator whose constructor throws is gone, and so is its backend, which has no destructor of its own. -/
inductive Process.Step (out : Outside) (invocation : List UInt8) (x : Process) : Deed → Process → Prop
  | construct {c : Config} {env : Env} {r : Except Error Unit} {a : Allocator} {b : Option VmemBackend} {s : Net}
      (hr : Prog.Runs (tenancy out invocation x.next) ((Allocator.construct c env).run {}) (none, x.net) (r, a) (b, s)) :
      Step out invocation x (.construct c env b)
        { net := s, live := if r.isOk then x.live.insert x.next ⟨a, b⟩ else x.live, next := x.next + 1 }
  | call {i : Nat} {c : AppCall} {h : Holder} {r : Except Error c.Result} {a : Allocator} {b : Option VmemBackend} {s : Net}
      (hi : x.live[i]? = some h) (hr : Prog.Runs (tenancy out invocation i) (c.program.run h.a) (h.b, x.net) (r, a) (b, s)) :
      Step out invocation x (.call i c) { x with net := s, live := x.live.insert i ⟨a, b⟩ }
  | destroy {i : Nat} {h : Holder} {r : Except Error Unit} {a : Allocator} {b : Option VmemBackend} {s : Net}
      (hi : x.live[i]? = some h) (hr : Prog.Runs (tenancy out invocation i) (Allocator.destruct.run h.a) (h.b, x.net) (r, a) (b, s)) :
      Step out invocation x (.destroy i) { x with net := s, live := x.live.erase i }
  | broker {s : Net} (h : x.net.BrokerStep out s) : Step out invocation x .broker { x with net := s }

/-- A process before its first allocator, next to a broker in any state that knows no connection of it. -/
def Process.start (broker : Broker) : Process := { net := { broker } }

/-- The states of the runs whose steps all satisfy `ok`. -/
inductive Process.Reached (out : Outside) (invocation : List UInt8) (ok : Deed → Prop) (broker : Broker) : Process → Prop
  | start : Reached out invocation ok broker (start broker)
  | step {x x' : Process} {d : Deed} (h : Reached out invocation ok broker x) (hs : x.Step out invocation d x') (hd : ok d) :
      Reached out invocation ok broker x'

/-- The least power of two that is at least `small_max` can be represented, and is at most `small_chunk` in whole granules. -/
def Config.SizesFit (c : Config) (gran : Size) : Prop :=
  c.smallMax.toNat ≤ 2 ^ 63 ∧ BitVec.ofNat 64 (2 ^ Nat.clog 2 c.smallMax.toNat) ≤ (c.smallChunk + gran - 1) / gran * gran

instance (c : Config) (gran : Size) : Decidable (c.SizesFit gran) := inferInstanceAs (Decidable (_ ∧ _))

/-- An allocator whose backend is connected has sizes that fit. -/
def Deed.Tidy : Deed → Prop
  | .construct c _ (some b) => b.link = .connected → c.SizesFit b.gran
  | _ => True

/-- What holds of a process whose allocators are tidy. -/
structure Process.OneTenantEach (out : Outside) (invocation : List UInt8) (broker : Broker) (x : Process) : Prop where
  /-- A live allocator has at most one descriptor, -/
  one : ∀ (i : Nat) (a : Holder), x.live[i]? = some a → ∀ (fd fd' : Fd) (k k' : Sock), x.net.socks[fd]? = some k →
    x.net.socks[fd']? = some k' → k.owner = i → k'.owner = i → fd = fd'
  /-- and has a connection exactly if its link is `Connected`. -/
  connected : ∀ (i : Nat) (a : Holder), x.live[i]? = some a →
    ((∃ (fd : Fd) (n : ConnId), x.net.socks[fd]? = some { owner := i, conn := some n }) ↔ a.link = .connected)
  /-- No call of it opens a second descriptor, or uses or closes one that is not its own; -/
  calls : ∀ (i : Nat) (a : Holder), x.live[i]? = some a → ∀ c : AppCall,
    Throwing.wp (tenancy out invocation i) c.program (fun _ _ _ => True) (fun _ _ _ => True) a.a (a.b, x.net)
  /-- nor does its destructor, -/
  destructs : ∀ (i : Nat) (a : Holder), x.live[i]? = some a →
    Throwing.wp (tenancy out invocation i) Allocator.destruct (fun _ _ _ => True) (fun _ _ _ => True) a.a (a.b, x.net)
  /-- nor the constructor of the next one. -/
  constructs : ∀ (c : Config) (env : Env), Throwing.wp (tenancy out invocation x.next) (Allocator.construct c env) (fun _ _ _ => True)
    (fun _ _ _ => True) {} (none, x.net)
  /-- Every descriptor that is open is connected, and that of a live allocator. -/
  held : ∀ (fd : Fd) (k : Sock), x.net.socks[fd]? = some k → k.conn ≠ none ∧ ∃ a : Holder, x.live[k.owner]? = some a
  /-- Once the broker has read every end, each tenant of the process is the connection of a live allocator. -/
  tenants : x.net.Settled → ∀ (n : ConnId) (t : Tenant), x.net.broker.tenants[n]? = some t → x.net.made[n]? ≠ none →
    ∃ (fd : Fd) (i : Nat) (a : Holder), x.net.socks[fd]? = some { owner := i, conn := some n } ∧ x.live[i]? = some a
  /-- If no tenant reports another size for a chunk that moves, the count of each tenant is the overhead, once it said `Hello`, and its
  bytes on record; the global count is the sum of the tenants' counts; -/
  counts : (∀ b e, out.reads b e → b.KeepsMovingSize e) → broker.Reached out.cfg Broker.KeepsMovingSize →
    (∀ (n : ConnId) (t : Tenant), x.net.broker.tenants[n]? = some t →
      t.device = (if t.hello = true then out.cfg.ctxOverhead else 0) + t.recorded id .device + t.reserved id .device) ∧
    x.net.broker.g.device = OrdMap.total x.net.broker.tenants fun _ t => t.device
  /-- and once every end is read, the counts of the process's tenants have the overhead in them at most once for each live allocator. -/
  overhead : x.net.Settled → (∀ b e, out.reads b e → b.KeepsMovingSize e) → broker.Reached out.cfg Broker.KeepsMovingSize →
    ∃ k ≤ x.live.size, x.net.counted = k * out.cfg.ctxOverhead + x.net.chunkBytes
  /-- A constructor that connects and whose sizes do not fit leaves its connection behind. -/
  ghost : ∀ (c : Config) (env : Env) (b : Option VmemBackend) (x' : Process), x.Step out invocation (.construct c env b) x' →
    c.smallMax.toNat ≤ 2 ^ 63 → ¬(Deed.construct c env b).Tidy →
    ∃ (fd : Fd) (k : Sock), x'.net.socks[fd]? = some k ∧ k.conn ≠ none ∧ x'.live[k.owner]? = none

end Vmem
