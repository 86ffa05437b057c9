import Vmem.Pools
import Vmem.Tenancy

/-!
# The whole of libvmem

An allocator over its backend (`App.Live`), with the vmem backend over the driver (`Stack`). Between the two stands a `Ledger`: which chunks the
allocator holds, and what it may ask of its backend.
-/

namespace Vmem

/-- The chunks that an allocator holds, whether one went back in the call that is running, and whether anything was fatal. -/
structure Ledger where
  chunks : OrdMap Ptr Chunk := ∅
  shrunk : Bool := false
  broken : Bool := false

namespace Ledger

/-- Nothing is asked after a fatal error, and a built allocator neither opens nor closes its backend. A chunk is made only before one goes
back, and only a chunk that is held is moved or destroyed, as it is held. -/
def permits (l : Ledger) (i : BackendCall) : Prop :=
  l.broken = false ∧
    match i with
    | .make _ => False
    | .openWith _ => False
    | .close => False
    | .create _ => l.shrunk = false
    | .destroy c => l.chunks[c.ptr]? = some c
    | .move c _ => l.chunks[c.ptr]? = some c
    | _ => True

/-- A chunk that was made is new, or it is held already as it is: of no bytes there is only one. A chunk is destroyed, or that was fatal. -/
def answers (l : Ledger) : (i : BackendCall) → i.Answer → Ledger → Prop
  | .create _, r, l' => (r.1 ≠ .ok ∧ l' = { l with broken := decide (r.1 = .fatal) }) ∨
      (r.1 = .ok ∧ (l.chunks[r.2.ptr]? = none ∨ l.chunks[r.2.ptr]? = some r.2) ∧ l' = { l with chunks := l.chunks.insert r.2.ptr r.2 })
  | .destroy c, r, l' => (r.1 = .ok ∧ l' = { l with chunks := l.chunks.erase c.ptr, shrunk := true }) ∨
      (r.1 = .fatal ∧ l' = { l with broken := true })
  | .move c _, r, l' => r.2.ptr = c.ptr ∧ l' = { l with chunks := l.chunks.insert c.ptr r.2, broken := decide (r.1 = .fatal) }
  | .synchronize, r, l' => l' = if r = none then l else { l with broken := true }
  | _, _, l' => l' = l

def world : Prog.World BackendCall BackendCall.Answer Ledger where
  permits i l := l.permits i
  answers i l r l' := l.answers i r l'

end Ledger

/-- The chunks of the regions. -/
def Allocator.chunks (a : Allocator) : OrdMap Ptr Chunk := a.regions.map fun _ r => r.c

/-- The bytes of an object lie inside a chunk. -/
def Chunk.Contains (c : Chunk) (p : Ptr) (n : Size) : Prop := c.ptr.toNat ≤ p.toNat ∧ p.toNat + n.toNat ≤ c.ptr.toNat + c.size.toNat

/-- The states of a run up to the first fatal error: the allocator is built over a backend of the kind `k`, the app calls it, and its kernels
write memory. Each call meets a condition. -/
inductive App.Live {S : Type} (W : Prog.World BackendCall BackendCall.Answer S) (k : Kind) (kernel : S → S → Prop)
    (ok : Allocator → AppCall → Prop) (s₀ : S) : App S → Prop
  | built {cfg : Config} {env : Env} {a : Allocator} {s : S} (hk : Allocator.envKind env cfg.backend = .ok k)
      (hr : Prog.Runs W ((Allocator.construct cfg env).run {}) s₀ (.ok (), a) s) : Live W k kernel ok s₀ { a, s }
  | call {x : App S} {c : AppCall} {r : Except Error c.Result} {a' : Allocator} {s' : S} (h : Live W k kernel ok s₀ x)
      (hd : x.a.dead = false) (hc : ok x.a c) (hr : Prog.Runs W (c.program.run x.a) x.s (r, a') s') :
      Live W k kernel ok s₀ ⟨a', s', c.held x.objs r⟩
  | kernel {x : App S} {s' : S} (h : Live W k kernel ok s₀ x) (hk : kernel x.s s') : Live W k kernel ok s₀ { x with s := s' }

/-- The objects of an app lie in memory that the outside holds, apart from each other, and no call changes them. -/
structure App.Safe {S γ : Type} (W : Prog.World BackendCall BackendCall.Answer S) (backed : S → Chunk → Prop)
    (contents : S → Ptr → Option γ) (x : App S) : Prop where
  /-- Each object lies inside the chunk of a region, and the outside holds that chunk. -/
  inside : ∀ (p : Ptr) (n : Size), (p, n) ∈ x.objs → ∃ c : Chunk, x.a.chunks[c.ptr]? = some c ∧ c.Contains p n ∧ backed x.s c
  apart : x.objs.Pairwise fun o o' => Apart o.1 o.2 o'.1 o'.2
  /-- A call that stays inside the slabs leaves the contents of the chunk of an object that is held before and after it. -/
  kept : ∀ (c : AppCall) (r : Except Error c.Result) (a' : Allocator) (s' : S), x.a.InSlots c →
    Prog.Runs W (c.program.run x.a) x.s (r, a') s' → a'.dead = false → ∀ (p : Ptr) (n : Size), (p, n) ∈ x.objs → (p, n) ∈ c.held x.objs r →
    ∃ ch ch' : Chunk, x.a.chunks[ch.ptr]? = some ch ∧ a'.chunks[ch.ptr]? = some ch' ∧ ch'.size = ch.size ∧ ch.Contains p n ∧
      contents s' ch.ptr = contents x.s ch.ptr

/-! ## Over the vmem backend -/

/-- What the allocator relies on beyond the driver's rules: granularities are positive, and no reservation reaches the end of the address
space. -/
def Cuda.Proper : (o : Op) → o.Answer → Prop
  | .cu (.granularity _), .ok g => g ≠ 0
  | .cu (.reserve size _), .ok va => va.toNat + size.toNat < 2 ^ 64
  | _, _ => True

/-- A driver on which it can rely. -/
def Cuda.proper (β : Type) : Prog.World Op Op.Answer (Cuda β) where
  permits _ _ := True
  answers o d r d' := (Cuda.world β).answers o d r d' ∧ Cuda.Proper o r

/-- The outside of an allocator over the vmem backend: the backend's object and the driver. -/
def Cuda.stack (β : Type) (invocation : List UInt8) : Prog.World BackendCall BackendCall.Answer (Option VmemBackend × Cuda β) :=
  (Cuda.proper β).over (VmemBackend.serve invocation)

/-- A kernel writes the memory behind a handle. -/
def Cuda.Kernel {β : Type} (s s' : Option VmemBackend × Cuda β) : Prop := ∃ (k : Handle) (y : β), s' = (s.1, s.2.write k y)

/-- An allocator over the vmem backend, the driver, and the objects that the app holds. -/
abbrev Stack (β : Type) := App (Option VmemBackend × Cuda β)

/-- The states of a run over the vmem backend, from a driver that holds nothing. -/
def Stack.Reached {β : Type} (invocation : List UInt8) (ok : Allocator → AppCall → Prop) (x : Stack β) : Prop :=
  x.Live (Cuda.stack β invocation) .vmem Cuda.Kernel ok (none, {})

/-- A chunk is mapped read/write, over memory of its size at its place. -/
def Cuda.Backed {β : Type} (s : Option VmemBackend × Cuda β) (c : Chunk) : Prop :=
  ∃ (k : Handle) (y : β), s.2.mappings[c.ptr]? = some ⟨c.size, k, true⟩ ∧ s.2.handles[k]? = some ⟨c.size, c.loc, y⟩

/-! ## Without failures -/

/-- The device becomes idle. -/
def BackendCall.Succeeds : (i : BackendCall) → i.Answer → Prop
  | .synchronize, some _ => False
  | _, _ => True

/-- A driver call does not fail. -/
def Op.Succeeds : (o : Op) → o.Answer → Prop
  | .cu _, .error _ => False
  | _, _ => True

/-- The outside of an allocator over the vmem backend, where no driver call fails. -/
def Cuda.faultless (β : Type) (invocation : List UInt8) : Prog.World BackendCall BackendCall.Answer (Option VmemBackend × Cuda β) :=
  (((Cuda.proper β).filter Op.Succeeds).over (VmemBackend.serve invocation)).filter BackendCall.Succeeds

end Vmem
