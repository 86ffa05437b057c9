import Vmem.Allocator
import Vmem.Driver

/-!
# Applications

Sequences of calls of one allocator, with kernel launches between them, over any backend (`App.Reached`). Two kinds of backends are
watched: a `Fence` answers anything and keeps whether the context is idle and whether anything was fatal; a `Heap` keeps the contract
of `backend.h`.
-/

namespace Vmem

/-- A call that the app makes. -/
inductive AppCall
  | alloc (bytes : Size)
  | free (p : Ptr)
  | evict (p : Ptr)
  | prefetch (p : Ptr)
  | locate (p : Ptr)
  | used
  | usedAt (l : Loc)
  | info
  | reconnect
deriving DecidableEq, Repr

namespace AppCall

@[reducible] def Result : AppCall → Type
  | .alloc _ => Ptr
  | .free _ => Unit
  | .evict _ => Status
  | .prefetch _ => Status
  | .locate _ => Loc
  | .used => Size
  | .usedAt _ => Size
  | .info => Allocator.Info
  | .reconnect => Status

def program : (c : AppCall) → AllocatorM c.Result
  | .alloc bytes => Allocator.alloc bytes
  | .free p => Allocator.free p
  | .evict p => Allocator.evict p
  | .prefetch p => Allocator.prefetch p
  | .locate p => Allocator.locate p
  | .used => Allocator.used
  | .usedAt l => Allocator.usedAt l
  | .info => Allocator.info
  | .reconnect => Allocator.reconnect

/-- The objects that the app holds after a call: the pointers it got and did not free since, with the bytes it asked for. -/
def held (objs : List (Ptr × Size)) : (c : AppCall) → Except Error c.Result → List (Ptr × Size)
  | .alloc bytes, .ok p => if p = 0 then objs else (p, bytes) :: objs
  | .free p, .ok _ => objs.eraseP fun x => decide (x.1 = p)
  | _, _ => objs

end AppCall

/-- An allocator between calls, its backend, and the objects that the app holds. -/
structure App (S : Type) where
  a : Allocator
  s : S
  objs : List (Ptr × Size) := []

namespace App

variable {S : Type}

/-- The states of an app between its calls, whether they return or throw, when each call meets a condition; `launch` is what a kernel
launch does to the outside. -/
inductive Reached (W : Prog.World BackendCall BackendCall.Answer S) (launch : S → S) (ok : App S → AppCall → Prop)
    (s₀ : S) : App S → Prop
  | built {cfg : Config} {env : Env} {a : Allocator} {s : S}
      (hr : Prog.Runs W ((Allocator.construct cfg env).run {}) s₀ (.ok (), a) s) : Reached W launch ok s₀ { a, s }
  | call {x : App S} {c : AppCall} {r : Except Error c.Result} {a' : Allocator} {s' : S} (h : Reached W launch ok s₀ x)
      (hc : ok x c) (hr : Prog.Runs W (c.program.run x.a) x.s (r, a') s') :
      Reached W launch ok s₀ ⟨a', s', c.held x.objs r⟩
  | launch {x : App S} (h : Reached W launch ok s₀ x) : Reached W launch ok s₀ { x with s := launch x.s }

end App

/-! ## Fences -/

/-- Whether the context is idle since the last sync, whether anything a call reached was fatal, and whether the allocator is being
destroyed. -/
structure Fence where
  idle : Bool := false
  broken : Bool := false
  ending : Bool := false
deriving DecidableEq, Repr

namespace Fence

/-- Memory moves and goes only while the context is idle, and nothing is created, moved or destroyed after a fatal error. -/
def permits (f : Fence) : BackendCall → Prop
  | .create _ => f.broken = false
  | .destroy _ => f.idle = true ∧ f.broken = false
  | .move _ _ => f.idle = true ∧ f.broken = false
  | _ => True

/-- The state after a call and its answer. A chunk that cannot be destroyed at the end is not counted. -/
def record (f : Fence) : (i : BackendCall) → i.Answer → Fence
  | .create _, r => { f with broken := f.broken || decide (r.1 = .fatal) }
  | .destroy _, r => { f with broken := f.broken || (decide (r.1 = .fatal) && !f.ending) }
  | .move _ _, r => { f with broken := f.broken || decide (r.1 = .fatal) }
  | .synchronize, r => if r = none then { f with idle := true } else { f with broken := true }
  | _, _ => f

/-- Any call may answer anything, but a call must be permitted. -/
def world : Prog.World BackendCall BackendCall.Answer Fence where
  permits i f := f.permits i
  answers i f r f' := f' = f.record i r

/-- A kernel runs. -/
def launch (f : Fence) : Fence := { f with idle := false }

end Fence

/-! ## Heaps -/

/-- A backend as `backend.h` and its three implementations have it: its granularity, whether it can move, and its live chunks. -/
structure Heap where
  gran : Size
  pos : gran ≠ 0
  movable : Bool
  chunks : OrdMap Ptr Size := ∅

namespace Heap

/-- A chunk of `size` bytes at `ptr` is new: it is not null and does not reach the end of the address space, and it overlaps no live
chunk. -/
def Fresh (h : Heap) (ptr : Ptr) (size : Size) : Prop :=
  ptr ≠ 0 ∧ ptr.toNat + size.toNat < 2 ^ 64 ∧ ∀ q n, h.chunks[q]? = some n → Apart ptr size q n

/-- The bytes of the live chunks. -/
def used (h : Heap) : Size := OrdMap.total h.chunks fun _ n => n

/-- A created chunk has the size asked for and is new; of no bytes there is only the null chunk. A chunk is destroyed, or that was
fatal. A move keeps the chunk's address and size. With a context that `works` every sync and every destroy succeeds. -/
def answers (works : Bool) (h : Heap) : (i : BackendCall) → i.Answer → Heap → Prop
  | .granularity, r, h' => r = h.gran ∧ h' = h
  | .canMove, r, h' => r = h.movable ∧ h' = h
  | .used, r, h' => r = h.used ∧ h' = h
  | .create size, r, h' => (r.1 ≠ .ok ∧ h' = h) ∨ (r.1 = .ok ∧ r.2.size = size ∧
      ((size = 0 ∧ r.2.ptr = 0 ∧ h' = h) ∨
        (size ≠ 0 ∧ h.Fresh r.2.ptr size ∧ h' = { h with chunks := h.chunks.insert r.2.ptr size })))
  | .destroy c, r, h' => (r.1 = .ok ∧ h' = { h with chunks := h.chunks.erase c.ptr }) ∨
      (works = false ∧ r.1 = .fatal ∧ h' = h)
  | .move c _, r, h' => r.2.ptr = c.ptr ∧ r.2.size = c.size ∧ h' = h
  | .synchronize, r, h' => (works = true → r = none) ∧ h' = h
  | _, _, h' => h' = h

/-- What is undefined in a slab is not permitted, nor is a failed `at`; a heap promises nothing then. -/
def permits : BackendCall → Prop
  | .pastEnd _ => False
  | .backOfEmpty => False
  | .atFailed => False
  | _ => True

def world (works : Bool) : Prog.World BackendCall BackendCall.Answer Heap where
  permits i _ := permits i
  answers i h r h' := h.answers works i r h'

/-- A backend without chunks. -/
def start (gran : Size) (pos : gran ≠ 0) (movable : Bool) : Heap := { gran, pos, movable }

end Heap

end Vmem
