import Vmem.Driver

/-!
# A caller of one backend

The calls of one backend object over a driver, with the `Chunk` objects the caller holds for its live chunks. Between calls the
application's kernels may change the contents of its memory. A run stops at the first `Fatal` result.
-/

namespace Vmem

/-- A call of the backend's memory interface; a chunk is named by its address. -/
inductive MemCall
  | create (size : Size)
  | destroy (va : Ptr)
  | move (va : Ptr) (target : Loc)
deriving DecidableEq, Repr

/-- A backend, the chunks its caller holds, and the driver. -/
structure Caller (β : Type) where
  b : VmemBackend
  held : OrdMap Ptr Chunk := ∅
  d : Cuda β := {}

namespace Caller

variable {β : Type}

/-- `st.Step call s st'`: the call returns `s` and leaves `st'`. The caller passes the chunk it holds. -/
inductive Step (st : Caller β) : MemCall → Status → Caller β → Prop
  | create {size : Size} {s : Status} {c : Chunk} {b' : VmemBackend} {d' : Cuda β}
      (h : Prog.Runs (Cuda.world β) (VmemBackend.create size {} st.b) st.d ((s, c), b') d') :
      Step st (.create size) s ⟨b', if s = .ok then st.held.insert c.ptr c else st.held, d'⟩
  | destroy {va : Ptr} {s : Status} {c c' : Chunk} {b' : VmemBackend} {d' : Cuda β} (hc : st.held[va]? = some c)
      (h : Prog.Runs (Cuda.world β) (VmemBackend.destroy c st.b) st.d ((s, c'), b') d') :
      Step st (.destroy va) s ⟨b', if s = .ok then st.held.erase va else st.held.insert va c', d'⟩
  | move {va : Ptr} {target : Loc} {s : Status} {c c' : Chunk} {b' : VmemBackend} {d' : Cuda β}
      (hc : st.held[va]? = some c)
      (h : Prog.Runs (Cuda.world β) (VmemBackend.move c target st.b) st.d ((s, c'), b') d') :
      Step st (.move va target) s ⟨b', st.held.insert va c', d'⟩

/-- The states of a run up to the first `Fatal` result, from a backend without chunks, whatever its link and configuration. -/
inductive Reached : Caller β → Prop
  | start (b : VmemBackend) (hc : b.chunks = ∅) (hu : ∀ l, b.used l = 0) : Reached ⟨b, ∅, {}⟩
  | call {st st' : Caller β} {c : MemCall} {s : Status} (hst : Reached st) (h : st.Step c s st') (hs : s ≠ .fatal) :
      Reached st'
  | kernel {st : Caller β} (hst : Reached st) (h : Handle) (x : β) : Reached { st with d := st.d.write h x }

end Caller

/-! ## What holds between calls -/

/-- The bytes of the live chunks at a place. -/
def VmemBackend.liveBytes (b : VmemBackend) (l : Loc) : ℕ :=
  OrdMap.total b.chunks fun _ r => if r.loc = l then r.size.toNat else 0

/-- The driver, the backend's records and the caller's chunks agree. -/
structure Caller.Consistent {β : Type} (st : Caller β) : Prop where
  /-- The reservations are the chunks' address ranges. -/
  reservations : ∀ va : Ptr, st.d.reservations[va]? = st.b.chunks[va]?.map fun r => r.size
  /-- Each chunk is mapped read/write over its whole size, and nothing else is mapped. -/
  mappings : ∀ va : Ptr, st.d.mappings[va]? = st.b.chunks[va]?.map fun r => ⟨r.size, r.h, true⟩
  /-- Each chunk's handle has its size and lies at its recorded place. -/
  backed : ∀ (va : Ptr) (r : Rec), st.b.chunks[va]? = some r → ∃ x, st.d.handles[r.h]? = some ⟨r.size, r.loc, x⟩
  /-- Every handle is a chunk's. -/
  owned : ∀ (h : Handle) (p : Phys β), st.d.handles[h]? = some p → ∃ (va : Ptr) (r : Rec), st.b.chunks[va]? = some r ∧ r.h = h
  /-- No two chunks share a handle. -/
  single : ∀ (va va' : Ptr) (r r' : Rec), st.b.chunks[va]? = some r → st.b.chunks[va']? = some r' → r.h = r'.h → va = va'
  /-- The caller's chunks are the recorded ones. -/
  held : ∀ va : Ptr, st.held[va]? = st.b.chunks[va]?.map fun r => ⟨va, r.size, r.loc⟩

end Vmem
