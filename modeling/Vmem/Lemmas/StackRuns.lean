import Vmem.Lemmas.PoolRoom
import Vmem.Lemmas.Runtime

/-!
# The whole of libvmem, run

A driver and a runtime that put new memory behind the last one (`Cuda.respond`, `Runtime.respond`). With the code of a backend on top, an app is
run over them, and what it does happens in a run.
-/

namespace Vmem

/-! ## The driver -/

namespace Cuda

variable {β : Type}

instance (c : CuCall) (v : BitVec 64) : Decidable (Proper (.cu c) (.ok v)) :=
  match c with
  | .granularity _ => inferInstanceAs (Decidable (v ≠ 0))
  | .reserve size _ => inferInstanceAs (Decidable (v.toNat + size.toNat < 2 ^ 64))
  | .addressFree _ _ | .create _ _ | .release _ | .map _ _ _ | .setAccess _ _ _ | .unmap _ _ | .memcpyDtoD _ _ _ | .synchronize => .isTrue trivial

/-- What this driver gives: a granularity of 2 MiB, the address behind the last range, and a handle above the last one. -/
def give (d : Cuda β) : CuCall → BitVec 64
  | .granularity _ => 0x200000
  | .reserve _ _ => (d.reservations.toList.getLast?.map fun e => e.1 + e.2).getD 0x200000
  | .create _ _ => (d.handles.toList.getLast?.map fun e => e.1 + 1).getD 1
  | _ => 0

/-- The answer to a call; new memory holds `y`, and there is no broker. -/
def respond (y : β) : (o : Op) → Cuda β → Option (o.Answer × Cuda β)
  | .cu c, d =>
    if d.Valid c (d.give c) ∧ Proper (.cu c) (.ok (d.give c)) then some (.ok (d.give c), d.after c (d.give c) y) else none
  | .drop c, d => some ((), if d.Valid c 0 then d.after c 0 y else d)
  | .cudaSetDevice _, d => some (true, d)
  | .cudaFreeNull, d => some (true, d)
  | .attribute .hostNumaId _, d => some (0, d)
  | .attribute _ _, d => some (1, d)
  | _, _ => none

/-- The answers are those of a driver on which an allocator can rely. -/
theorem answers_of_respond (y : β) (o : Op) (d : Cuda β) (r : o.Answer) (d' : Cuda β) (h : d.respond y o = some (r, d')) :
    (Cuda.proper β).answers o d r d' := by
  unfold respond at h
  split at h
  · next c =>
    split at h
    · next hv =>
      cases h
      exact ⟨⟨hv.1, y, rfl⟩, hv.2⟩
    · cases h
  · next c =>
    cases h
    by_cases hv : d.Valid c 0
    · exact ⟨.inl ⟨hv, y, by rw [if_pos hv]⟩, trivial⟩
    · exact ⟨.inr ⟨hv, by rw [if_neg hv]⟩, trivial⟩
  · cases h
    exact ⟨rfl, trivial⟩
  · cases h
    exact ⟨rfl, trivial⟩
  · cases h
    exact ⟨rfl, trivial⟩
  · cases h
    exact ⟨rfl, trivial⟩
  · cases h

end Cuda

/-! ## The runtime -/

namespace Runtime

variable {β : Type}

instance (r : Runtime β) (p : Ptr) (size : Size) : Decidable (r.Fresh p size) := inferInstanceAs (Decidable (_ ∧ _ ∧ _))

/-- The address behind the last allocation. -/
def behind (r : Runtime β) : Ptr := (r.blocks.toList.getLast?.map fun e => e.1 + e.2.size).getD 0x200000

/-- The answer to a call; new memory holds `y`. -/
def respond (y : β) : (i : RtCall) → Runtime β → Option (i.Answer × Runtime β)
  | .setDevice _, r => some (none, r)
  | .managedMemory _, r => some (.ok 1, r)
  | .mallocManaged size, r =>
    if size ≠ 0 ∧ r.Fresh r.behind size then some (.ok r.behind, { blocks := r.blocks.insert r.behind ⟨size, y⟩ }) else none
  | .free p, r =>
    if p = 0 then some (none, r)
    else if r.blocks[p]?.isSome then some (none, { blocks := r.blocks.erase p })
    else none
  | _, _ => none

/-- The answers are those of a runtime. -/
theorem answers_of_respond (y : β) (i : RtCall) (r : Runtime β) (v : i.Answer) (r' : Runtime β) (h : r.respond y i = some (v, r')) :
    (Runtime.world β).answers i r v r' := by
  unfold respond at h
  split at h
  · cases h
    rfl
  · cases h
    rfl
  · split at h
    · next hnew =>
      cases h
      exact ⟨hnew.1, hnew.2, y, rfl⟩
    · cases h
  · split at h
    · next h0 =>
      cases h
      exact .inl ⟨h0, rfl⟩
    · split at h
      · next hsome =>
        cases h
        exact .inr ⟨Option.isSome_iff_exists.1 hsome, rfl⟩
      · cases h
  · cases h

end Runtime

/-! ## Apps -/

namespace StackAux

open PoolsAux

variable {S γ : Type} {W : Prog.World BackendCall BackendCall.Answer S} {k : Kind} {kernel : S → S → Prop} {s₀ : S} {x y : App S}

section Played

variable {f : (i : BackendCall) → S → Option (i.Answer × S)}
  (hf : ∀ i s r s', f i s = some (r, s') → W.answers i s r s') (ok : Allocator → AppCall → Prop) [∀ a c, Decidable (ok a c)]

include hf

/-- Calls that are run are calls of a live allocator. -/
theorem live_execAll {cs : List AppCall} (hx : x.Live W k kernel ok s₀)
    (hy : x.execAll f (fun x c => x.a.dead = false ∧ ok x.a c) cs = some y) : y.Live W k kernel ok s₀ := by
  induction cs generalizing x with
  | nil =>
    cases hy
    exact hx
  | cons c cs ih =>
    unfold App.execAll at hy
    split at hy
    · next hc =>
      obtain ⟨z, hz, hy⟩ := Option.bind_eq_some_iff.1 hy
      obtain ⟨⟨⟨r, a'⟩, s'⟩, hrun, rfl⟩ := Option.map_eq_some_iff.1 hz
      exact ih (hx.call hc.1 hc.2 (Prog.runs_of_exec hf hrun)) hy
    · cases hy

/-- An app that is run to a state where `p` holds. -/
theorem exists_live (cfg : Config) (s₀ : S) (hk : Allocator.envKind {} cfg.backend = .ok k) (cs : List AppCall) (p : App S → Bool)
    (h : (App.play f (fun x c => x.a.dead = false ∧ ok x.a c) cfg s₀ cs).map p = some true) :
    ∃ x : App S, x.Live W k kernel ok s₀ ∧ p x = true := by
  obtain ⟨x, hx, hp⟩ := Option.map_eq_some_iff.1 h
  obtain ⟨⟨⟨r, a⟩, s⟩, hbuilt, hx⟩ := Option.bind_eq_some_iff.1 hx
  cases r with
  | error e => cases hx
  | ok r => exact ⟨x, live_execAll hf ok (.built hk (Prog.runs_of_exec hf hbuilt)) hx, hp⟩

end Played

/-- A run is also one under a condition that its calls meet. -/
theorem live_mono {ok ok' : Allocator → AppCall → Prop} (h : x.Live W k kernel ok s₀) (hok : ∀ a c, ok a c → ok' a c) :
    x.Live W k kernel ok' s₀ := by
  induction h with
  | built hk hr => exact .built hk hr
  | call h hd hc hr ih => exact .call ih hd (hok _ _ hc) hr
  | kernel h hk ih => exact .kernel ih hk

variable {memory : S → Ptr → Option γ} {I : Heap → OrdMap Ptr Chunk → S → Prop}

/-- Where the slots divide the chunks, a call stays inside the slabs. -/
theorem inSlots_of_live (hB : Backs W k kernel s₀ memory I) (h : x.Live W k kernel Allocator.InSlots s₀) (hd : x.a.dead = false)
    (hdiv : x.a.cfg.Divides) (c : AppCall) : x.a.InSlots c := by
  obtain ⟨gran, pos, movable, t, hreach, -⟩ := hB.reached h hd
  exact inSlots_of_divides c hdiv (steady_of_inSlots (fun _ _ h _ => h) hreach)

/-- So does every call of a run. -/
theorem live_inSlots (hB : Backs W k kernel s₀ memory I) (h : x.Live W k kernel (fun a _ => a.cfg.Divides) s₀) :
    x.Live W k kernel Allocator.InSlots s₀ := by
  induction h with
  | built hk hr => exact .built hk hr
  | call h hd hc hr ih => exact .call ih hd (inSlots_of_live hB ih hd hc _) hr
  | kernel h hk ih => exact .kernel ih hk

/-! ## A run -/

/-- The device becomes idle whenever that is asked. -/
def idle : (i : BackendCall) → Option i.Answer
  | .synchronize => some none
  | _ => none

/-- Slabs of four slots, over `backends/vmem.h` without a broker. -/
def slotsLocal : Config := { fourSlots with daemon := none }

/-- Slabs of four slots, over `backends/uvm.h`. -/
def slotsManaged : Config := { slotsLocal with backend := .uvm }

/-- What the calls of `bothPools` leave. -/
structure BothHeld (cfg : Config) (x : App S) : Prop where
  cfg : x.a.cfg = cfg
  alive : x.a.dead = false
  objs : x.objs = [(0x300000, 0x70000), (0x400000, 0x300000), (0x200000, 1)]
  total : (OrdMap.total x.a.regions fun _ r => r.c.size) = 0x600000

instance (cfg : Config) (x : App S) : Decidable (BothHeld cfg x) :=
  decidable_of_iff (x.a.cfg = cfg ∧ x.a.dead = false ∧ x.objs = [(0x300000, 0x70000), (0x400000, 0x300000), (0x200000, 1)] ∧
    (OrdMap.total x.a.regions fun _ r => r.c.size) = 0x600000) ⟨fun h => ⟨h.1, h.2.1, h.2.2.1, h.2.2.2⟩, fun h => ⟨h.cfg, h.alive, h.objs, h.total⟩⟩

/-- They happen over the vmem backend, -/
theorem exists_local : ∃ x : Stack ℕ, x.Reached [] (fun a _ => a.cfg = slotsLocal) ∧ BothHeld slotsLocal x := by
  have hf (i : BackendCall) (s : Option VmemBackend × Cuda ℕ) (r : i.Answer) (s' : Option VmemBackend × Cuda ℕ)
      (h : Prog.execOver (Cuda.respond 0) (VmemBackend.serve []) idle i s = some (r, s')) : (Cuda.stack ℕ []).answers i s r s' :=
    Prog.answers_of_execOver (Cuda.answers_of_respond 0) i s r s' h
  obtain ⟨x, h, hx⟩ := exists_live hf (fun a _ => a.cfg = slotsLocal) slotsLocal (none, {}) rfl bothPools (fun x => decide (BothHeld slotsLocal x))
    (by with_unfolding_all decide)
  exact ⟨x, h, of_decide_eq_true hx⟩

/-- and over managed memory. -/
theorem exists_managed : ∃ x : App (Option RtBackend × Runtime ℕ),
    x.Live (Runtime.stack ℕ) .uvm Runtime.Kernel (fun a _ => a.cfg = slotsManaged) (none, {}) ∧ BothHeld slotsManaged x := by
  have hf (i : BackendCall) (s : Option RtBackend × Runtime ℕ) (r : i.Answer) (s' : Option RtBackend × Runtime ℕ)
      (h : Prog.execOver (Runtime.respond 0) RtBackend.serve idle i s = some (r, s')) : (Runtime.stack ℕ).answers i s r s' :=
    Prog.answers_of_execOver (Runtime.answers_of_respond 0) i s r s' h
  obtain ⟨x, h, hx⟩ := exists_live hf (fun a _ => a.cfg = slotsManaged) slotsManaged (none, {}) rfl bothPools (fun x => decide (BothHeld slotsManaged x))
    (by with_unfolding_all decide)
  exact ⟨x, h, of_decide_eq_true hx⟩

end StackAux

end Vmem
