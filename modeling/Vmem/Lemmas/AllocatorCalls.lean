import Vmem.App
import Vmem.Lib.Layer

/-!
# The calls of an allocator

Once it is built, an allocator neither makes a backend nor opens one, and the last call of its destructor closes the one it has.
-/

namespace Vmem

/-- The call makes or opens a backend. -/
def BackendCall.opens : BackendCall → Bool
  | .make _ => true
  | .openWith _ => true
  | _ => false

namespace AllocatorCallsAux

open Allocator Throwing

variable {α : Type}

/-- Code of an allocator that is built. -/
abbrev Built (x : AllocatorM α) : Prop := Only (fun c : BackendCall => c.opens = false) x

/-- A call of the backend other than opening it keeps the backend. -/
theorem built_ask {c : BackendCall} (h : c.opens = false) : Built (ask c) := only_call h

/-- A failure keeps it, fatal or not. -/
theorem built_fail (s : Status) (what : Complaint) : Built (fail s what : AllocatorM α) :=
  only_bind (only_modify _) fun _ => only_throw _

/-- Waiting for the kernels keeps it. -/
theorem built_sync : Built sync := by
  refine only_bind (built_ask rfl) fun e => ?_
  cases e with
  | none => exact only_pure _
  | some e => exact only_bind (only_modify _) fun _ => only_throw _

/-- Finding a region keeps it. -/
theorem built_find (p : Ptr) (what : String) : Built (find p what) := by
  refine only_bind only_get fun a => ?_
  split
  · exact built_fail _ _
  · exact only_pure _

/-- So does the check that no error was fatal before. -/
theorem built_live {x : AllocatorM α} (h : Built x) : Built (do live; x) :=
  only_bind (only_bind only_get fun _ => only_ite (only_throw _) (only_pure _)) fun _ => h

theorem built_roundUp (x : Size) : Built (roundUp x) := only_bind (built_ask rfl) fun _ => only_pure _

/-- So does the next power of two. -/
theorem built_bitCeil (x : Size) : Built (bitCeil x) := only_ite (only_pure _) (built_ask rfl)

/-! ## alloc -/

/-- Adding a region keeps it, though the backend is asked. -/
theorem built_add (size obj : Size) : Built (add size obj) := by
  refine only_bind (built_ask rfl) fun x => only_ite (only_pure _) (only_ite (built_fail _ _) ?_)
  exact only_bind (only_modify _) fun _ => only_bind (only_modify _) fun _ => only_pure _

/-- Looking a region up keeps it. -/
theorem built_regionAt (base : Ptr) : Built (regionAt base) := by
  refine only_bind only_get fun a => ?_
  split
  · exact only_pure _
  · exact only_bind (built_ask rfl) fun e => e.elim

theorem built_setBusy (r : Region) (slot : BitVec 32) (x : Bool) : Built (setBusy r slot x) :=
  only_ite (only_pure _) (only_bind (built_ask rfl) fun _ => only_pure _)

/-- So does reading the last free slot. -/
theorem built_backSlot (r : Region) : Built (backSlot r) := by
  unfold backSlot
  split
  · exact only_pure _
  · exact built_ask rfl

theorem built_takeSlot (base : Ptr) (obj : Size) : Built (takeSlot base obj) := by
  refine only_bind (built_regionAt _) fun r => only_bind (built_backSlot _) fun slot => only_bind (built_setBusy _ _ _) fun r => ?_
  exact only_bind (only_modify _) fun _ => only_bind (only_modify _) fun _ => only_pure _

/-- So does an allocation in a slab. -/
theorem built_allocSmall (bytes : Size) : Built (allocSmall bytes) := by
  refine only_bind only_get fun a => only_bind (built_bitCeil _) fun obj => only_bind ?_ fun found => ?_
  · split
    · exact only_pure _
    · exact built_add _ _
  · cases found with
    | none => exact only_pure _
    | some base => exact built_takeSlot _ _

/-- So does one of a chunk of its own. -/
theorem built_allocLarge (bytes : Size) : Built (allocLarge bytes) := by
  refine only_bind (built_roundUp _) fun size => only_bind (built_add _ _) fun found => ?_
  cases found with
  | none => exact only_pure _
  | some base => exact only_bind (built_regionAt _) fun _ => only_pure _

theorem built_alloc (bytes : Size) : Built (alloc bytes) :=
  built_live (only_ite (only_pure _) (only_bind only_get fun _ => only_ite (built_allocLarge _) (built_allocSmall _)))

/-! ## free -/

theorem built_freeSlot (base : Ptr) (r : Region) (p : Ptr) : Built (freeSlot base r p) := by
  refine only_ite (built_fail _ _) (only_bind ?_ fun busy => only_ite (built_fail _ _) ?_)
  · unfold busyAt
    split
    · exact only_pure _
    · exact built_ask rfl
  · refine only_bind (built_setBusy _ _ _) fun r => only_bind (only_modify _) fun _ => only_ite ?_ ?_
    all_goals exact only_bind (only_modify _) fun _ => only_pure _

/-- So does giving a chunk back, which waits and asks the backend. -/
theorem built_release (base : Ptr) (c : Chunk) : Built (release base c) := by
  refine only_bind built_sync fun _ => only_bind (built_ask rfl) fun x => only_bind (only_modify _) fun _ => ?_
  exact only_ite (built_fail _ _) (only_pure _)

theorem built_free (p : Ptr) : Built (free p) := by
  refine only_ite (only_pure _) (built_live (only_bind (built_find _ _) fun x => only_ite ?_ ?_))
  · exact only_bind (built_freeSlot _ _ _) fun gone => only_ite (built_release _ _) (only_pure _)
  · exact only_ite (built_fail _ _) (built_release _ _)

/-! ## Hints, queries and the end -/

theorem built_move (p : Ptr) (target : Loc) : Built (Allocator.move p target) := by
  refine only_bind only_get fun a => only_ite (only_pure _) ?_
  split
  · exact only_pure _
  · refine only_ite (only_pure _) (only_bind (built_ask rfl) fun can => only_ite (only_pure _) (only_ite (only_pure _) ?_))
    refine only_bind (only_tryCatch (only_bind built_sync fun _ => only_pure _) fun _ => only_pure _) fun failed => ?_
    cases failed with
    | some s => exact only_pure _
    | none =>
      refine only_bind (built_ask rfl) fun x => only_bind (only_modify _) fun _ => only_ite ?_ (only_pure _)
      exact only_bind (only_modify _) fun _ => only_pure _

/-- No call of an app makes or opens a backend. -/
theorem built_program (c : AppCall) : Built c.program := by
  cases c with
  | alloc bytes => exact built_alloc _
  | free p => exact built_free _
  | evict p => exact built_move _ _
  | prefetch p => exact built_move _ _
  | locate p => exact only_bind (built_find _ _) fun _ => only_pure _
  | used => exact built_ask rfl
  | usedAt l =>
    refine only_bind (built_ask rfl) fun x => ?_
    split
    · exact only_pure _
    · exact only_throw _
  | info => exact only_bind only_get fun _ => only_bind (built_ask rfl) fun _ => only_bind (built_ask rfl) fun _ => only_pure _
  | reconnect => exact built_ask rfl

/-- The end of a built allocator throws nothing. -/
theorem destroyAll_wp (rs : List (Ptr × Region)) {a : Allocator} :
    wp (Prog.World.only BackendCall.Answer fun c => c.opens = false) (destroyAll rs) (fun _ _ _ => True) (fun _ _ _ => False) a () := by
  induction rs generalizing a with
  | nil => trivial
  | cons x rs ih => exact ⟨rfl, fun _ _ _ => ih⟩

/-- The destructor makes calls of an allocator that is built, throws nothing, and then closes the backend. -/
theorem destruct_closes : ∃ x : AllocatorM Unit, destruct = (do x; ask .close) ∧ ∀ a : Allocator,
    wp (Prog.World.only BackendCall.Answer fun c => c.opens = false) x (fun _ _ _ => True) (fun _ _ _ => False) a () := by
  refine ⟨do
    let a ← get
    if a.dead then pure ()
    else do
      let e : Option CuError ← ask .synchronize
      if e = none then destroyAll a.regions.toList else pure (), ?_, fun a => ?_⟩
  · unfold destruct
    rw [bind_assoc]
    congr 1
    funext a
    split
    · rfl
    · rw [bind_assoc]
      congr 1
      funext e
      split
      · rfl
      · rfl
  · rw [wp_bind, wp_get]
    split
    · trivial
    · rw [wp_bind, ask, wp_call]
      refine ⟨rfl, fun e _ _ => ?_⟩
      split
      · exact destroyAll_wp _
      · trivial

end AllocatorCallsAux

end Vmem
