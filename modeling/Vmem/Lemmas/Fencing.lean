import Vmem.App

/-!
# Fences and fatal errors

Every function of the allocator keeps its dead flag in step with the fatal errors that happened, moves and destroys memory only behind
a fence, and makes no such call once it is dead.
-/

namespace Vmem

namespace FencingAux

open Allocator Throwing

variable {α : Type}

/-- The allocator is dead exactly if something was fatal. -/
def InStep (a : Allocator) (f : Fence) : Prop := a.dead = f.broken ∧ f.ending = false

/-- Code that keeps the flag in step, whether it returns or throws. -/
def KeepsStep (x : AllocatorM α) : Prop :=
  ∀ a f, InStep a f → wp Fence.world x (fun _ => InStep) (fun _ => InStep) a f

/-- The same for code that starts on a live allocator, and ends on one that lives unless it throws. -/
def KeepsLive (x : AllocatorM α) : Prop :=
  ∀ a f, InStep a f → a.dead = false →
    wp Fence.world x (fun _ a' f' => InStep a' f' ∧ a'.dead = false) (fun _ => InStep) a f

theorem keepsLive_pure (r : α) : KeepsLive (pure r) := fun _ _ h hl => ⟨h, hl⟩

/-- Code that keeps it live, one piece after the other. -/
theorem keepsLive_bind {β : Type} {x : AllocatorM α} {g : α → AllocatorM β} (hx : KeepsLive x) (hg : ∀ r, KeepsLive (g r)) :
    KeepsLive (x >>= g) := by
  intro a f h hl
  exact wp_seq (hx a f h hl) fun r a' f' h' => hg r a' f' h'.1 h'.2

theorem keepsLive_get : KeepsLive (get : AllocatorM Allocator) := fun _ _ h hl => ⟨h, hl⟩

/-- An update that leaves the flag alone does. -/
theorem keepsLive_modify {u : Allocator → Allocator} (hu : ∀ a, (u a).dead = a.dead) : KeepsLive (modify u) := by
  intro a f h hl
  exact ⟨⟨(hu a).trans h.1, h.2⟩, (hu a).trans hl⟩

/-- A branch does if both sides do. -/
theorem keepsLive_ite {c : Prop} [Decidable c] {x y : AllocatorM α} (hx : KeepsLive x) (hy : KeepsLive y) :
    KeepsLive (if c then x else y) := by
  split
  · exact hx
  · exact hy

/-- A call that the fence does not watch. -/
theorem keepsLive_ask {i : BackendCall} (hp : ∀ f : Fence, f.permits i) (hr : ∀ (f : Fence) (r : i.Answer), f.record i r = f) :
    KeepsLive (ask i) := by
  intro a f h hl
  refine ⟨hp f, ?_⟩
  rintro r f' rfl
  rw [hr]
  exact ⟨h, hl⟩

/-- What is fatal leaves the allocator dead. -/
theorem fail_wp {s : Status} {what : Complaint} {Q : α → Allocator → Fence → Prop} {a : Allocator} {f : Fence}
    (h : f.broken = (a.dead || decide (s = .fatal))) (he : f.ending = false) :
    wp Fence.world (fail s what) Q (fun _ => InStep) a f := by
  refine ⟨?_, he⟩
  rw [h]
  by_cases hs : s = .fatal <;> simp [hs]

/-- A failure that is not fatal leaves the flag. -/
theorem keepsLive_fail {s : Status} {what : Complaint} (hs : s ≠ .fatal) : KeepsLive (fail s what : AllocatorM α) := by
  intro a f h hl
  exact fail_wp (by simp [hs, h.1]) h.2

/-- Rounding up asks for the granularity, and nothing is fatal about the answer. -/
theorem keepsLive_roundUp (x : Size) : KeepsLive (roundUp x) :=
  keepsLive_bind (keepsLive_ask (fun _ => trivial) fun _ _ => rfl) fun _ => keepsLive_pure _

/-- The next power of two keeps it live. -/
theorem keepsLive_bitCeil (x : Size) : KeepsLive (bitCeil x) :=
  keepsLive_ite (keepsLive_pure _) (keepsLive_ask (fun _ => trivial) fun _ _ => rfl)

/-- An address in no region is an error, but not a fatal one. -/
theorem keepsLive_find (p : Ptr) (what : String) : KeepsLive (find p what) := by
  refine keepsLive_bind keepsLive_get fun a => ?_
  cases a.lookup p with
  | none => exact keepsLive_fail nofun
  | some x => exact keepsLive_pure x

/-- Behind a sync that succeeded the context is idle. -/
theorem sync_wp {a : Allocator} {f : Fence} (h : InStep a f) :
    wp Fence.world sync (fun _ a' f' => a' = a ∧ f' = { f with idle := true }) (fun _ => InStep) a f := by
  unfold sync
  rw [wp_bind, ask, wp_call]
  refine ⟨trivial, ?_⟩
  rintro r f' rfl
  cases r with
  | none => exact ⟨rfl, rfl⟩
  | some e => exact ⟨rfl, h.2⟩

/-! ## alloc -/

/-- A new region leaves the flag. -/
theorem dead_emplace (a : Allocator) (base : Ptr) (r : Region) : (a.emplace base r).dead = a.dead := by
  unfold Allocator.emplace
  split <;> rfl

/-- A `create` that is fatal is thrown, and any other leaves the allocator live. -/
theorem keepsLive_add (size obj : Size) : KeepsLive (add size obj) := by
  intro a f h hl
  unfold add
  rw [wp_bind, ask, wp_call]
  refine ⟨h.1.symm.trans hl, ?_⟩
  rintro ⟨s, c⟩ f' rfl
  have hbroken : (f.record (.create size) (s, c)).broken = (a.dead || decide (s = .fatal)) := by
    rw [h.1]
    rfl
  by_cases hn : s = .noMemory
  · rw [if_pos hn]
    subst hn
    refine ⟨⟨?_, h.2⟩, hl⟩
    rw [hbroken]
    simp
  · rw [if_neg hn]
    by_cases hok : s = .ok
    · have hstep : InStep a (f.record (.create size) (s, c)) := by
        refine ⟨?_, h.2⟩
        rw [hbroken, hok]
        simp
      rw [if_neg (by simpa using hok)]
      refine keepsLive_bind ?_ (fun _ => keepsLive_bind ?_ fun _ => keepsLive_pure _) a _ hstep hl
      · exact keepsLive_modify fun a => by split <;> rfl
      · exact keepsLive_modify fun _ => dead_emplace _ _ _
    · rw [if_pos hok]
      exact fail_wp hbroken h.2

/-- Looking a region up keeps it live. -/
theorem keepsLive_regionAt (base : Ptr) : KeepsLive (regionAt base) := by
  refine keepsLive_bind keepsLive_get fun a => ?_
  split
  · exact keepsLive_pure _
  · exact keepsLive_bind (keepsLive_ask (fun _ => trivial) fun _ _ => rfl) fun e => e.elim

/-- Marking a slot keeps it live. -/
theorem keepsLive_setBusy (r : Region) (slot : BitVec 32) (x : Bool) : KeepsLive (setBusy r slot x) :=
  keepsLive_ite (keepsLive_pure _) (keepsLive_bind (keepsLive_ask (fun _ => trivial) fun _ _ => rfl) fun _ => keepsLive_pure _)

/-- Taking a slot keeps it live. -/
theorem keepsLive_takeSlot (base : Ptr) (obj : Size) : KeepsLive (takeSlot base obj) := by
  refine keepsLive_bind (keepsLive_regionAt _) fun r => keepsLive_bind ?_ fun slot => ?_
  · unfold backSlot
    split
    · exact keepsLive_pure _
    · exact keepsLive_ask (fun _ => trivial) fun _ _ => rfl
  · refine keepsLive_bind (keepsLive_setBusy _ _ _) fun r => keepsLive_bind (keepsLive_modify fun _ => rfl) fun _ => ?_
    exact keepsLive_bind (keepsLive_modify fun a => by split <;> rfl) fun _ => keepsLive_pure _

/-- An allocation in a slab returns with a live allocator. -/
theorem keepsLive_allocSmall (bytes : Size) : KeepsLive (allocSmall bytes) := by
  refine keepsLive_bind keepsLive_get fun a => keepsLive_bind (keepsLive_bitCeil _) fun obj => keepsLive_bind ?_ fun found => ?_
  · split
    · exact keepsLive_pure _
    · exact keepsLive_add _ _
  · cases found with
    | none => exact keepsLive_pure _
    | some base => exact keepsLive_takeSlot _ _

/-- So does one of a chunk of its own. -/
theorem keepsLive_allocLarge (bytes : Size) : KeepsLive (allocLarge bytes) := by
  refine keepsLive_bind (keepsLive_roundUp _) fun size => keepsLive_bind (keepsLive_add _ _) fun found => ?_
  cases found with
  | none => exact keepsLive_pure _
  | some base => exact keepsLive_bind (keepsLive_regionAt _) fun _ => keepsLive_pure _

/-! ## free -/

/-- Freeing a slot keeps it live. -/
theorem keepsLive_freeSlot (base : Ptr) (r : Region) (p : Ptr) : KeepsLive (freeSlot base r p) := by
  refine keepsLive_ite (keepsLive_fail nofun) (keepsLive_bind ?_ fun busy => keepsLive_ite (keepsLive_fail nofun) ?_)
  · unfold busyAt
    split
    · exact keepsLive_pure _
    · exact keepsLive_ask (fun _ => trivial) fun _ _ => rfl
  · refine keepsLive_bind (keepsLive_setBusy _ _ _) fun r => keepsLive_bind (keepsLive_modify fun _ => rfl) fun _ => ?_
    refine keepsLive_ite ?_ ?_
    all_goals exact keepsLive_bind (keepsLive_modify fun _ => rfl) fun _ => keepsLive_pure _

/-- The kernels are waited for before the chunk is destroyed. -/
theorem keepsLive_release (base : Ptr) (c : Chunk) : KeepsLive (release base c) := by
  intro a f h hl
  unfold release
  refine wp_seq (sync_wp h) ?_
  rintro _ a f' ⟨rfl, rfl⟩
  rw [wp_bind, ask, wp_call]
  refine ⟨⟨rfl, h.1.symm.trans hl⟩, ?_⟩
  rintro ⟨s, c'⟩ f' rfl
  have hbroken : ({ f with idle := true }.record (.destroy c) (s, c')).broken = (a.dead || decide (s = .fatal)) := by
    have he : f.ending = false := h.2
    simp [Fence.record, h.1, he]
  rw [wp_bind, wp_modify]
  by_cases hok : s = .ok
  · rw [if_neg (by simpa using hok)]
    refine ⟨⟨?_, h.2⟩, hl⟩
    rw [hbroken, hok]
    simp
  · rw [if_pos hok]
    exact fail_wp hbroken h.2

/-! ## The calls -/

/-- Past the check at its start, a call is in step with the fence. -/
theorem keepsStep_live {x : AllocatorM α} (h : KeepsLive x) : KeepsStep (do live; x) := by
  intro a f hs
  unfold live
  rw [wp_bind, wp_bind, wp_get]
  by_cases hd : a.dead = true
  · rw [if_pos hd]
    exact hs
  · rw [if_neg hd, wp_pure]
    exact wp_mono (h a f hs (by simpa using hd)) (fun _ _ _ h => h.1) fun _ _ _ h => h

/-- `alloc` stays in step with the fence. -/
theorem keepsStep_alloc (bytes : Size) : KeepsStep (alloc bytes) := by
  refine keepsStep_live (keepsLive_ite (keepsLive_pure _) (keepsLive_bind keepsLive_get fun a => ?_))
  exact keepsLive_ite (keepsLive_allocLarge _) (keepsLive_allocSmall _)

/-- `free` stays in step with the fence. -/
theorem keepsStep_free (p : Ptr) : KeepsStep (free p) := by
  unfold free
  split
  · exact fun _ _ h => h
  · refine keepsStep_live (keepsLive_bind (keepsLive_find _ _) fun x => keepsLive_ite ?_ ?_)
    · refine keepsLive_bind (keepsLive_freeSlot _ _ _) fun gone => keepsLive_ite (keepsLive_release _ _) (keepsLive_pure _)
    · exact keepsLive_ite (keepsLive_fail nofun) (keepsLive_release _ _)

/-- A hint never throws. -/
theorem move_wp (p : Ptr) (target : Loc) {a : Allocator} {f : Fence} (h : InStep a f) :
    wp Fence.world (Allocator.move p target) (fun s a' f' => InStep a' f' ∧ (a.dead = true → s = .fatal ∧ a' = a))
      (fun _ _ _ => False) a f := by
  unfold Allocator.move
  rw [wp_bind, wp_get]
  by_cases hd : a.dead = true
  · rw [if_pos hd]
    exact ⟨h, fun _ => ⟨rfl, rfl⟩⟩
  · rw [if_neg hd]
    have hl : a.dead = false := by simpa using hd
    have hsame (s : Status) : InStep a f ∧ (a.dead = true → s = .fatal ∧ a = a) := ⟨h, fun hdead => absurd hdead hd⟩
    cases a.lookup p with
    | none => exact hsame _
    | some x =>
      obtain ⟨base, r⟩ := x
      dsimp only
      by_cases hobj : r.obj = 0
      · rw [if_neg (by simpa using hobj), wp_bind, ask, wp_call]
        refine ⟨trivial, ?_⟩
        rintro can f' rfl
        cases can with
        | false => exact hsame _
        | true =>
          simp only [Bool.not_true, Bool.false_eq_true, if_false]
          by_cases ht : r.c.loc = target
          · rw [if_pos ht]
            exact hsame _
          · rw [if_neg ht, wp_bind, wp_tryCatch, wp_bind]
            refine wp_mono (sync_wp h) ?_ ?_
            · rintro _ _ _ ⟨rfl, rfl⟩
              rw [wp_pure]
              dsimp only
              rw [wp_bind, ask, wp_call]
              refine ⟨⟨rfl, h.1.symm.trans hl⟩, ?_⟩
              rintro ⟨s, c'⟩ f' rfl
              rw [wp_bind, wp_modify]
              by_cases hs : s = .fatal
              · rw [if_pos hs]
                refine ⟨⟨?_, h.2⟩, fun hdead => absurd hdead hd⟩
                simp [Fence.record, hs]
              · rw [if_neg hs]
                refine ⟨⟨?_, h.2⟩, fun hdead => absurd hdead hd⟩
                simp [Fence.record, hs, Allocator.setRegion, h.1]
            · intro e a' f' h'
              exact ⟨h', fun hdead => absurd hdead hd⟩
      · rw [if_pos hobj]
        exact hsame _

/-- Finding a region makes no call, so it stays in step. -/
theorem keepsStep_find (p : Ptr) (what : String) : KeepsStep (find p what) := by
  intro a f h
  unfold find
  rw [wp_bind, wp_get]
  cases a.lookup p with
  | none => exact fail_wp (by simp [h.1]) h.2
  | some x => exact h

/-- Every call of the program stays in step with the fence. -/
theorem keepsStep_program (c : AppCall) : KeepsStep c.program := by
  have hask {i : BackendCall} (hp : ∀ f : Fence, f.permits i) (hr : ∀ (f : Fence) (r : i.Answer), f.record i r = f) :
      KeepsStep (ask i) := by
    intro a f h
    refine ⟨hp f, ?_⟩
    rintro r f' rfl
    rw [hr]
    exact h
  have hmove (p : Ptr) (target : Loc) : KeepsStep (Allocator.move p target) :=
    fun a f h => wp_mono (move_wp p target h) (fun _ _ _ h => h.1) fun _ _ _ h => h.elim
  cases c with
  | alloc bytes => exact keepsStep_alloc bytes
  | free p => exact keepsStep_free p
  | evict p => exact hmove p .host
  | prefetch p => exact hmove p .device
  | locate p => exact fun a f h => wp_seq (keepsStep_find p _ a f h) fun _ _ _ h => h
  | used => exact hask (fun _ => trivial) fun _ _ => rfl
  | usedAt l =>
    intro a f h
    refine wp_seq (hask (i := .usedAt l) (fun _ => trivial) (fun _ _ => rfl) a f h) ?_
    intro r a' f' h'
    cases r with
    | ok bytes => exact h'
    | error s => exact h'
  | info =>
    intro a f h
    show wp Fence.world (get >>= _) _ _ a f
    rw [wp_bind, wp_get]
    refine wp_seq (hask (i := .link) (fun _ => trivial) (fun _ _ => rfl) a f h) fun _ a' f' h' => ?_
    exact wp_seq (hask (i := .used) (fun _ => trivial) (fun _ _ => rfl) a' f' h') fun _ _ _ h => h
  | reconnect => exact hask (fun _ => trivial) fun _ _ => rfl

/-! ## Start and end -/

/-- The constructor leaves the allocator in step with the fence, whether it throws or not. -/
theorem construct_wp (cfg : Config) (env : Env) {a : Allocator} {f : Fence} (h : InStep a f) :
    wp Fence.world (construct cfg env) (fun _ => InStep) (fun _ => InStep) a f := by
  unfold construct
  rw [wp_bind, wp_modify]
  cases envKind env cfg.backend with
  | error e => exact h
  | ok k =>
    dsimp only
    rw [wp_bind, ask, wp_call]
    refine ⟨trivial, ?_⟩
    rintro - f' rfl
    rw [wp_bind, ask, wp_call]
    refine ⟨trivial, ?_⟩
    rintro s f' rfl
    by_cases hs : s = .ok
    · rw [if_neg (by simpa using hs), wp_bind, roundUp, wp_bind, ask, wp_call]
      refine ⟨trivial, ?_⟩
      rintro g f' rfl
      rw [wp_pure, wp_bind, wp_modify, wp_bind]
      have hcheck (x chunk : Size) {a : Allocator} {f : Fence} (h : InStep a f) : wp Fence.world
          (if x > chunk then throw ⟨.unsupported, .config⟩ else pure () : AllocatorM Unit) (fun _ => InStep) (fun _ => InStep) a f := by
        split <;> exact h
      unfold bitCeil
      split
      · exact hcheck _ _ h
      · refine ⟨trivial, ?_⟩
        rintro x f' rfl
        exact hcheck _ _ h
    · rw [if_pos hs]
      exact h

/-- At the end nothing is watched but the fence. -/
theorem destroyAll_wp (rs : List (Ptr × Region)) {a : Allocator} {f : Fence} (hi : f.idle = true) (hb : f.broken = false)
    (he : f.ending = true) : wp Fence.world (destroyAll rs) (fun _ _ _ => True) (fun _ _ _ => False) a f := by
  induction rs with
  | nil => trivial
  | cons x rs ih =>
    unfold destroyAll
    rw [wp_bind, ask, wp_call]
    refine ⟨⟨hi, hb⟩, ?_⟩
    rintro r f' rfl
    have hf : f.record (.destroy x.2.c) r = f := by
      obtain ⟨idle, broken, ending⟩ := f
      simp only at hi hb he
      simp [Fence.record, he, hb]
    rw [hf]
    exact ih

/-- The destructor ends without an exception, and destroys only behind the fence. -/
theorem destruct_wp {a : Allocator} {f : Fence} (h : a.dead = f.broken) (he : f.ending = true) :
    wp Fence.world destruct (fun _ _ _ => True) (fun _ _ _ => False) a f := by
  have hclose {a : Allocator} {f : Fence} : wp Fence.world (ask .close) (fun _ _ _ => True) (fun _ _ _ => False) a f :=
    ⟨trivial, fun _ _ _ => trivial⟩
  unfold destruct
  rw [wp_bind, wp_get]
  by_cases hd : a.dead = true
  · rw [if_pos hd]
    exact hclose
  · rw [if_neg hd, wp_bind, ask, wp_call]
    refine ⟨trivial, ?_⟩
    rintro r f' rfl
    cases r with
    | none =>
      rw [if_pos rfl]
      refine wp_seq (destroyAll_wp _ rfl ?_ he) fun _ _ _ _ => hclose
      show f.broken = false
      rw [← h]
      simpa using hd
    | some e =>
      rw [if_neg (by simp)]
      exact hclose

/-- In every run the allocator is in step with the fence. -/
theorem reached_inStep {x : App Fence} (h : x.Reached Fence.world Fence.launch (fun _ _ => True) {}) : InStep x.a x.s := by
  induction h with
  | built hr => exact hr.of_wp (construct_wp _ _ ⟨rfl, rfl⟩)
  | @call x c r a' s' h hc hr ih =>
    have h' := hr.of_wp (keepsStep_program c _ _ ih)
    cases r with
    | ok r => exact h'
    | error e => exact h'
  | launch h ih => exact ih

end FencingAux

end Vmem
