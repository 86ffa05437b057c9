import Vmem.Lemmas.PoolRuns

/-!
# Runs that happen

A heap that works and puts each new chunk behind the last one (`Heap.respond`). Against it an app can be run (`App.play`), and what it then
does happens in a run.
-/

namespace Vmem

namespace Heap

/-- The address behind the last chunk. -/
def behind (h : Heap) : Ptr :=
  match h.chunks.toList.getLast? with
  | none => h.gran
  | some x => x.1 + x.2

/-- Whether a chunk at an address is new. -/
def isFresh (h : Heap) (ptr : Ptr) (size : Size) : Bool :=
  decide (ptr ≠ 0 ∧ ptr.toNat + size.toNat < 2 ^ 64) &&
    h.chunks.toList.all fun x => decide (ptr.toNat + size.toNat ≤ x.1.toNat ∨ x.1.toNat + x.2.toNat ≤ ptr.toNat)

/-- A new chunk behind the last one. -/
def place (h : Heap) (size : Size) : (Status × Chunk) × Heap :=
  if size = 0 then ((.ok, { size := 0 }), h)
  else if h.isFresh h.behind size then ((.ok, { ptr := h.behind, size }), { h with chunks := h.chunks.insert h.behind size })
  else ((.noMemory, {}), h)

/-- One answer to each call that is permitted. A bit past the end of `busy` reads as set. -/
def respond : (i : BackendCall) → Heap → Option (i.Answer × Heap)
  | .make _, h => some ((), h)
  | .openWith _, h => some (.ok, h)
  | .close, h => some ((), h)
  | .granularity, h => some (h.gran, h)
  | .canMove, h => some (h.movable, h)
  | .create size, h => some (h.place size)
  | .destroy c, h => some ((.ok, c), { h with chunks := h.chunks.erase c.ptr })
  | .move c target, h => some ((.ok, { c with loc := target }), h)
  | .link, h => some (.localMode, h)
  | .reconnect, h => some (.ok, h)
  | .used, h => some (h.used, h)
  | .usedAt _, h => some (.ok 0, h)
  | .synchronize, h => some (none, h)
  | .pastEnd _, h => some (true, h)
  | .backOfEmpty, _ => none
  | .bitCeilOverflow x, h => some (x, h)
  | .atFailed, _ => none

end Heap

namespace App

variable {S : Type} (f : (i : BackendCall) → S → Option (i.Answer × S)) (ok : App S → AppCall → Prop) [∀ x c, Decidable (ok x c)]

/-- One call of an app, run against an outside that has at most one answer to each call of the backend. -/
def exec (x : App S) (c : AppCall) : Option (App S) :=
  ((c.program.run x.a).exec f x.s).map fun y => ⟨y.1.2, y.2, c.held x.objs y.1.1⟩

/-- Calls of an app in a row, as long as they meet a condition. -/
def execAll (x : App S) : List AppCall → Option (App S)
  | [] => some x
  | c :: cs => if ok x c then (x.exec f c).bind fun y => y.execAll cs else none

/-- An app that builds its allocator and then makes calls. -/
def play (cfg : Config) (s : S) (cs : List AppCall) : Option (App S) :=
  ((Allocator.construct cfg {}).run {}).exec f s |>.bind fun y =>
    match y.1.1 with
    | .ok _ => execAll f ok { a := y.1.2, s := y.2 } cs
    | .error _ => none

end App

namespace PoolsAux

open Allocator Throwing

variable {h h' : Heap} {ok : App Heap → AppCall → Prop} [∀ x c, Decidable (ok x c)] {x y : App Heap} {cs : List AppCall}

omit [∀ x c, Decidable (ok x c)] in
/-- A run is also one under a condition that its calls meet. -/
theorem reached_mono {works : Bool} {s₀ : Heap} {ok' : App Heap → AppCall → Prop}
    (hok : ∀ (x : App Heap) (c : AppCall), x.Reached (Heap.world works) id ok s₀ → ok x c → ok' x c)
    (h : x.Reached (Heap.world works) id ok s₀) : x.Reached (Heap.world works) id ok' s₀ := by
  induction h with
  | built hr => exact .built hr
  | call h hc hr ih => exact .call ih (hok _ _ h hc) hr
  | launch h ih => exact .launch ih

/-- The test for a fresh range finds one. -/
theorem fresh_of_isFresh {ptr : Ptr} {size : Size} (hf : h.isFresh ptr size = true) : h.Fresh ptr size := by
  obtain ⟨hptr, hall⟩ := Bool.and_eq_true_iff.1 hf
  obtain ⟨h0, hend⟩ := of_decide_eq_true hptr
  refine ⟨h0, hend, fun q n hn => ?_⟩
  exact of_decide_eq_true (List.all_eq_true.1 hall (q, n) (Std.ExtTreeMap.mem_toList_iff_getElem?_eq_some.2 hn))

/-- The heap gives the range it places. -/
theorem answers_place (h : Heap) (size : Size) : h.answers true (.create size) (h.place size).1 (h.place size).2 := by
  unfold Heap.place
  split
  · exact .inr ⟨rfl, ‹size = 0›.symm, .inl ⟨‹_›, rfl, rfl⟩⟩
  · split
    · exact .inr ⟨rfl, rfl, .inr ⟨‹_›, fresh_of_isFresh ‹_›, rfl⟩⟩
    · exact .inl ⟨by simp, rfl⟩

/-- The answers are those of a heap that works. -/
theorem answers_of_respond (i : BackendCall) (h : Heap) (r : i.Answer) (h' : Heap) (hr : h.respond i = some (r, h')) :
    (Heap.world true).answers i h r h' := by
  cases i with
  | create size =>
    obtain ⟨rfl, rfl⟩ : (h.place size).1 = r ∧ (h.place size).2 = h' := Prod.mk.inj (Option.some.inj hr)
    exact answers_place h size
  | destroy c =>
    cases hr
    exact .inl ⟨rfl, rfl⟩
  | synchronize =>
    cases hr
    exact ⟨fun _ => rfl, rfl⟩
  | move c target =>
    cases hr
    exact ⟨rfl, rfl, rfl⟩
  | granularity =>
    cases hr
    exact ⟨rfl, rfl⟩
  | canMove =>
    cases hr
    exact ⟨rfl, rfl⟩
  | used =>
    cases hr
    exact ⟨rfl, rfl⟩
  | backOfEmpty => cases hr
  | atFailed => cases hr
  | _ =>
    cases hr
    exact rfl

/-- Calls that are run are a run. -/
theorem reached_execAll {s₀ : Heap} (hx : x.Reached (Heap.world true) id ok s₀) (hy : x.execAll Heap.respond ok cs = some y) :
    y.Reached (Heap.world true) id ok s₀ := by
  induction cs generalizing x with
  | nil =>
    cases hy
    exact hx
  | cons c cs ih =>
    unfold App.execAll at hy
    split at hy
    · obtain ⟨z, hz, hy⟩ := Option.bind_eq_some_iff.1 hy
      obtain ⟨⟨⟨r, a'⟩, h'⟩, hc, rfl⟩ := Option.map_eq_some_iff.1 hz
      exact ih (hx.call ‹ok x c› (Prog.runs_of_exec answers_of_respond hc)) hy
    · cases hy

/-- An app that is run reaches its states. -/
theorem reached_play {s₀ : Heap} {cfg : Config} (hy : App.play Heap.respond ok cfg s₀ cs = some y) : y.Reached (Heap.world true) id ok s₀ := by
  obtain ⟨⟨⟨r, a⟩, s⟩, hbuilt, hy⟩ := Option.bind_eq_some_iff.1 hy
  cases r with
  | error e => cases hy
  | ok r => exact reached_execAll (.built (Prog.runs_of_exec answers_of_respond hbuilt)) hy

/-- An app that is run to a state where `p` holds. -/
theorem exists_play (ok : App Heap → AppCall → Prop) [∀ x c, Decidable (ok x c)] (cfg : Config) (s₀ : Heap) (cs : List AppCall)
    (p : App Heap → Bool) (h : (App.play Heap.respond ok cfg s₀ cs).map p = some true) :
    ∃ x : App Heap, x.Reached (Heap.world true) id ok s₀ ∧ p x = true := by
  obtain ⟨x, hx, hp⟩ := Option.map_eq_some_iff.1 h
  exact ⟨x, reached_play hx, hp⟩

/-! ## Calls in slots -/

section

variable {works : Bool} {gran : Size} {pos : gran ≠ 0} {movable : Bool} {ok : App Heap → AppCall → Prop} {x : App Heap}

/-- Calls in slots are admitted. -/
theorem reached_admits (hok : ∀ (x : App Heap) (c : AppCall), ok x c → Steady x → x.a.InSlots c)
    (h : x.Reached (Heap.world works) id ok (Heap.start gran pos movable)) :
    x.Reached (Heap.world works) id (fun x c => ok x c ∧ (x.a.dead = false → x.a.Admits c ∧ ∀ p : Ptr, x.a.Exact p))
      (Heap.start gran pos movable) := by
  induction h with
  | built hr => exact .built hr
  | @call x c r a' s' h hc hr ih =>
    have hsteady := reached_steady (fun _ _ h hd => (h.2 hd).1) ih
    obtain ⟨hfits, htail⟩ := hok x c hc hsteady
    refine .call ih ⟨hc, fun hd => ⟨?_, exact_of_fits (hsteady.ready hd) hfits⟩⟩ hr
    exact admits_of_fits (hsteady.ready hd) hfits fun p hp => htail p hp hd
  | launch h ih => exact .launch ih

/-- An allocator whose calls are in slots stays steady. -/
theorem steady_of_inSlots (hok : ∀ (x : App Heap) (c : AppCall), ok x c → Steady x → x.a.InSlots c)
    (h : x.Reached (Heap.world works) id ok (Heap.start gran pos movable)) : Steady x :=
  reached_steady (fun _ _ h hd => (h.2 hd).1) (reached_admits hok h)

/-- Its objects are what the program was given and did not free. -/
theorem owned_of_inSlots (hok : ∀ (x : App Heap) (c : AppCall), ok x c → Steady x → x.a.InSlots c)
    (h : x.Reached (Heap.world works) id ok (Heap.start gran pos movable)) (hd : x.a.dead = false) : x.a.Owned x.objs :=
  reached_owned (fun _ _ h hd => (h.2 hd).1) (fun _ p h hd => (h.2 hd).2 p) (reached_admits hok h) hd

/-- Where the slots divide the chunks, every call is in slots. -/
theorem inSlots_of_divides (c : AppCall) (hdiv : x.a.cfg.Divides) (hx : Steady x) : x.a.InSlots c :=
  ⟨fits_of_divides hdiv hx.chunk, fun p _ hd => not_tail_of_divides (hx.ready hd) hdiv p⟩

/-- Parts of ranges that are apart are apart. -/
theorem apart_of_le {p q : Ptr} {n m n' m' : Size} (hap : Apart p n q m) (hn : n'.toNat ≤ n.toNat) (hm : m'.toNat ≤ m.toNat) :
    Apart p n' q m' := by
  rcases hap with hap | hap
  · exact .inl (by omega)
  · exact .inr (by omega)

end

/-! ## A run -/

/-- Slabs of four slots of 512 KiB or two of 1 MiB. -/
def fourSlots : Config := { minObj := 0x80000 }

/-- A backend without chunks whose granularity is 2 MiB. -/
def twoMiB : Heap := Heap.start 0x200000 (by decide) false

/-- Calls of an app with these slabs that ask for no size that wraps. -/
def Mild (x : App Heap) (c : AppCall) : Prop := x.a.cfg = fourSlots ∧ x.s.Whole x.a.cfg c

instance (x : App Heap) (c : AppCall) : Decidable (Mild x c) := inferInstanceAs (Decidable (_ ∧ _))

/-- Four slots divide their chunk. -/
theorem divides_fourSlots : fourSlots.Divides :=
  divides_of_pow (k := 20) (by decide) (by decide) (by decide) (by decide) (by decide)

/-- Mild calls are in slots. -/
theorem inSlots_of_mild (c : AppCall) (hc : Mild x c) (hx : Steady x) : x.a.InSlots c :=
  inSlots_of_divides c (by rw [hc.1]; exact divides_fourSlots) hx

/-- A state that such an app reaches. -/
theorem steady_of_mild (h : x.Reached (Heap.world true) id Mild twoMiB) : Steady x :=
  steady_of_inSlots (fun _ c => inSlots_of_mild c) h

/-- All its calls stay inside the slabs. -/
theorem admits_of_mild (h : x.Reached (Heap.world true) id Mild twoMiB) (hcfg : x.a.cfg = fourSlots) (hd : x.a.dead = false)
    (c : AppCall) : x.a.Admits c := by
  have hready := (steady_of_mild h).ready hd
  have hdiv : x.a.cfg.Divides := by
    rw [hcfg]
    exact divides_fourSlots
  exact admits_of_fits hready (fits_of_divides hdiv (steady_of_mild h).chunk) fun p _ => not_tail_of_divides hready hdiv p

/-- Objects of 1 byte, 3 MiB, 100 bytes and 448 KiB, the third of which is freed. -/
def bothPools : List AppCall := [.alloc 1, .alloc 0x300000, .alloc 100, .alloc 0x70000, .free 0x280000]

/-- What the run leaves: two small objects and a large one, a slab with a free slot, and a chunk of each pool. -/
structure BothPools (x : App Heap) : Prop where
  cfg : x.a.cfg = fourSlots
  alive : x.a.dead = false
  objs : x.objs = [(0x300000, 0x70000), (0x400000, 0x300000), (0x200000, 1)]
  gran : x.s.gran = 0x200000
  slab : (x.a.regions[(0x200000 : Ptr)]?.map fun r => (r.obj, r.busy[1]?)) = some (0x80000, some false)
  small : (x.a.regions.toList.countP fun e => decide (e.2.obj ≠ 0)) = 1
  large : (x.a.regions.toList.countP fun e => decide (e.2.obj = 0)) = 1
  total : (OrdMap.total x.a.regions fun _ r => r.c.size) = 0x600000
  next : ((((Allocator.allocArray 8 0x10000).run x.a).exec Heap.respond x.s).map fun y => y.1.1) = some (.ok 0x280000)

/-- The run exists. -/
theorem exists_bothPools : ∃ x : App Heap, x.Reached (Heap.world true) id Mild twoMiB ∧ BothPools x := by
  obtain ⟨x, h, hx⟩ := exists_play Mild fourSlots twoMiB bothPools
    (fun x => decide (x.a.cfg = fourSlots ∧ x.a.dead = false ∧ x.objs = [(0x300000, 0x70000), (0x400000, 0x300000), (0x200000, 1)] ∧
      x.s.gran = 0x200000 ∧ (x.a.regions[(0x200000 : Ptr)]?.map fun r => (r.obj, r.busy[1]?)) = some (0x80000, some false) ∧
      (x.a.regions.toList.countP fun e => decide (e.2.obj ≠ 0)) = 1 ∧ (x.a.regions.toList.countP fun e => decide (e.2.obj = 0)) = 1 ∧
      (OrdMap.total x.a.regions fun _ r => r.c.size) = 0x600000 ∧
      ((((Allocator.allocArray 8 0x10000).run x.a).exec Heap.respond x.s).map fun y => y.1.1) = some (.ok 0x280000))) (by with_unfolding_all decide)
  obtain ⟨hcfg, hd, hobjs, hgran, hslab, hsmall, hlarge, htotal, hnext⟩ := of_decide_eq_true hx
  exact ⟨x, h, hcfg, hd, hobjs, hgran, hslab, hsmall, hlarge, htotal, hnext⟩

end PoolsAux

end Vmem
