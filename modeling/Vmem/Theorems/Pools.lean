import Vmem.Lemmas.PoolRoom

/-!
# Objects of the pools

Live objects lie apart inside live chunks, slots are used in bounds, and `free` takes exactly the live objects.
-/

namespace Vmem

open PoolsAux

/-! ## Slots in bounds -/

/-- In every run of an app in which each small object has a size class with a slot and each freed address at a slot boundary is that
of a slot: every slot on the stack of a slab and every busy one ends inside its chunk, and no call takes the back of an empty stack
or reads or writes a bit past the end of `busy`. -/
theorem slots_in_bounds (works : Bool) (gran : Size) (pos : gran ≠ 0) (movable : Bool) (x : App Heap)
    (h : x.Reached (Heap.world works) id (fun x c => x.a.dead = false → x.a.Admits c) (Heap.start gran pos movable)) :
    (x.a.dead = false → ∀ (base : Ptr) (r : Region) (slot : BitVec 32), x.a.regions[base]? = some r → r.obj ≠ 0 →
      (slot ∈ r.freeSlots ∨ r.busy[slot.toNat]? = some true) →
        slot.toNat < r.busy.length ∧ (slot.toNat + 1) * r.obj.toNat ≤ r.c.size.toNat) ∧
    ∀ c : AppCall, (x.a.dead = false → x.a.Admits c) →
      Throwing.wp (Heap.world works) c.program (fun _ _ _ => True) (fun _ _ _ => True) x.a x.s := by
  have hsteady := reached_steady (fun _ _ h => h) h
  refine ⟨fun hd base r slot hget hobj hslot => ?_, fun c hadm => ?_⟩
  · have hslab := (region_slab (hsteady.ready hd).sound hget hobj).1
    have hbusy : ∃ b : Bool, r.busy[slot.toNat]? = some b := by
      rcases hslot with hfree | hbusy
      · exact ⟨false, (hslab.slots.mem slot).1 hfree⟩
      · exact ⟨true, hbusy⟩
    obtain ⟨b, hbusy⟩ := hbusy
    exact ⟨(List.getElem?_eq_some_iff.1 hbusy).1, slot_end_le (slot_lt hslab hbusy)⟩
  · cases hd : x.a.dead with
    | true => exact Throwing.wp_mono (dead_wp hd c) (fun _ _ _ _ => trivial) fun _ _ _ _ => trivial
    | false =>
      exact Throwing.wp_mono (program_wp (hsteady.ready hd) hd (hadm hd)) (fun _ _ _ _ => trivial) fun _ _ _ _ => trivial

/-- Two objects share a slab and one is freed; the other may be freed too, and there is room for more. -/
theorem slots_in_bounds_freed : ∃ x : App Heap, x.objs = [(0x200000, 1)] ∧
    (∀ (base : Ptr) (r : Region) (slot : BitVec 32), x.a.regions[base]? = some r → r.obj ≠ 0 →
      (slot ∈ r.freeSlots ∨ r.busy[slot.toNat]? = some true) →
        slot.toNat < r.busy.length ∧ (slot.toNat + 1) * r.obj.toNat ≤ r.c.size.toNat) ∧
    Throwing.wp (Heap.world true) (Allocator.alloc 0x100000) (fun _ _ _ => True) (fun _ _ _ => True) x.a x.s ∧
    Throwing.wp (Heap.world true) (Allocator.free 0x200000) (fun _ _ _ => True) (fun _ _ _ => True) x.a x.s ∧
    Throwing.wp (Heap.world true) (Allocator.free 0x280000) (fun _ _ _ => True) (fun _ _ _ => True) x.a x.s := by
  obtain ⟨x, h, hx⟩ := exists_play Mild fourSlots twoMiB [.alloc 1, .alloc 100, .free 0x280000]
    (fun x => decide (x.a.cfg = fourSlots ∧ x.objs = [(0x200000, 1)] ∧ x.a.dead = false)) (by with_unfolding_all decide)
  obtain ⟨hcfg, hobjs, hd⟩ := of_decide_eq_true hx
  obtain ⟨hslots, hcall⟩ := slots_in_bounds true _ _ false x (reached_mono (fun x c h hc hd => admits_of_mild h hc.1 hd c) h)
  have hadm := admits_of_mild h hcfg
  exact ⟨x, hobjs, hslots hd, hcall (.alloc 0x100000) fun hd => hadm hd _, hcall (.free 0x200000) fun hd => hadm hd _,
    hcall (.free 0x280000) fun hd => hadm hd _⟩

/-- A least object of 4 MiB in the default chunks of 2 MiB: the first `alloc` takes the back of an empty stack. -/
theorem slots_in_bounds_false : ∃ x : App Heap,
    x.Reached (Heap.world true) id (fun _ _ => True) (Heap.start 0x200000 (by decide) false) ∧ x.a.dead = false ∧
    ¬Throwing.wp (Heap.world true) (Allocator.alloc 1) (fun _ _ _ => True) (fun _ _ _ => True) x.a x.s := by
  obtain ⟨x, h, hx⟩ := exists_play (fun _ _ => True) { minObj := 0x400000 } twoMiB [] (fun x => decide (x.a.dead = false ∧
    (((Allocator.alloc 1).run x.a).stuck Heap.respond x.s).map Prod.fst = some .backOfEmpty)) (by with_unfolding_all decide)
  obtain ⟨hd, hstuck⟩ := of_decide_eq_true hx
  refine ⟨x, h, hd, fun hwp => ?_⟩
  obtain ⟨⟨i, s⟩, hs, rfl⟩ := Option.map_eq_some_iff.1 hstuck
  exact Prog.permits_of_stuck answers_of_respond hwp hs

/-! ## Objects apart -/

/-- In every run of an app whose size classes fit and which frees no address in the tail of a slab, over any heap and up to a `Fatal`
error: each pointer it got and did not free has its bytes inside one live chunk, these ranges lie apart, and no other call takes one
away. -/
theorem objects_apart (works : Bool) (gran : Size) (pos : gran ≠ 0) (movable : Bool) (x : App Heap)
    (h : x.Reached (Heap.world works) id (fun x c => x.a.InSlots c) (Heap.start gran pos movable)) (hd : x.a.dead = false) :
    (∀ (p : Ptr) (n : Size), (p, n) ∈ x.objs → ∃ (base : Ptr) (size : Size), x.s.chunks[base]? = some size ∧
      base.toNat ≤ p.toNat ∧ p.toNat + n.toNat ≤ base.toNat + size.toNat) ∧
    x.objs.Pairwise (fun o o' => Apart o.1 o.2 o'.1 o'.2) ∧
    ∀ (p : Ptr) (n : Size) (c : AppCall) (r : Except Error c.Result), (p, n) ∈ x.objs → c ≠ .free p →
      (p, n) ∈ c.held x.objs r := by
  have hsound := ((steady_of_inSlots (fun _ _ h _ => h) h).ready hd).sound
  have howned := owned_of_inSlots (fun _ _ h _ => h) h hd
  refine ⟨fun p n hmem => ?_, ?_, fun p n c r hmem hne => ?_⟩
  · obtain ⟨size, ⟨base, r, hget, hh⟩, hle⟩ := howned.held p n hmem
    obtain ⟨-, hc, hlow, hend⟩ := holds_inside hsound hget hh
    exact ⟨base, r.c.size, hc, hlow, by omega⟩
  · refine (List.pairwise_map.1 howned.nodup).imp_of_mem ?_
    rintro ⟨p, n⟩ ⟨q, m⟩ hp hq hne
    obtain ⟨size, hp, hn⟩ := howned.held p n hp
    obtain ⟨size', hq, hm⟩ := howned.held q m hq
    exact apart_of_le (holds_apart hsound hne hp hq) hn hm
  · cases c with
    | alloc bytes =>
      cases r with
      | ok q =>
        show (p, n) ∈ if q = 0 then x.objs else (q, bytes) :: x.objs
        split
        · exact hmem
        · exact List.mem_cons_of_mem _ hmem
      | error e => exact hmem
    | free q =>
      cases r with
      | ok =>
        refine (mem_eraseP_key howned.nodup q p n).2 ⟨hmem, ?_⟩
        rintro rfl
        exact hne rfl
      | error e => exact hmem
    | _ => cases r <;> exact hmem

/-- Objects of both pools, after one of the small ones was freed. -/
theorem objects_apart_both : ∃ x : App Heap, x.objs = [(0x300000, 0x70000), (0x400000, 0x300000), (0x200000, 1)] ∧
    x.objs.Pairwise (fun o o' => Apart o.1 o.2 o'.1 o'.2) ∧
    (∀ (p : Ptr) (n : Size), (p, n) ∈ x.objs → ∃ (base : Ptr) (size : Size), x.s.chunks[base]? = some size ∧
      base.toNat ≤ p.toNat ∧ p.toNat + n.toNat ≤ base.toNat + size.toNat) ∧
    ∀ r : Except Error Unit, (0x200000, 1) ∈ (AppCall.free 0x300000).held x.objs r := by
  obtain ⟨x, h, hx⟩ := exists_bothPools
  obtain ⟨hin, hap, hkeep⟩ := objects_apart true _ _ false x (reached_mono (fun _ c h hc => inSlots_of_mild c hc (steady_of_mild h)) h) hx.alive
  exact ⟨x, hx.objs, hap, hin, fun r => hkeep _ _ (.free 0x300000) r (by rw [hx.objs]; decide) (by decide)⟩

/-- Slots of 4 MiB in chunks of 770 MiB. -/
def tailed : Config := { smallMax := 0x400000, smallChunk := 0x30200000 }

set_option maxRecDepth 2000 in
/-- The app frees the boundary behind the last slot, whose bit is past the end of `busy`, and with it the chunk of its only object. -/
theorem objects_apart_false : ∃ x : App Heap,
    x.Reached (Heap.world true) id (fun x _ => x.a.cfg.Fits) (Heap.start 0x200000 (by decide) false) ∧ x.a.dead = false ∧
    ∃ (p : Ptr) (n : Size), (p, n) ∈ x.objs ∧ ¬∃ (base : Ptr) (size : Size), x.s.chunks[base]? = some size ∧
      base.toNat ≤ p.toNat ∧ p.toNat + n.toNat ≤ base.toNat + size.toNat := by
  obtain ⟨x, h, hx⟩ := exists_play (fun x _ => x.a.cfg = tailed) tailed twoMiB [.alloc 0x300000, .free 0x30200000]
    (fun x => decide (x.a.dead = false ∧ x.objs = [(0x200000, 0x300000)] ∧ x.s.chunks.toList = [])) (by with_unfolding_all decide)
  obtain ⟨hd, hobjs, hchunks⟩ := of_decide_eq_true hx
  have hfits : tailed.Fits := fits_of_pow (k := 22) (by decide) (by decide) (by decide) (by decide) (by decide)
  refine ⟨x, reached_mono (fun y c _ hc => by rw [hc]; exact hfits) h, hd, 0x200000, 0x300000, by rw [hobjs]; decide, ?_⟩
  rintro ⟨base, size, hc, -⟩
  have hmem := Std.ExtTreeMap.mem_toList_iff_getElem?_eq_some.2 hc
  rw [hchunks] at hmem
  cases hmem

/-! ## What `free` accepts -/

/-- In every state that a run reaches whose size classes divide the chunk, and which is not dead: with a context that works, `free`
ends for every address; it returns for null and for every pointer that the app holds, and for any other address it throws
`Unsupported` and changes nothing. -/
theorem free_accepts_exactly (works : Bool) (gran : Size) (pos : gran ≠ 0) (movable : Bool) (x : App Heap)
    (h : x.Reached (Heap.world works) id (fun x _ => x.a.cfg.Divides) (Heap.start gran pos movable)) (hdiv : x.a.cfg.Divides)
    (hd : x.a.dead = false) (p : Ptr) :
    (∃ (r : Except Error Unit) (a' : Allocator) (s' : Heap),
      Prog.Runs (Heap.world true) ((Allocator.free p).run x.a) x.s (r, a') s') ∧
    (p = 0 ∨ (∃ n : Size, (p, n) ∈ x.objs) →
      Throwing.wp (Heap.world true) (Allocator.free p) (fun _ _ _ => True) (fun _ _ _ => False) x.a x.s) ∧
    (¬(p = 0 ∨ ∃ n : Size, (p, n) ∈ x.objs) → Throwing.wp (Heap.world true) (Allocator.free p) (fun _ _ _ => False)
      (fun e a' s' => e.status = .unsupported ∧ a' = x.a ∧ s' = x.s) x.a x.s) := by
  have hok (x : App Heap) (c : AppCall) (hdiv : x.a.cfg.Divides) (hx : Steady x) : x.a.InSlots c := inSlots_of_divides c hdiv hx
  have hsteady := steady_of_inSlots hok h
  have hready := hsteady.ready hd
  have howned := owned_of_inSlots hok h hd
  have hfits := fits_of_divides hdiv hsteady.chunk
  have hadm : x.a.Admits (.free p) := admits_of_fits hready hfits fun q _ => not_tail_of_divides hready hdiv q
  have hwp : Throwing.wp (Heap.world true) _ _ _ _ _ := free_wp hready hd hadm
  refine ⟨?_, fun hheld => ?_, fun hnot => ?_⟩
  · obtain ⟨⟨r, a'⟩, s', hruns, -⟩ := Prog.exists_runs_of_wp exists_answer hwp
    exact ⟨r, a', s', hruns⟩
  · refine Throwing.wp_mono hwp (fun _ _ _ _ => trivial) ?_
    rintro e a' h' (⟨hw, -⟩ | ⟨-, -, -, h0, hno⟩)
    · cases hw
    · rcases hheld with hz | ⟨n, hmem⟩
      · exact h0 hz
      · obtain ⟨size, hp, -⟩ := howned.held p n hmem
        exact hno size hp
  · refine Throwing.wp_mono hwp ?_ ?_
    · rintro r a' h' ⟨hl, -, hdead | ⟨-, -, hmoved, -⟩⟩
      · rw [hl] at hdead
        cases hdead
      · rcases hmoved with ⟨hz, -⟩ | ⟨-, q, size, hq, hexact, -⟩
        · exact hnot (.inl hz)
        · rw [hexact (exact_of_fits hready hfits p)] at hq
          exact hnot (.inr (howned.live p size hq))
    · rintro e a' h' (⟨hw, -⟩ | ⟨hs, ha, hh, -, -⟩)
      · cases hw
      · exact ⟨hs, ha, hh⟩

/-- After allocations in both pools and one `free`: a live object, the middle of a slot and of a large chunk, and the freed object. -/
theorem free_accepts_exactly_both : ∃ x : App Heap, x.objs = [(0x300000, 0x70000), (0x400000, 0x300000), (0x200000, 1)] ∧
    (∀ p ∈ [0x200000, 0x300000, 0x400000], ∃ (a' : Allocator) (s' : Heap),
      Prog.Runs (Heap.world true) ((Allocator.free p).run x.a) x.s (.ok (), a') s') ∧
    ∀ p ∈ [0x200001, 0x401000, 0x280000], Throwing.wp (Heap.world true) (Allocator.free p) (fun _ _ _ => False)
      (fun e a' s' => e.status = .unsupported ∧ a' = x.a ∧ s' = x.s) x.a x.s := by
  obtain ⟨x, h, hx⟩ := exists_bothPools
  have hdiv (y : App Heap) (hy : y.a.cfg = fourSlots) : y.a.cfg.Divides := by
    rw [hy]
    exact divides_fourSlots
  have hfree := free_accepts_exactly true _ _ false x (reached_mono (fun y _ _ hc => hdiv y hc.1) h) (hdiv x hx.cfg) hx.alive
  refine ⟨x, hx.objs, fun p hp => ?_, fun p hp => (hfree p).2.2 ?_⟩
  · obtain ⟨⟨r, a', s', hruns⟩, hok, -⟩ := hfree p
    have hheld : ∃ n : Size, (p, n) ∈ x.objs := by
      rw [hx.objs]
      fin_cases hp <;> simp
    cases r with
    | ok r => exact ⟨a', s', hruns⟩
    | error e => exact (hruns.of_wp (hok (.inr hheld))).elim
  · rw [hx.objs]
    fin_cases hp <;> simp

end Vmem
