import Vmem.Theorems.Pools

/-!
# Sizes and counts of the pools

A request gets at least its bytes unless they wrap, and slabs are reused before new ones are made and go when they are empty.
-/

namespace Vmem

open PoolsAux

/-! ## Requests -/

namespace PoolsAux

open Allocator Throwing

variable {a a' : Allocator} {h h' : Heap} {works : Bool}

/-- A large request creates a chunk that is a multiple of the granularity and large enough, exactly if rounding up does not wrap. -/
theorem alloc_sized_iff (hd : a.dead = false) {bytes : Size} (hlarge : bytes > a.cfg.smallMax) :
    wp (Heap.sized works bytes) (alloc bytes) (fun _ _ _ => True) (fun _ _ _ => True) a h ↔ bytes.toNat + h.gran.toNat - 1 < 2 ^ 64 := by
  have hpos : 0 < bytes.toNat := by
    have hlt : a.cfg.smallMax.toNat < bytes.toNat := hlarge
    omega
  have h0 : bytes ≠ 0 := by
    rintro rfl
    simp at hpos
  have hgran := toNat_pos h.pos
  unfold alloc
  rw [live_wp hd, if_neg h0, wp_bind, wp_get, if_pos hlarge]
  unfold allocLarge roundUp
  rw [wp_bind, wp_bind, ask, wp_call]
  have hadd {K : Option Ptr → AllocatorM Ptr} (hnone : K none = pure 0) (hsome : ∀ base, K (some base) = do
        let r ← regionAt base
        pure r.c.ptr) : wp (Heap.sized works bytes) (add (rounded bytes h.gran) 0) (fun found a' h' => wp (Heap.sized works bytes) (K found)
      (fun _ _ _ => True) (fun _ _ _ => True) a' h') (fun _ _ _ => True) a h ↔ bytes.toNat + h.gran.toNat - 1 < 2 ^ 64 := by
    unfold add
    rw [wp_bind, ask, wp_call]
    constructor
    · rintro ⟨⟨-, hle⟩, -⟩
      by_contra hwrap
      rw [rounded_of_gt (by omega)] at hle
      simp at hle
      omega
    · intro hlt
      obtain ⟨hle, hmod⟩ := rounded_of_le (x := bytes) h.pos (by omega)
      refine ⟨⟨hmod, hle⟩, ?_⟩
      rintro ⟨s, c⟩ h' -
      by_cases hm : s = .noMemory
      · rw [if_pos hm, wp_pure, hnone]
        trivial
      · rw [if_neg hm]
        by_cases hok : s = .ok
        · rw [if_neg (by simpa using hok)]
          have hget := created_get a c (rounded bytes h.gran) 0
          obtain ⟨r, hget⟩ := Option.ne_none_iff_exists'.1 hget
          have hat : wp (Heap.sized works bytes) (do
              let r ← regionAt c.ptr
              pure r.c.ptr) (fun _ _ _ => True) (fun _ _ _ => True) (created a c (rounded bytes h.gran) 0) h' := by
            unfold regionAt
            rw [wp_bind, wp_bind, wp_get]
            simp only [hget, wp_pure]
          rw [← hsome] at hat
          exact hat
        · rw [if_pos hok]
          trivial
  constructor
  · rintro ⟨-, hall⟩
    have hwp := hall h.gran h ⟨rfl, rfl⟩
    rw [wp_pure, wp_bind] at hwp
    exact (hadd rfl fun _ => rfl).1 hwp
  · intro hlt
    refine ⟨trivial, ?_⟩
    rintro g h' ⟨rfl, rfl⟩
    rw [wp_pure, wp_bind]
    exact (hadd rfl fun _ => rfl).2 hlt

end PoolsAux

/-- In every run of an app in which each small object has a size class with a slot, over any heap, before a `Fatal` error: the object
that `vmem::alloc<T>` returns has the bytes of all `n` elements exactly if their product does not wrap; and a request above
`small_max` only creates chunks that are a multiple of the granularity and have its bytes, exactly if rounding it up does not wrap. -/
theorem requests_never_shrink (works : Bool) (gran : Size) (pos : gran ≠ 0) (movable : Bool) (x : App Heap)
    (h : x.Reached (Heap.world works) id (fun x c => x.a.dead = false → x.a.Admits c) (Heap.start gran pos movable))
    (hd : x.a.dead = false) :
    (∀ (sizeofT n p : Size) (a' : Allocator) (s' : Heap), x.a.Admits (.alloc (n * sizeofT)) →
      Prog.Runs (Heap.world works) ((Allocator.allocArray sizeofT n).run x.a) x.s (.ok p, a') s' → p ≠ 0 →
      ∃ size : Size, a'.Holds p size ∧ (n.toNat * sizeofT.toNat ≤ size.toNat ↔ n.toNat * sizeofT.toNat < 2 ^ 64)) ∧
    ∀ bytes : Size, bytes > x.a.cfg.smallMax →
      (Throwing.wp (Heap.sized works bytes) (Allocator.alloc bytes) (fun _ _ _ => True) (fun _ _ _ => True) x.a x.s ↔
        bytes.toNat + x.s.gran.toNat - 1 < 2 ^ 64) := by
  have hready := (reached_steady (fun _ _ h => h) h).ready hd
  refine ⟨fun sizeofT n p a' s' hadm hruns h0 => ?_, fun bytes hlarge => alloc_sized_iff hd hlarge⟩
  obtain ⟨hlive, hleft⟩ : a'.dead = false ∧ Left x.a x.s (.alloc (n * sizeofT)) (.ok p) a' s' :=
    hruns.of_wp (alloc_wp hready hd hadm)
  rcases hleft.state with hdead | ⟨-, -, hmoved, -⟩
  · rw [hlive] at hdead
    cases hdead
  · rcases hmoved with ⟨hz, -⟩ | ⟨-, size, hle, -, hholds⟩
    · exact absurd hz h0
    · refine ⟨size, (hholds _ _).2 (.inr ⟨rfl, rfl⟩), ?_⟩
      have hsize := size.isLt
      constructor
      · intro hfit
        omega
      · intro hlt
        rw [BitVec.toNat_mul, Nat.mod_eq_of_lt hlt] at hle
        exact hle

/-- With 448 KiB of objects in one slab: an array of 2¹⁶ elements of 8 bytes, and a request of 2 MiB. -/
theorem requests_never_shrink_array : ∃ x : App Heap, x.objs = [(0x300000, 0x70000), (0x400000, 0x300000), (0x200000, 1)] ∧
    (∃ (p : Ptr) (a' : Allocator) (s' : Heap) (size : Size),
      Prog.Runs (Heap.world true) ((Allocator.allocArray 8 0x10000).run x.a) x.s (.ok p, a') s' ∧ a'.Holds p size ∧
      0x80000 ≤ size.toNat) ∧
    Throwing.wp (Heap.sized true 0x200000) (Allocator.alloc 0x200000) (fun _ _ _ => True) (fun _ _ _ => True) x.a x.s := by
  obtain ⟨x, h, hx⟩ := exists_bothPools
  obtain ⟨harray, hlarge⟩ := requests_never_shrink true _ _ false x (reached_mono (fun x c h hc hd => admits_of_mild h hc.1 hd c) h) hx.alive
  refine ⟨x, hx.objs, ?_, (hlarge 0x200000 (by rw [hx.cfg]; decide)).2 ?_⟩
  · obtain ⟨⟨⟨r, a'⟩, s'⟩, hexec, rfl⟩ := Option.map_eq_some_iff.1 hx.next
    have hruns := Prog.runs_of_exec answers_of_respond hexec
    obtain ⟨size, hholds, hle⟩ := harray 8 0x10000 0x280000 a' s' (admits_of_mild h hx.cfg hx.alive _) hruns (by decide)
    exact ⟨0x280000, a', s', size, hruns, hholds, hle.2 (by decide)⟩
  · rw [hx.gran]
    decide

/-- With the default sizes, 2⁶¹ + 1 elements of 8 bytes get an object of 512 bytes. -/
theorem requests_never_shrink_false : ∃ x : App Heap,
    x.Reached (Heap.world true) id (fun _ _ => True) (Heap.start 0x200000 (by decide) false) ∧ x.a.dead = false ∧
    ∃ (p : Ptr) (a' : Allocator) (s' : Heap),
      Prog.Runs (Heap.world true) ((Allocator.allocArray 8 0x2000000000000001).run x.a) x.s (.ok p, a') s' ∧ p ≠ 0 ∧
      a'.Holds p 512 ∧ ∀ size : Size, a'.Holds p size → size.toNat < 0x2000000000000001 * 8 := by
  obtain ⟨x, h, hx⟩ := exists_play (fun _ _ => True) {} twoMiB [] (fun x => decide (x.a.dead = false ∧
    (((Allocator.allocArray 8 0x2000000000000001).run x.a).exec Heap.respond x.s).map (fun y =>
      (y.1.1, (y.1.2.regions[(0x200000 : Ptr)]?).map fun r => (r.obj, r.busy[0]?))) =
        some (.ok 0x200000, some (512, some true)))) (by decide +kernel)
  obtain ⟨hd, hrun⟩ := of_decide_eq_true hx
  obtain ⟨⟨⟨p, a'⟩, s'⟩, hexec, hp⟩ := Option.map_eq_some_iff.1 hrun
  obtain ⟨rfl, hregion⟩ := Prod.mk.inj hp
  obtain ⟨r, hget, hr⟩ := Option.map_eq_some_iff.1 hregion
  obtain ⟨hclass, hbusy⟩ := Prod.mk.inj hr
  refine ⟨x, h, hd, 0x200000, a', s', Prog.runs_of_exec answers_of_respond hexec, by decide,
    ⟨0x200000, r, hget, .inl ⟨?_, hclass.symm, 0, hbusy, ?_⟩⟩, fun size _ => ?_⟩
  · rw [hclass]
    decide
  · rw [hclass]
    decide
  · have hlt := size.isLt
    omega

/-! ## Counts -/

namespace PoolsAux

open Allocator Throwing

variable {a a' : Allocator} {h h' : Heap} {works : Bool}

/-- Without the null chunk, the regions are the live chunks. -/
theorem chunks_eq (hs : a.Sound h) (hnull : a.regions[(0 : Ptr)]? = none) : h.chunks = a.regions.map fun _ r => r.c.size := by
  apply Std.ExtTreeMap.ext_getElem?
  intro base
  rw [Std.ExtTreeMap.getElem?_map]
  cases hget : a.regions[base]? with
  | some r =>
    rcases hs.chunk base r hget with hc | ⟨rfl, -⟩
    · exact hc
    · rw [hnull] at hget
      cases hget
  | none =>
    refine Option.eq_none_iff_forall_not_mem.2 fun n hn => ?_
    obtain ⟨r, hr, -⟩ := hs.owned base n hn
    rw [hget] at hr
    cases hr

/-- Every region that is not the null chunk has an object. -/
theorem exists_holds (hr : a.Ready h) {base : Ptr} {r : Region} (hget : a.regions[base]? = some r) (hbase : base ≠ 0) :
    ∃ (p : Ptr) (n : Size), a.Holds p n := by
  by_cases hobj : r.obj = 0
  · exact ⟨base, r.c.size, base, r, hget, .inr ⟨hobj, hbase, rfl, rfl⟩⟩
  · have hslab := hr.sound.slab base r hget hobj
    have hused := (hr.used base r hget hobj).1
    have hcount : r.busy.count true ≠ 0 := by
      rw [← hslab.used]
      exact fun h0 => hused (BitVec.eq_of_toNat_eq h0)
    have hbusy : ∃ j : Nat, r.busy[j]? = some true := by
      by_contra hno
      exact hcount (Slots.count_eq_zero_iff.2 fun j hj => hno ⟨j, hj⟩)
    obtain ⟨j, hj⟩ := hbusy
    have hlt : j < 2 ^ 32 := by
      have hlen := (List.getElem?_eq_some_iff.1 hj).1
      rw [hslab.length] at hlen
      exact lt_trans hlen (slotCount_lt _ _)
    refine ⟨slotAddr base r.obj (BitVec.ofNat 32 j), r.obj, base, r, hget, .inl ⟨hobj, rfl, _, ?_, rfl⟩⟩
    rwa [BitVec.toNat_ofNat, Nat.mod_eq_of_lt hlt]

/-- A small object takes a free slot of its class, if there is one, without any call. -/
theorem alloc_reuses {S : Type} {W : Prog.World BackendCall BackendCall.Answer S} {s : S} (hr : a.Ready h) (hd : a.dead = false)
    {bytes : Size} (h0 : bytes ≠ 0) (hsmall : bytes ≤ a.cfg.smallMax) (hrep : (maxSize bytes a.cfg.minObj).toNat ≤ 2 ^ 63)
    {base : Ptr} (hin : base ∈ a.part (a.cfg.sizeClass bytes)) :
    wp W (alloc bytes) (fun _ _ s' => s' = s) (fun _ _ _ => False) a s := by
  unfold alloc
  rw [live_wp hd, if_neg h0, wp_bind, wp_get, if_neg (BitVec.not_lt.2 hsmall)]
  unfold allocSmall
  rw [wp_bind, wp_get, wp_bind]
  unfold bitCeil
  rw [if_pos hrep, wp_pure]
  have hclass : BitVec.ofNat 64 (2 ^ Nat.clog 2 (maxSize bytes a.cfg.minObj).toNat) = a.cfg.sizeClass bytes := rfl
  rw [hclass]
  cases hmin : (a.part (a.cfg.sizeClass bytes)).min? with
  | none =>
    have hempty := OrdMap.min?_eq_none_iff.1 hmin
    rw [hempty] at hin
    simp at hin
  | some base =>
    obtain ⟨r, hget, hrobj, hr0, hfree⟩ := (hr.sound.partials _ base).1 (OrdMap.mem_of_min? hmin)
    obtain ⟨slot, rest, hcons⟩ := List.exists_cons_of_ne_nil hfree
    have hslots := (hr.sound.slab base r hget hr0).slots
    rw [hcons] at hslots
    have hlt := (List.getElem?_eq_some_iff.1 hslots.top).1
    dsimp only
    rw [wp_bind, wp_pure]
    dsimp only
    rw [← hrobj]
    refine wp_mono (takeSlot_wp hget (hr.sound.base base r hget) hcons hlt) ?_ fun _ _ _ h => h
    rintro p a' s' ⟨-, -, hs⟩
    exact hs

/-- The slabs and the other regions are all regions. -/
theorem countLarge_eq (a : Allocator) :
    a.regions.size - a.countSmall = a.regions.toList.countP fun e => decide (e.2.obj = 0) := by
  have hlen := List.length_eq_countP_add_countP (fun e : Ptr × Region => decide (e.2.obj ≠ 0)) (l := a.regions.toList)
  have hneg : (fun e : Ptr × Region => decide ¬(fun e : Ptr × Region => decide (e.2.obj ≠ 0)) e = true) =
      fun e => decide (e.2.obj = 0) := by
    funext e
    simp
  rw [hneg, Std.ExtTreeMap.length_toList] at hlen
  unfold countSmall
  omega

end PoolsAux

/-- In every run of an app whose size classes fit, which frees no address in the tail of a slab and asks for no size that wraps, over
any heap, before a `Fatal` error, slabs are reused before new ones are made and go when they are empty. -/
theorem slabs_reused (works : Bool) (gran : Size) (pos : gran ≠ 0) (movable : Bool) (x : App Heap)
    (h : x.Reached (Heap.world works) id App.Orderly (Heap.start gran pos movable)) (hfits : x.a.cfg.Fits) (hd : x.a.dead = false) :
    x.SlabsReused works := by
  have hready := (steady_of_inSlots (fun _ _ h _ => h.1) h).ready hd
  have howned := owned_of_inSlots (fun _ _ h _ => h.1) h hd
  have hnull := reached_null (fun _ _ h hd => (h.2 hd).1) (fun _ _ h hd => h.1.2 hd) (reached_admits (fun _ _ h _ => h.1) h) hd
  have hchunks := chunks_eq hready.sound hnull
  have hused : x.s.used = OrdMap.total x.a.regions fun _ r => r.c.size := by
    rw [Heap.used, hchunks, OrdMap.total_map]
  have hslab {base : Ptr} {r : Region} (hget : x.a.regions[base]? = some r) (hobj : r.obj ≠ 0) := hready.sound.slab base r hget hobj
  have hpart (obj : Size) (base : Ptr) : base ∈ x.a.part obj ↔ ∃ r : Region, x.a.regions[base]? = some r ∧ r.obj = obj ∧ r.obj ≠ 0 ∧
      ∃ slot : BitVec 32, r.busy[slot.toNat]? = some false := by
    rw [hready.sound.partials]
    refine exists_congr fun r => and_congr_right fun hget => and_congr_right fun _ => and_congr_right fun hobj => ?_
    rw [ne_eq, List.eq_nil_iff_forall_not_mem, not_forall]
    refine exists_congr fun slot => ?_
    rw [not_not]
    exact (hslab hget hobj).slots.mem slot
  refine ⟨hpart, fun base r hget hobj => ?_, fun bytes base r slot h0 hsmall hget hclass hslot S W s => ?_, hchunks, ?_, ?_,
    fun hempty => ?_⟩
  · refine ⟨(hslab hget hobj).slots.nodup, (hslab hget hobj).slots.mem, (hslab hget hobj).used, ?_⟩
    have hne := (hready.used base r hget hobj).1
    exact toNat_pos hne
  · have hobj := (sizeClass_le (hfits bytes h0 hsmall).1).2
    refine alloc_reuses hready hd h0 hsmall (hfits bytes h0 hsmall).1 ((hpart _ base).2 ⟨r, hget, hclass, ?_, slot, hslot⟩)
    rwa [hclass]
  · refine ⟨trivial, ?_⟩
    rintro l s' rfl
    refine ⟨trivial, ?_⟩
    rintro n s' ⟨hn, rfl⟩
    exact ⟨rfl, rfl, rfl, countLarge_eq x.a, hn.trans hused⟩
  · refine ⟨trivial, ?_⟩
    rintro n s' ⟨hn, rfl⟩
    exact ⟨rfl, rfl, hn.trans hused⟩
  · have hregions : x.a.regions = ∅ := by
      apply Std.ExtTreeMap.ext_getElem?
      intro base
      rw [Std.ExtTreeMap.getElem?_empty]
      refine Option.eq_none_iff_forall_not_mem.2 fun r hget => ?_
      have hbase : base ≠ 0 := by
        rintro rfl
        rw [hnull] at hget
        cases hget
      obtain ⟨p, n, hp⟩ := exists_holds hready hget hbase
      obtain ⟨m, hmem⟩ := howned.live p n hp
      rw [hempty] at hmem
      cases hmem
    refine ⟨hregions, ?_⟩
    rw [hused, hregions, OrdMap.total_empty]

/-- Objects of both pools, after one of the small ones was freed: its slab has a free slot and takes the next small object. -/
theorem slabs_reused_both : ∃ x : App Heap, x.objs = [(0x300000, 0x70000), (0x400000, 0x300000), (0x200000, 1)] ∧
    0x200000 ∈ x.a.part 0x80000 ∧
    (∀ {S : Type} (W : Prog.World BackendCall BackendCall.Answer S) (s : S),
      Throwing.wp W (Allocator.alloc 100) (fun _ _ s' => s' = s) (fun _ _ _ => False) x.a s) ∧
    Throwing.wp (Heap.world true) Allocator.info (fun i _ _ => i.smallChunks = 1 ∧ i.largeChunks = 1 ∧ i.bytes = 0x600000)
      (fun _ _ _ => False) x.a x.s := by
  obtain ⟨x, h, hx⟩ := exists_bothPools
  obtain ⟨r, hget, hr⟩ := Option.map_eq_some_iff.1 hx.slab
  obtain ⟨hobj, hbusy⟩ := Prod.mk.inj hr
  have hfits : x.a.cfg.Fits := by
    rw [hx.cfg]
    exact fits_of_divides divides_fourSlots (by decide)
  have hreused := slabs_reused true _ _ false x
    (reached_mono (fun _ c h hc => ⟨inSlots_of_mild c hc (steady_of_mild h), fun _ => hc.2⟩) h) hfits hx.alive
  refine ⟨x, hx.objs, ?_, fun W s => ?_, ?_⟩
  · exact (hreused.partials _ _).2 ⟨r, hget, hobj, by rw [hobj]; decide, 1, hbusy⟩
  · refine hreused.reuse 100 0x200000 r 1 (by decide) (by rw [hx.cfg]; decide) hget ?_ hbusy W s
    rw [hobj, hx.cfg]
    decide
  · refine Throwing.wp_mono hreused.info ?_ fun _ _ _ h => h
    rintro i a' s' ⟨-, -, his, hil, hib⟩
    exact ⟨his.trans hx.small, hil.trans hx.large, hib.trans hx.total⟩

/-- With the default sizes, the app asks for all bytes of the address space and gets null, and a region stays. -/
theorem slabs_reused_false : ∃ x : App Heap,
    x.Reached (Heap.world true) id (fun x _ => x.a.cfg.Fits) (Heap.start 0x200000 (by decide) false) ∧ x.a.dead = false ∧
    x.objs = [] ∧ x.a.regions ≠ ∅ := by
  obtain ⟨x, h, hx⟩ := exists_play (fun x _ => x.a.cfg = {}) {} twoMiB [.alloc 0xffffffffffffffff]
    (fun x => decide (x.a.dead = false ∧ x.objs = [] ∧ x.a.regions.size = 1)) (by with_unfolding_all decide)
  obtain ⟨hd, hobjs, hsize⟩ := of_decide_eq_true hx
  have hfits := fits_of_divides divides_default (by decide)
  refine ⟨x, reached_mono (fun y c _ hc => by rw [hc]; exact hfits) h, hd, hobjs, fun hempty => ?_⟩
  rw [hempty] at hsize
  cases hsize

end Vmem
