import Vmem.Lemmas.Pools

/-!
# Objects

The objects of an allocator (`Allocator.Holds`): the busy slots of its slabs and its large chunks. They lie inside live chunks and apart
from each other. Taking a slot adds one object, giving it back removes it, and so do making and releasing a large chunk.
-/

namespace Vmem

/-- The size of the objects of a slab: the class of a request to the small pool. -/
def Config.Class (cfg : Config) (obj : Size) : Prop :=
  ∃ bytes : Size, bytes ≠ 0 ∧ bytes ≤ cfg.smallMax ∧ cfg.sizeClass bytes = obj

/-- Between calls every slab is in use, for a size class. -/
structure Allocator.Ready (a : Allocator) (h : Heap) : Prop where
  sound : a.Sound h
  used : ∀ (base : Ptr) (r : Region), a.regions[base]? = some r → r.obj ≠ 0 → r.used ≠ 0 ∧ a.cfg.Class r.obj

namespace PoolsAux

open Allocator

variable {a a' : Allocator} {h : Heap}

/-! ## Where objects are -/

/-- A slot is below the number of slots of its slab. -/
theorem slot_lt {chunk : Size} {r : Region} (hslab : r.Slab chunk) {slot : BitVec 32} {x : Bool}
    (hx : r.busy[slot.toNat]? = some x) : slot.toNat < slotCount chunk r.obj := by
  rw [← hslab.length]
  exact (List.getElem?_eq_some_iff.1 hx).1

/-- An object is not empty and lies inside the chunk of its region. -/
theorem holds_inside (hs : a.Sound h) {base p : Ptr} {r : Region} {n : Size} (hr : a.regions[base]? = some r)
    (hh : r.Holds base p n) : n ≠ 0 ∧ h.chunks[base]? = some r.c.size ∧ base.toNat ≤ p.toNat ∧
      p.toNat + n.toNat ≤ base.toNat + r.c.size.toNat := by
  have hchunk (hbase : base ≠ 0) : h.chunks[base]? = some r.c.size := by
    rcases hs.chunk base r hr with hc | ⟨h0, -⟩
    · exact hc
    · exact absurd h0 hbase
  rcases hh with ⟨hobj, rfl, slot, hbusy, rfl⟩ | ⟨hobj, hbase, rfl, rfl⟩
  · obtain ⟨hslab, hbase⟩ := region_slab hs hr hobj
    have hlt := slot_lt hslab hbusy
    have hend := slot_end_le hlt
    rw [Nat.succ_mul] at hend
    rw [slotAddr_toNat hlt (region_end hs hr)]
    refine ⟨hobj, hchunk hbase, ?_, ?_⟩ <;> omega
  · exact ⟨(hs.heap.chunk _ _ (hchunk hbase)).2.1, hchunk hbase, le_rfl, le_rfl⟩

/-- A word that is not zero is positive. -/
theorem toNat_pos {w : Nat} {n : BitVec w} (hn : n ≠ 0) : 0 < n.toNat := Nat.pos_of_ne_zero fun h0 => hn (BitVec.eq_of_toNat_eq h0)

/-- No object is at the null pointer. -/
theorem holds_ne_zero (hs : a.Sound h) {p : Ptr} {n : Size} (hh : a.Holds p n) : p ≠ 0 := by
  obtain ⟨base, r, hr, hh⟩ := hh
  obtain ⟨-, hc, hle, -⟩ := holds_inside hs hr hh
  have hpos := toNat_pos (hs.heap.chunk base _ hc).1
  rintro rfl
  simp at hle
  omega

/-- The region of an object is the one that its address is looked up in. -/
theorem lookup_of_holds (hs : a.Sound h) {base p : Ptr} {r : Region} {n : Size} (hr : a.regions[base]? = some r)
    (hh : r.Holds base p n) : a.lookup p = some (base, r) := by
  obtain ⟨hn, -, hle, hend⟩ := holds_inside hs hr hh
  have hpos := toNat_pos hn
  exact (lookup_eq_some_iff hs).2 ⟨hr, hle, by omega⟩

/-- A region of the allocator that has an object at `p` is the only one. -/
theorem region_unique (hs : a.Sound h) {base base' p : Ptr} {r r' : Region} {n n' : Size} (hr : a.regions[base]? = some r)
    (hh : r.Holds base p n) (hr' : a.regions[base']? = some r') (hh' : r'.Holds base' p n') : base = base' ∧ r = r' := by
  have heq := (lookup_of_holds hs hr hh).symm.trans (lookup_of_holds hs hr' hh')
  cases heq
  exact ⟨rfl, rfl⟩

/-- Different slots of a slab have different addresses. -/
theorem slotAddr_inj {base chunk : Size} {r : Region} {slot slot' : BitVec 32} (hobj : r.obj ≠ 0)
    (hs : slot.toNat < slotCount chunk r.obj) (hs' : slot'.toNat < slotCount chunk r.obj) (hb : base.toNat + chunk.toNat < 2 ^ 64)
    (heq : slotAddr base r.obj slot = slotAddr base r.obj slot') : slot = slot' := by
  rw [← (slotOf_slotAddr hobj hs hb).2, heq, (slotOf_slotAddr hobj hs' hb).2]

/-- Objects at different addresses lie apart. -/
theorem holds_apart (hs : a.Sound h) {p p' : Ptr} {n n' : Size} (hne : p ≠ p') (hh : a.Holds p n) (hh' : a.Holds p' n') :
    Apart p n p' n' := by
  obtain ⟨base, r, hr, hh⟩ := hh
  obtain ⟨base', r', hr', hh'⟩ := hh'
  obtain ⟨-, hc, hle, hend⟩ := holds_inside hs hr hh
  obtain ⟨-, hc', hle', hend'⟩ := holds_inside hs hr' hh'
  by_cases hb : base = base'
  · subst hb
    rw [hr] at hr'
    cases hr'
    rcases hh with ⟨hobj, rfl, slot, hbusy, rfl⟩ | ⟨hobj, -, rfl, rfl⟩
    all_goals rcases hh' with ⟨hobj', rfl, slot', hbusy', rfl⟩ | ⟨hobj', -, rfl, rfl⟩
    · have hslab := (region_slab hs hr hobj).1
      have hend := region_end hs hr
      unfold Apart
      rw [slotAddr_toNat (slot_lt hslab hbusy) hend, slotAddr_toNat (slot_lt hslab hbusy') hend]
      have hslot : slot.toNat ≠ slot'.toNat := by
        intro heq
        rw [BitVec.eq_of_toNat_eq heq] at hne
        exact hne rfl
      -- two rows of equal steps
      rcases Nat.lt_or_gt_of_ne hslot with hlt | hgt
      · have hmul := Nat.mul_le_mul_right r.obj.toNat hlt
        rw [Nat.succ_mul] at hmul
        omega
      · have hmul := Nat.mul_le_mul_right r.obj.toNat hgt
        rw [Nat.succ_mul] at hmul
        omega
    · exact absurd hobj' hobj
    · exact absurd hobj hobj'
    · exact absurd rfl hne
  · rcases hs.heap.apart base base' _ _ hb hc hc' with hap | hap
    · exact .inl (by omega)
    · exact .inr (by omega)

/-! ## Objects after a write -/

/-- After a region is written, its objects are those of the new one. -/
theorem holds_insert {base : Ptr} {r' : Region} (hreg : a'.regions = a.regions.insert base r') (p : Ptr) (n : Size) :
    a'.Holds p n ↔ r'.Holds base p n ∨
      ∃ (b : Ptr) (r : Region), b ≠ base ∧ a.regions[b]? = some r ∧ r.Holds b p n := by
  unfold Allocator.Holds
  simp only [hreg, OrdMap.getElem?_insert]
  constructor
  · rintro ⟨b, r, hr, hh⟩
    split at hr
    · cases hr
      subst b
      exact .inl hh
    · exact .inr ⟨b, r, ‹_›, hr, hh⟩
  · rintro (hh | ⟨b, r, hb, hr, hh⟩)
    · exact ⟨base, r', if_pos rfl, hh⟩
    · exact ⟨b, r, (if_neg hb).trans hr, hh⟩

/-- The objects of a region and those of the others. -/
theorem holds_split {base : Ptr} {r : Region} (hr : a.regions[base]? = some r) (p : Ptr) (n : Size) :
    a.Holds p n ↔ r.Holds base p n ∨ ∃ (b : Ptr) (r : Region), b ≠ base ∧ a.regions[b]? = some r ∧ r.Holds b p n :=
  holds_insert (OrdMap.insert_of_getElem? hr).symm p n

/-- A region is written that has one more object. -/
theorem holds_added {base q : Ptr} {r r' : Region} {size : Size} (hr : a.regions[base]? = some r)
    (hreg : a'.regions = a.regions.insert base r')
    (hadd : ∀ (p : Ptr) (n : Size), r'.Holds base p n ↔ r.Holds base p n ∨ (p = q ∧ n = size)) (p : Ptr) (n : Size) :
    a'.Holds p n ↔ a.Holds p n ∨ (p = q ∧ n = size) := by
  rw [holds_insert hreg, holds_split hr, hadd]
  exact or_right_comm

/-- A region is written that has one object less. -/
theorem holds_removed (hs : a.Sound h) {base q : Ptr} {r r' : Region} {size : Size} (hr : a.regions[base]? = some r)
    (hq : r.Holds base q size) (hreg : a'.regions = a.regions.insert base r')
    (hrem : ∀ (p : Ptr) (n : Size), r'.Holds base p n ↔ r.Holds base p n ∧ p ≠ q) (p : Ptr) (n : Size) :
    a'.Holds p n ↔ a.Holds p n ∧ p ≠ q := by
  rw [holds_insert hreg, holds_split hr, hrem]
  have hother {b : Ptr} {r₁ : Region} (hb : b ≠ base) (hr₁ : a.regions[b]? = some r₁) (hh : r₁.Holds b p n) : p ≠ q := by
    rintro rfl
    exact hb (region_unique hs hr₁ hh hr hq).1
  constructor
  · rintro (⟨hh, hne⟩ | ⟨b, r₁, hb, hr₁, hh⟩)
    · exact ⟨.inl hh, hne⟩
    · exact ⟨.inr ⟨b, r₁, hb, hr₁, hh⟩, hother hb hr₁ hh⟩
  · rintro ⟨hh | ho, hne⟩
    · exact .inl ⟨hh, hne⟩
    · exact .inr ho

/-- After a region is gone, so are its objects. -/
theorem holds_erase {base : Ptr} (hreg : a'.regions = a.regions.erase base) (p : Ptr) (n : Size) :
    a'.Holds p n ↔ ∃ (b : Ptr) (r : Region), b ≠ base ∧ a.regions[b]? = some r ∧ r.Holds b p n := by
  unfold Allocator.Holds
  simp only [hreg, OrdMap.getElem?_erase]
  constructor
  · rintro ⟨b, r, hr, hh⟩
    split at hr
    · cases hr
    · exact ⟨b, r, ‹_›, hr, hh⟩
  · rintro ⟨b, r, hb, hr, hh⟩
    exact ⟨b, r, (if_neg hb).trans hr, hh⟩

/-! ## Slots -/

/-- The state after the top slot of a slab was taken. -/
def taken (a : Allocator) (base : Ptr) (r : Region) (slot : BitVec 32) : Allocator :=
  let r' := { r with freeSlots := r.freeSlots.tail, busy := r.busy.set slot.toNat true, used := r.used + 1 }
  if r.freeSlots.tail = [] then (a.setRegion base r').erasePartial r.obj base else a.setRegion base r'

/-- A slab with one more slot busy. -/
theorem holds_set_true {r : Region} (hobj : r.obj ≠ 0) {slot : BitVec 32}
    (hfree : r.busy[slot.toNat]? = some false) (base p : Ptr) (n : Size) (free : List (BitVec 32)) (used : BitVec 32) :
    ({ r with freeSlots := free, busy := r.busy.set slot.toNat true, used := used } : Region).Holds base p n ↔
      r.Holds base p n ∨ (p = slotAddr base r.obj slot ∧ n = r.obj) := by
  have hlt := (List.getElem?_eq_some_iff.1 hfree).1
  unfold Region.Holds
  simp only [ne_eq, hobj, not_false_eq_true, true_and, false_and, or_false]
  constructor
  · rintro ⟨rfl, slot', hbusy, rfl⟩
    by_cases heq : slot' = slot
    · subst heq
      exact .inr ⟨rfl, rfl⟩
    · have hne : slot.toNat ≠ slot'.toNat := fun h => heq (BitVec.eq_of_toNat_eq h).symm
      rw [List.getElem?_set_ne hne] at hbusy
      exact .inl ⟨rfl, slot', hbusy, rfl⟩
  · rintro (⟨rfl, slot', hbusy, rfl⟩ | ⟨rfl, rfl⟩)
    · have hne : slot.toNat ≠ slot'.toNat := by
        intro h
        rw [← h, hfree] at hbusy
        cases hbusy
      refine ⟨rfl, slot', ?_, rfl⟩
      rw [List.getElem?_set_ne hne]
      exact hbusy
    · exact ⟨rfl, slot, by simp [hlt], rfl⟩

/-- A slab with one slot less busy. -/
theorem holds_set_false {chunk base : Size} {r : Region} (hobj : r.obj ≠ 0) (hlen : r.busy.length = slotCount chunk r.obj)
    (hend : base.toNat + chunk.toNat < 2 ^ 64) {slot : BitVec 32} (hbusy : r.busy[slot.toNat]? = some true) (p : Ptr) (n : Size)
    (free : List (BitVec 32)) (used : BitVec 32) :
    ({ r with freeSlots := free, busy := r.busy.set slot.toNat false, used := used } : Region).Holds base p n ↔
      r.Holds base p n ∧ p ≠ slotAddr base r.obj slot := by
  have hlt := (List.getElem?_eq_some_iff.1 hbusy).1
  unfold Region.Holds
  simp only [ne_eq, hobj, not_false_eq_true, true_and, false_and, or_false]
  constructor
  · rintro ⟨rfl, slot', hbusy', rfl⟩
    have hne : slot.toNat ≠ slot'.toNat := by
      intro h
      rw [← h] at hbusy'
      simp [hlt] at hbusy'
    rw [List.getElem?_set_ne hne] at hbusy'
    have hlt' := (List.getElem?_eq_some_iff.1 hbusy').1
    refine ⟨⟨rfl, slot', hbusy', rfl⟩, fun heq => ?_⟩
    rw [slotAddr_inj hobj (by omega) (by omega) hend heq] at hne
    exact hne rfl
  · rintro ⟨⟨rfl, slot', hbusy', rfl⟩, hne⟩
    have hne : slot.toNat ≠ slot'.toNat := by
      intro h
      rw [BitVec.eq_of_toNat_eq h] at hne
      exact hne rfl
    refine ⟨rfl, slot', ?_, rfl⟩
    rw [List.getElem?_set_ne hne]
    exact hbusy'

/-- Taking a slot writes its region, and the configuration stays. -/
theorem taken_rest (a : Allocator) (base : Ptr) (r : Region) (slot : BitVec 32) :
    (taken a base r slot).cfg = a.cfg ∧ (taken a base r slot).dead = a.dead ∧ (taken a base r slot).regions =
      a.regions.insert base { r with freeSlots := r.freeSlots.tail, busy := r.busy.set slot.toNat true, used := r.used + 1 } := by
  unfold taken
  refine ⟨?_, ?_, ?_⟩
  all_goals
    dsimp only
    split <;> rfl

/-- Taking a slot keeps the invariant, and the slab is in use then. -/
theorem sound_taken (hs : a.Sound h) {base : Ptr} {r : Region} {slot : BitVec 32} {rest : List (BitVec 32)}
    (hr : a.regions[base]? = some r) (hobj : r.obj ≠ 0) (hfree : r.freeSlots = slot :: rest) :
    (taken a base r slot).Sound h ∧ r.used + 1 ≠ 0 := by
  have hslab := hs.slab base r hr hobj
  have hslots := hslab.slots
  rw [hfree] at hslots
  have htop := hslots.top
  have hcount := Slots.count_take htop
  have hlt : r.busy.count true + 1 < 2 ^ 32 := by
    have hle := (r.busy.set slot.toNat true).count_le_length (a := true)
    rw [hcount, List.length_set, hslab.length] at hle
    exact lt_of_le_of_lt hle (slotCount_lt _ _)
  have hused : (r.used + 1).toNat = r.busy.count true + 1 := by
    rw [BitVec.toNat_add, hslab.used]
    exact Nat.mod_eq_of_lt hlt
  obtain ⟨hcfg, -, hreg⟩ := taken_rest a base r slot
  refine ⟨sound_replaced hs hr hreg hcfg rfl rfl rfl (fun _ => ?_) fun obj b => ?_, ?_⟩
  · refine ⟨hslab.size, ?_, ?_, hused.trans hcount.symm⟩
    · exact List.length_set.trans hslab.length
    · rw [hfree]
      exact hslots.take
  · unfold taken
    rw [hfree, List.tail_cons]
    have hin : base ∈ a.part r.obj := (hs.partials _ _).2 ⟨r, hr, rfl, hobj, by rw [hfree]; exact List.cons_ne_nil _ _⟩
    have honly {obj : Size} (hb : base ∈ a.part obj) : r.obj = obj := by
      obtain ⟨r', hr', rfl, -⟩ := (hs.partials _ _).1 hb
      rw [hr] at hr'
      cases hr'
      rfl
    dsimp only
    split
    · rw [mem_part_erasePartial, part_setRegion]
      split
      · subst b
        simp only [and_true]
        constructor
        · rintro ⟨hb, hne⟩
          exact absurd (honly hb).symm hne
        · rintro ⟨-, -, hne⟩
          exact absurd ‹rest = []› hne
      · simp [*]
    · rw [part_setRegion]
      split
      · subst b
        constructor
        · intro hb
          exact ⟨honly hb, hobj, ‹_›⟩
        · rintro ⟨rfl, -⟩
          exact hin
      · rfl
  · intro h0
    rw [h0] at hused
    simp at hused

/-- Taking a slot adds its object, which was not there. -/
theorem holds_taken (hs : a.Sound h) {base : Ptr} {r : Region} {slot : BitVec 32} {rest : List (BitVec 32)}
    (hr : a.regions[base]? = some r) (hobj : r.obj ≠ 0) (hfree : r.freeSlots = slot :: rest) :
    (∀ n : Size, ¬a.Holds (slotAddr base r.obj slot) n) ∧ ∀ (p : Ptr) (n : Size),
      (taken a base r slot).Holds p n ↔ a.Holds p n ∨ (p = slotAddr base r.obj slot ∧ n = r.obj) := by
  have hslab := hs.slab base r hr hobj
  have hslots := hslab.slots
  rw [hfree] at hslots
  have htop := hslots.top
  have hend := region_end hs hr
  rw [hslab.size] at hend
  refine ⟨fun n hh => ?_, holds_added hr (taken_rest a base r slot).2.2 fun p n => holds_set_true hobj htop base p n _ _⟩
  -- the slot's object would be at the same address as itself
  have hlt := slot_lt hslab htop
  obtain ⟨base', r', hr', hh⟩ := hh
  have hl := lookup_of_holds hs hr' hh
  have hbase : a.lookup (slotAddr base r.obj slot) = some (base, r) := by
    refine (lookup_eq_some_iff hs).2 ⟨hr, ?_⟩
    have hle := slot_end_le hlt
    rw [Nat.succ_mul] at hle
    have hpos := toNat_pos hobj
    rw [slotAddr_toNat hlt hend, hslab.size]
    omega
  rw [hbase] at hl
  cases hl
  rcases hh with ⟨-, -, slot', hbusy, heq⟩ | ⟨h0, -⟩
  · rw [slotAddr_inj hobj hlt (slot_lt hslab hbusy) hend heq, hbusy] at htop
    cases htop
  · exact hobj h0

/-- The region of a slab after a slot was given back. -/
def givenRegion (r : Region) (slot : BitVec 32) : Region :=
  { r with freeSlots := slot :: r.freeSlots, busy := r.busy.set slot.toNat false, used := r.used - 1 }

/-- Giving a slot back keeps what a slab is. -/
theorem slab_given {chunk : Size} {r : Region} (hslab : r.Slab chunk) {slot : BitVec 32} (hbusy : r.busy[slot.toNat]? = some true) :
    (givenRegion r slot).Slab chunk := by
  have hcount := Slots.count_give hbusy
  refine ⟨hslab.size, List.length_set.trans hslab.length, hslab.slots.give hbusy, ?_⟩
  have hlt := r.used.isLt
  have hused := hslab.used
  show (r.used - 1).toNat = (r.busy.set slot.toNat false).count true
  rw [BitVec.toNat_sub_of_le (by rw [BitVec.le_def]; simp; omega)]
  simp
  omega

/-- A slot is given back and the slab stays. -/
theorem sound_given (hs : a.Sound h) {base : Ptr} {r : Region} {slot : BitVec 32} (hr : a.regions[base]? = some r)
    (hobj : r.obj ≠ 0) (hbusy : r.busy[slot.toNat]? = some true) :
    ((a.setRegion base (givenRegion r slot)).insertPartial r.obj base).Sound h := by
  have hslab := hs.slab base r hr hobj
  have hreg : ((a.setRegion base (givenRegion r slot)).insertPartial r.obj base).regions =
      a.regions.insert base (givenRegion r slot) := rfl
  refine sound_replaced hs hr hreg rfl rfl rfl rfl (fun _ => slab_given hslab hbusy) fun obj b => ?_
  rw [mem_part_insertPartial, part_setRegion]
  split
  · subst b
    simp only [and_true, hobj, ne_eq, not_false_eq_true, true_and]
    constructor
    · rintro (rfl | hb)
      · exact ⟨rfl, List.cons_ne_nil _ _⟩
      · obtain ⟨r', hr', rfl, -⟩ := (hs.partials _ _).1 hb
        rw [hr] at hr'
        cases hr'
        exact ⟨rfl, List.cons_ne_nil _ _⟩
    · rintro ⟨rfl, -⟩
      exact .inl rfl
  · simp [*]

/-- The object of the slot is gone. -/
theorem holds_given (hs : a.Sound h) {base : Ptr} {r : Region} {slot : BitVec 32} (hr : a.regions[base]? = some r)
    (hobj : r.obj ≠ 0) (hbusy : r.busy[slot.toNat]? = some true) (hreg : a'.regions = a.regions.insert base (givenRegion r slot))
    (p : Ptr) (n : Size) : a'.Holds p n ↔ a.Holds p n ∧ p ≠ slotAddr base r.obj slot := by
  have hslab := (region_slab hs hr hobj).1
  have hq : r.Holds base (slotAddr base r.obj slot) r.obj := .inl ⟨hobj, rfl, slot, hbusy, rfl⟩
  exact holds_removed hs hr hq hreg (fun p n => holds_set_false hobj hslab.length (region_end hs hr) hbusy p n _ _) p n

/-- The last busy slot was given back: the slab had no other object. -/
theorem holds_last (hs : a.Sound h) {base : Ptr} {r : Region} {slot : BitVec 32} (hr : a.regions[base]? = some r)
    (hobj : r.obj ≠ 0) (hbusy : r.busy[slot.toNat]? = some true) (hlast : r.used - 1 = 0)
    (hreg : a'.regions = a.regions.erase base) (p : Ptr) (n : Size) :
    a'.Holds p n ↔ a.Holds p n ∧ p ≠ slotAddr base r.obj slot := by
  have hgiven := slab_given (region_slab hs hr hobj).1 hbusy
  have hnone : ¬(givenRegion r slot).Holds base p n := by
    rintro (⟨-, -, slot', hbusy', -⟩ | ⟨h0, -⟩)
    · have hcount := hgiven.used
      have hzero : (givenRegion r slot).used = 0 := hlast
      rw [hzero] at hcount
      exact Slots.count_eq_zero_iff.1 hcount.symm _ hbusy'
    · exact hobj h0
  have hregions : (a.setRegion base (givenRegion r slot)).regions = a.regions.insert base (givenRegion r slot) := rfl
  rw [← holds_given hs hr hobj hbusy hregions, holds_erase hreg, holds_insert hregions]
  simp [hnone]

/-- A slab without busy slots goes back. -/
theorem partials_last (hs : a.Sound h) {base : Ptr} {r : Region} (hr : a.regions[base]? = some r) (obj : Size) (b : Ptr) :
    (b ∈ a.part obj ∧ ¬(obj = r.obj ∧ b = base)) ↔ b ∈ a.part obj ∧ b ≠ base := by
  refine and_congr_right fun hb => not_congr ⟨And.right, ?_⟩
  rintro rfl
  obtain ⟨r', hr', rfl, -⟩ := (hs.partials _ _).1 hb
  rw [hr] at hr'
  cases hr'
  exact ⟨rfl, rfl⟩

/-! ## Chunks -/

/-- A new slab has no object, a new large chunk one. -/
theorem holds_created {c : Chunk} {size obj : Size} (hnone : a.regions[c.ptr]? = none)
    (hreg : a'.regions = a.regions.insert c.ptr (newRegion c size obj)) (p : Ptr) (n : Size) :
    a'.Holds p n ↔ a.Holds p n ∨ (obj = 0 ∧ c.ptr ≠ 0 ∧ p = c.ptr ∧ n = c.size) := by
  have hothers : (∃ (b : Ptr) (r : Region), b ≠ c.ptr ∧ a.regions[b]? = some r ∧ r.Holds b p n) ↔ a.Holds p n := by
    constructor
    · rintro ⟨b, r, -, hr, hh⟩
      exact ⟨b, r, hr, hh⟩
    · rintro ⟨b, r, hr, hh⟩
      refine ⟨b, r, ?_, hr, hh⟩
      rintro rfl
      rw [hnone] at hr
      cases hr
  rw [holds_insert hreg, hothers, or_comm]
  refine or_congr Iff.rfl ?_
  unfold Region.Holds
  rw [newRegion_obj, newRegion_c]
  constructor
  · rintro (⟨hobj, -, slot, hbusy, -⟩ | hlarge)
    · unfold newRegion at hbusy
      rw [if_neg hobj, List.getElem?_replicate] at hbusy
      split at hbusy <;> cases hbusy
    · exact hlarge
  · exact .inr

/-- No object is at the address of a new chunk. -/
theorem not_holds_fresh (hs : a.Sound h) {p : Ptr} {size : Size} (hf : h.Fresh p size) (hsize : size ≠ 0) (n : Size) :
    ¬a.Holds p n := by
  rintro ⟨base, r, hr, hh⟩
  obtain ⟨hn, hc, hle, hend⟩ := holds_inside hs hr hh
  have hpos := toNat_pos hn
  have hpos' := toNat_pos hsize
  rcases hf.2.2 base _ hc with hap | hap <;> omega

end PoolsAux

end Vmem
