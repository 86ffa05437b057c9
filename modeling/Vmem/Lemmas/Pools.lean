import Vmem.Pools

/-!
# The pools

The invariant of the allocator over a heap (`Allocator.Sound`): the regions are the live chunks, the stack of a slab holds its free
slots, and `partials` holds the slabs with a free slot. Then what taking and giving back a slot, and making and releasing a chunk, do
to it.
-/

namespace Vmem

/-- A slab: its chunk has the size of the small pool's chunks, its stack holds its free slots, and the busy ones are counted. -/
structure Region.Slab (chunk : Size) (r : Region) : Prop where
  size : r.c.size = chunk
  length : r.busy.length = slotCount chunk r.obj
  slots : Slots.Sound r.busy r.freeSlots
  used : r.used.toNat = r.busy.count true

/-- Live chunks are not null, not empty and not at the end of the address space, and lie apart. -/
structure Heap.Sound (h : Heap) : Prop where
  chunk : ∀ (base : Ptr) (n : Size), h.chunks[base]? = some n → base ≠ 0 ∧ n ≠ 0 ∧ base.toNat + n.toNat < 2 ^ 64
  apart : ∀ (base base' : Ptr) (n n' : Size), base ≠ base' → h.chunks[base]? = some n → h.chunks[base']? = some n' → Apart base n base' n'

/-- The allocator and its backend agree, and so do the four views of a slab. A region that is no live chunk is the null chunk. -/
structure Allocator.Sound (a : Allocator) (h : Heap) : Prop where
  heap : h.Sound
  base : ∀ (base : Ptr) (r : Region), a.regions[base]? = some r → r.c.ptr = base
  chunk : ∀ (base : Ptr) (r : Region), a.regions[base]? = some r → h.chunks[base]? = some r.c.size ∨ (base = 0 ∧ r.c.size = 0 ∧ r.obj = 0)
  owned : ∀ (base : Ptr) (n : Size), h.chunks[base]? = some n → ∃ r : Region, a.regions[base]? = some r ∧ r.c.size = n
  slab : ∀ (base : Ptr) (r : Region), a.regions[base]? = some r → r.obj ≠ 0 → r.Slab a.cfg.smallChunk
  partials : ∀ (obj : Size) (base : Ptr), base ∈ a.part obj ↔
    ∃ r : Region, a.regions[base]? = some r ∧ r.obj = obj ∧ r.obj ≠ 0 ∧ r.freeSlots ≠ []

namespace PoolsAux

open Allocator

/-! ## Addresses -/

/-- The slots of a chunk are inside it. -/
theorem slotCount_le (chunk obj : Size) : slotCount chunk obj * obj.toNat ≤ chunk.toNat := by
  have hle : slotCount chunk obj ≤ chunk.toNat / obj.toNat := by
    rw [slotCount, BitVec.toNat_setWidth, BitVec.toNat_udiv]
    exact Nat.mod_le _ _
  exact le_trans (Nat.mul_le_mul_right _ hle) (Nat.div_mul_le_self _ _)

/-- They can be counted in 32 bits. -/
theorem slotCount_lt (chunk obj : Size) : slotCount chunk obj < 2 ^ 32 := BitVec.isLt _

/-- A slot ends inside its chunk. -/
theorem slot_end_le {chunk obj : Size} {slot : BitVec 32} (hs : slot.toNat < slotCount chunk obj) :
    (slot.toNat + 1) * obj.toNat ≤ chunk.toNat :=
  le_trans (Nat.mul_le_mul_right _ hs) (slotCount_le chunk obj)

/-- The address of a slot does not wrap. -/
theorem slotAddr_toNat {base chunk obj : Size} {slot : BitVec 32} (hs : slot.toNat < slotCount chunk obj)
    (hb : base.toNat + chunk.toNat < 2 ^ 64) : (slotAddr base obj slot).toNat = base.toNat + slot.toNat * obj.toNat := by
  have hle := slot_end_le hs
  rw [Nat.succ_mul] at hle
  have hw : (slot.setWidth 64).toNat = slot.toNat := by
    rw [BitVec.toNat_setWidth, Nat.mod_eq_of_lt]
    have := slot.isLt
    omega
  have hmul : (slot.setWidth 64 * obj).toNat = slot.toNat * obj.toNat := by
    rw [BitVec.toNat_mul, hw, Nat.mod_eq_of_lt (by omega)]
  rw [slotAddr, BitVec.toNat_add, hmul, Nat.mod_eq_of_lt (by omega)]

/-- The offset of an address in a chunk. -/
theorem offset_toNat {base p : Ptr} (h : base.toNat ≤ p.toNat) : (p - base).toNat = p.toNat - base.toNat :=
  BitVec.toNat_sub_of_le (by rwa [BitVec.le_def])

/-- The slot that the source computes for the address of a slot. -/
theorem slotOf_slotAddr {base chunk : Size} {r : Region} {slot : BitVec 32} (hobj : r.obj ≠ 0)
    (hs : slot.toNat < slotCount chunk r.obj) (hb : base.toNat + chunk.toNat < 2 ^ 64) :
    (slotAddr base r.obj slot - base) % r.obj = 0 ∧ slotOf base r (slotAddr base r.obj slot) = slot := by
  have hpos : 0 < r.obj.toNat := Nat.pos_of_ne_zero fun h0 => hobj (BitVec.eq_of_toNat_eq h0)
  have haddr := slotAddr_toNat hs hb
  have hoff : (slotAddr base r.obj slot - base).toNat = slot.toNat * r.obj.toNat := by
    rw [offset_toNat (by omega), haddr, Nat.add_sub_cancel_left]
  constructor
  · apply BitVec.eq_of_toNat_eq
    rw [BitVec.toNat_umod, hoff, Nat.mul_mod_left]
    rfl
  · apply BitVec.eq_of_toNat_eq
    rw [slotOf, BitVec.toNat_setWidth, BitVec.toNat_udiv, hoff, Nat.mul_div_cancel _ hpos, Nat.mod_eq_of_lt slot.isLt]

/-- An address at a slot boundary whose quotient fits in 32 bits is the address of the slot computed. -/
theorem slotAddr_slotOf {base p : Ptr} {r : Region} (hle : base.toNat ≤ p.toNat) (hmod : (p - base) % r.obj = 0)
    (hlt : (p.toNat - base.toNat) / r.obj.toNat < 2 ^ 32) : slotAddr base r.obj (slotOf base r p) = p := by
  have hoff := offset_toNat hle
  have hdvd : r.obj.toNat ∣ p.toNat - base.toNat := by
    have h0 := congrArg BitVec.toNat hmod
    rw [BitVec.toNat_umod, hoff] at h0
    exact Nat.dvd_of_mod_eq_zero h0
  have hslot : ((slotOf base r p).setWidth 64).toNat = (p.toNat - base.toNat) / r.obj.toNat := by
    rw [slotOf, BitVec.toNat_setWidth, BitVec.toNat_setWidth, BitVec.toNat_udiv, hoff, Nat.mod_eq_of_lt (a := _ / _) hlt,
      Nat.mod_eq_of_lt (by omega)]
  apply BitVec.eq_of_toNat_eq
  have hp := p.isLt
  rw [slotAddr, BitVec.toNat_add, BitVec.toNat_mul, hslot, Nat.div_mul_cancel hdvd, Nat.mod_eq_of_lt (a := _ - _) (by omega),
    Nat.mod_eq_of_lt (by omega)]
  omega

/-! ## Views of the state -/

/-- Writing a region leaves the lists of partial slabs. -/
@[simp] theorem part_setRegion (a : Allocator) (base : Ptr) (r : Region) (obj : Size) :
    (a.setRegion base r).part obj = a.part obj := rfl

/-- A slab joins the list of its class. -/
theorem mem_part_insertPartial (a : Allocator) (obj obj' : Size) (base base' : Ptr) :
    base' ∈ (a.insertPartial obj base).part obj' ↔ (obj' = obj ∧ base' = base) ∨ base' ∈ a.part obj' := by
  unfold insertPartial part
  by_cases ho : obj = obj'
  · subst ho
    simp [Std.ExtTreeMap.getD_eq_getD_getElem?, Std.ExtTreeMap.mem_insert, @eq_comm _ base']
  · simp [Std.ExtTreeMap.getD_eq_getD_getElem?, Std.ExtTreeMap.getElem?_insert, ho, Ne.symm ho]

/-- A slab leaves the list of its class. -/
theorem mem_part_erasePartial (a : Allocator) (obj obj' : Size) (base base' : Ptr) :
    base' ∈ (a.erasePartial obj base).part obj' ↔ base' ∈ a.part obj' ∧ ¬(obj' = obj ∧ base' = base) := by
  unfold erasePartial part
  by_cases ho : obj = obj'
  · subst ho
    simp [Std.ExtTreeMap.getD_eq_getD_getElem?, Std.ExtTreeMap.mem_erase, @eq_comm _ base', and_comm]
  · simp [Std.ExtTreeMap.getD_eq_getD_getElem?, Std.ExtTreeMap.getElem?_insert, ho, Ne.symm ho]

variable {a a' : Allocator} {h h' : Heap}

/-- The end of a region does not wrap. -/
theorem region_end (hs : a.Sound h) {base : Ptr} {r : Region} (hr : a.regions[base]? = some r) :
    base.toNat + r.c.size.toNat < 2 ^ 64 := by
  rcases hs.chunk base r hr with hc | ⟨rfl, hsize, -⟩
  · exact (hs.heap.chunk base _ hc).2.2
  · simp [hsize]

/-- A region with slots is a slab of its chunk, and not at the null pointer. -/
theorem region_slab (hs : a.Sound h) {base : Ptr} {r : Region} (hr : a.regions[base]? = some r) (hobj : r.obj ≠ 0) :
    r.Slab r.c.size ∧ base ≠ 0 := by
  have hslab := hs.slab base r hr hobj
  refine ⟨hslab.size ▸ hslab, ?_⟩
  rcases hs.chunk base r hr with hc | ⟨-, -, h0⟩
  · exact (hs.heap.chunk base _ hc).1
  · exact absurd h0 hobj

/-- The region of an address is the one whose chunk holds it. -/
theorem lookup_eq_some_iff (hs : a.Sound h) {p base : Ptr} {r : Region} : a.lookup p = some (base, r) ↔
    a.regions[base]? = some r ∧ base.toNat ≤ p.toNat ∧ p.toNat < base.toNat + r.c.size.toNat := by
  have hlt {base : Ptr} {r : Region} (hr : a.regions[base]? = some r) :
      p < base + r.c.size ↔ p.toNat < base.toNat + r.c.size.toNat := by
    rw [BitVec.lt_def, BitVec.toNat_add, Nat.mod_eq_of_lt (region_end hs hr)]
  constructor
  · intro hl
    unfold lookup at hl
    cases hf : a.regions.floor? p with
    | none =>
      rw [hf] at hl
      cases hl
    | some x =>
      obtain ⟨base', r'⟩ := x
      rw [hf] at hl
      dsimp only at hl
      split at hl
      · cases hl
        obtain ⟨hr, hle, -⟩ := OrdMap.floor?_eq_some_iff.1 hf
        rw [OrdMap.isLE_iff, BitVec.le_def] at hle
        exact ⟨hr, hle, (hlt hr).1 ‹_›⟩
      · cases hl
  · rintro ⟨hr, hle, hin⟩
    have hf : a.regions.floor? p = some (base, r) := by
      refine OrdMap.floor?_eq_some_iff.2 ⟨hr, by rwa [OrdMap.isLE_iff, BitVec.le_def], fun base' r' hr' hle' => ?_⟩
      rw [OrdMap.isLE_iff, BitVec.le_def] at hle' ⊢
      -- a chunk that began between would overlap this one
      by_contra hgt
      have hne : base' ≠ base := by
        rintro rfl
        omega
      have hne0 : base'.toNat ≠ 0 := by omega
      have hc' : h.chunks[base']? = some r'.c.size := by
        rcases hs.chunk base' r' hr' with hc' | ⟨rfl, -, -⟩
        · exact hc'
        · exact absurd rfl hne0
      have hsize : r.c.size.toNat ≠ 0 := by omega
      have hc : h.chunks[base]? = some r.c.size := by
        rcases hs.chunk base r hr with hc | ⟨-, h0, -⟩
        · exact hc
        · rw [h0] at hsize
          exact absurd rfl hsize
      have hpos := (hs.heap.chunk base' _ hc').2.1
      have hpos' : r'.c.size.toNat ≠ 0 := fun h0 => hpos (BitVec.eq_of_toNat_eq h0)
      rcases hs.heap.apart base' base _ _ hne hc' hc with hap | hap <;> omega
    unfold lookup
    rw [hf]
    exact if_pos ((hlt hr).2 hin)

/-! ## Writing a region -/

/-- A region is written that keeps its chunk and its class, and `partials` follows it. -/
theorem sound_replaced (hs : a.Sound h) {base : Ptr} {r r' : Region} (hr : a.regions[base]? = some r)
    (hreg : a'.regions = a.regions.insert base r') (hcfg : a'.cfg = a.cfg) (hptr : r'.c.ptr = r.c.ptr)
    (hsize : r'.c.size = r.c.size) (hobj : r'.obj = r.obj) (hslab : r'.obj ≠ 0 → r'.Slab a.cfg.smallChunk)
    (hpart : ∀ (obj : Size) (b : Ptr), b ∈ a'.part obj ↔
      if b = base then r.obj = obj ∧ r.obj ≠ 0 ∧ r'.freeSlots ≠ [] else b ∈ a.part obj) : a'.Sound h := by
  have hget (b : Ptr) : a'.regions[b]? = if b = base then some r' else a.regions[b]? := by
    rw [hreg, OrdMap.getElem?_insert]
  refine ⟨hs.heap, fun b q hq => ?_, fun b q hq => ?_, fun b n hn => ?_, fun b q hq h0 => ?_, fun obj b => ?_⟩
  · rw [hget] at hq
    split at hq
    · cases hq
      subst b
      rw [hptr]
      exact hs.base base r hr
    · exact hs.base b q hq
  · rw [hget] at hq
    split at hq
    · cases hq
      subst b
      rw [hsize, hobj]
      exact hs.chunk base r hr
    · exact hs.chunk b q hq
  · rw [hget]
    obtain ⟨q, hq, hqn⟩ := hs.owned b n hn
    split
    · subst b
      rw [hr] at hq
      cases hq
      exact ⟨r', rfl, hsize.trans hqn⟩
    · exact ⟨q, hq, hqn⟩
  · rw [hget] at hq
    rw [hcfg]
    split at hq
    · cases hq
      exact hslab h0
    · exact hs.slab b q hq h0
  · rw [hpart, hget]
    split
    · simp [hobj]
    · exact hs.partials obj b

/-! ## New chunks -/

/-- Two ranges at one address are not apart. -/
theorem apart_self {p : Ptr} {n n' : Size} (hn : n ≠ 0) (hn' : n' ≠ 0) : ¬Apart p n p n' := by
  have hpos : n.toNat ≠ 0 := fun h0 => hn (BitVec.eq_of_toNat_eq h0)
  have hpos' : n'.toNat ≠ 0 := fun h0 => hn' (BitVec.eq_of_toNat_eq h0)
  rintro (h | h) <;> omega

/-- A fresh range has no chunk and no region. -/
theorem region_of_fresh (hs : a.Sound h) {p : Ptr} {size : Size} (hf : h.Fresh p size) (hsize : size ≠ 0) :
    h.chunks[p]? = none ∧ a.regions[p]? = none := by
  have hc : h.chunks[p]? = none := by
    refine Option.eq_none_iff_forall_not_mem.2 fun n hn => ?_
    exact apart_self hsize (hs.heap.chunk p n hn).2.1 (hf.2.2 p n hn)
  refine ⟨hc, Option.eq_none_iff_forall_not_mem.2 fun r hr => ?_⟩
  rcases hs.chunk p r hr with hlive | ⟨h0, -⟩
  · rw [hc] at hlive
    cases hlive
  · exact hf.1 h0

/-- A heap stays in order with a fresh chunk. -/
theorem heap_sound_insert (hh : h.Sound) {p : Ptr} {size : Size} (hf : h.Fresh p size) (hsize : size ≠ 0) :
    ({ h with chunks := h.chunks.insert p size } : Heap).Sound := by
  refine ⟨fun b n hn => ?_, fun b b' n n' hne hn hn' => ?_⟩
  · by_cases hb : p = b
    · subst hb
      simp only [Std.ExtTreeMap.getElem?_insert_self, Option.some.injEq] at hn
      subst hn
      exact ⟨hf.1, hsize, hf.2.1⟩
    · exact hh.chunk b n (by simpa [Std.ExtTreeMap.getElem?_insert, hb] using hn)
  · by_cases hb : p = b
    · subst hb
      simp only [Std.ExtTreeMap.getElem?_insert_self, Option.some.injEq] at hn
      subst hn
      exact hf.2.2 b' n' (by simpa [Std.ExtTreeMap.getElem?_insert, hne] using hn')
    · by_cases hb' : p = b'
      · subst hb'
        simp only [Std.ExtTreeMap.getElem?_insert_self, Option.some.injEq] at hn'
        subst hn'
        exact (hf.2.2 b n (by simpa [Std.ExtTreeMap.getElem?_insert, hb] using hn)).symm
      · exact hh.apart b b' n n' hne (by simpa [Std.ExtTreeMap.getElem?_insert, hb] using hn)
          (by simpa [Std.ExtTreeMap.getElem?_insert, hb'] using hn')

/-- A new slab has every slot free. -/
theorem newRegion_slab {c : Chunk} {size obj : Size} (hobj : obj ≠ 0) (hsize : c.size = size) :
    (newRegion c size obj).Slab size ∧ (newRegion c size obj).freeSlots = Slots.fresh 32 (slotCount size obj) ∧
      (newRegion c size obj).busy = List.replicate (slotCount size obj) false := by
  unfold newRegion
  rw [if_neg hobj]
  refine ⟨⟨hsize, List.length_replicate, Slots.sound_fresh (BitVec.isLt _), ?_⟩, rfl, rfl⟩
  rw [Slots.count_eq_zero_iff.2]
  · rfl
  · intro j hj
    rw [List.getElem?_replicate] at hj
    split at hj <;> cases hj

/-- The state after a chunk was created. -/
def created (a : Allocator) (c : Chunk) (size obj : Size) : Allocator :=
  (if obj ≠ 0 then a.insertPartial obj c.ptr else a).emplace c.ptr (newRegion c size obj)

/-- A new chunk makes a region, unless there is one at its address. -/
theorem created_regions (a : Allocator) (c : Chunk) (size obj : Size) : (created a c size obj).regions =
    if a.regions.contains c.ptr then a.regions else a.regions.insert c.ptr (newRegion c size obj) := by
  unfold created emplace
  by_cases hobj : obj = 0
  · simp only [hobj, ne_eq, not_true_eq_false, if_false]
    split <;> rfl
  · simp only [ne_eq, hobj, not_false_eq_true, if_true]
    have hreg : (a.insertPartial obj c.ptr).regions = a.regions := rfl
    rw [hreg]
    split <;> rfl

/-- There is a region at its address then. -/
theorem created_get (a : Allocator) (c : Chunk) (size obj : Size) : (created a c size obj).regions[c.ptr]? ≠ none := by
  rw [created_regions]
  split
  · rwa [← Std.ExtTreeMap.isSome_getElem?_eq_contains, Option.isSome_iff_ne_none] at *
  · rw [OrdMap.getElem?_insert, if_pos rfl]
    exact Option.some_ne_none _

/-- A new slab is in the list of its class. -/
theorem created_part (a : Allocator) (c : Chunk) (size obj obj' : Size) (b : Ptr) :
    b ∈ (created a c size obj).part obj' ↔ (obj ≠ 0 ∧ obj' = obj ∧ b = c.ptr) ∨ b ∈ a.part obj' := by
  have hpart (a : Allocator) (r : Region) : (a.emplace c.ptr r).part obj' = a.part obj' := by
    unfold emplace
    split <;> rfl
  unfold created
  rw [hpart]
  by_cases hobj : obj = 0
  · simp [hobj]
  · rw [if_pos hobj, mem_part_insertPartial]
    simp only [ne_eq, hobj, not_false_eq_true, true_and]

/-- A new chunk leaves the configuration and the flag. -/
theorem created_rest (a : Allocator) (c : Chunk) (size obj : Size) :
    (created a c size obj).cfg = a.cfg ∧ (created a c size obj).dead = a.dead := by
  unfold created emplace
  constructor
  all_goals
    split
    all_goals split <;> rfl

/-- A new chunk: of the small pool's size and with a slot, if it is a slab. -/
theorem sound_created (hs : a.Sound h) {c : Chunk} {size : Size} (obj : Size) (hf : h.Fresh c.ptr size) (hsize : size ≠ 0)
    (hc : c.size = size) (hslab : obj ≠ 0 → size = a.cfg.smallChunk ∧ slotCount size obj ≠ 0) :
    (created a c size obj).Sound { h with chunks := h.chunks.insert c.ptr size } ∧
      (created a c size obj).regions = a.regions.insert c.ptr (newRegion c size obj) := by
  obtain ⟨hnochunk, hnone⟩ := region_of_fresh hs hf hsize
  have hreg : (created a c size obj).regions = a.regions.insert c.ptr (newRegion c size obj) := by
    rw [created_regions, if_neg]
    rw [Std.ExtTreeMap.contains_eq_isSome_getElem?, hnone]
    simp
  have hget (b : Ptr) : (created a c size obj).regions[b]? = if b = c.ptr then some (newRegion c size obj) else a.regions[b]? := by
    rw [hreg, OrdMap.getElem?_insert]
  refine ⟨⟨heap_sound_insert hs.heap hf hsize, fun b q hq => ?_, fun b q hq => ?_, fun b n hn => ?_, fun b q hq h0 => ?_,
    fun obj' b => ?_⟩, hreg⟩
  · rw [hget] at hq
    split at hq
    · cases hq
      subst b
      rw [newRegion_c]
    · exact hs.base b q hq
  · rw [hget] at hq
    show (h.chunks.insert c.ptr size)[b]? = _ ∨ _
    rw [OrdMap.getElem?_insert]
    split at hq
    · cases hq
      subst b
      left
      rw [if_pos rfl, newRegion_c, hc]
    · rw [if_neg ‹_›]
      exact hs.chunk b q hq
  · have hn : (h.chunks.insert c.ptr size)[b]? = some n := hn
    rw [OrdMap.getElem?_insert] at hn
    rw [hget]
    split at hn
    · cases hn
      rw [if_pos ‹_›]
      exact ⟨_, rfl, by rw [newRegion_c, hc]⟩
    · rw [if_neg ‹_›]
      exact hs.owned b n hn
  · rw [hget] at hq
    rw [(created_rest a c size obj).1]
    split at hq
    · cases hq
      rw [newRegion_obj] at h0
      have hnew := (newRegion_slab h0 hc).1
      rwa [(hslab h0).1] at hnew ⊢
    · exact hs.slab b q hq h0
  · rw [created_part, hget]
    by_cases hb : b = c.ptr
    · subst hb
      have hno : ¬c.ptr ∈ a.part obj' := by
        rw [hs.partials]
        rintro ⟨r, hr, -⟩
        rw [hnone] at hr
        cases hr
      rw [if_pos rfl]
      by_cases hobj : obj = 0
      · simp [hno, hobj, newRegion_obj]
      · have hfree : (newRegion c size obj).freeSlots ≠ [] := by
          rw [(newRegion_slab hobj hc).2.1, ne_eq, Slots.fresh_eq_nil]
          exact (hslab hobj).2
        simp [hno, newRegion_obj, hfree, @eq_comm _ obj', and_comm]
    · rw [if_neg hb]
      simp only [hb, and_false, false_or]
      exact hs.partials obj' b

/-- The null chunk: a region without bytes. -/
theorem sound_null (hs : a.Sound h) {c : Chunk} (hptr : c.ptr = 0) (hc : c.size = 0) :
    (created a c 0 0).Sound h ∧ ∀ b : Ptr, b ≠ 0 → (created a c 0 0).regions[b]? = a.regions[b]? := by
  have hnew : newRegion c 0 0 = { c, obj := 0 } := rfl
  have hpart (obj : Size) (b : Ptr) : b ∈ (created a c 0 0).part obj ↔ b ∈ a.part obj := by
    rw [created_part]
    simp
  have hcfg := (created_rest a c 0 0).1
  by_cases hin : a.regions.contains c.ptr = true
  · have hreg : (created a c 0 0).regions = a.regions := by rw [created_regions, if_pos hin]
    refine ⟨⟨hs.heap, ?_, ?_, ?_, ?_, fun obj b => ?_⟩, fun b _ => by rw [hreg]⟩
    · rw [hreg]
      exact hs.base
    · rw [hreg]
      exact hs.chunk
    · rw [hreg]
      exact hs.owned
    · rw [hreg, hcfg]
      exact hs.slab
    · rw [hpart, hreg]
      exact hs.partials obj b
  · have hnone : a.regions[(0 : Ptr)]? = none := by
      rw [hptr, Std.ExtTreeMap.contains_eq_isSome_getElem?] at hin
      simpa using hin
    have hreg : (created a c 0 0).regions = a.regions.insert 0 { c, obj := 0 } := by
      rw [created_regions, if_neg hin, hnew, hptr]
    have hget (b : Ptr) : (created a c 0 0).regions[b]? = if b = 0 then some { c, obj := 0 } else a.regions[b]? := by
      rw [hreg, OrdMap.getElem?_insert]
    refine ⟨⟨hs.heap, fun b q hq => ?_, fun b q hq => ?_, fun b n hn => ?_, fun b q hq h0 => ?_, fun obj b => ?_⟩,
      fun b hb => by rw [hget, if_neg hb]⟩
    · rw [hget] at hq
      split at hq
      · cases hq
        subst b
        exact hptr
      · exact hs.base b q hq
    · rw [hget] at hq
      split at hq
      · cases hq
        exact .inr ⟨‹_›, hc, rfl⟩
      · exact hs.chunk b q hq
    · rw [hget, if_neg (hs.heap.chunk b n hn).1]
      exact hs.owned b n hn
    · rw [hget] at hq
      rw [hcfg]
      split at hq
      · cases hq
        exact absurd rfl h0
      · exact hs.slab b q hq h0
    · rw [hpart, hget, hs.partials]
      split
      · subst b
        constructor
        · rintro ⟨r, hr, -⟩
          rw [hnone] at hr
          cases hr
        · rintro ⟨r, hr, -, h0, -⟩
          cases hr
          exact absurd rfl h0
      · rfl

/-! ## Chunks that go back -/

/-- An allocator stays in order without a region, if no list names it. -/
theorem sound_released (hs : a.Sound h) {base : Ptr} (hreg : a'.regions = a.regions.erase base) (hcfg : a'.cfg = a.cfg)
    (hpart : ∀ (obj : Size) (b : Ptr), b ∈ a'.part obj ↔ b ∈ a.part obj ∧ b ≠ base) :
    a'.Sound { h with chunks := h.chunks.erase base } := by
  have hget (b : Ptr) : a'.regions[b]? = if b = base then none else a.regions[b]? := by
    rw [hreg, OrdMap.getElem?_erase]
  have hold {b : Ptr} {n : Size} (hn : (h.chunks.erase base)[b]? = some n) : b ≠ base ∧ h.chunks[b]? = some n := by
    rw [OrdMap.getElem?_erase] at hn
    split at hn
    · cases hn
    · exact ⟨‹_›, hn⟩
  refine ⟨⟨fun b n hn => hs.heap.chunk b n (hold hn).2, fun b b' n n' hne hn hn' =>
    hs.heap.apart b b' n n' hne (hold hn).2 (hold hn').2⟩, fun b q hq => ?_, fun b q hq => ?_, fun b n hn => ?_,
    fun b q hq h0 => ?_, fun obj b => ?_⟩
  · rw [hget] at hq
    split at hq
    · cases hq
    · exact hs.base b q hq
  · rw [hget] at hq
    split at hq
    · cases hq
    · show (h.chunks.erase base)[b]? = _ ∨ _
      rw [OrdMap.getElem?_erase, if_neg ‹_›]
      exact hs.chunk b q hq
  · obtain ⟨hne, hn⟩ := hold hn
    rw [hget, if_neg hne]
    exact hs.owned b n hn
  · rw [hget] at hq
    rw [hcfg]
    split at hq
    · cases hq
    · exact hs.slab b q hq h0
  · rw [hpart, hget, hs.partials]
    split
    · simp [*]
    · simp [*]

end PoolsAux

end Vmem
