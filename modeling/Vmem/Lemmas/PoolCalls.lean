import Vmem.Lemmas.Objects

/-!
# Calls on the pools

What each call of an allocator does to its invariant and its objects, over a heap (`program_wp`). The state before a call has to admit
it (`Allocator.Admits`): a slab of the size class has a slot, and the slot of a freed address is one of the slab's.
-/

namespace Vmem

/-- The slot number of an address is not cut. -/
def Allocator.Exact (a : Allocator) (p : Ptr) : Prop :=
  ∀ (base : Ptr) (r : Region), a.lookup p = some (base, r) → r.obj ≠ 0 → ((p - base) / r.obj).toNat < 2 ^ 32

/-- The change of the objects by a call. -/
def Allocator.Moved (a a' : Allocator) : (c : AppCall) → Except Error c.Result → Prop
  | .alloc bytes, .ok p => (p = 0 ∧ ∀ (q : Ptr) (n : Size), a'.Holds q n ↔ a.Holds q n) ∨
      (p ≠ 0 ∧ ∃ size : Size, bytes.toNat ≤ size.toNat ∧ (∀ n : Size, ¬a.Holds p n) ∧
        ∀ (q : Ptr) (n : Size), a'.Holds q n ↔ a.Holds q n ∨ (q = p ∧ n = size))
  | .free p, .ok _ => (p = 0 ∧ a' = a) ∨ (p ≠ 0 ∧ ∃ (q : Ptr) (size : Size), a.Holds q size ∧ (a.Exact p → q = p) ∧
      ∀ (q' : Ptr) (n : Size), a'.Holds q' n ↔ a.Holds q' n ∧ q' ≠ q)
  | _, _ => ∀ (q : Ptr) (n : Size), a'.Holds q n ↔ a.Holds q n

namespace PoolsAux

open Allocator Throwing

/-- What a call leaves: a dead allocator, or one with its invariant and the objects that the call says. -/
structure Left (a : Allocator) (h : Heap) (c : AppCall) (r : Except Error c.Result) (a' : Allocator) (h' : Heap) : Prop where
  cfg : a'.cfg = a.cfg
  state : a'.dead = true ∨ (a'.dead = false ∧ a'.Ready h' ∧ a.Moved a' c r ∧
    (h.Whole a.cfg c → a.regions[(0 : Ptr)]? = none → a'.regions[(0 : Ptr)]? = none))

variable {a a' : Allocator} {h h' : Heap} {works : Bool}

/-! ## Sizes -/

/-- The larger of two sizes is at least the first. -/
theorem le_maxSize (x y : Size) : x.toNat ≤ (maxSize x y).toNat := by
  unfold maxSize
  split
  · have hlt : x < y := ‹_›
    rw [BitVec.lt_def] at hlt
    omega
  · exact le_rfl

/-- A power of two that is at least `x` is representable up to half of the range. -/
theorem pow_clog_lt {n : Nat} (hn : n ≤ 2 ^ 63) : 2 ^ Nat.clog 2 n < 2 ^ 64 := by
  have hle : Nat.clog 2 n ≤ 63 := Nat.clog_le_of_le_pow hn
  exact Nat.pow_lt_pow_right (by omega) (by omega)

/-- The class of a size is the next power of two, if that fits in a word. -/
theorem sizeClass_toNat {cfg : Config} {bytes : Size} (hrep : (maxSize bytes cfg.minObj).toNat ≤ 2 ^ 63) :
    (cfg.sizeClass bytes).toNat = 2 ^ Nat.clog 2 (maxSize bytes cfg.minObj).toNat := by
  rw [Config.sizeClass, BitVec.toNat_ofNat, Nat.mod_eq_of_lt (pow_clog_lt hrep)]

/-- A size class has room for the bytes. -/
theorem sizeClass_le {cfg : Config} {bytes : Size} (hrep : (maxSize bytes cfg.minObj).toNat ≤ 2 ^ 63) :
    bytes.toNat ≤ (cfg.sizeClass bytes).toNat ∧ cfg.sizeClass bytes ≠ 0 := by
  have heq := sizeClass_toNat hrep
  constructor
  · rw [heq]
    exact le_trans (le_maxSize _ _) (Nat.le_pow_clog (by omega) _)
  · intro h0
    rw [h0] at heq
    have hpos : 0 < 2 ^ Nat.clog 2 (maxSize bytes cfg.minObj).toNat := Nat.pos_of_ne_zero (by simp)
    rw [← heq] at hpos
    exact absurd hpos (by simp)

/-- `round_up` as a function. -/
def rounded (x g : Size) : Size := (x + g - 1) / g * g

/-- The sum before a division does not wrap when there is room for a whole unit. -/
theorem add_sub_one_toNat {x g : Size} (hg : g ≠ 0) (hx : x.toNat + g.toNat ≤ 2 ^ 64) :
    (x + g - 1).toNat = x.toNat + g.toNat - 1 := by
  have hpos := toNat_pos hg
  rw [BitVec.toNat_sub, BitVec.toNat_add]
  simp
  omega

/-- Rounding up does what it says if it does not wrap. -/
theorem rounded_of_le {x g : Size} (hg : g ≠ 0) (hx : x.toNat + g.toNat ≤ 2 ^ 64) :
    x.toNat ≤ (rounded x g).toNat ∧ (rounded x g).toNat % g.toNat = 0 := by
  have hpos := toNat_pos hg
  have hdiv := Nat.div_mul_le_self (x.toNat + g.toNat - 1) g.toNat
  have heq : (rounded x g).toNat = (x.toNat + g.toNat - 1) / g.toNat * g.toNat := by
    rw [rounded, BitVec.toNat_mul, BitVec.toNat_udiv, add_sub_one_toNat hg hx, Nat.mod_eq_of_lt (by omega)]
  have hlt := Nat.lt_div_mul_add hpos (a := x.toNat + g.toNat - 1)
  rw [heq]
  refine ⟨by omega, Nat.mul_mod_left _ _⟩

/-- If it wraps it gives no bytes. -/
theorem rounded_of_gt {x g : Size} (hx : 2 ^ 64 < x.toNat + g.toNat) : rounded x g = 0 := by
  have hxlt := x.isLt
  have hglt := g.isLt
  have hsum : (x + g - 1).toNat = x.toNat + g.toNat - 1 - 2 ^ 64 := by
    rw [BitVec.toNat_sub, BitVec.toNat_add]
    simp
    omega
  apply BitVec.eq_of_toNat_eq
  rw [rounded, BitVec.toNat_mul, BitVec.toNat_udiv, hsum, Nat.div_eq_of_lt (by omega)]
  simp

/-! ## alloc -/

/-- What a new chunk leads to. -/
theorem add_wp (size obj : Size) :
    wp (Heap.world works) (add size obj)
      (fun found a' h' => (found = none ∧ a' = a ∧ h' = h) ∨ ∃ c : Chunk, found = some c.ptr ∧ c.size = size ∧
        a' = created a c size obj ∧ ((size = 0 ∧ c.ptr = 0 ∧ h' = h) ∨
          (size ≠ 0 ∧ h.Fresh c.ptr size ∧ h' = { h with chunks := h.chunks.insert c.ptr size })))
      (fun _ a' h' => h' = h ∧ (a' = a ∨ a' = { a with dead := true })) a h := by
  unfold add
  rw [wp_bind, ask, wp_call]
  refine ⟨trivial, ?_⟩
  rintro ⟨s, c⟩ h' hans
  rcases hans with ⟨hne, rfl⟩ | ⟨hok, hsize, hnew⟩
  · by_cases hm : s = .noMemory
    · rw [if_pos hm]
      exact .inl ⟨rfl, rfl, rfl⟩
    · rw [if_neg hm, if_pos hne]
      refine ⟨rfl, ?_⟩
      split
      · exact .inr rfl
      · exact .inl rfl
  · dsimp only at hok
    subst hok
    rw [if_neg (by simp), if_neg (by simp)]
    exact .inr ⟨c, rfl, hsize, rfl, hnew⟩

/-- Taking a slot makes no call. -/
theorem takeSlot_wp {S : Type} {W : Prog.World BackendCall BackendCall.Answer S} {s : S} {E : Error → Allocator → S → Prop}
    {base : Ptr} {r : Region} {slot : BitVec 32} {rest : List (BitVec 32)} (hr : a.regions[base]? = some r) (hptr : r.c.ptr = base)
    (hfree : r.freeSlots = slot :: rest) (hlt : slot.toNat < r.busy.length) :
    wp W (takeSlot base r.obj) (fun p a' s' => p = slotAddr base r.obj slot ∧ a' = taken a base r slot ∧ s' = s) E a s := by
  have hback : backSlot r = pure slot := by
    unfold backSlot
    rw [hfree]
  unfold takeSlot regionAt
  rw [wp_bind, wp_bind, wp_get]
  simp only [hr, wp_pure]
  rw [hback, wp_bind, wp_pure, wp_bind]
  unfold setBusy
  rw [if_pos hlt]
  simp only [wp_pure, wp_bind, wp_modify, hptr]
  exact ⟨rfl, rfl, trivial⟩

/-- A slot of a slab that has one. -/
theorem takeSlot_step (hr : a.Sound h) (hd : a.dead = false) {base : Ptr} {r : Region} (hget : a.regions[base]? = some r)
    (hobj : r.obj ≠ 0) (hfree : r.freeSlots ≠ []) (hclass : a.cfg.Class r.obj)
    (hused : ∀ (b : Ptr) (r : Region), b ≠ base → a.regions[b]? = some r → r.obj ≠ 0 → r.used ≠ 0 ∧ a.cfg.Class r.obj) :
    wp (Heap.world works) (takeSlot base r.obj) (fun p a' h' => a'.cfg = a.cfg ∧ a'.dead = false ∧ a'.Ready h' ∧ p ≠ 0 ∧
      (∀ n : Size, ¬a.Holds p n) ∧ (∀ (q : Ptr) (n : Size), a'.Holds q n ↔ a.Holds q n ∨ (q = p ∧ n = r.obj)) ∧
      (a.regions[(0 : Ptr)]? = none → a'.regions[(0 : Ptr)]? = none)) (fun _ _ _ => False) a h := by
  obtain ⟨slot, rest, hcons⟩ := List.exists_cons_of_ne_nil hfree
  have hslab := (region_slab hr hget hobj).1
  have hslots := hslab.slots
  rw [hcons] at hslots
  have hlt := (List.getElem?_eq_some_iff.1 hslots.top).1
  refine wp_mono (takeSlot_wp hget (hr.base base r hget) hcons hlt) ?_ fun _ _ _ h => h
  rintro p a' h' ⟨rfl, rfl, rfl⟩
  obtain ⟨hcfg, hdead, hreg⟩ := taken_rest a base r slot
  obtain ⟨hsound, hused'⟩ := sound_taken hr hget hobj hcons
  obtain ⟨hnew, hholds⟩ := holds_taken hr hget hobj hcons
  have hbase := (region_slab hr hget hobj).2
  refine ⟨hcfg, hdead.trans hd, ⟨hsound, fun b q hq h0 => ?_⟩, ?_, hnew, hholds, fun h0 => ?_⟩
  · rw [hreg, OrdMap.getElem?_insert] at hq
    rw [hcfg]
    split at hq
    · cases hq
      exact ⟨hused', hclass⟩
    · exact hused b q ‹_› hq h0
  · intro h0
    have haddr := slotAddr_toNat (slot_lt hslab hslots.top) (region_end hr hget)
    have hpos := toNat_pos hbase
    rw [h0] at haddr
    simp at haddr
    omega
  · rw [hreg, OrdMap.getElem?_insert, if_neg (Ne.symm hbase)]
    exact h0

/-- An empty chunk has no slots. -/
theorem slotCount_zero (obj : Size) : slotCount 0 obj = 0 := by
  simp [slotCount]

/-- What a slot of a new slab leaves. -/
theorem takeSlot_created (hr : a.Ready h) (hd : a.dead = false) {c : Chunk} {obj : Size} (hf : h.Fresh c.ptr a.cfg.smallChunk)
    (hc : c.size = a.cfg.smallChunk) (hobj : obj ≠ 0) (hcount : slotCount a.cfg.smallChunk obj ≠ 0) (hclass : a.cfg.Class obj) :
    wp (Heap.world works) (takeSlot c.ptr obj) (fun p a' h' => a'.cfg = a.cfg ∧ a'.dead = false ∧ a'.Ready h' ∧ p ≠ 0 ∧
      (∀ n : Size, ¬a.Holds p n) ∧ (∀ (q : Ptr) (n : Size), a'.Holds q n ↔ a.Holds q n ∨ (q = p ∧ n = obj)) ∧
      (a.regions[(0 : Ptr)]? = none → a'.regions[(0 : Ptr)]? = none)) (fun _ _ _ => False)
      (created a c a.cfg.smallChunk obj) { h with chunks := h.chunks.insert c.ptr a.cfg.smallChunk } := by
  have hsize : a.cfg.smallChunk ≠ 0 := by
    intro h0
    rw [h0] at hcount
    exact hcount (slotCount_zero obj)
  obtain ⟨hsound, hreg⟩ := sound_created hr.sound obj hf hsize hc fun _ => ⟨rfl, hcount⟩
  obtain ⟨hcfg, hdead⟩ := created_rest a c a.cfg.smallChunk obj
  have hget : (created a c a.cfg.smallChunk obj).regions[c.ptr]? = some (newRegion c a.cfg.smallChunk obj) := by
    rw [hreg, OrdMap.getElem?_insert, if_pos rfl]
  have hrobj := newRegion_obj c a.cfg.smallChunk obj
  have hfree : (newRegion c a.cfg.smallChunk obj).freeSlots ≠ [] := by
    rw [(newRegion_slab hobj hc).2.1, ne_eq, Slots.fresh_eq_nil]
    exact hcount
  have hholds (q : Ptr) (n : Size) : (created a c a.cfg.smallChunk obj).Holds q n ↔ a.Holds q n := by
    rw [holds_created (region_of_fresh hr.sound hf hsize).2 hreg]
    exact or_iff_left fun h => hobj h.1
  have hused (b : Ptr) (r : Region) (hb : b ≠ c.ptr) (hq : (created a c a.cfg.smallChunk obj).regions[b]? = some r) :
      r.obj ≠ 0 → r.used ≠ 0 ∧ (created a c a.cfg.smallChunk obj).cfg.Class r.obj := by
    rw [hreg, OrdMap.getElem?_insert, if_neg hb] at hq
    rw [hcfg]
    exact hr.used b r hq
  have htake : wp (Heap.world works) _ _ _ _ _ :=
    takeSlot_step hsound (hdead.trans hd) hget (by rwa [hrobj]) hfree (by rwa [hrobj, hcfg]) hused
  rw [hrobj] at htake
  refine wp_mono htake ?_ fun _ _ _ h => h
  rintro p a' h' ⟨hcfg', hdead', hready, hp, hnew, hholds', hzero⟩
  refine ⟨hcfg'.trans hcfg, hdead', hready, hp, fun n => ?_, fun q n => ?_, fun h0 => hzero ?_⟩
  · rw [← hholds]
    exact hnew n
  · rw [hholds', hholds]
  · rw [hreg, OrdMap.getElem?_insert, if_neg (Ne.symm hf.1)]
    exact h0

/-- An allocation in a slab takes a free slot of its class, in an old slab or a new one. -/
theorem allocSmall_wp (hr : a.Ready h) (hd : a.dead = false) {bytes : Size} (h0 : bytes ≠ 0) (hsmall : bytes ≤ a.cfg.smallMax)
    (hadm : a.Admits (.alloc bytes)) :
    wp (Heap.world works) (allocSmall bytes) (fun p a' h' => a'.dead = false ∧ Left a h (.alloc bytes) (.ok p) a' h')
      (fun e => Left a h (.alloc bytes) (.error e)) a h := by
  obtain ⟨hrep, hcount⟩ := hadm h0 hsmall
  obtain ⟨hle, hobj⟩ := sizeClass_le hrep
  unfold allocSmall
  rw [wp_bind, wp_get, wp_bind]
  unfold bitCeil
  rw [if_pos hrep, wp_pure]
  show wp _ (_ >>= _) _ _ a h
  have hclass : BitVec.ofNat 64 (2 ^ Nat.clog 2 (maxSize bytes a.cfg.minObj).toNat) = a.cfg.sizeClass bytes := rfl
  rw [hclass]
  cases hmin : (a.part (a.cfg.sizeClass bytes)).min? with
  | some base =>
    obtain ⟨r, hget, hrobj, hr0, hfree⟩ := (hr.sound.partials _ base).1 (OrdMap.mem_of_min? hmin)
    dsimp only
    rw [wp_bind, wp_pure]
    dsimp only
    rw [← hrobj]
    have hclass : a.cfg.Class r.obj := ⟨bytes, h0, hsmall, hrobj.symm⟩
    refine wp_mono (takeSlot_step hr.sound hd hget hr0 hfree hclass fun b r _ => hr.used b r) ?_ fun _ _ _ h => h.elim
    rintro p a' h' ⟨hcfg, hdead, hready, hp, hnew, hholds, hzero⟩
    exact ⟨hdead, hcfg, .inr ⟨hdead, hready, .inr ⟨hp, r.obj, hrobj ▸ hle, hnew, hholds⟩, fun _ => hzero⟩⟩
  | none =>
    dsimp only
    rw [wp_bind]
    refine wp_mono (add_wp _ _) ?_ ?_
    · rintro found a₁ h₁ (⟨rfl, rfl, rfl⟩ | ⟨c, rfl, hc, rfl, hnew⟩)
      · exact ⟨hd, rfl, .inr ⟨hd, hr, .inl ⟨rfl, fun _ _ => Iff.rfl⟩, fun _ h => h⟩⟩
      · rcases hnew with ⟨h0, -⟩ | ⟨-, hf, rfl⟩
        · rw [h0, slotCount_zero] at hcount
          exact absurd rfl hcount
        · refine wp_mono (takeSlot_created hr hd hf hc hobj hcount ⟨bytes, h0, hsmall, rfl⟩) ?_ fun _ _ _ h => h.elim
          rintro p a' h' ⟨hcfg, hdead, hready, hp, hnew, hholds, hzero⟩
          exact ⟨hdead, hcfg, .inr ⟨hdead, hready, .inr ⟨hp, _, hle, hnew, hholds⟩, fun _ => hzero⟩⟩
    · rintro e a₁ h₁ ⟨rfl, rfl | rfl⟩
      · exact ⟨rfl, .inr ⟨hd, hr, fun _ _ => Iff.rfl, fun _ h => h⟩⟩
      · exact ⟨rfl, .inl rfl⟩

/-- A chunk for one object joins the regions. -/
theorem ready_created (hr : a.Ready h) {c : Chunk} {size : Size} (hf : h.Fresh c.ptr size) (hsize : size ≠ 0)
    (hc : c.size = size) : (created a c size 0).Ready { h with chunks := h.chunks.insert c.ptr size } := by
  obtain ⟨hsound, hreg⟩ := sound_created hr.sound 0 hf hsize hc fun h0 => absurd rfl h0
  refine ⟨hsound, fun b r hq h0 => ?_⟩
  rw [hreg, OrdMap.getElem?_insert] at hq
  rw [(created_rest a c size 0).1]
  split at hq
  · cases hq
    exact absurd (newRegion_obj c size 0) h0
  · exact hr.used b r hq h0

/-- The empty chunk, at the null pointer, holds no object. -/
theorem ready_null (hr : a.Ready h) {c : Chunk} (hptr : c.ptr = 0) (hc : c.size = 0) :
    (created a c 0 0).Ready h ∧ ∀ (q : Ptr) (n : Size), (created a c 0 0).Holds q n ↔ a.Holds q n := by
  obtain ⟨hsound, hsame⟩ := sound_null hr.sound hptr hc
  -- the region at the null address is no object
  have hnull {a : Allocator} (hs : a.Sound h) {r : Region} (hq : a.regions[(0 : Ptr)]? = some r) : r.obj = 0 := by
    rcases hs.chunk 0 r hq with hlive | ⟨-, -, h0⟩
    · exact absurd rfl (hs.heap.chunk 0 _ hlive).1
    · exact h0
  refine ⟨⟨hsound, fun b r hq h0 => ?_⟩, fun q n => exists_congr fun b => ?_⟩
  · by_cases hb : b = 0
    · subst hb
      exact absurd (hnull hsound hq) h0
    · rw [hsame b hb] at hq
      rw [(created_rest a c 0 0).1]
      exact hr.used b r hq h0
  · by_cases hb : b = 0
    · subst hb
      have hno {a : Allocator} (hs : a.Sound h) : ¬∃ r : Region, a.regions[(0 : Ptr)]? = some r ∧ r.Holds 0 q n := by
        rintro ⟨r, hq, hh | hh⟩
        · exact hh.1 (hnull hs hq)
        · exact hh.2.1 rfl
      exact iff_of_false (hno hsound) (hno hr.sound)
    · rw [hsame b hb]

/-- An allocation of a chunk of its own has a size that the backend rounded up. -/
theorem allocLarge_wp (hr : a.Ready h) (hd : a.dead = false) {bytes : Size} (hlarge : bytes > a.cfg.smallMax) :
    wp (Heap.world works) (allocLarge bytes) (fun p a' h' => a'.dead = false ∧ Left a h (.alloc bytes) (.ok p) a' h')
      (fun e => Left a h (.alloc bytes) (.error e)) a h := by
  unfold allocLarge roundUp
  rw [wp_bind, wp_bind, ask, wp_call]
  refine ⟨trivial, ?_⟩
  rintro g h₁ ⟨rfl, rfl⟩
  rw [wp_pure, wp_bind]
  have hrounded : (bytes + h₁.gran - 1) / h₁.gran * h₁.gran = rounded bytes h₁.gran := rfl
  rw [hrounded]
  refine wp_mono (add_wp _ _) ?_ ?_
  · rintro found a₁ h₂ (⟨rfl, rfl, rfl⟩ | ⟨c, rfl, hc, rfl, hnew⟩)
    · exact ⟨hd, rfl, .inr ⟨hd, hr, .inl ⟨rfl, fun _ _ => Iff.rfl⟩, fun _ h => h⟩⟩
    · obtain ⟨hcfg, hdead⟩ := created_rest a c (rounded bytes h₁.gran) 0
      have hat {r : Region} (hget : (created a c (rounded bytes h₁.gran) 0).regions[c.ptr]? = some r) (hptr : r.c.ptr = c.ptr)
          (hleft : (created a c (rounded bytes h₁.gran) 0).dead = false ∧
            Left a h₁ (.alloc bytes) (.ok c.ptr) (created a c (rounded bytes h₁.gran) 0) h₂) :
          wp (Heap.world works) (do
            let r ← regionAt c.ptr
            pure r.c.ptr) (fun p a' h' => a'.dead = false ∧ Left a h₁ (.alloc bytes) (.ok p) a' h')
            (fun e => Left a h₁ (.alloc bytes) (.error e)) (created a c (rounded bytes h₁.gran) 0) h₂ := by
        unfold regionAt
        rw [wp_bind, wp_bind, wp_get]
        simp only [hget, wp_pure, hptr]
        exact hleft
      rcases hnew with ⟨h0, hnull, rfl⟩ | ⟨hsize, hf, rfl⟩
      · rw [h0] at hat hcfg hdead hc ⊢
        obtain ⟨hready, hholds⟩ := ready_null hr hnull hc
        obtain ⟨r, hget⟩ := Option.ne_none_iff_exists'.1 (created_get a c 0 0)
        refine hat hget (hready.sound.base _ r hget)
          ⟨hdead.trans hd, hcfg, .inr ⟨hdead.trans hd, hready, .inl ⟨hnull, hholds⟩, fun hw => ?_⟩⟩
        have hle := (rounded_of_le h₂.pos (hw hlarge)).1
        have hzero : (rounded bytes h₂.gran).toNat = 0 := by
          rw [h0]
          rfl
        have hlt : a.cfg.smallMax.toNat < bytes.toNat := hlarge
        omega
      · have hready := ready_created hr hf hsize hc
        obtain ⟨-, hnone⟩ := region_of_fresh hr.sound hf hsize
        have hreg := (sound_created hr.sound 0 hf hsize hc fun h0 => absurd rfl h0).2
        have hget : (created a c (rounded bytes h₁.gran) 0).regions[c.ptr]? = some (newRegion c (rounded bytes h₁.gran) 0) := by
          rw [hreg, OrdMap.getElem?_insert, if_pos rfl]
        refine hat hget (by rw [newRegion_c]) ⟨hdead.trans hd, hcfg, .inr ⟨hdead.trans hd, hready, .inr ⟨hf.1, rounded bytes h₁.gran, ?_,
          not_holds_fresh hr.sound hf hsize, fun q n => ?_⟩, fun _ h0 => ?_⟩⟩
        · by_contra hlt
          refine hsize (rounded_of_gt ?_)
          by_contra hle
          exact hlt (rounded_of_le h₁.pos (by omega)).1
        · rw [holds_created hnone hreg, hc]
          exact or_congr Iff.rfl ⟨fun hh => hh.2.2, fun hh => ⟨rfl, hf.1, hh⟩⟩
        · rw [hreg, OrdMap.getElem?_insert, if_neg (Ne.symm hf.1)]
          exact h0
  · rintro e a₁ h₁ ⟨rfl, rfl | rfl⟩
    · exact ⟨rfl, .inr ⟨hd, hr, fun _ _ => Iff.rfl, fun _ h => h⟩⟩
    · exact ⟨rfl, .inl rfl⟩

/-- The check at the start of a call passes on a live allocator. -/
theorem live_wp {S : Type} {W : Prog.World BackendCall BackendCall.Answer S} {α : Type} {x : AllocatorM α}
    {Q : α → Allocator → S → Prop} {E : Error → Allocator → S → Prop} {s : S} (hd : a.dead = false) :
    wp W (do live; x) Q E a s ↔ wp W x Q E a s := by
  unfold live
  rw [wp_bind, wp_bind, wp_get, if_neg (by simp [hd])]
  exact Iff.rfl

/-- What `alloc` leaves behind, returned or thrown. -/
theorem alloc_wp (hr : a.Ready h) (hd : a.dead = false) {bytes : Size} (hadm : a.Admits (.alloc bytes)) :
    wp (Heap.world works) (alloc bytes) (fun p a' h' => a'.dead = false ∧ Left a h (.alloc bytes) (.ok p) a' h')
      (fun e => Left a h (.alloc bytes) (.error e)) a h := by
  unfold alloc
  rw [live_wp hd]
  by_cases h0 : bytes = 0
  · rw [if_pos h0]
    exact ⟨hd, rfl, .inr ⟨hd, hr, .inl ⟨rfl, fun _ _ => Iff.rfl⟩, fun _ h => h⟩⟩
  · rw [if_neg h0, wp_bind, wp_get]
    split
    · exact allocLarge_wp hr hd ‹_›
    · have hsmall : bytes ≤ a.cfg.smallMax := BitVec.not_lt.1 ‹_›
      exact allocSmall_wp hr hd h0 hsmall hadm

/-! ## free -/

/-- A chunk goes back, or the allocator is dead, and only if the context does not work. -/
theorem release_wp (base : Ptr) (c : Chunk) :
    wp (Heap.world works) (release base c)
      (fun _ a' h' => a' = { a with regions := a.regions.erase base } ∧ h' = { h with chunks := h.chunks.erase c.ptr })
      (fun _ a' _ => works = false ∧ a'.dead = true ∧ a'.cfg = a.cfg) a h := by
  unfold release sync
  rw [wp_bind, wp_bind, ask, wp_call]
  refine ⟨trivial, ?_⟩
  rintro e h₁ ⟨hworks, rfl⟩
  cases e with
  | some e =>
    refine ⟨?_, rfl, rfl⟩
    cases works with
    | false => rfl
    | true => cases hworks rfl
  | none =>
    rw [wp_pure, wp_bind, ask, wp_call]
    refine ⟨trivial, ?_⟩
    rintro ⟨s, c'⟩ h' (⟨hok, rfl⟩ | ⟨hworks, hfatal, rfl⟩)
    · dsimp only at hok
      subst hok
      rw [wp_bind, wp_modify, if_neg (by simp)]
      exact ⟨rfl, rfl⟩
    · dsimp only at hfatal
      subst hfatal
      rw [wp_bind, wp_modify, if_pos (by simp)]
      exact ⟨hworks, rfl, rfl⟩

/-- The slot of a freed address: refused if it is none or not busy, and given back otherwise. -/
theorem freeSlot_wp {S : Type} {W : Prog.World BackendCall BackendCall.Answer S} {s : S} {base p : Ptr} {r : Region}
    (hadm : (p - base) % r.obj = 0 → (slotOf base r p).toNat < r.busy.length) :
    wp W (freeSlot base r p)
      (fun gone a' s' => s' = s ∧ (p - base) % r.obj = 0 ∧ r.busy[(slotOf base r p).toNat]? = some true ∧
        if r.used - 1 = 0 then gone = true ∧ a' = (a.setRegion base (givenRegion r (slotOf base r p))).erasePartial r.obj base
        else gone = false ∧ a' = (a.setRegion base (givenRegion r (slotOf base r p))).insertPartial r.obj base)
      (fun e a' s' => e.status = .unsupported ∧ a' = a ∧ s' = s ∧
        ¬((p - base) % r.obj = 0 ∧ r.busy[(slotOf base r p).toNat]? = some true)) a s := by
  unfold freeSlot
  by_cases hmod : (p - base) % r.obj = 0
  · have hlt := hadm hmod
    have hget := List.getElem?_eq_getElem hlt
    rw [if_neg (by simpa using hmod), wp_bind]
    unfold busyAt
    rw [hget]
    dsimp only
    rw [wp_pure]
    cases hbusy : r.busy[(slotOf base r p).toNat] with
    | false =>
      exact ⟨rfl, rfl, rfl, fun hh => by cases hh.2⟩
    | true =>
      rw [hbusy] at hget
      rw [if_neg (by simp), wp_bind]
      unfold setBusy
      rw [if_pos hlt, wp_pure, wp_bind, wp_modify]
      dsimp only
      by_cases hlast : r.used - 1 = 0
      · rw [if_neg (by simpa using hlast), wp_bind, wp_modify, wp_pure, if_pos hlast]
        exact ⟨rfl, hmod, rfl, rfl, rfl⟩
      · rw [if_pos hlast, wp_bind, wp_modify, wp_pure, if_neg hlast]
        exact ⟨rfl, hmod, rfl, rfl, rfl⟩
  · rw [if_pos hmod]
    exact ⟨rfl, rfl, rfl, fun hh => hmod hh.1⟩

/-- A chunk that the allocator has no object in any more is released. -/
theorem ready_released (hr : a.Ready h) {base : Ptr} {part : OrdMap Size (OrdMap Ptr Unit)}
    (hpart : ∀ (obj : Size) (b : Ptr), b ∈ part.getD obj ∅ ↔ b ∈ a.part obj ∧ b ≠ base) :
    ({ a with regions := a.regions.erase base, partials := part } : Allocator).Ready { h with chunks := h.chunks.erase base } := by
  refine ⟨sound_released hr.sound rfl rfl hpart, fun b r hq h0 => ?_⟩
  have hq : (a.regions.erase base)[b]? = some r := hq
  rw [OrdMap.getElem?_erase] at hq
  split at hq
  · cases hq
  · exact hr.used b r hq h0

/-- The slot of an object's address. -/
theorem slot_of_holds (hs : a.Sound h) {base p : Ptr} {r : Region} {n : Size} (hr : a.regions[base]? = some r)
    (hobj : r.obj ≠ 0) (hl : a.lookup p = some (base, r)) (hh : a.Holds p n) :
    (p - base) % r.obj = 0 ∧ r.busy[(slotOf base r p).toNat]? = some true := by
  obtain ⟨base', r', hr', hh⟩ := hh
  have heq := (lookup_of_holds hs hr' hh).symm.trans hl
  cases heq
  rcases hh with ⟨-, -, slot, hbusy, rfl⟩ | ⟨h0, -⟩
  · obtain ⟨hmod, hslot⟩ := slotOf_slotAddr hobj (slot_lt (region_slab hs hr hobj).1 hbusy) (region_end hs hr)
    rw [hslot]
    exact ⟨hmod, hbusy⟩
  · exact absurd h0 hobj

/-- What a call of `free` that throws leaves: with a context that does not work a dead allocator; otherwise nothing changed, and there
was no object. -/
def Refused (works : Bool) (a : Allocator) (h : Heap) (p : Ptr) (e : Error) (a' : Allocator) (h' : Heap) : Prop :=
  (works = false ∧ a'.dead = true ∧ a'.cfg = a.cfg) ∨
    (e.status = .unsupported ∧ a' = a ∧ h' = h ∧ p ≠ 0 ∧ ∀ n : Size, ¬a.Holds p n)

/-- Freeing in a slab gives the slot back, and the chunk with its last object. -/
theorem freeSlab_wp (hr : a.Ready h) (hd : a.dead = false) {base p : Ptr} {r : Region} (h0 : p ≠ 0)
    (hl : a.lookup p = some (base, r)) (hobj : r.obj ≠ 0)
    (hadm : (p - base) % r.obj = 0 → (slotOf base r p).toNat < r.busy.length) :
    wp (Heap.world works) (do
      let gone ← freeSlot base r p
      if gone then release base r.c else pure ()) (fun r a' h' => a'.dead = false ∧ Left a h (.free p) (.ok r) a' h')
      (Refused works a h p) a h := by
  obtain ⟨hget, hle, hin⟩ := (lookup_eq_some_iff hr.sound).1 hl
  rw [wp_bind]
  refine wp_mono (freeSlot_wp hadm) ?_ ?_
  · rintro gone a₁ h₁ ⟨rfl, hmod, hbusy, hrest⟩
    have hbase := (region_slab hr.sound hget hobj).2
    have hheld : a.Holds (slotAddr base r.obj (slotOf base r p)) r.obj := ⟨base, r, hget, .inl ⟨hobj, rfl, _, hbusy, rfl⟩⟩
    have hexact (hx : a.Exact p) : slotAddr base r.obj (slotOf base r p) = p := by
      have hlt := hx base r hl hobj
      rw [BitVec.toNat_udiv, offset_toNat hle] at hlt
      exact slotAddr_slotOf hle hmod hlt
    split at hrest
    · obtain ⟨rfl, rfl⟩ := hrest
      have hlast : r.used - 1 = 0 := ‹_›
      rw [if_pos rfl]
      refine wp_mono (release_wp _ _) ?_ fun _ _ _ h => .inl h
      rintro _ a' h' ⟨rfl, rfl⟩
      rw [hr.sound.base base r hget]
      have hreg : (((a.setRegion base (givenRegion r (slotOf base r p))).erasePartial r.obj base).regions.erase base) =
          a.regions.erase base := OrdMap.erase_insert_self _ _ _
      refine ⟨hd, rfl, .inr ⟨hd, ?_, .inr ⟨h0, _, _, hheld, hexact, fun q n => ?_⟩, fun hw hz => ?_⟩⟩
      · rw [hreg]
        refine ready_released hr fun obj b => ?_
        rw [← partials_last hr.sound hget]
        exact mem_part_erasePartial a r.obj obj base b
      · exact holds_last hr.sound hget hobj hbusy hlast hreg q n
      · show (((a.setRegion base (givenRegion r (slotOf base r p))).erasePartial r.obj base).regions.erase base)[(0 : Ptr)]? = none
        rw [hreg, OrdMap.getElem?_erase, if_neg (Ne.symm hbase)]
        exact hz
    · obtain ⟨rfl, rfl⟩ := hrest
      have hreg : ((a.setRegion base (givenRegion r (slotOf base r p))).insertPartial r.obj base).regions =
          a.regions.insert base (givenRegion r (slotOf base r p)) := rfl
      rw [if_neg (by simp)]
      refine ⟨hd, rfl, .inr ⟨hd, ⟨sound_given hr.sound hget hobj hbusy, fun b q hq hq0 => ?_⟩,
        .inr ⟨h0, _, _, hheld, hexact, holds_given hr.sound hget hobj hbusy hreg⟩, fun hw hz => ?_⟩⟩
      · rw [hreg, OrdMap.getElem?_insert] at hq
        split at hq
        · cases hq
          exact ⟨‹¬r.used - 1 = 0›, (hr.used base r hget hobj).2⟩
        · exact hr.used b q hq hq0
      · rw [hreg, OrdMap.getElem?_insert, if_neg (Ne.symm hbase)]
        exact hz
  · rintro e a' h' ⟨hs, rfl, rfl, hno⟩
    exact .inr ⟨hs, rfl, rfl, h0, fun n hh => hno (slot_of_holds hr.sound hget hobj hl hh)⟩

/-- Freeing a chunk of one object gives it back. -/
theorem freeLarge_wp (hr : a.Ready h) (hd : a.dead = false) {p : Ptr} {r : Region} (h0 : p ≠ 0)
    (hget : a.regions[p]? = some r) (hobj : r.obj = 0) :
    wp (Heap.world works) (release p r.c) (fun r a' h' => a'.dead = false ∧ Left a h (.free p) (.ok r) a' h')
      (Refused works a h p) a h := by
  refine wp_mono (release_wp _ _) ?_ fun _ _ _ h => .inl h
  rintro _ a' h' ⟨rfl, rfl⟩
  rw [hr.sound.base p r hget]
  have hholds : r.Holds p p r.c.size := .inr ⟨hobj, h0, rfl, rfl⟩
  have hno (obj : Size) : p ∉ a.part obj := by
    rw [hr.sound.partials]
    rintro ⟨r', hr', rfl, hne, -⟩
    rw [hget] at hr'
    cases hr'
    exact hne hobj
  refine ⟨hd, rfl, .inr ⟨hd, ready_released hr fun obj b => ?_, .inr ⟨h0, p, r.c.size, ⟨p, r, hget, hholds⟩, fun _ => rfl,
    fun q n => ?_⟩, fun _ hz => ?_⟩⟩
  · refine ⟨fun hb => ⟨hb, ?_⟩, And.left⟩
    rintro rfl
    exact hno obj hb
  · rw [holds_erase (a := a) rfl, holds_split hget]
    have hbase : r.Holds p q n → q = p := by
      rintro (⟨hne, -⟩ | ⟨-, -, rfl, -⟩)
      · exact absurd hobj hne
      · rfl
    constructor
    · rintro ⟨b, r', hb, hr', hh⟩
      refine ⟨.inr ⟨b, r', hb, hr', hh⟩, ?_⟩
      rintro rfl
      exact hb (region_unique hr.sound hr' hh hget hholds).1
    · rintro ⟨hh | hh, hne⟩
      · exact absurd (hbase hh) hne
      · exact hh
  · show (a.regions.erase p)[(0 : Ptr)]? = none
    rw [OrdMap.getElem?_erase, if_neg (Ne.symm h0)]
    exact hz

/-- What `free` leaves behind, returned or thrown. -/
theorem free_wp (hr : a.Ready h) (hd : a.dead = false) {p : Ptr} (hadm : a.Admits (.free p)) :
    wp (Heap.world works) (free p) (fun r a' h' => a'.dead = false ∧ Left a h (.free p) (.ok r) a' h') (Refused works a h p) a h := by
  unfold free
  by_cases h0 : p = 0
  · rw [if_pos h0]
    exact ⟨hd, rfl, .inr ⟨hd, hr, .inl ⟨h0, rfl⟩, fun _ h => h⟩⟩
  · rw [if_neg h0, live_wp hd, wp_bind]
    unfold find
    rw [wp_bind, wp_get]
    cases hl : a.lookup p with
    | none =>
      refine .inr ⟨rfl, rfl, rfl, h0, fun n hh => ?_⟩
      obtain ⟨base, r, hget, hh⟩ := hh
      rw [lookup_of_holds hr.sound hget hh] at hl
      cases hl
    | some x =>
      obtain ⟨base, r⟩ := x
      dsimp only
      rw [wp_pure]
      dsimp only
      by_cases hobj : r.obj = 0
      · rw [if_neg (by simpa using hobj)]
        by_cases hp : p = base
        · subst hp
          rw [if_neg (by simp)]
          exact freeLarge_wp hr hd h0 ((lookup_eq_some_iff hr.sound).1 hl).1 hobj
        · rw [if_pos hp]
          refine .inr ⟨rfl, rfl, rfl, h0, fun n hh => ?_⟩
          obtain ⟨base', r', hr', hh⟩ := hh
          have heq := (lookup_of_holds hr.sound hr' hh).symm.trans hl
          cases heq
          rcases hh with ⟨hne, -⟩ | ⟨-, -, heq, -⟩
          · exact hne hobj
          · exact hp heq
      · rw [if_pos hobj]
        exact freeSlab_wp hr hd h0 hl hobj fun hmod => hadm base r hl hobj hmod

/-! ## The other calls -/

/-- A hint changes where a chunk is, and no object. -/
theorem ready_moved (hr : a.Ready h) {base : Ptr} {r : Region} {c : Chunk} (hget : a.regions[base]? = some r) (hobj : r.obj = 0)
    (hptr : c.ptr = r.c.ptr) (hsize : c.size = r.c.size) : (a.setRegion base { r with c := c }).Ready h ∧
      ∀ (q : Ptr) (n : Size), (a.setRegion base { r with c := c }).Holds q n ↔ a.Holds q n := by
  have hreg : (a.setRegion base { r with c := c }).regions = a.regions.insert base { r with c := c } := rfl
  refine ⟨⟨sound_replaced hr.sound hget hreg rfl hptr hsize rfl (fun h0 => absurd hobj h0) fun obj b => ?_, fun b q hq h0 => ?_⟩,
    fun q n => ?_⟩
  · rw [part_setRegion]
    split
    · subst b
      rw [hr.sound.partials]
      constructor
      · rintro ⟨r', hr', rfl, h0, hfree⟩
        rw [hget] at hr'
        cases hr'
        exact absurd hobj h0
      · rintro ⟨-, h0, -⟩
        exact absurd hobj h0
    · rfl
  · rw [hreg, OrdMap.getElem?_insert] at hq
    split at hq
    · cases hq
      exact absurd hobj h0
    · exact hr.used b q hq h0
  · rw [holds_insert hreg, holds_split hget]
    unfold Region.Holds
    rw [hsize]

/-- A hint leaves every object where it is. -/
theorem move_step (hr : a.Ready h) (hd : a.dead = false) (p : Ptr) (target : Loc) :
    wp (Heap.world works) (Allocator.move p target) (fun _ a' h' => a'.cfg = a.cfg ∧ (a'.dead = true ∨
      (a'.dead = false ∧ a'.Ready h' ∧ (∀ (q : Ptr) (n : Size), a'.Holds q n ↔ a.Holds q n) ∧
        (a.regions[(0 : Ptr)]? = none → a'.regions[(0 : Ptr)]? = none)))) (fun _ _ _ => False) a h := by
  have hsame : a.cfg = a.cfg ∧ (a.dead = true ∨ (a.dead = false ∧ a.Ready h ∧ (∀ (q : Ptr) (n : Size), a.Holds q n ↔ a.Holds q n) ∧
      (a.regions[(0 : Ptr)]? = none → a.regions[(0 : Ptr)]? = none))) := ⟨rfl, .inr ⟨hd, hr, fun _ _ => Iff.rfl, fun h => h⟩⟩
  unfold Allocator.move
  rw [wp_bind, wp_get, if_neg (by simp [hd])]
  cases hl : a.lookup p with
  | none => exact hsame
  | some x =>
    obtain ⟨base, r⟩ := x
    have hget := ((lookup_eq_some_iff hr.sound).1 hl).1
    dsimp only
    by_cases hobj : r.obj = 0
    · rw [if_neg (by simpa using hobj), wp_bind, ask, wp_call]
      refine ⟨trivial, ?_⟩
      rintro can h' ⟨rfl, rfl⟩
      split
      · exact hsame
      · split
        · exact hsame
        · rw [wp_bind, wp_tryCatch, wp_bind]
          unfold sync
          rw [wp_bind, ask, wp_call]
          refine ⟨trivial, ?_⟩
          rintro e h' ⟨-, rfl⟩
          cases e with
          | some e => exact ⟨rfl, .inl rfl⟩
          | none =>
            dsimp only
            rw [wp_pure, wp_pure]
            dsimp only
            rw [wp_bind, ask, wp_call]
            refine ⟨trivial, ?_⟩
            rintro ⟨s, c⟩ h' ⟨hptr, hsize, rfl⟩
            obtain ⟨hready, hholds⟩ := ready_moved hr hget hobj hptr hsize
            rw [wp_bind, wp_modify]
            by_cases hs : s = .fatal
            · rw [if_pos hs]
              exact ⟨rfl, .inl rfl⟩
            · rw [if_neg hs]
              refine ⟨rfl, .inr ⟨hd, hready, hholds, fun hz => ?_⟩⟩
              show (a.regions.insert base { r with c := c })[(0 : Ptr)]? = none
              rw [OrdMap.getElem?_insert]
              split
              · subst base
                rw [hget] at hz
                cases hz
              · exact hz
    · rw [if_pos hobj]
      exact hsame

end PoolsAux

end Vmem
