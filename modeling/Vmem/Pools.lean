import Vmem.App

/-!
# Objects of the pools

What an allocator holds for its app, an object in a slot of a slab or in a chunk of its own, and the conditions on a configuration and on
calls under which the pools do what they are for.
-/

namespace Vmem

/-! ## Objects -/

/-- The slots of `obj` bytes that the source counts in a chunk: the quotient, cut to 32 bits. -/
def slotCount (chunk obj : Size) : Nat := ((chunk / obj).setWidth 32).toNat

/-- The address of a slot. -/
def slotAddr (base obj : Size) (slot : BitVec 32) : Ptr := base + slot.setWidth 64 * obj

/-- The region at `base` has an object of `size` bytes at `p`: a busy slot, or all of a large chunk. -/
def Region.Holds (r : Region) (base p : Ptr) (size : Size) : Prop :=
  (r.obj ≠ 0 ∧ size = r.obj ∧ ∃ slot : BitVec 32, r.busy[slot.toNat]? = some true ∧ p = slotAddr base r.obj slot) ∨
    (r.obj = 0 ∧ base ≠ 0 ∧ p = base ∧ size = r.c.size)

/-- The allocator has an object of `size` bytes at `p`. -/
def Allocator.Holds (a : Allocator) (p : Ptr) (size : Size) : Prop :=
  ∃ (base : Ptr) (r : Region), a.regions[base]? = some r ∧ r.Holds base p size

/-! ## Size classes -/

/-- The size class of a small object. -/
def Config.sizeClass (cfg : Config) (bytes : Size) : Size :=
  BitVec.ofNat 64 (2 ^ Nat.clog 2 (Allocator.maxSize bytes cfg.minObj).toNat)

/-- Every size class fits in a chunk of the small pool, with fewer than 2³² slots. -/
def Config.Fits (cfg : Config) : Prop := ∀ bytes : Size, bytes ≠ 0 → bytes ≤ cfg.smallMax →
  (Allocator.maxSize bytes cfg.minObj).toNat ≤ 2 ^ 63 ∧ cfg.sizeClass bytes ≤ cfg.smallChunk ∧
    (cfg.smallChunk / cfg.sizeClass bytes).toNat < 2 ^ 32

/-- Every size class divides the chunk of the small pool, with fewer than 2³² slots. -/
def Config.Divides (cfg : Config) : Prop := ∀ bytes : Size, bytes ≠ 0 → bytes ≤ cfg.smallMax →
  (Allocator.maxSize bytes cfg.minObj).toNat ≤ 2 ^ 63 ∧ cfg.smallChunk % cfg.sizeClass bytes = 0 ∧
    (cfg.smallChunk / cfg.sizeClass bytes).toNat < 2 ^ 32

/-! ## Calls -/

/-- A call that stays inside the slabs: a small object has a size class and a slab of it has a slot, and a freed address at a slot
boundary of a slab is that of one of its slots. -/
def Allocator.Admits (a : Allocator) : AppCall → Prop
  | .alloc bytes => bytes ≠ 0 → bytes ≤ a.cfg.smallMax →
      (Allocator.maxSize bytes a.cfg.minObj).toNat ≤ 2 ^ 63 ∧ slotCount a.cfg.smallChunk (a.cfg.sizeClass bytes) ≠ 0
  | .free p => ∀ (base : Ptr) (r : Region), a.lookup p = some (base, r) → r.obj ≠ 0 → (p - base) % r.obj = 0 →
      (Allocator.slotOf base r p).toNat < r.busy.length
  | _ => True

/-- The address is a slot boundary in the part of a slab's chunk that is too small for a slot. -/
def Allocator.Tail (a : Allocator) (p : Ptr) : Prop := ∃ (base : Ptr) (r : Region), a.lookup p = some (base, r) ∧ r.obj ≠ 0 ∧
  (p - base) % r.obj = 0 ∧ (r.c.size / r.obj).toNat ≤ ((p - base) / r.obj).toNat

/-- The size classes fit, and no address in the tail of a slab is freed. -/
def Allocator.InSlots (a : Allocator) (c : AppCall) : Prop :=
  a.cfg.Fits ∧ ∀ p : Ptr, c = .free p → a.dead = false → ¬a.Tail p

/-- A call that asks for no size that wraps when it is rounded up. -/
def Heap.Whole (h : Heap) (cfg : Config) : AppCall → Prop
  | .alloc bytes => bytes > cfg.smallMax → bytes.toNat + h.gran.toNat ≤ 2 ^ 64
  | _ => True

instance (h : Heap) (cfg : Config) : (c : AppCall) → Decidable (h.Whole cfg c)
  | .alloc bytes => inferInstanceAs (Decidable (bytes > cfg.smallMax → bytes.toNat + h.gran.toNat ≤ 2 ^ 64))
  | .free _ => .isTrue trivial
  | .evict _ => .isTrue trivial
  | .prefetch _ => .isTrue trivial
  | .locate _ => .isTrue trivial
  | .used => .isTrue trivial
  | .usedAt _ => .isTrue trivial
  | .info => .isTrue trivial
  | .reconnect => .isTrue trivial

/-- Calls in slots whose sizes do not wrap. -/
def App.Orderly (x : App Heap) (c : AppCall) : Prop := x.a.InSlots c ∧ (x.a.dead = false → x.s.Whole x.a.cfg c)

/-- A heap whose chunks are only created in multiples of its granularity and with at least some bytes. -/
def Heap.sized (works : Bool) (bytes : Size) : Prog.World BackendCall BackendCall.Answer Heap where
  permits i h :=
    match i with
    | .create size => size.toNat % h.gran.toNat = 0 ∧ bytes.toNat ≤ size.toNat
    | i => Heap.permits i
  answers i h r h' := h.answers works i r h'

/-! ## Slabs -/

/-- The slabs of an app are reused before new ones are made, and go when they are empty. -/
structure App.SlabsReused (works : Bool) (x : App Heap) : Prop where
  /-- `partials` holds of each class the slabs with a free slot. -/
  partials (obj : Size) (base : Ptr) : base ∈ x.a.part obj ↔ ∃ r : Region, x.a.regions[base]? = some r ∧ r.obj = obj ∧ r.obj ≠ 0 ∧
    ∃ slot : BitVec 32, r.busy[slot.toNat]? = some false
  /-- The stack of a slab holds every free slot once, and `used` counts the busy ones, of which there is one. -/
  stack (base : Ptr) (r : Region) : x.a.regions[base]? = some r → r.obj ≠ 0 → r.freeSlots.Nodup ∧
    (∀ slot : BitVec 32, slot ∈ r.freeSlots ↔ r.busy[slot.toNat]? = some false) ∧ r.used.toNat = r.busy.count true ∧ 1 ≤ r.used.toNat
  /-- A small object makes no call at all when a slab of its class has a free slot. -/
  reuse (bytes : Size) (base : Ptr) (r : Region) (slot : BitVec 32) : bytes ≠ 0 → bytes ≤ x.a.cfg.smallMax →
    x.a.regions[base]? = some r → r.obj = x.a.cfg.sizeClass bytes → r.busy[slot.toNat]? = some false →
    ∀ {S : Type} (W : Prog.World BackendCall BackendCall.Answer S) (s : S),
      Throwing.wp W (Allocator.alloc bytes) (fun _ _ s' => s' = s) (fun _ _ _ => False) x.a s
  chunks : x.s.chunks = x.a.regions.map fun _ r => r.c.size
  /-- `info` counts the regions. -/
  info : Throwing.wp (Heap.world works) Allocator.info (fun i a' s' => a' = x.a ∧ s' = x.s ∧
    i.smallChunks = (x.a.regions.toList.countP fun e => decide (e.2.obj ≠ 0)) ∧
    i.largeChunks = (x.a.regions.toList.countP fun e => decide (e.2.obj = 0)) ∧
    i.bytes = OrdMap.total x.a.regions fun _ r => r.c.size) (fun _ _ _ => False) x.a x.s
  /-- `used` is the sum of the sizes of the chunks. -/
  used : Throwing.wp (Heap.world works) Allocator.used (fun n a' s' => a' = x.a ∧ s' = x.s ∧
    n = OrdMap.total x.a.regions fun _ r => r.c.size) (fun _ _ _ => False) x.a x.s
  /-- Without objects there are no regions. -/
  empty : x.objs = [] → x.a.regions = ∅ ∧ x.s.used = 0

end Vmem
