import Vmem.Lemmas.PoolCalls

/-!
# Runs on the pools

The invariant of an allocator and its objects over every run of an app (`reached_ready`, `reached_owned`), from what one call does.
-/

namespace Vmem

/-- The app holds exactly the objects of the allocator, each with at least the bytes it asked for. -/
structure Allocator.Owned (a : Allocator) (objs : List (Ptr × Size)) : Prop where
  nodup : (objs.map Prod.fst).Nodup
  held : ∀ (p : Ptr) (n : Size), (p, n) ∈ objs → ∃ size : Size, a.Holds p size ∧ n.toNat ≤ size.toNat
  live : ∀ (p : Ptr) (size : Size), a.Holds p size → ∃ n : Size, (p, n) ∈ objs

namespace PoolsAux

open Allocator Throwing

variable {a a' : Allocator} {h h' : Heap} {works : Bool}

/-! ## One call -/

/-- A heap answers every call it permits. -/
theorem exists_answer (i : BackendCall) (h : Heap) (hp : (Heap.world works).permits i h) :
    ∃ (r : i.Answer) (h' : Heap), (Heap.world works).answers i h r h' := by
  cases i with
  | make k => exact ⟨(), h, rfl⟩
  | openWith c => exact ⟨.ok, h, rfl⟩
  | close => exact ⟨(), h, rfl⟩
  | granularity => exact ⟨h.gran, h, rfl, rfl⟩
  | canMove => exact ⟨h.movable, h, rfl, rfl⟩
  | create size => exact ⟨(.noMemory, {}), h, .inl ⟨nofun, rfl⟩⟩
  | destroy c => exact ⟨(.ok, c), _, .inl ⟨rfl, rfl⟩⟩
  | move c target => exact ⟨(.ok, c), h, rfl, rfl, rfl⟩
  | link => exact ⟨Link.localMode, h, rfl⟩
  | reconnect => exact ⟨.ok, h, rfl⟩
  | used => exact ⟨h.used, h, rfl, rfl⟩
  | usedAt l => exact ⟨.ok 0, h, rfl⟩
  | synchronize => exact ⟨none, h, fun _ => rfl, rfl⟩
  | pastEnd slot => exact hp.elim
  | backOfEmpty => exact hp.elim
  | bitCeilOverflow x => exact ⟨x, h, rfl⟩
  | atFailed => exact hp.elim

/-- What a call leaves behind, returned or thrown. -/
theorem program_wp (hr : a.Ready h) (hd : a.dead = false) {c : AppCall} (hadm : a.Admits c) :
    wp (Heap.world works) c.program (fun r => Left a h c (.ok r)) (fun e => Left a h c (.error e)) a h := by
  cases c with
  | alloc bytes => exact wp_mono (alloc_wp hr hd hadm) (fun _ _ _ h => h.2) fun _ _ _ h => h
  | free p =>
    refine wp_mono (free_wp hr hd hadm) (fun _ _ _ h => h.2) ?_
    rintro e a' h' (⟨-, hdead, hcfg⟩ | ⟨-, rfl, rfl, -⟩)
    · exact ⟨hcfg, .inl hdead⟩
    · exact ⟨rfl, .inr ⟨hd, hr, fun _ _ => Iff.rfl, fun _ h => h⟩⟩
  | evict p =>
    refine wp_mono (move_step hr hd p .host) ?_ fun _ _ _ h => h.elim
    rintro s a' h' ⟨hcfg, hdead | ⟨hdead, hready, hholds, hz⟩⟩
    · exact ⟨hcfg, .inl hdead⟩
    · exact ⟨hcfg, .inr ⟨hdead, hready, hholds, fun _ => hz⟩⟩
  | prefetch p =>
    refine wp_mono (move_step hr hd p .device) ?_ fun _ _ _ h => h.elim
    rintro s a' h' ⟨hcfg, hdead | ⟨hdead, hready, hholds, hz⟩⟩
    · exact ⟨hcfg, .inl hdead⟩
    · exact ⟨hcfg, .inr ⟨hdead, hready, hholds, fun _ => hz⟩⟩
  | locate p =>
    show wp _ (find p "where" >>= _) _ _ a h
    unfold find
    rw [wp_bind, wp_bind, wp_get]
    cases a.lookup p with
    | none => exact ⟨rfl, .inr ⟨hd, hr, fun _ _ => Iff.rfl, fun _ h => h⟩⟩
    | some x => exact ⟨rfl, .inr ⟨hd, hr, fun _ _ => Iff.rfl, fun _ h => h⟩⟩
  | used =>
    refine ⟨trivial, ?_⟩
    rintro r h' ⟨-, rfl⟩
    exact ⟨rfl, .inr ⟨hd, hr, fun _ _ => Iff.rfl, fun _ h => h⟩⟩
  | usedAt l =>
    refine ⟨trivial, ?_⟩
    rintro r h' rfl
    cases r with
    | ok bytes => exact ⟨rfl, .inr ⟨hd, hr, fun _ _ => Iff.rfl, fun _ h => h⟩⟩
    | error s => exact ⟨rfl, .inr ⟨hd, hr, fun _ _ => Iff.rfl, fun _ h => h⟩⟩
  | info =>
    refine ⟨trivial, ?_⟩
    rintro l h' rfl
    refine ⟨trivial, ?_⟩
    rintro r h' ⟨-, rfl⟩
    exact ⟨rfl, .inr ⟨hd, hr, fun _ _ => Iff.rfl, fun _ h => h⟩⟩
  | reconnect =>
    refine ⟨trivial, ?_⟩
    rintro r h' rfl
    exact ⟨rfl, .inr ⟨hd, hr, fun _ _ => Iff.rfl, fun _ h => h⟩⟩

/-- A dead allocator stays dead. -/
theorem dead_wp (hd : a.dead = true) (c : AppCall) :
    wp (Heap.world works) c.program (fun _ a' _ => a' = a) (fun _ a' _ => a' = a) a h := by
  have hlive {α : Type} (y : AllocatorM α) : wp (Heap.world works) (do live; y) (fun _ a' _ => a' = a) (fun _ a' _ => a' = a) a h := by
    unfold live
    rw [wp_bind, wp_bind, wp_get, if_pos hd]
    rfl
  have hmove (p : Ptr) (target : Loc) :
      wp (Heap.world works) (Allocator.move p target) (fun _ a' _ => a' = a) (fun _ a' _ => a' = a) a h := by
    unfold Allocator.move
    rw [wp_bind, wp_get, if_pos hd]
    rfl
  cases c with
  | alloc bytes => exact hlive _
  | free p =>
    show wp _ (free p) _ _ a h
    unfold free
    split
    · rfl
    · exact hlive _
  | evict p => exact hmove p .host
  | prefetch p => exact hmove p .device
  | locate p =>
    show wp _ (find p "where" >>= _) _ _ a h
    unfold find
    rw [wp_bind, wp_bind, wp_get]
    cases a.lookup p with
    | none => rfl
    | some x => rfl
  | used => exact ⟨trivial, fun _ _ _ => rfl⟩
  | usedAt l =>
    refine ⟨trivial, ?_⟩
    rintro r h' -
    cases r with
    | ok bytes => rfl
    | error s => rfl
  | info => exact ⟨trivial, fun _ _ _ => ⟨trivial, fun _ _ _ => rfl⟩⟩
  | reconnect => exact ⟨trivial, fun _ _ _ => rfl⟩

/-! ## The start -/

/-- A new allocator has no region, and chunks that are not empty. -/
theorem construct_step (cfg : Config) (env : Env) :
    wp (Heap.world works) (construct cfg env) (fun _ a' h' => a'.dead = false ∧ a'.regions = ∅ ∧ a'.partials = ∅ ∧ h' = h ∧
      (a'.cfg.smallMax.toNat ≤ 2 ^ 63 → a'.cfg.smallChunk ≠ 0)) (fun _ _ _ => True) {} h := by
  unfold construct
  rw [wp_bind, wp_modify]
  cases envKind env cfg.backend with
  | error e => trivial
  | ok k =>
    dsimp only
    rw [wp_bind, ask, wp_call]
    refine ⟨trivial, ?_⟩
    rintro - h' rfl
    rw [wp_bind, ask, wp_call]
    refine ⟨trivial, ?_⟩
    rintro s h' rfl
    by_cases hs : s = .ok
    · rw [if_neg (by simpa using hs), wp_bind, roundUp, wp_bind, ask, wp_call]
      refine ⟨trivial, ?_⟩
      rintro g h' ⟨rfl, rfl⟩
      rw [wp_pure, wp_bind, wp_modify, wp_bind]
      unfold bitCeil
      split
      · have hrep : cfg.smallMax.toNat ≤ 2 ^ 63 := ‹_›
        rw [wp_pure]
        split
        · trivial
        · refine ⟨rfl, rfl, rfl, rfl, fun _ h0 => ?_⟩
          have h0 : (cfg.smallChunk + h'.gran - 1) / h'.gran * h'.gran = 0 := h0
          have hle : ¬BitVec.ofNat 64 (2 ^ Nat.clog 2 cfg.smallMax.toNat) >
            (cfg.smallChunk + h'.gran - 1) / h'.gran * h'.gran := ‹_›
          have hpos : 0 < 2 ^ Nat.clog 2 cfg.smallMax.toNat := Nat.pos_of_ne_zero (by simp)
          rw [h0, gt_iff_lt, BitVec.lt_def, BitVec.toNat_ofNat, Nat.mod_eq_of_lt (pow_clog_lt hrep)] at hle
          exact hle hpos
      · rw [ask, wp_call]
        refine ⟨trivial, ?_⟩
        rintro x h'' rfl
        split
        · trivial
        · exact ⟨rfl, rfl, rfl, rfl, fun hrep => absurd hrep ‹_›⟩
    · rw [if_pos hs]
      trivial

/-- An allocator without regions is ready for calls and holds nothing. -/
theorem ready_empty (hreg : a.regions = ∅) (hpart : a.partials = ∅) (hc : h.chunks = ∅) :
    a.Ready h ∧ ∀ (p : Ptr) (n : Size), ¬a.Holds p n := by
  have hnone (b : Ptr) : a.regions[b]? = none := by
    rw [hreg]
    rfl
  have hno {b : Ptr} {r : Region} (hr : a.regions[b]? = some r) : False := by
    rw [hnone] at hr
    cases hr
  have hchunk {b : Ptr} {n : Size} (hn : h.chunks[b]? = some n) : False := by
    rw [hc] at hn
    simp at hn
  refine ⟨⟨⟨⟨fun _ _ hn => (hchunk hn).elim, fun _ _ _ _ _ hn => (hchunk hn).elim⟩, fun _ _ hr => (hno hr).elim,
    fun _ _ hr => (hno hr).elim, fun _ _ hn => (hchunk hn).elim, fun _ _ hr => (hno hr).elim, fun obj b => ?_⟩,
    fun _ _ hr => (hno hr).elim⟩, fun p n => ?_⟩
  · have hempty : a.part obj = ∅ := by
      unfold part
      rw [hpart]
      rfl
    rw [hempty]
    constructor
    · intro hb
      simp at hb
    · rintro ⟨r, hr, -⟩
      exact (hno hr).elim
  · rintro ⟨b, r, hr, -⟩
    exact hno hr

/-! ## Configurations -/

/-- A slab has as many slots as fit, if that is below 2^32. -/
theorem slotCount_of_lt {chunk obj : Size} (hlt : (chunk / obj).toNat < 2 ^ 32) : slotCount chunk obj = (chunk / obj).toNat := by
  rw [slotCount, BitVec.toNat_setWidth, Nat.mod_eq_of_lt hlt]

/-- A small size has a class, and a slab of the class has a slot. -/
theorem fits_count {cfg : Config} (hfits : cfg.Fits) {bytes : Size} (h0 : bytes ≠ 0) (hsmall : bytes ≤ cfg.smallMax) :
    (maxSize bytes cfg.minObj).toNat ≤ 2 ^ 63 ∧ slotCount cfg.smallChunk (cfg.sizeClass bytes) ≠ 0 := by
  obtain ⟨hrep, hle, hlt⟩ := hfits bytes h0 hsmall
  refine ⟨hrep, ?_⟩
  rw [slotCount_of_lt hlt, BitVec.toNat_udiv]
  have hpos := toNat_pos (sizeClass_le hrep).2
  have hdiv := Nat.div_pos hle hpos
  omega

/-- Classes that divide a chunk which is not empty fit. -/
theorem fits_of_divides {cfg : Config} (hdiv : cfg.Divides) (hchunk : cfg.smallMax.toNat ≤ 2 ^ 63 → cfg.smallChunk ≠ 0) :
    cfg.Fits := by
  intro bytes h0 hsmall
  obtain ⟨hrep, hmod, hlt⟩ := hdiv bytes h0 hsmall
  refine ⟨hrep, ?_, hlt⟩
  have hmax : cfg.smallMax.toNat ≤ 2 ^ 63 := by
    have hne : cfg.smallMax ≠ 0 := by
      intro hz
      rw [hz] at hsmall
      exact h0 (BitVec.le_zero_iff.1 hsmall)
    exact le_trans (le_maxSize _ _) (hdiv _ hne (BitVec.le_refl _)).1
  have hpos := toNat_pos (hchunk hmax)
  have hmod := congrArg BitVec.toNat hmod
  rw [BitVec.toNat_umod] at hmod
  rw [BitVec.le_def]
  exact Nat.le_of_dvd hpos (Nat.dvd_of_mod_eq_zero hmod)

/-- A power of two that bounds the small objects bounds their classes, which divide it. -/
theorem sizeClass_of_pow {cfg : Config} {k : Nat} (hk : k ≤ 63) (hmax : cfg.smallMax.toNat ≤ 2 ^ k) (hmin : cfg.minObj.toNat ≤ 2 ^ k)
    {bytes : Size} (hsmall : bytes ≤ cfg.smallMax) : (maxSize bytes cfg.minObj).toNat ≤ 2 ^ 63 ∧ (cfg.sizeClass bytes).toNat ∣ 2 ^ k := by
  have hle : (maxSize bytes cfg.minObj).toNat ≤ 2 ^ k := by
    unfold maxSize
    split
    · exact hmin
    · exact le_trans hsmall hmax
  have hrep : (maxSize bytes cfg.minObj).toNat ≤ 2 ^ 63 := le_trans hle (Nat.pow_le_pow_right (by omega) hk)
  refine ⟨hrep, ?_⟩
  rw [sizeClass_toNat hrep]
  exact Nat.pow_dvd_pow 2 (Nat.clog_le_of_le_pow hle)

/-- Powers of two between the sizes make a configuration fit. -/
theorem fits_of_pow {cfg : Config} {k : Nat} (hk : k ≤ 63) (hmax : cfg.smallMax.toNat ≤ 2 ^ k) (hmin : cfg.minObj.toNat ≤ 2 ^ k)
    (hchunk : 2 ^ k ≤ cfg.smallChunk.toNat) (hlt : cfg.smallChunk.toNat < 2 ^ 32) : cfg.Fits := by
  intro bytes h0 hsmall
  obtain ⟨hrep, hdvd⟩ := sizeClass_of_pow hk hmax hmin hsmall
  refine ⟨hrep, ?_, ?_⟩
  · rw [BitVec.le_def]
    exact le_trans (Nat.le_of_dvd (Nat.two_pow_pos k) hdvd) hchunk
  · rw [BitVec.toNat_udiv]
    exact lt_of_le_of_lt (Nat.div_le_self _ _) hlt

/-- A chunk of whole powers of two has no tail. -/
theorem divides_of_pow {cfg : Config} {k : Nat} (hk : k ≤ 63) (hmax : cfg.smallMax.toNat ≤ 2 ^ k) (hmin : cfg.minObj.toNat ≤ 2 ^ k)
    (hchunk : 2 ^ k ∣ cfg.smallChunk.toNat) (hlt : cfg.smallChunk.toNat < 2 ^ 32) : cfg.Divides := by
  intro bytes h0 hsmall
  obtain ⟨hrep, hdvd⟩ := sizeClass_of_pow hk hmax hmin hsmall
  refine ⟨hrep, ?_, ?_⟩
  · apply BitVec.eq_of_toNat_eq
    rw [BitVec.toNat_umod]
    exact Nat.mod_eq_zero_of_dvd (dvd_trans hdvd hchunk)
  · rw [BitVec.toNat_udiv]
    exact lt_of_le_of_lt (Nat.div_le_self _ _) hlt

/-- The classes of the default sizes divide the chunk. -/
theorem divides_default : ({} : Config).Divides :=
  divides_of_pow (k := 20) (by decide) (by decide) (by decide) (by decide) (by decide)

/-- What a configuration that fits says about the slabs. -/
theorem slab_of_fits (hr : a.Ready h) (hfits : a.cfg.Fits) {base : Ptr} {r : Region} (hget : a.regions[base]? = some r)
    (hobj : r.obj ≠ 0) : r.c.size = a.cfg.smallChunk ∧ (r.c.size / r.obj).toNat < 2 ^ 32 ∧
      r.busy.length = (r.c.size / r.obj).toNat := by
  obtain ⟨bytes, h0, hsmall, hclass⟩ := (hr.used base r hget hobj).2
  have hslab := hr.sound.slab base r hget hobj
  have hlt := (hfits bytes h0 hsmall).2.2
  rw [hclass, ← hslab.size] at hlt
  refine ⟨hslab.size, hlt, ?_⟩
  rw [hslab.length, ← hslab.size, slotCount_of_lt hlt]

/-- With a configuration that fits, no slot number is cut. -/
theorem exact_of_fits (hr : a.Ready h) (hfits : a.cfg.Fits) (p : Ptr) : a.Exact p := by
  intro base r hl hobj
  obtain ⟨hget, hle, hin⟩ := (lookup_eq_some_iff hr.sound).1 hl
  obtain ⟨-, hlt, -⟩ := slab_of_fits hr hfits hget hobj
  rw [BitVec.toNat_udiv] at hlt ⊢
  rw [offset_toNat hle]
  exact lt_of_le_of_lt (Nat.div_le_div_right (by omega)) hlt

/-- A configuration that fits admits every call but a `free` of an address in the tail of a slab. -/
theorem admits_of_fits (hr : a.Ready h) (hfits : a.cfg.Fits) {c : AppCall} (htail : ∀ p : Ptr, c = .free p → ¬a.Tail p) :
    a.Admits c := by
  cases c with
  | alloc bytes => exact fun h0 hsmall => fits_count hfits h0 hsmall
  | free p =>
    intro base r hl hobj hmod
    obtain ⟨hget, hle, hin⟩ := (lookup_eq_some_iff hr.sound).1 hl
    obtain ⟨-, -, hlen⟩ := slab_of_fits hr hfits hget hobj
    have hlt := exact_of_fits hr hfits p base r hl hobj
    rw [slotOf, BitVec.toNat_setWidth, Nat.mod_eq_of_lt hlt, hlen]
    by_contra hge
    exact htail p rfl ⟨base, r, hl, hobj, hmod, by omega⟩
  | _ => trivial

/-- A slab whose class divides the chunk has no tail. -/
theorem not_tail_of_divides (hr : a.Ready h) (hdiv : a.cfg.Divides) (p : Ptr) : ¬a.Tail p := by
  rintro ⟨base, r, hl, hobj, hmod, hle⟩
  obtain ⟨hget, hbase, hin⟩ := (lookup_eq_some_iff hr.sound).1 hl
  obtain ⟨bytes, h0, hsmall, hclass⟩ := (hr.used base r hget hobj).2
  have hsize := (hr.sound.slab base r hget hobj).size
  have hdvd := congrArg BitVec.toNat (hdiv bytes h0 hsmall).2.1
  rw [hclass, ← hsize, BitVec.toNat_umod] at hdvd
  rw [BitVec.toNat_udiv, BitVec.toNat_udiv, offset_toNat hbase] at hle
  have hpos := toNat_pos hobj
  have hmul := Nat.div_mul_cancel (Nat.dvd_of_mod_eq_zero hdvd)
  have hlow := Nat.div_mul_le_self (p.toNat - base.toNat) r.obj.toNat
  have hmono := Nat.mul_le_mul_right r.obj.toNat hle
  omega

/-! ## Runs -/

/-- The entries that stay when the one of a key is erased. -/
theorem mem_eraseP_key {objs : List (Ptr × Size)} (hn : (objs.map Prod.fst).Nodup) (p q : Ptr) (n : Size) :
    (q, n) ∈ objs.eraseP (fun x => decide (x.1 = p)) ↔ (q, n) ∈ objs ∧ q ≠ p := by
  induction objs with
  | nil => simp
  | cons x objs ih =>
    rw [List.map_cons, List.nodup_cons] at hn
    by_cases hx : x.1 = p
    · rw [List.eraseP_cons_of_pos (by simpa using hx), List.mem_cons]
      constructor
      · intro hmem
        refine ⟨.inr hmem, ?_⟩
        rintro rfl
        exact hn.1 (List.mem_map.2 ⟨_, hmem, hx.symm⟩)
      · rintro ⟨rfl | hmem, hne⟩
        · exact absurd hx hne
        · exact hmem
    · rw [List.eraseP_cons_of_neg (by simpa using hx), List.mem_cons, List.mem_cons, ih hn.2]
      constructor
      · rintro (rfl | ⟨hmem, hne⟩)
        · exact ⟨.inl rfl, hx⟩
        · exact ⟨.inr hmem, hne⟩
      · rintro ⟨rfl | hmem, hne⟩
        · exact .inl rfl
        · exact .inr ⟨hmem, hne⟩

/-- The objects of the app after a call. -/
theorem owned_step {objs : List (Ptr × Size)} (hs : a.Sound h) (ho : a.Owned objs) {c : AppCall} {r : Except Error c.Result}
    (hm : a.Moved a' c r) (hx : ∀ p : Ptr, c = .free p → a.Exact p) : a'.Owned (c.held objs r) := by
  have hsame (hh : ∀ (q : Ptr) (n : Size), a'.Holds q n ↔ a.Holds q n) : a'.Owned objs := by
    refine ⟨ho.nodup, fun p n hmem => ?_, fun p size hp => ho.live p size ((hh _ _).1 hp)⟩
    obtain ⟨size, hp, hle⟩ := ho.held p n hmem
    exact ⟨size, (hh _ _).2 hp, hle⟩
  cases r with
  | error e =>
    have hh : ∀ (q : Ptr) (n : Size), a'.Holds q n ↔ a.Holds q n := by
      cases c <;> exact hm
    have heq : c.held objs (.error e) = objs := by
      cases c <;> rfl
    rw [heq]
    exact hsame hh
  | ok r =>
    cases c with
    | alloc bytes =>
      rcases hm with ⟨h0, hh⟩ | ⟨h0, size, hle, hnew, hh⟩
      · show a'.Owned (if r = 0 then objs else (r, bytes) :: objs)
        rw [if_pos h0]
        exact hsame hh
      · show a'.Owned (if r = 0 then objs else (r, bytes) :: objs)
        rw [if_neg h0]
        refine ⟨?_, fun p n hmem => ?_, fun p n hp => ?_⟩
        · rw [List.map_cons, List.nodup_cons]
          refine ⟨fun hmem => ?_, ho.nodup⟩
          obtain ⟨⟨p, n⟩, hin, heq⟩ := List.mem_map.1 hmem
          obtain ⟨m, hp, -⟩ := ho.held p n hin
          have heq : p = r := heq
          exact hnew m (heq ▸ hp)
        · rcases List.mem_cons.1 hmem with heq | hmem
          · cases heq
            exact ⟨size, (hh _ _).2 (.inr ⟨rfl, rfl⟩), hle⟩
          · obtain ⟨m, hp, hm⟩ := ho.held p n hmem
            exact ⟨m, (hh _ _).2 (.inl hp), hm⟩
        · rcases (hh _ _).1 hp with hp | ⟨rfl, rfl⟩
          · obtain ⟨m, hmem⟩ := ho.live p n hp
            exact ⟨m, List.mem_cons_of_mem _ hmem⟩
          · exact ⟨bytes, List.mem_cons_self⟩
    | free p =>
      have hafter (hh : ∀ (q : Ptr) (n : Size), a'.Holds q n ↔ a.Holds q n ∧ q ≠ p) :
          a'.Owned (objs.eraseP fun x => decide (x.1 = p)) := by
        refine ⟨ho.nodup.sublist ((List.eraseP_sublist).map _), fun q n hmem => ?_, fun q n hq => ?_⟩
        · obtain ⟨hmem, hne⟩ := (mem_eraseP_key ho.nodup p q n).1 hmem
          obtain ⟨m, hq, hle⟩ := ho.held q n hmem
          exact ⟨m, (hh _ _).2 ⟨hq, hne⟩, hle⟩
        · obtain ⟨hq, hne⟩ := (hh _ _).1 hq
          obtain ⟨m, hmem⟩ := ho.live q n hq
          exact ⟨m, (mem_eraseP_key ho.nodup p q m).2 ⟨hmem, hne⟩⟩
      rcases hm with ⟨rfl, rfl⟩ | ⟨h0, q, size, hq, hexact, hh⟩
      · exact hafter fun q n => ⟨fun hq => ⟨hq, holds_ne_zero hs hq⟩, And.left⟩
      · rw [hexact (hx p rfl)] at hh
        exact hafter hh
    | evict p => exact hsame hm
    | prefetch p => exact hsame hm
    | locate p => exact hsame hm
    | used => exact hsame hm
    | usedAt l => exact hsame hm
    | info => exact hsame hm
    | reconnect => exact hsame hm

/-- The configuration of a started allocator, and its invariant while it is not dead. -/
structure Steady (x : App Heap) : Prop where
  chunk : x.a.cfg.smallMax.toNat ≤ 2 ^ 63 → x.a.cfg.smallChunk ≠ 0
  ready : x.a.dead = false → x.a.Ready x.s

variable {ok : App Heap → AppCall → Prop} {gran : Size} {pos : gran ≠ 0} {movable : Bool} {x : App Heap}

/-- What one call leaves of a state that a run reached. -/
theorem left_of_runs (hx : Steady x) {c : AppCall} (hadm : x.a.dead = false → x.a.Admits c) {r : Except Error c.Result}
    (hr : Prog.Runs (Heap.world works) (c.program.run x.a) x.s (r, a') h') :
    (x.a.dead = true ∧ a' = x.a) ∨ (x.a.dead = false ∧ Left x.a x.s c r a' h') := by
  cases hd : x.a.dead with
  | true =>
    have hdead := hr.of_wp (dead_wp hd c)
    cases r <;> exact .inl ⟨rfl, hdead⟩
  | false =>
    have hleft := hr.of_wp (program_wp (hx.ready hd) hd (hadm hd))
    cases r <;> exact .inr ⟨rfl, hleft⟩

/-- Every state that a run reaches keeps the invariant, if every call is admitted. -/
theorem reached_steady (hok : ∀ (x : App Heap) (c : AppCall), ok x c → x.a.dead = false → x.a.Admits c)
    (h : x.Reached (Heap.world works) id ok (Heap.start gran pos movable)) : Steady x := by
  induction h with
  | built hr =>
    obtain ⟨-, hreg, hpart, rfl, hchunk⟩ := hr.of_wp (construct_step _ _)
    exact ⟨hchunk, fun _ => (ready_empty hreg hpart rfl).1⟩
  | @call x c r a' s' h hc hr ih =>
    rcases left_of_runs ih (hok x c hc) hr with ⟨hd, rfl⟩ | ⟨hd, hcfg, hstate⟩
    · refine ⟨ih.chunk, fun hl => ?_⟩
      rw [hd] at hl
      cases hl
    · refine ⟨hcfg ▸ ih.chunk, fun hl => ?_⟩
      rcases hstate with hd' | ⟨-, hready, -⟩
      · rw [hd'] at hl
        cases hl
      · exact hready
  | launch h ih => exact ih

/-- The app holds exactly the objects, if no slot number is cut as well. -/
theorem reached_owned (hok : ∀ (x : App Heap) (c : AppCall), ok x c → x.a.dead = false → x.a.Admits c)
    (hexact : ∀ (x : App Heap) (p : Ptr), ok x (.free p) → x.a.dead = false → x.a.Exact p)
    (h : x.Reached (Heap.world works) id ok (Heap.start gran pos movable)) (hd : x.a.dead = false) : x.a.Owned x.objs := by
  induction h with
  | built hr =>
    obtain ⟨-, hreg, hpart, rfl, -⟩ := hr.of_wp (construct_step _ _)
    have hno := (ready_empty (h := Heap.start gran pos movable) hreg hpart rfl).2
    exact ⟨List.nodup_nil, fun p n hmem => absurd hmem List.not_mem_nil, fun p n hp => absurd hp (hno p n)⟩
  | @call x c r a' s' h hc hr ih =>
    have hsteady := reached_steady hok h
    rcases left_of_runs hsteady (hok x c hc) hr with ⟨hdead, rfl⟩ | ⟨hl, hcfg, hstate⟩
    · rw [hdead] at hd
      cases hd
    · rcases hstate with hd' | ⟨-, hready, hmoved, -⟩
      · have hd : a'.dead = false := hd
        rw [hd'] at hd
        cases hd
      · refine owned_step (hsteady.ready hl).sound (ih hl) hmoved ?_
        rintro p rfl
        exact hexact x p hc hl
  | launch h ih => exact ih hd

/-- There is no region at the null address, if no requested size wraps. -/
theorem reached_null (hok : ∀ (x : App Heap) (c : AppCall), ok x c → x.a.dead = false → x.a.Admits c)
    (hwhole : ∀ (x : App Heap) (c : AppCall), ok x c → x.a.dead = false → x.s.Whole x.a.cfg c)
    (h : x.Reached (Heap.world works) id ok (Heap.start gran pos movable)) (hd : x.a.dead = false) :
    x.a.regions[(0 : Ptr)]? = none := by
  induction h with
  | built hr =>
    obtain ⟨-, hreg, -⟩ := hr.of_wp (construct_step _ _)
    rw [hreg]
    rfl
  | @call x c r a' s' h hc hr ih =>
    rcases left_of_runs (reached_steady hok h) (hok x c hc) hr with ⟨hdead, rfl⟩ | ⟨hl, hcfg, hstate⟩
    · rw [hdead] at hd
      cases hd
    · rcases hstate with hd' | ⟨-, -, -, hnull⟩
      · have hd : a'.dead = false := hd
        rw [hd'] at hd
        cases hd
      · exact hnull (hwhole x c hc hl) (ih hl)
  | launch h ih => exact ih hd

end PoolsAux

end Vmem
