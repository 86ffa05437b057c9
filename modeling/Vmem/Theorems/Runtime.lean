import Vmem.Lemmas.Runtime
import Vmem.Theorems.Stack

/-!
# libvmem over the CUDA runtime

What an app relies on with either backend of the runtime, over every run.
-/

namespace Vmem

namespace RuntimeAux

open StackAux

variable {β : Type} {a : Allocator} {t : Heap} {m : Bool} {u : Size} {r : Runtime β}

/-- The chunk of a region is an allocation, or it is the null chunk. -/
theorem Stored.live (h : Stored m t a.chunks u r) {p : Ptr} (hp : p ≠ 0) :
    r.blocks[p]?.map Block.size = a.chunks[p]?.map Chunk.size := by rw [h.held p hp, h.blocks]

/-- The count is the bytes of the regions: the null chunk has none. -/
theorem Stored.used_regions (h : Stored m t a.chunks u r) : u = OrdMap.total a.regions fun _ r => r.c.size := by
  have hzero : t.chunks[(0 : Ptr)]? = none := by
    rw [h.blocks, h.zero]
    rfl
  rw [h.used]
  cases h0 : a.regions[(0 : Ptr)]? with
  | none =>
    refine used_of_find fun va => ?_
    by_cases hva : va = 0
    · subst hva
      rw [hzero, Allocator.chunks, Std.ExtTreeMap.getElem?_map, h0]
      rfl
    · exact (h.held va hva).symm
  | some r₀ =>
    have hchunk : a.chunks[(0 : Ptr)]? = some r₀.c := by
      rw [Allocator.chunks, Std.ExtTreeMap.getElem?_map, h0]
      rfl
    have herase : t.used = OrdMap.total (a.regions.erase 0) fun _ r => r.c.size := by
      refine used_of_find (a := { a with regions := a.regions.erase 0 }) fun va => ?_
      by_cases hva : va = 0
      · subst hva
        rw [hzero, Allocator.chunks, Std.ExtTreeMap.getElem?_map, OrdMap.getElem?_erase, if_pos rfl]
        rfl
      · rw [← h.held va hva, Allocator.chunks, Allocator.chunks, Std.ExtTreeMap.getElem?_map, Std.ExtTreeMap.getElem?_map,
          OrdMap.getElem?_erase, if_neg hva]
    rw [herase, OrdMap.total_of_getElem? h0, (h.null r₀.c hchunk).2]
    simp

end RuntimeAux

open RuntimeAux StackAux

/-- With `backends/uvm.h` and with `backends/cuda.h`, in every run up to the first fatal error, over every outcome of every call of the
runtime, with kernels that write anything in between: the allocations that are live are those of the regions that are not null, with their
sizes, and `used()` is the size of these. Where every call of the run stays inside the slabs, the objects that the app holds are safe in these
allocations. -/
theorem runtime_sound {β : Type} {k : Kind} (hk : k ≠ .vmem) (x : App (Option RtBackend × Runtime β))
    (h : x.Live (Runtime.stack β) k Runtime.Kernel (fun _ _ => True) (none, {})) (hd : x.a.dead = false) :
    (∃ b : RtBackend, x.s.1 = some b ∧ b.used = OrdMap.total x.a.regions fun _ r => r.c.size) ∧
    (∀ p : Ptr, x.s.2.blocks[p]?.map Block.size = if p = 0 then none else x.a.chunks[p]?.map Chunk.size) ∧
    (x.Live (Runtime.stack β) k Runtime.Kernel Allocator.InSlots (none, {}) →
      x.Safe (Runtime.stack β) Runtime.Backed fun s p => s.2.contents p) := by
  refine ⟨?_, ?_, fun hslots => ?_⟩
  · obtain ⟨gran, pos, movable, t, -, b, hb, -, hT⟩ := (backs_runtime hk).reached h hd
    exact ⟨b, hb, hT.used_regions⟩
  · obtain ⟨gran, pos, movable, t, -, b, -, -, hT⟩ := (backs_runtime hk).reached h hd
    intro p
    split
    · subst p
      rw [hT.zero]
      rfl
    · exact hT.live ‹_›
  · obtain ⟨gran, pos, movable, t, hreach, b, hb, hm, hT⟩ := (backs_runtime hk).reached hslots hd
    obtain ⟨hinside, hapart⟩ := objects_of_reached hreach hd
    refine ⟨fun p n hmem => ?_, hapart, fun c r a' s' hin hr hd' p n => ?_⟩
    · obtain ⟨base, c, hc, rfl, hchunk, hcon, -⟩ := hinside p n hmem
      rw [hT.blocks] at hchunk
      obtain ⟨⟨size, y⟩, hblock, rfl⟩ := Option.map_eq_some_iff.1 hchunk
      exact ⟨c, hc, hcon, y, hblock⟩
    · exact contents_of_call (backs_runtime hk) ⟨b, hb, hm, hT⟩ hreach hd hin hr hd'

/-- With managed memory and slabs of four slots: objects of both pools, after one of the small ones was freed. -/
theorem runtime_sound_both : ∃ x : App (Option RtBackend × Runtime ℕ),
    x.objs = [(0x300000, 0x70000), (0x400000, 0x300000), (0x200000, 1)] ∧ (∃ b : RtBackend, x.s.1 = some b ∧ b.used = 0x600000) ∧
    (∀ p : Ptr, x.s.2.blocks[p]?.map Block.size = if p = 0 then none else x.a.chunks[p]?.map Chunk.size) ∧
    (∀ (p : Ptr) (n : Size), (p, n) ∈ x.objs → ∃ c : Chunk, x.a.chunks[c.ptr]? = some c ∧ c.Contains p n ∧ Runtime.Backed x.s c) ∧
    x.objs.Pairwise (fun o o' => Apart o.1 o.2 o'.1 o'.2) ∧
    ∀ (r : Except Error Unit) (a' : Allocator) (s' : Option RtBackend × Runtime ℕ),
      Prog.Runs (Runtime.stack ℕ) ((Allocator.free 0x300000).run x.a) x.s (r, a') s' → a'.dead = false →
      ∃ ch ch' : Chunk, x.a.chunks[ch.ptr]? = some ch ∧ a'.chunks[ch.ptr]? = some ch' ∧ ch'.size = ch.size ∧ ch.Contains 0x200000 1 ∧
        s'.2.contents ch.ptr = x.s.2.contents ch.ptr := by
  obtain ⟨x, h, hx⟩ := exists_managed
  have hB := @backs_runtime ℕ .uvm (by decide)
  have hslots : x.Live (Runtime.stack ℕ) .uvm Runtime.Kernel Allocator.InSlots (none, {}) :=
    live_inSlots hB (live_mono h fun a _ ha => ha ▸ PoolsAux.divides_fourSlots)
  have hin : x.a.InSlots (.free 0x300000) := inSlots_of_live hB hslots hx.alive (hx.cfg ▸ PoolsAux.divides_fourSlots) _
  obtain ⟨⟨b, hb, hused⟩, hblocks, hsafe⟩ := runtime_sound (by decide) x (live_mono h fun _ _ _ => trivial) hx.alive
  refine ⟨x, hx.objs, ⟨b, hb, hused.trans hx.total⟩, hblocks, (hsafe hslots).inside, (hsafe hslots).apart, fun r a' s' hr hd' => ?_⟩
  refine (hsafe hslots).kept (.free 0x300000) r a' s' hin hr hd' 0x200000 1 (by rw [hx.objs]; decide) ?_
  rw [hx.objs]
  cases r with
  | ok r => simp [AppCall.held]
  | error e => simp [AppCall.held]

/-- At the end of an allocator with `backends/uvm.h` or `backends/cuda.h`, in any state of a run before a fatal error: where the runtime takes
back all memory, its destructor returns and no allocation is left. -/
theorem runtime_gives_back {β : Type} {k : Kind} (hk : k ≠ .vmem) (x : App (Option RtBackend × Runtime β))
    (h : x.Live (Runtime.stack β) k Runtime.Kernel (fun _ _ => True) (none, {})) (hd : x.a.dead = false) :
    Throwing.wp (Runtime.faultless β).live Allocator.destruct (fun _ _ s => s.2 = {}) (fun _ _ _ => False) x.a x.s := by
  obtain ⟨gran, pos, movable, t, -, hI⟩ := (backs_runtime hk).reached h hd
  refine (backs_runtime hk).ends (fun _ _ _ _ hr => Prog.answers_of_filter hr) (fun s => ?_) ?_ ?_ hd hI
  · obtain ⟨ob, r⟩ := s
    have hs : RtBackend.serve ob .synchronize = none := by rcases ob with - | b <;> [rfl; cases b <;> rfl]
    refine ⟨⟨none, _, Prog.unserved_answers (x := (ob, r)) hs none, trivial⟩, fun e s' he => ?_⟩
    cases e with
    | none => rfl
    | some e => exact he.2.elim
  · rintro t cs ⟨ob, r⟩ c ⟨b, hb, -, hT⟩ hc
    obtain rfl : ob = some b := hb
    have hfree : c.ptr = 0 ∨ ∃ k, r.blocks[c.ptr]? = some k := by
      by_cases hp : c.ptr = 0
      · exact .inl hp
      · obtain ⟨k, hk, -⟩ := hT.find hp hc
        exact .inr ⟨k, hk⟩
    cases b with
    | uvm b => exact wrapped_live (i := .destroy c) rfl (freeing_destroy hfree b) fun _ => trivial
    | cuda b => exact wrapped_live (i := .destroy c) rfl (freeing_destroy hfree b) fun _ => trivial
  · rintro t ⟨ob, r⟩ ⟨b, hb, -, hT⟩
    obtain rfl : ob = some b := hb
    have hs : RtBackend.serve (some b) .close = some (pure ((), some b)) := by cases b <;> rfl
    obtain ⟨⟨v, y, hr⟩, hall⟩ := Prog.over_live (Q := fun _ y => y.2 = r) (W := (Runtime.world β).filter RtCall.Succeeds) hs rfl
    exact ⟨⟨v, y, hr, trivial⟩, fun v y hr => (hall v y hr.1).trans hT.empty⟩

/-- A slab and a large allocation go back. -/
theorem runtime_gives_back_both : ∃ x : App (Option RtBackend × Runtime ℕ),
    x.objs = [(0x300000, 0x70000), (0x400000, 0x300000), (0x200000, 1)] ∧
    Throwing.wp (Runtime.faultless ℕ).live Allocator.destruct (fun _ _ s => s.2 = {}) (fun _ _ _ => False) x.a x.s := by
  obtain ⟨x, h, hx⟩ := exists_managed
  exact ⟨x, hx.objs, runtime_gives_back (by decide) x (live_mono h fun _ _ _ => trivial) hx.alive⟩

end Vmem
