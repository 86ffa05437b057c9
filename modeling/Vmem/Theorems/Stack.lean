import Vmem.Lemmas.Stack
import Vmem.Lemmas.StackRuns
import Vmem.Theorems.Pools

/-!
# The whole of libvmem over the driver

What an app relies on, from the pointers that it holds down to the driver's mappings, over every run.
-/

namespace Vmem

namespace StackAux

open PoolsAux

variable {a : Allocator} {t : Heap} {objs : List (Ptr × Size)} {gran : Size} {pos : gran ≠ 0} {movable : Bool}

/-- The objects of an app over a heap lie inside the chunks of its regions, and apart. -/
theorem objects_of_reached (h : App.Reached (Heap.world false) id (fun x c => x.a.InSlots c) (Heap.start gran pos movable) ⟨a, t, objs⟩)
    (hd : a.dead = false) :
    (∀ (p : Ptr) (n : Size), (p, n) ∈ objs → ∃ (base : Ptr) (c : Chunk), a.chunks[base]? = some c ∧ c.ptr = base ∧
      t.chunks[base]? = some c.size ∧ c.Contains p n ∧ p.toNat < c.ptr.toNat + c.size.toNat) ∧
    objs.Pairwise fun o o' => Apart o.1 o.2 o'.1 o'.2 := by
  have hsound := ((steady_of_inSlots (fun _ _ h _ => h) h).ready hd).sound
  have howned := owned_of_inSlots (fun _ _ h _ => h) h hd
  constructor
  · intro p n hmem
    obtain ⟨size, ⟨base, r, hget, hh⟩, hle⟩ := howned.held p n hmem
    obtain ⟨h0, hc, hlow, hend⟩ := holds_inside hsound hget hh
    have hptr := hsound.base base r hget
    have hpos := toNat_pos h0
    refine ⟨base, r.c, by simp [Allocator.chunks, show a.regions[base]? = some r from hget], hptr, hc, ?_, ?_⟩
    · rw [Chunk.Contains, hptr]
      omega
    · rw [hptr]
      omega
  · refine (List.pairwise_map.1 howned.nodup).imp_of_mem ?_
    rintro ⟨p, n⟩ ⟨q, m⟩ hp hq hne
    obtain ⟨size, hp, hn⟩ := howned.held p n hp
    obtain ⟨size', hq, hm⟩ := howned.held q m hq
    exact apart_of_le (holds_apart hsound hne hp hq) hn hm

/-- No call changes the contents of the chunk of an object that is held before and after it. -/
theorem contents_of_call {S γ : Type} {W : Prog.World BackendCall BackendCall.Answer S} {k : Kind} {kernel : S → S → Prop} {start : S}
    {memory : S → Ptr → Option γ} {I : Heap → OrdMap Ptr Chunk → S → Prop} (hB : Backs W k kernel start memory I) {s s' : S}
    (hI : I t a.chunks s)
    (h : App.Reached (Heap.world false) id (fun x c => x.a.InSlots c) (Heap.start gran pos movable) ⟨a, t, objs⟩) (hd : a.dead = false)
    {c : AppCall} {r : Except Error c.Result} {a' : Allocator} (hc : a.InSlots c) (hr : Prog.Runs W (c.program.run a) s (r, a') s')
    (hd' : a'.dead = false) {p : Ptr} {n : Size} (hmem : (p, n) ∈ objs) (hmem' : (p, n) ∈ c.held objs r) :
    ∃ ch ch' : Chunk, a.chunks[ch.ptr]? = some ch ∧ a'.chunks[ch.ptr]? = some ch' ∧ ch'.size = ch.size ∧ ch.Contains p n ∧
      memory s' ch.ptr = memory s ch.ptr := by
  obtain ⟨t', l, hruns, -, hl, hS⟩ := hB.call hd hI hr hd'
  obtain ⟨base, ch', hch', rfl, -, hcon', hlt'⟩ := (objects_of_reached (h.call hc hruns) hd').1 p n hmem'
  obtain ⟨base, c₀, hc₀, rfl, -, hcon₀, hlt₀⟩ := (objects_of_reached h hd).1 p n hmem
  rcases hS.each ch'.ptr ch' (hl ▸ hch') with ⟨ch, hch, hsize, hcontents⟩ | hap
  · have hptr : ch.ptr = ch'.ptr := hB.named hI _ _ hch
    rw [← hptr] at hch hch' hcontents
    refine ⟨ch, ch', hch, hch', hsize.symm, ?_, hcontents⟩
    rw [Chunk.Contains, hptr, hsize]
    exact hcon'
  · -- the object would lie in two chunks that are apart
    rcases hap c₀.ptr c₀ hc₀ with hap | hap
    · have := hcon₀.1
      omega
    · have := hcon'.1
      omega

/-- The bytes of the heap are those of the regions. -/
theorem used_of_find (h : ∀ va : Ptr, t.chunks[va]? = a.chunks[va]?.map Chunk.size) : t.used = OrdMap.total a.regions fun _ r => r.c.size := by
  rw [Heap.used, show t.chunks = a.regions.map fun _ r => r.c.size from ?_, OrdMap.total_map]
  refine Std.ExtTreeMap.ext_getElem? fun va => ?_
  rw [h, Allocator.chunks, Std.ExtTreeMap.getElem?_map, Std.ExtTreeMap.getElem?_map, Option.map_map]
  rfl

end StackAux

open StackAux

/-- In every run up to the first fatal error, over every outcome of every driver call and of the link, with kernels that write anything in
between: the driver holds one reservation, one read/write mapping and one handle for the chunk of each region, the same that the backend
records, and nothing else; `used()` is the size of these chunks. Where every call of the run stays inside the slabs, the objects that the app
holds are safe in these chunks. -/
theorem stack_sound {β : Type} (invocation : List UInt8) (x : Stack β) (h : x.Reached invocation fun _ _ => True) (hd : x.a.dead = false) :
    (∃ b : VmemBackend, x.s.1 = some b ∧ Caller.Consistent ⟨b, x.a.chunks, x.s.2⟩ ∧
      b.usedAll = OrdMap.total x.a.regions fun _ r => r.c.size) ∧
    (x.Reached invocation Allocator.InSlots → x.Safe (Cuda.stack β invocation) Cuda.Backed fun s p => s.2.contents p) := by
  constructor
  · obtain ⟨gran, pos, movable, t, -, b, hb, hT⟩ := (backs_vmem invocation).reached h hd
    exact ⟨b, hb, hT.inv.toConsistent, hT.used.trans (used_of_find hT.find)⟩
  · intro hslots
    obtain ⟨gran, pos, movable, t, hreach, b, hb, hT⟩ := (backs_vmem invocation).reached hslots hd
    obtain ⟨hinside, hapart⟩ := objects_of_reached hreach hd
    refine ⟨fun p n hmem => ?_, hapart, fun c r a' s' hin hr hd' p n => ?_⟩
    · obtain ⟨base, c, hc, rfl, -, hcon, -⟩ := hinside p n hmem
      obtain ⟨r, y, hcr, hl⟩ := hT.inv.live hc
      refine ⟨c, hc, hcon, r.h, y, hl.mapped, ?_⟩
      rw [hcr]
      exact hl.backed
    · exact contents_of_call (backs_vmem invocation) ⟨b, hb, hT⟩ hreach hd hin hr hd'

/-- With slabs of four slots and no broker: objects of both pools, after one of the small ones was freed. -/
theorem stack_sound_both : ∃ x : Stack ℕ, x.objs = [(0x300000, 0x70000), (0x400000, 0x300000), (0x200000, 1)] ∧
    (∃ b : VmemBackend, x.s.1 = some b ∧ Caller.Consistent ⟨b, x.a.chunks, x.s.2⟩ ∧ b.usedAll = 0x600000) ∧
    (∀ (p : Ptr) (n : Size), (p, n) ∈ x.objs → ∃ c : Chunk, x.a.chunks[c.ptr]? = some c ∧ c.Contains p n ∧ Cuda.Backed x.s c) ∧
    x.objs.Pairwise (fun o o' => Apart o.1 o.2 o'.1 o'.2) ∧
    ∀ (r : Except Error Unit) (a' : Allocator) (s' : Option VmemBackend × Cuda ℕ),
      Prog.Runs (Cuda.stack ℕ []) ((Allocator.free 0x300000).run x.a) x.s (r, a') s' → a'.dead = false →
      ∃ ch ch' : Chunk, x.a.chunks[ch.ptr]? = some ch ∧ a'.chunks[ch.ptr]? = some ch' ∧ ch'.size = ch.size ∧ ch.Contains 0x200000 1 ∧
        s'.2.contents ch.ptr = x.s.2.contents ch.ptr := by
  obtain ⟨x, h, hx⟩ := exists_local
  have hslots : x.Reached [] Allocator.InSlots := live_inSlots (backs_vmem []) (live_mono h fun a _ ha => ha ▸ PoolsAux.divides_fourSlots)
  have hin : x.a.InSlots (.free 0x300000) := inSlots_of_live (backs_vmem []) hslots hx.alive (hx.cfg ▸ PoolsAux.divides_fourSlots) _
  obtain ⟨⟨b, hb, hcons, hused⟩, hsafe⟩ := stack_sound [] x (live_mono h fun _ _ _ => trivial) hx.alive
  refine ⟨x, hx.objs, ⟨b, hb, hcons, hused.trans hx.total⟩, (hsafe hslots).inside, (hsafe hslots).apart, fun r a' s' hr hd' => ?_⟩
  refine (hsafe hslots).kept (.free 0x300000) r a' s' hin hr hd' 0x200000 1 (by rw [hx.objs]; decide) ?_
  rw [hx.objs]
  cases r with
  | ok r => simp [AppCall.held]
  | error e => simp [AppCall.held]

/-- At the end of an allocator over the vmem backend, in any state of a run before a fatal error: where no driver call fails, its destructor
returns whatever the broker link does, and the driver then holds nothing. -/
theorem stack_gives_back {β : Type} (invocation : List UInt8) (x : Stack β) (h : x.Reached invocation fun _ _ => True) (hd : x.a.dead = false) :
    Throwing.wp (Cuda.faultless β invocation).live Allocator.destruct (fun _ _ s => s.2 = {}) (fun _ _ _ => False) x.a x.s := by
  obtain ⟨gran, pos, movable, t, -, hI⟩ := (backs_vmem invocation).reached h hd
  refine (backs_vmem invocation).ends (fun _ _ _ _ hr => Prog.answers_of_filter hr) (fun s => ?_) ?_ ?_ hd hI
  · have hs : VmemBackend.serve invocation s.1 .synchronize = none := by cases s.1 <;> rfl
    refine ⟨⟨none, s, Prog.unserved_answers hs none, trivial⟩, fun e s' he => ?_⟩
    cases e with
    | none => rfl
    | some e => exact he.2.elim
  · rintro t cs ⟨ob, d⟩ c ⟨b, hb, hT⟩ hc
    obtain rfl : ob = some b := hb
    exact served_live (i := .destroy c) rfl (faultless_destroy hT.inv hc) fun _ => trivial
  · rintro t ⟨ob, d⟩ ⟨b, hb, hT⟩
    obtain rfl : ob = some b := hb
    have hs : VmemBackend.serve invocation (some b) .close = some (VmemBackend.served VmemBackend.closeBackend b) := rfl
    obtain ⟨hans, hall⟩ := served_live (i := .close) hs (faultless_disconnect .localMode) fun _ => trivial
    exact ⟨hans, fun r y hr => (hall r y hr).trans hT.empty⟩

/-- A slab and a large chunk go back. -/
theorem stack_gives_back_both : ∃ x : Stack ℕ, x.objs = [(0x300000, 0x70000), (0x400000, 0x300000), (0x200000, 1)] ∧
    Throwing.wp (Cuda.faultless ℕ []).live Allocator.destruct (fun _ _ s => s.2 = {}) (fun _ _ _ => False) x.a x.s := by
  obtain ⟨x, h, hx⟩ := exists_local
  exact ⟨x, hx.objs, stack_gives_back [] x (live_mono h fun _ _ _ => trivial) hx.alive⟩

end Vmem
