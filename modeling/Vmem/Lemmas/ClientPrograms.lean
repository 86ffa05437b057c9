import Vmem.Lemmas.ClientCalls

/-!
# Whole calls

Every call of a client's program, run in the world of that client, ends with the client's memory and the broker's record in
agreement (`Boundary`), whatever failed on the way.
-/

namespace Vmem

namespace ViewAux

open VmemBackend

variable {ov : Size}

/-! ## Create -/

/-- After a `create` the records, the copies and the chunks still match. -/
theorem Memory.created {b : VmemBackend} {held : OrdMap Ptr Chunk} {g g' : Gpu} {va : Ptr} {size : Size} {loc : Loc} {h : Handle}
    (hm : Memory b held g) (hva : b.chunks[va]? = none) (hr : g'.reserved = g.reserved.insert va size)
    (hc : g'.copies = g.copies.insert h ⟨size, loc⟩) :
    Memory (({ b with chunks := b.chunks.insert va ⟨h, size, loc⟩ } : VmemBackend).setUsed loc (b.used loc + size))
      (held.insert va ⟨va, size, loc⟩) g' := by
  refine ⟨fun va' r hr' => ?_, ?_, fun l => ?_, fun va' => ?_⟩
  · rw [hr, Std.ExtTreeMap.getElem?_insert]
    simp only [setUsed_chunks, Std.ExtTreeMap.getElem?_insert] at hr'
    split
    · rfl
    · rename_i hne
      rw [if_neg hne] at hr'
      exact hm.reserved va' r hr'
  · intro j c hj
    rw [hc] at hj
    rw [setUsed_chunks]
    exact hm.backed.insert hva h size loc j c hj
  · rw [used_setUsed, setUsed_chunks, OrdMap.total_insert_new hva, ← hm.used l]
    by_cases hl : loc = l
    · simp [hl, add_comm]
    · simp [hl]
  · simp only [setUsed_chunks, Std.ExtTreeMap.getElem?_insert, Std.compare_eq_iff_eq]
    split
    · rename_i he
      rw [← he]
      rfl
    · exact hm.held va'

/-- A range that was reserved and is given back, or leaked. -/
theorem keepsReserved_given_back {g g₁ g' : Gpu} {va : Ptr} {size size' : Size} (hva : g.reserved[va]? = none)
    (hr : g₁.reserved = g.reserved.insert va size) (hd : g₁.Drops (.addressFree va size') g') :
    g'.copies = g₁.copies ∧ KeepsReserved g g' := by
  rcases hd with rfl | ⟨-, rfl⟩
  · refine ⟨rfl, fun va' h => ?_⟩
    simp only [Gpu.after, hr, OrdMap.erase_insert _ hva]
    exact h
  · refine ⟨rfl, fun va' h => ?_⟩
    rw [hr, Std.ExtTreeMap.getElem?_insert]
    split
    · rfl
    · exact h

/-- `create` leads from one state between calls to the next, with the new chunk if it succeeds. -/
theorem create_view {b : VmemBackend} {held : OrdMap Ptr Chunk} {v : View} {size : Size} {out : Chunk}
    (h : Boundary ov b held v) :
    Code.wp (view ov) (create size out)
      (fun r b' v' => Boundary ov b' (if r.1 = .ok then held.insert r.2.ptr r.2 else held) v') b v := by
  refine Code.wp_bind.2 (Code.wp_get.2 (Code.wp_bind.2 (cu_view h.room (fun va hf => ?_) fun s b₁ hs hb hl => ?_)))
  · have hf : v.gpu.reserved[va]? = none := hf
    have hva : b.chunks[va]? = none := by
      cases hc : b.chunks[va]? with
      | none => rfl
      | some r =>
        have hsome := h.memory.reserved va r hc
        rw [hf] at hsome
        cases hsome
    simp only [ne_eq, not_true_eq_false, if_false]
    -- the range stays reserved until the end, or is given back
    have hroom : View.Room { v with gpu := { v.gpu with reserved := v.gpu.reserved.insert va size } } 0 := h.room
    have hlink : Linked (Agree ov b) b { v with gpu := { v.gpu with reserved := v.gpu.reserved.insert va size } } := h.linked
    refine Code.wp_seq (maybeReconnect_view hlink hroom) ?_
    rintro _ b₁ v₁ ⟨hb₁, hg₁, hlink₁⟩
    have hcop₁ : v₁.gpu.copies = v.gpu.copies := by rw [hg₁]; rfl
    have hres₁ : v₁.gpu.reserved = v.gpu.reserved.insert va size := by rw [hg₁]; rfl
    have hbacked : ∀ v' : View, v'.gpu.copies = v.gpu.copies → Backed b.chunks v'.gpu := by
      intro v' hc j c hj
      rw [hc] at hj
      exact h.memory.backed j c hj
    have hroom₁ : v₁.Room 0 := by
      refine hlink₁.room fun t ht => ?_
      have hle := (hbacked v₁ hcop₁).bytes_le .device
      rw [Tenant.bytes, ht.chunks]
      omega
    -- giving the range back after a failure
    have hback : ∀ (s : Status) (b' : VmemBackend) (v' : View), s ≠ .ok → b.SameMemory b' → v'.gpu.copies = v.gpu.copies →
        v'.gpu.reserved = v.gpu.reserved.insert va size → Linked (Agree ov b) b' v' →
        Code.wp (view ov) (do drop (.addressFree va size); pure (s, out)) (fun r b' v' => Boundary ov b'
          (if r.1 = .ok then held.insert r.2.ptr r.2 else held) v') b' v' := by
      intro s b' v' hs hb' hc hr hl
      have hroom : v'.Room 0 := by
        refine hl.room fun t ht => ?_
        have hle := (hbacked v' hc).bytes_le .device
        rw [Tenant.bytes, ht.chunks]
        omega
      refine Code.wp_bind.2 (drop_view hroom fun g hg => ?_)
      obtain ⟨hc', hk⟩ := keepsReserved_given_back hf hr hg
      simp only [Code.wp_pure, hs, if_false]
      refine ⟨?_, h.memory.of_same hb' (hc'.trans hc) hk⟩
      rw [Agree.of_same hb']
      exact hl
    refine Code.wp_seq (decidePlace_view hlink₁ hroom₁ hva) ?_
    rintro ⟨s, loc, counted⟩ b₂ v₂ ⟨hb₂, hg₂, ⟨hs, hlink₂⟩ | ⟨hs, hlink₂⟩⟩
    · simp only [show s ≠ .ok from hs, not_false_eq_true, if_true]
      exact hback s b₂ v₂ hs (hb₁.trans hb₂) (hg₂ ▸ hcop₁) (hg₂ ▸ hres₁) hlink₂
    · simp only [show s = .ok from hs, not_true_eq_false, if_false]
      have hsame₂ := hb₁.trans hb₂
      have hcount : ∀ b' : VmemBackend, b.SameMemory b' → Counted ov b' va size = Counted ov b va size := by
        intro b' hb'
        funext l counted t w
        simp only [Counted, hb'.chunks]
      rw [← hcount b₂ hsame₂] at hlink₂
      have hbacked₂ : Backed b₂.chunks v₂.gpu := by
        rw [hsame₂.chunks]
        exact hbacked v₂ (hg₂ ▸ hcop₁)
      have hva₂ : b₂.chunks[va]? = none := by rw [hsame₂.chunks, hva]
      refine Code.wp_seq (createMapped_view hbacked₂ hva₂ hlink₂) ?_
      rintro ⟨s, loc', nh⟩ b₃ v₃ ⟨hb₃, hres₃, ⟨hs, hfresh, hcop₃, hlink₃⟩ | ⟨hs, hcop₃, l, hlink₃⟩⟩
      · simp only [show s = .ok from hs, not_true_eq_false, if_false, if_true, Code.wp_bind, Code.wp_modify, Code.wp_pure]
        have hsame₃ := hsame₂.trans hb₃
        have hm₃ : Memory b₃ held v.gpu := h.memory.of_same hsame₃ rfl fun _ h => h
        refine ⟨?_, hm₃.created (by rw [hsame₃.chunks, hva]) (by rw [hres₃, hg₂, hres₁]) (by rw [hcop₃, hg₂, hcop₁])⟩
        have hlink : SameLink b₃ (({ b₃ with chunks := b₃.chunks.insert va ⟨nh, size, loc'⟩ } : VmemBackend).setUsed loc'
            (b₃.used loc' + size)) := ⟨by simp, by simp⟩
        refine (hlink₃.of_same hlink rfl).mono ?_
        rintro t w ⟨-, ht⟩
        have hentries : entries (b₃.chunks.insert va ⟨nh, size, loc'⟩) = (entries b₂.chunks).insert va ⟨size, loc'.field⟩ := by
          rw [entries_insert, hb₃.chunks]
          rfl
        simp only [Agree, setUsed_chunks, hentries]
        exact ht
      · simp only [show s ≠ .ok from hs, not_false_eq_true, if_true]
        have hsame₃ := hsame₂.trans hb₃
        rw [hcount b₂ hsame₂] at hlink₃
        refine Code.wp_seq (unplace_view (hbacked v₃ (by rw [hcop₃, hg₂, hcop₁])) hva hlink₃) ?_
        rintro _ b₄ v₄ ⟨hb₄, hg₄, hlink₄⟩
        exact hback s b₄ v₄ hs (hsame₃.trans hb₄) (by rw [hg₄, hcop₃, hg₂, hcop₁]) (by rw [hg₄, hres₃, hg₂, hres₁]) hlink₄
  · simp only [hs, ne_eq, not_false_eq_true, if_true, Code.wp_pure, if_false]
    have hsame : b.SameMemory b₁ := hb
    refine ⟨?_, h.memory.of_same hsame rfl fun va hva => hva⟩
    rw [Agree.of_same hsame]
    exact h.linked.of_same hl rfl

/-! ## Destroy -/

/-- The driver calls of `destroy` give up the copy and the range, or stop on the way. -/
theorem destroyCalls_view {va : Ptr} {size : Size} {r : Rec} {b : VmemBackend} {v : View} (hrec : b.chunks[va]? = some r)
    (hr : v.Room 0) :
    Code.wp (view ov) (destroyCalls va size) (Local b v fun s g =>
      (s = .ok ∧ g.copies = v.gpu.copies.erase r.h ∧ g.reserved = v.gpu.reserved.erase va) ∨
        (s ≠ .ok ∧ (g.copies = v.gpu.copies ∨ g.copies = v.gpu.copies.erase r.h) ∧ g.reserved = v.gpu.reserved)) b v := by
  refine Code.wp_bind.2 (cu_view hr (fun x _ => ?_) fun s b₁ hs hb hl => ?_)
  · simp only [ne_eq, not_true_eq_false, if_false]
    refine Code.wp_bind.2 (handleOf_view hrec (Code.wp_bind.2 (cu_view hr (fun x _ => ?_) fun s b₁ hs hb hl => ?_)))
    · simp only [not_true_eq_false, if_false]
      have hr' : View.Room { v with gpu := { v.gpu with copies := v.gpu.copies.erase r.h } } 0 :=
        room_congr hr rfl (bytes_erase_le _ _ _)
      refine Code.wp_bind.2 (cu_view hr' (fun x _ => ?_) fun s b₁ hs hb hl => ?_)
      · exact ⟨.refl b, .refl b, rfl, .inl ⟨rfl, rfl, rfl⟩⟩
      · exact ⟨hb, hl, rfl, .inr ⟨hs, .inr rfl, rfl⟩⟩
    · simp only [hs, not_false_eq_true, if_true]
      exact ⟨hb, hl, rfl, .inr ⟨hs, .inl rfl, rfl⟩⟩
  · simp only [hs, ne_eq, not_false_eq_true, if_true]
    exact ⟨hb, hl, rfl, .inr ⟨hs, .inl rfl, rfl⟩⟩

/-- Memory given up is no harm to what is left. -/
theorem Memory.of_released {b b' : VmemBackend} {held : OrdMap Ptr Chunk} {g g' : Gpu} {r : Rec} (h : Memory b held g)
    (hb : b.SameMemory b') (hc : g'.copies = g.copies ∨ g'.copies = g.copies.erase r.h) (hr : g'.reserved = g.reserved) :
    Memory b' held g' := by
  have hk : KeepsReserved g g' := fun va hva => by rw [hr]; exact hva
  rcases hc with hc | hc
  · exact h.of_same hb hc hk
  · have hm : Memory b held { g with copies := g.copies.erase r.h } := ⟨h.reserved, h.backed.erase r.h, h.used, h.held⟩
    exact hm.of_same hb hc fun va hva => by rw [hr]; exact hva

/-- After a `destroy` the records, the copies and the chunks still match. -/
theorem Memory.destroyed {b : VmemBackend} {held : OrdMap Ptr Chunk} {g g' : Gpu} {va : Ptr} {r : Rec} (h : Memory b held g)
    (hrec : b.chunks[va]? = some r) (hc : g'.copies = g.copies.erase r.h) (hr : g'.reserved = g.reserved.erase va) :
    Memory (({ b with chunks := b.chunks.erase va } : VmemBackend).setUsed r.loc (b.used r.loc - r.size)) (held.erase va) g' := by
  refine ⟨fun va' r' hr' => ?_, ?_, fun l => ?_, fun va' => ?_⟩
  · simp only [setUsed_chunks, Std.ExtTreeMap.getElem?_erase] at hr'
    rw [hr, Std.ExtTreeMap.getElem?_erase]
    split at hr'
    · cases hr'
    · rename_i hne
      rw [if_neg hne]
      exact h.reserved va' r' hr'
  · intro j c hj
    rw [hc] at hj
    rw [setUsed_chunks]
    exact h.backed.remove hrec j c hj
  · have hu := h.used l
    rw [OrdMap.total_of_getElem? hrec] at hu
    rw [used_setUsed, setUsed_chunks]
    by_cases hl : r.loc = l
    · subst hl
      simp only [if_true] at hu ⊢
      rw [hu, BitVec.add_comm, BitVec.add_sub_cancel]
    · simp only [hl, if_false] at hu ⊢
      rw [used_setChunks, hu, zero_add]
  · simp only [setUsed_chunks, Std.ExtTreeMap.getElem?_erase]
    split
    · rfl
    · exact h.held va'

/-- `destroy` leads to the next state between calls, without the chunk if it succeeds. -/
theorem destroy_view {b : VmemBackend} {held : OrdMap Ptr Chunk} {v : View} {va : Ptr} {c : Chunk} (h : Boundary ov b held v)
    (hc : held[va]? = some c) :
    Code.wp (view ov) (destroy c)
      (fun res b' v' => Boundary ov b' (if res.1 = .ok then held.erase va else held.insert va res.2) v') b v := by
  have hrec := hc
  rw [h.memory.held] at hrec
  obtain ⟨r, hr, rfl⟩ := Option.map_eq_some_iff.1 hrec
  refine Code.wp_seq (destroyCalls_view hr h.room) ?_
  rintro s b₁ v₁ ⟨hb₁, hl₁, hs₁, ⟨rfl, hcop, hres⟩ | ⟨hs, hcop, hres⟩⟩
  · simp only [ne_eq, not_true_eq_false, if_false]
    have hm₁ : Memory b₁ held v.gpu := h.memory.of_same hb₁ rfl fun _ h => h
    have hr₁ : b₁.chunks[va]? = some r := by rw [hb₁.chunks, hr]
    have hm₂ := hm₁.destroyed hr₁ hcop hres
    generalize hb₂ : ({ b₁ with chunks := b₁.chunks.erase va } : VmemBackend).setUsed r.loc (b₁.used r.loc - r.size) = b₂ at hm₂
    have hlink₂ : Linked (Agree ov b) b₂ v₁ := by
      refine h.linked.of_same ⟨?_, ?_⟩ hs₁
      · rw [← hb₂, setUsed_link, hl₁.link]
      · rw [← hb₂, setUsed_fd, hl₁.fd]
    have hchunks : b₂.chunks = b.chunks.erase va := by rw [← hb₂, setUsed_chunks, hb₁.chunks]
    have hord : ∀ t w, Agree ov b t w → t.Orderly { type := .free, loc := r.loc.field, ptr := va } := by
      intro t w ht
      refine ⟨⟨r.entry, by simp [ht.chunks, hr]⟩, fun mv hmv => ?_⟩
      rw [ht.moving] at hmv
      cases hmv
    have hroom : v₁.Room 0 := by
      refine hlink₂.room fun t ht => ?_
      have hle := h.memory.backed.bytes_le .device
      have hle' : v₁.gpu.bytes .device ≤ v.gpu.bytes .device := by
        have hbytes := bytes_erase_le v.gpu r.h .device
        simp only [Gpu.bytes, hcop] at hbytes ⊢
        exact hbytes
      rw [Tenant.bytes, ht.chunks]
      omega
    refine Code.wp_bind.2 (Code.wp_modify.2 ?_)
    rw [hb₂]
    refine Code.wp_seq (report_view (R := Agree ov b₂) rfl hlink₂ hroom hord fun t w ht => ?_) ?_
    · obtain ⟨⟨c, hc'⟩, hne⟩ := hord t w ht
      obtain ⟨hk, hmv, hh⟩ := @Tenant.applied_free ov t
        { type := .free, loc := r.loc.field, ptr := va } _ rfl hc' hne
      refine ⟨hh.trans ht.hello, hk.trans ?_, hmv.trans ht.moving, (hord t w ht).sound ht.sound rfl⟩
      rw [ht.chunks, hchunks, entries_erase]
    · rintro _ b₃ v₃ ⟨hb₃, hg₃, hlink₃⟩
      simp only [Code.wp_pure, if_true]
      refine ⟨?_, hm₂.of_same hb₃ (by rw [hg₃]) fun va hva => by rw [hg₃]; exact hva⟩
      rw [Agree.of_same hb₃]
      exact hlink₃
  · simp only [hs, ne_eq, not_false_eq_true, if_true, Code.wp_pure]
    rw [if_neg (by decide), OrdMap.insert_of_getElem? hc]
    refine ⟨?_, h.memory.of_released hb₁ hcop hres⟩
    rw [Agree.of_same hb₁]
    exact h.linked.of_same hl₁ hs₁

/-! ## Open, close and reconnect -/

/-- A process without memory that connects is between two calls. -/
theorem connectBroker_boundary {b : VmemBackend} {held : OrdMap Ptr Chunk} {v : View} (hun : Unlinked b v)
    (hm : Memory b held v.gpu) (he : b.chunks = ∅) :
    Code.wp (view ov) connectBroker (fun _ b' v' => Boundary ov b' held v') b v := by
  refine Code.wp_mono (connectBroker_view hun) ?_
  rintro e b' v' ⟨hb, hg, hout⟩
  have hm' : Memory b' held v'.gpu := by
    rw [hg]
    exact hm.of_same hb rfl fun _ h => h
  refine ⟨?_, hm'⟩
  rcases hout with ⟨-, hl⟩ | ⟨-, hun⟩
  · refine hl.mono fun t w ht => ?_
    have hempty : entries b'.chunks = ∅ := by
      rw [hb.chunks, he]
      apply Std.ExtTreeMap.ext_getElem?
      simp
    rw [Agree, hempty]
    exact ht.1
  · exact hun.linked

/-- A call that has no effect here. -/
theorem ask_same_view {i : Op} {Q : i.Answer → VmemBackend → View → Prop} {b : VmemBackend} {v : View}
    (hp : (view ov).permits i v) (hsame : ∀ r v', (view ov).answers i v r v' → v' = v) (h : ∀ r, Q r b v) :
    Code.wp (view ov) (ask i) Q b v := by
  refine ask_view hp fun r v' hv => ?_
  rw [hsame r v' hv]
  exact h r

/-- Reading the granularity changes nothing that the view has. -/
theorem readGranularity_view {b : VmemBackend} {v : View} (hr : v.Room 0) :
    Code.wp (view ov) readGranularity (fun _ b' v' => b.SameMemory b' ∧ SameLink b b' ∧ v' = v) b v := by
  refine Code.wp_bind.2 (Code.wp_get.2 (Code.wp_bind.2 (cu_view hr (fun x _ => ?_) fun s b' hs hb hl => ?_)))
  · simp only [ne_eq, not_true_eq_false, if_false]
    refine Code.wp_bind.2 (cu_view hr (fun x _ => ?_) fun s b' hs hb hl => ?_)
    · exact ⟨⟨rfl, rfl, rfl⟩, ⟨rfl, rfl⟩, rfl⟩
    · simp only [hs, not_false_eq_true, if_true]
      exact ⟨hb, hl, rfl⟩
  · simp only [hs, ne_eq, not_false_eq_true, if_true]
    exact ⟨hb, hl, rfl⟩

/-- Connecting while opening ends between two calls. -/
theorem openDaemon_view {c : BackendConfig} {invocation : List UInt8} {b : VmemBackend} {v : View} (hun : Unlinked b v)
    (hm : Memory b ∅ v.gpu) (he : b.chunks = ∅) :
    Code.wp (view ov) (openDaemon c invocation) (fun _ b' v' => Boundary ov b' ∅ v') b v := by
  unfold openDaemon
  split
  · exact ⟨hun.linked, hm⟩
  · refine Code.wp_bind.2 (Code.wp_modify.2 ?_)
    refine Code.wp_seq (connectBroker_boundary hun (hm.of_same ⟨rfl, rfl, rfl⟩ rfl fun _ h => h) he) ?_
    intro e b' v' h
    split
    · exact h
    · split
      · exact h
      · refine ⟨?_, h.memory.of_same ⟨rfl, rfl, rfl⟩ rfl fun _ h => h⟩
        exact h.linked.of_same ⟨rfl, rfl⟩ rfl

/-- So does `open`, however far it gets. -/
theorem openBackend_view {c : BackendConfig} {invocation : List UInt8} {b : VmemBackend} {v : View} (hun : Unlinked b v)
    (hm : Memory b ∅ v.gpu) (he : b.chunks = ∅) :
    Code.wp (view ov) (openBackend c invocation) (fun _ b' v' => Boundary ov b' ∅ v') b v := by
  have hmem : ∀ b' : VmemBackend, b.SameMemory b' → Memory b' ∅ v.gpu := fun b' hb => hm.of_same hb rfl fun _ h => h
  have hdone : ∀ b' : VmemBackend, b.SameMemory b' → Unlinked b' v → Boundary ov b' ∅ v :=
    fun b' hb hun => ⟨hun.linked, hmem b' hb⟩
  have hroom := hun.room 0
  refine Code.wp_bind.2 (Code.wp_modify.2 (Code.wp_bind.2 (ask_same_view ⟨hroom, trivial⟩ (fun _ _ h => h) fun set => ?_)))
  refine Code.wp_seq (R := fun _ b' v' => v' = v ∧ b' = { b with dev := c.device }) ?_ ?_
  · split
    · exact ask_same_view ⟨hroom, trivial⟩ (fun _ _ h => h) fun _ => ⟨rfl, rfl⟩
    · exact ⟨rfl, rfl⟩
  · rintro ctx b₁ v₁ ⟨hv₁, hb₁⟩
    rw [hv₁, hb₁]
    split
    · exact hdone _ ⟨rfl, rfl, rfl⟩ hun
    · refine Code.wp_bind.2 (ask_same_view ⟨hroom, trivial⟩ (fun _ _ h => h) fun vmm => ?_)
      refine Code.wp_bind.2 (ask_same_view ⟨hroom, trivial⟩ (fun _ _ h => h) fun hostVmm => ?_)
      refine Code.wp_bind.2 (ask_same_view ⟨hroom, trivial⟩ (fun _ _ h => h) fun numa => ?_)
      split
      · exact hdone _ ⟨rfl, rfl, rfl⟩ hun
      · refine Code.wp_bind.2 (Code.wp_modify.2 (Code.wp_seq (readGranularity_view hroom) ?_))
        rintro s b₂ v₂ ⟨hb₂, hl₂, hv₂⟩
        rw [hv₂]
        have hsame : b.SameMemory b₂ := ⟨hb₂.chunks, hb₂.device, hb₂.host⟩
        have hun₂ : Unlinked b₂ v := ⟨by rw [hl₂.link]; exact hun.1, by rw [hl₂.fd]; exact hun.2.1, hun.2.2⟩
        split
        · exact hdone b₂ hsame hun₂
        · exact openDaemon_view hun₂ (hmem b₂ hsame) (hb₂.chunks.trans he)

theorem closeBackend_view {b : VmemBackend} {held : OrdMap Ptr Chunk} {v : View} (h : Boundary ov b held v) :
    Code.wp (view ov) closeBackend (fun _ b' v' => Boundary ov b' held v') b v := by
  have hfd : (b.fd = none ∧ v.sock = none) ∨ ∃ fd p, b.fd = some fd ∧ v.sock = some (fd, p) := by
    rcases h.linked with ⟨-, fd, t, w, hfd, hs, -⟩ | ⟨-, hfd, hs⟩
    · exact .inr ⟨fd, _, hfd, hs⟩
    · exact .inl ⟨hfd, hs⟩
  refine disconnectBroker_view h.room hfd ?_
  exact ⟨.inr ⟨nofun, rfl, rfl⟩, h.memory.of_same ⟨rfl, rfl, rfl⟩ rfl fun _ h => h⟩

theorem reconnect_boundary {b : VmemBackend} {held : OrdMap Ptr Chunk} {v : View} (h : Boundary ov b held v) :
    Code.wp (view ov) reconnect (fun _ b' v' => Boundary ov b' held v') b v := by
  refine Code.wp_mono (reconnect_view h.linked h.room) ?_
  rintro s b' v' ⟨hb, hg, hl⟩
  refine ⟨?_, h.memory.of_same hb (by rw [hg]) fun va hva => by rw [hg]; exact hva⟩
  rw [Agree.of_same hb]
  exact hl

/-! ## The programs of a client -/

/-- A call that a client makes between two others keeps the agreement. -/
theorem program_view {c : ClientCall} {b : VmemBackend} {held : OrdMap Ptr Chunk} {v : View} {p : ClientProg}
    (h : Boundary ov b held v) (hp : c.program held b = some p) :
    p.wp (view ov) (fun r v' => Boundary ov r.2 r.1 v') v := by
  cases c with
  | create size =>
    obtain rfl := Option.some.inj hp
    exact Prog.wp_bind.2 (create_view h)
  | destroy va =>
    simp only [ClientCall.program] at hp
    split at hp
    · cases hp
    · rename_i c hc
      obtain rfl := Option.some.inj hp
      exact Prog.wp_bind.2 (destroy_view h hc)
  | move va target =>
    simp only [ClientCall.program] at hp
    split at hp
    · cases hp
    · rename_i c hc
      obtain rfl := Option.some.inj hp
      have hptr : c.ptr = va := by
        have hm := h.memory.held va
        rw [hc] at hm
        obtain ⟨r, -, hr⟩ := Option.map_eq_some_iff.1 hm.symm
        rw [← hr]
      subst hptr
      exact Prog.wp_bind.2 (move_view h hc)
  | reconnect =>
    obtain rfl := Option.some.inj hp
    exact Prog.wp_bind.2 (reconnect_boundary h)
  | close =>
    obtain rfl := Option.some.inj hp
    exact Prog.wp_bind.2 (closeBackend_view h)

/-- A new client starts with the agreement: it has nothing. -/
theorem opening_view (c : BackendConfig) (invocation : List UInt8) :
    (opening c invocation).wp (view ov) (fun r v' => Boundary ov r.2 r.1 v') {} := by
  refine Prog.wp_bind.2 (openBackend_view ⟨nofun, rfl, rfl⟩ ⟨?_, ?_, ?_, ?_⟩ rfl)
  · intro va r hr
    simp at hr
  · intro j c hc
    simp at hc
  · intro l
    cases l <;> simp [used]
  · simp

end ViewAux

end Vmem
