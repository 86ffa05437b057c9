import Vmem.Lemmas.ManagerSteps

/-!
# The end of a manager

When the records describe the driver, the destructor gives back every mapping, handle and reservation once, and leaves nothing.
-/

namespace Vmem

namespace ManagerAux

open Manager Throwing

variable {β : Type} {fails : Bool} {x : Managed β} {m : Manager} {w : Watched β}

/-- What the driver has left for a list of chunks: their handles and mappings, no two alike, and no others. -/
structure Left (l : List (BitVec 32 × ManagedChunk)) (d : Cuda β) : Prop where
  nodup : l.Nodup
  backed : ∀ p ∈ l, ∃ q, d.handles[p.2.handle]? = some q
  alone : ∀ p ∈ l, ∀ p' ∈ l, p.2.handle = p'.2.handle → p = p'
  handle : ∀ (h : Handle) (q : Phys β), d.handles[h]? = some q → ∃ p ∈ l, p.2.handle = h
  mapped : ∀ p ∈ l, p.2.mapped = true → d.mappings[p.2.va]? = some ⟨p.2.size, p.2.handle, true⟩
  mapping : ∀ (va : Ptr) (mp : Mapping), d.mappings[va]? = some mp → ∃ p ∈ l, p.2.mapped = true ∧ p.2.va = va

/-- When the end begins, the driver has what the chunks have. -/
theorem left_chunks (hx : x.Describes) : Left x.m.chunks.toList x.d where
  nodup := OrdMap.nodup_toList _
  backed p hp := by
    obtain ⟨-, y, hy⟩ := hx.chunk p.1 p.2 (Std.ExtTreeMap.mem_toList_iff_getElem?_eq_some.1 hp)
    exact ⟨_, hy⟩
  alone p hp p' hp' heq := by
    have hc := Std.ExtTreeMap.mem_toList_iff_getElem?_eq_some.1 hp
    have hc' := Std.ExtTreeMap.mem_toList_iff_getElem?_eq_some.1 hp'
    have hid := hx.alone p.1 p'.1 p.2 p'.2 hc hc' heq
    rw [← hid] at hc'
    exact Prod.ext hid (Option.some.inj (hc.symm.trans hc'))
  handle h q hq := by
    obtain ⟨id, c, hc, hh⟩ := hx.handle h q hq
    exact ⟨(id, c), Std.ExtTreeMap.mem_toList_iff_getElem?_eq_some.2 hc, hh⟩
  mapped p hp hm := hx.mapped p.1 p.2 (Std.ExtTreeMap.mem_toList_iff_getElem?_eq_some.1 hp) hm
  mapping va mp hmp := by
    obtain ⟨id, c, hc, hm, hva, -⟩ := hx.mapping va mp hmp
    exact ⟨(id, c), Std.ExtTreeMap.mem_toList_iff_getElem?_eq_some.2 hc, hm, hva⟩

/-- The first chunk is unmapped, if it was mapped, and its handle released. -/
theorem left_tail {p : BitVec 32 × ManagedChunk} {l : List (BitVec 32 × ManagedChunk)} {d : Cuda β} {ms : OrdMap Ptr Mapping}
    (h : Left (p :: l) d) (hms : ∀ va : Ptr, ms[va]? = if p.2.mapped = true ∧ va = p.2.va then none else d.mappings[va]?) :
    Left l { d with handles := d.handles.erase p.2.handle, mappings := ms } := by
  have hnot : p ∉ l := (List.nodup_cons.1 h.nodup).1
  have hne {q : BitVec 32 × ManagedChunk} (hq : q ∈ l) : q.2.handle ≠ p.2.handle := by
    intro heq
    have hqp := h.alone q (List.mem_cons_of_mem _ hq) p List.mem_cons_self heq
    rw [hqp] at hq
    exact hnot hq
  -- two mapped chunks at one address would have one handle
  have hva {q : BitVec 32 × ManagedChunk} (hq : q ∈ l) (hm : q.2.mapped = true) : ¬(p.2.mapped = true ∧ q.2.va = p.2.va) := by
    intro hboth
    have h1 := h.mapped p List.mem_cons_self hboth.1
    have h2 := h.mapped q (List.mem_cons_of_mem _ hq) hm
    rw [hboth.2, h1] at h2
    exact hne hq (congrArg Mapping.h (Option.some.inj h2)).symm
  refine ⟨(List.nodup_cons.1 h.nodup).2, ?_, ?_, ?_, ?_, ?_⟩
  · intro q hq
    show ∃ y, (d.handles.erase p.2.handle)[q.2.handle]? = some y
    rw [OrdMap.getElem?_erase, if_neg (hne hq)]
    exact h.backed q (List.mem_cons_of_mem _ hq)
  · exact fun q hq q' hq' => h.alone q (List.mem_cons_of_mem _ hq) q' (List.mem_cons_of_mem _ hq')
  · intro k y hy
    have hy : (d.handles.erase p.2.handle)[k]? = some y := hy
    rw [OrdMap.getElem?_erase] at hy
    by_cases hk : k = p.2.handle
    · rw [if_pos hk] at hy
      cases hy
    · rw [if_neg hk] at hy
      obtain ⟨q, hq, hh⟩ := h.handle k y hy
      rcases List.mem_cons.1 hq with heq | hq
      · rw [heq] at hh
        exact absurd hh.symm hk
      · exact ⟨q, hq, hh⟩
  · intro q hq hm
    show ms[q.2.va]? = _
    rw [hms, if_neg (hva hq hm)]
    exact h.mapped q (List.mem_cons_of_mem _ hq) hm
  · intro va mp hmp
    have hmp : ms[va]? = some mp := hmp
    rw [hms] at hmp
    split at hmp
    · cases hmp
    · obtain ⟨q, hq, hm, heq⟩ := h.mapping va mp hmp
      rcases List.mem_cons.1 hq with hqp | hq
      · rw [hqp] at hm heq
        have hno : ¬(p.2.mapped = true ∧ va = p.2.va) := ‹_›
        exact absurd ⟨hm, heq.symm⟩ hno
      · exact ⟨q, hq, hm, heq⟩

/-- A valid call of the destructor is not looked at. -/
theorem drop_wp {c : CuCall} {Q : Unit → Manager → Watched β → Prop} {E : Fault → Manager → Watched β → Prop} (hv : w.d.Valid c 0)
    (hok : ∀ y : β, Q () m { w with d := w.d.after c 0 y }) : wp (Cuda.watched β fails) (drop c) Q E m w := by
  unfold drop
  rw [wp_call]
  refine ⟨hv, ?_⟩
  intro r w' h
  obtain ⟨-, y, rfl⟩ := h
  exact hok y

/-- The loop over the chunks gives back every handle and mapping. -/
theorem dropChunks_wp (rs : OrdMap Ptr Size) (l : List (BitVec 32 × ManagedChunk)) : ∀ {w : Watched β}, Left l w.d →
    w.d.reservations = rs → wp (Cuda.watched β fails) (dropChunks l) (fun _ _ w' => w'.d.handles = ∅ ∧ w'.d.mappings = ∅ ∧
      w'.d.reservations = rs) (fun _ _ _ => False) m w := by
  induction l with
  | nil =>
    intro w h hr
    refine ⟨?_, ?_, hr⟩
    · apply Std.ExtTreeMap.ext_getElem?
      intro k
      rw [Std.ExtTreeMap.getElem?_empty]
      by_contra hne
      obtain ⟨y, hy⟩ := Option.ne_none_iff_exists'.1 hne
      obtain ⟨q, hq, -⟩ := h.handle k y hy
      cases hq
    · apply Std.ExtTreeMap.ext_getElem?
      intro va
      rw [Std.ExtTreeMap.getElem?_empty]
      by_contra hne
      obtain ⟨mp, hmp⟩ := Option.ne_none_iff_exists'.1 hne
      obtain ⟨q, hq, -⟩ := h.mapping va mp hmp
      cases hq
  | cons p l ih =>
    intro w h hr
    obtain ⟨q, hq⟩ := h.backed p List.mem_cons_self
    unfold dropChunks dropMapping
    rw [wp_bind, wp_ite]
    refine ⟨fun hm => ?_, fun hm => ?_⟩
    · have htail : Left l { w.d with handles := w.d.handles.erase p.2.handle, mappings := w.d.mappings.erase p.2.va } := by
        refine left_tail h fun va => ?_
        rw [OrdMap.getElem?_erase]
        by_cases hva : va = p.2.va
        · rw [if_pos hva, if_pos ⟨hm, hva⟩]
        · rw [if_neg hva, if_neg fun h => hva h.2]
      refine drop_wp ⟨_, h.mapped p List.mem_cons_self hm, rfl⟩ fun _ => ?_
      rw [wp_bind]
      exact drop_wp ⟨q, hq⟩ fun _ => ih htail hr
    · have htail : Left l { w.d with handles := w.d.handles.erase p.2.handle, mappings := w.d.mappings } :=
        left_tail h fun va => by rw [if_neg fun h => hm h.1]
      rw [wp_pure, wp_bind]
      exact drop_wp ⟨q, hq⟩ fun _ => ih htail hr

/-- The loop over the reservations gives them back. -/
theorem dropReservations_wp (l : List (Ptr × Size)) : ∀ {w : Watched β}, (l.map Prod.fst).Nodup →
    (∀ (va : Ptr) (s : Size), w.d.reservations[va]? = some s ↔ (va, s) ∈ l) → w.d.handles = ∅ → w.d.mappings = ∅ →
    wp (Cuda.watched β fails) (dropReservations l) (fun _ _ w' => w'.d = {}) (fun _ _ _ => False) m w := by
  induction l with
  | nil =>
    intro w _ hl hh hm
    refine Cuda.ext ?_ hh hm
    apply Std.ExtTreeMap.ext_getElem?
    intro va
    rw [show (({} : Cuda β).reservations)[va]? = none from Std.ExtTreeMap.getElem?_empty]
    by_contra hne
    obtain ⟨s, hs⟩ := Option.ne_none_iff_exists'.1 hne
    cases (hl va s).1 hs
  | cons p l ih =>
    intro w hnd hl hh hm
    rw [List.map_cons, List.nodup_cons] at hnd
    unfold dropReservations
    rw [wp_bind]
    refine drop_wp ⟨(hl p.1 p.2).2 List.mem_cons_self, ?_⟩ fun _ => ih hnd.2 (fun va s => ?_) hh hm
    · intro va mp hmp
      rw [hm] at hmp
      simp at hmp
    · show (w.d.reservations.erase p.1)[va]? = some s ↔ _
      rw [OrdMap.getElem?_erase]
      by_cases hva : va = p.1
      · rw [if_pos hva]
        refine ⟨nofun, fun hmem => ?_⟩
        rw [hva] at hmem
        exact absurd (List.mem_map.2 ⟨_, hmem, rfl⟩) hnd.1
      · rw [if_neg hva, hl, List.mem_cons]
        refine ⟨fun hmem => hmem.resolve_left fun heq => hva (congrArg Prod.fst heq), .inr⟩

/-- The destructor leaves an empty driver. -/
theorem destruct_wp (hx : x.Describes) : wp (Cuda.watched β fails) destruct (fun _ _ w => w.d = {}) (fun _ _ _ => False) x.m { d := x.d } := by
  unfold destruct
  rw [wp_bind, wp_get, wp_bind]
  refine wp_mono (dropChunks_wp _ _ (left_chunks hx) rfl) ?_ fun _ _ _ h => h
  intro _ m' w' h
  obtain ⟨hh, hm, hr⟩ := h
  refine dropReservations_wp _ (OrdMap.nodup_keys _) (fun va s => ?_) hh hm
  rw [hr, Std.ExtTreeMap.mem_toList_iff_getElem?_eq_some]
  show x.d.reservations[va]? = some s ↔ _
  rw [hx.reservations]

end ManagerAux

end Vmem
