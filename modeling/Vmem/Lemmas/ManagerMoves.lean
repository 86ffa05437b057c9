import Vmem.Lemmas.ManagerCalls

/-!
# Calls that change a chunk

`map`, `unmap` and `remap` give a chunk another address or another handle. `Move` says what the driver has to look like after that, and
that the records then describe it. In `remap` every failure after the new handle was made leaves a handle that no record names.
-/

namespace Vmem

namespace ManagerAux

open Manager Throwing

variable {β : Type} {fails : Bool} {x : Managed β} {m : Manager} {w : Watched β} {t : ChunkToken}

/-! ## One chunk changes -/

/-- Ranges that are apart start at different addresses. -/
theorem ne_of_apart {va va' : Ptr} {s s' : Size} (hs : s ≠ 0) (hs' : s' ≠ 0) (h : Apart va s va' s') : va ≠ va' := by
  intro heq
  subst heq
  have h1 : s.toNat ≠ 0 := fun h0 => hs (BitVec.eq_of_toNat_eq (by simpa using h0))
  have h2 : s'.toNat ≠ 0 := fun h0 => hs' (BitVec.eq_of_toNat_eq (by simpa using h0))
  unfold Apart at h
  omega

/-- The driver after the chunk `c` became `c'`, which has the same size and either the same handle or a new one. -/
structure Move (x : Managed β) (id : BitVec 32) (c c' : ManagedChunk) (d' : Cuda β) : Prop where
  record : x.m.chunks[id]? = some c
  named : c'.id = id
  size : c'.size = c.size
  backed : ∃ y, d'.handles[c'.handle]? = some ⟨c.size, c'.loc, y⟩
  own : c'.handle = c.handle ∨ x.d.handles[c'.handle]? = none
  others : ∀ h : Handle, h ≠ c'.handle → d'.handles[h]? = if h = c.handle then none else x.d.handles[h]?
  mappings : ∀ va : Ptr, d'.mappings[va]? = if c'.mapped = true ∧ va = c'.va then some ⟨c.size, c'.handle, true⟩ else
    if c.mapped = true ∧ va = c.va then none else x.d.mappings[va]?
  reservations : d'.reservations = x.d.reservations
  inside : c'.mapped = true → x.m.abs.Inside c'.va c.size
  unused : c'.mapped = true → ∀ (k : BitVec 32) (o : ManagedChunk), k ≠ id → x.m.chunks[k]? = some o → o.mapped = true →
    Apart c'.va c.size o.va o.size

variable {id : BitVec 32} {c c' : ManagedChunk} {d' : Cuda β}

/-- No other chunk has the handle of the chunk, before or after. -/
theorem Move.other (h : Move x id c c' d') (hx : x.Sound) {k : BitVec 32} {o : ManagedChunk} (hk : k ≠ id)
    (ho : x.m.chunks[k]? = some o) : o.handle ≠ c'.handle ∧ o.handle ≠ c.handle := by
  have hne : o.handle ≠ c.handle := fun heq => hk (hx.alone k id o c ho h.record heq)
  refine ⟨fun heq => ?_, hne⟩
  rcases h.own with hown | hown
  · exact hne (heq.trans hown)
  · obtain ⟨y, hy⟩ := (hx.chunk k o ho).2
    rw [heq, hown] at hy
    cases hy

/-- A move leaves the handles of the other chunks. -/
theorem Move.handles (h : Move x id c c' d') (hx : x.Sound) {k : BitVec 32} {o : ManagedChunk} (hk : k ≠ id)
    (ho : x.m.chunks[k]? = some o) : d'.handles[o.handle]? = x.d.handles[o.handle]? := by
  obtain ⟨hne', hne⟩ := h.other hx hk ho
  rw [h.others _ hne', if_neg hne]

/-- After a move the records describe the driver. -/
theorem Move.describes (h : Move x id c c' d') (hx : x.Sound) :
    (⟨{ x.m with chunks := x.m.chunks.insert id c' }, d'⟩ : Managed β).Describes where
  chunk k o ho := by
    rw [OrdMap.getElem?_insert] at ho
    by_cases hk : k = id
    · rw [if_pos hk] at ho
      cases ho
      obtain ⟨y, hy⟩ := h.backed
      exact ⟨h.named.trans hk.symm, y, by rw [hy, h.size]⟩
    · rw [if_neg hk] at ho
      rw [h.handles hx hk ho]
      exact hx.chunk k o ho
  alone k k' o o' ho ho' heq := by
    rw [OrdMap.getElem?_insert] at ho ho'
    by_cases hk : k = id
    · by_cases hk' : k' = id
      · exact hk.trans hk'.symm
      · rw [if_pos hk] at ho
        rw [if_neg hk'] at ho'
        cases ho
        exact absurd heq.symm (h.other hx hk' ho').1
    · rw [if_neg hk] at ho
      by_cases hk' : k' = id
      · rw [if_pos hk'] at ho'
        cases ho'
        exact absurd heq (h.other hx hk ho).1
      · rw [if_neg hk'] at ho'
        exact hx.alone k k' o o' ho ho' heq
  handle k p hp := by
    by_cases hk : k = c'.handle
    · exact ⟨id, c', by rw [OrdMap.getElem?_insert, if_pos rfl], hk.symm⟩
    · rw [h.others k hk] at hp
      by_cases hkc : k = c.handle
      · rw [if_pos hkc] at hp
        cases hp
      · rw [if_neg hkc] at hp
        obtain ⟨j, o, ho, hoh⟩ := hx.handle k p hp
        have hj : j ≠ id := by
          intro heq
          rw [heq, h.record] at ho
          cases ho
          exact hkc hoh.symm
        exact ⟨j, o, by rw [OrdMap.getElem?_insert, if_neg hj, ho], hoh⟩
  mapped k o ho hm := by
    rw [OrdMap.getElem?_insert] at ho
    by_cases hk : k = id
    · rw [if_pos hk] at ho
      cases ho
      rw [h.mappings, if_pos ⟨hm, rfl⟩, h.size]
    · rw [if_neg hk] at ho
      have h1 : ¬(c'.mapped = true ∧ o.va = c'.va) := fun hc =>
        ne_of_apart (hx.size id c h.record) (hx.size k o ho) (h.unused hc.1 k o hk ho hm) hc.2.symm
      have h2 : ¬(c.mapped = true ∧ o.va = c.va) := fun hc =>
        ne_of_apart (hx.size id c h.record) (hx.size k o ho) (hx.unused id k c o (Ne.symm hk) h.record ho hc.1 hm) hc.2.symm
      rw [h.mappings, if_neg h1, if_neg h2]
      exact hx.mapped k o ho hm
  mapping va mp hmp := by
    rw [h.mappings] at hmp
    by_cases h1 : c'.mapped = true ∧ va = c'.va
    · rw [if_pos h1] at hmp
      cases hmp
      exact ⟨id, c', by rw [OrdMap.getElem?_insert, if_pos rfl], h1.1, h1.2.symm, rfl⟩
    · rw [if_neg h1] at hmp
      by_cases h2 : c.mapped = true ∧ va = c.va
      · rw [if_pos h2] at hmp
        cases hmp
      · rw [if_neg h2] at hmp
        obtain ⟨k, o, ho, hm, hva, hh⟩ := hx.mapping va mp hmp
        have hk : k ≠ id := by
          intro heq
          rw [heq, h.record] at ho
          cases ho
          exact h2 ⟨hm, hva.symm⟩
        exact ⟨k, o, by rw [OrdMap.getElem?_insert, if_neg hk, ho], hm, hva, hh⟩
  reservations := h.reservations.trans hx.reservations

/-- So the manager stays in order. -/
theorem Move.sound (h : Move x id c c' d') (hx : x.Sound) :
    (⟨{ x.m with chunks := x.m.chunks.insert id c' }, d'⟩ : Managed β).Sound where
  toDescribes := h.describes hx
  serial := hx.serial
  gran := hx.gran
  size k o ho := by
    rw [OrdMap.getElem?_insert] at ho
    by_cases hk : k = id
    · rw [if_pos hk] at ho
      cases ho
      rw [h.size]
      exact hx.size id c h.record
    · rw [if_neg hk] at ho
      exact hx.size k o ho
  ids k o ho := by
    rw [OrdMap.getElem?_insert] at ho
    by_cases hk : k = id
    · rw [hk]
      exact hx.ids id c h.record
    · rw [if_neg hk] at ho
      exact hx.ids k o ho
  range := hx.range
  apart := hx.apart
  inside k o ho hm := by
    rw [OrdMap.getElem?_insert] at ho
    by_cases hk : k = id
    · rw [if_pos hk] at ho
      cases ho
      rw [h.size]
      exact h.inside hm
    · rw [if_neg hk] at ho
      exact hx.inside k o ho hm
  unused k k' o o' hne ho ho' hm hm' := by
    rw [OrdMap.getElem?_insert] at ho ho'
    by_cases hk : k = id
    · have hk' : k' ≠ id := fun heq => hne (hk.trans heq.symm)
      rw [if_pos hk] at ho
      rw [if_neg hk'] at ho'
      cases ho
      rw [h.size]
      exact h.unused hm k' o' hk' ho' hm'
    · rw [if_neg hk] at ho
      by_cases hk' : k' = id
      · rw [if_pos hk'] at ho'
        cases ho'
        rw [h.size]
        exact (h.unused hm' k o hk ho hm).symm
      · rw [if_neg hk'] at ho'
        exact hx.unused k k' o o' hne ho ho' hm hm'

/-- To the model one chunk changed. -/
theorem abs_insert (m : Manager) (id : BitVec 32) (c : ManagedChunk) :
    Manager.abs { m with chunks := m.chunks.insert id c } = { m.abs with chunks := m.abs.chunks.insert id c.abs } := by
  unfold Manager.abs
  congr 1
  apply Std.ExtTreeMap.ext_getElem?
  intro k
  rw [Std.ExtTreeMap.getElem?_map, OrdMap.getElem?_insert, OrdMap.getElem?_insert, Std.ExtTreeMap.getElem?_map]
  by_cases hk : k = id
  · rw [if_pos hk, if_pos hk]
    rfl
  · rw [if_neg hk, if_neg hk]

/-- Writing a chunk changes that chunk of the model. -/
theorem abs_setChunk {g : FuzzChunk → FuzzChunk} (ht : t.owner = m.serial) (hc : m.chunks[t.id]? = some c)
    (hg : c'.abs = g c.abs) : (m.setChunk t c').abs = m.abs.change t g := by
  unfold Fuzz.change
  rw [live_of_chunk ht hc]
  show Manager.abs _ = _
  rw [show m.setChunk t c' = { m with chunks := m.chunks.insert t.id c' } from rfl, abs_insert, hg]

/-- A call that changed one chunk and kept its contents. -/
theorem Done.move {call : ManagerCall} {v : call.Result} {w' : Watched β} (c' : ManagedChunk) (hx : x.Sound) (hlate : w'.late = false)
    (hmove : Move x t.id c c' w'.d) (hdata : ManagerAux.data w'.d c' = ManagerAux.data x.d c) (hallow : x.m.abs.Allows call)
    (hans : x.m.abs.Answers call v) (hafter : (x.m.setChunk t c').abs = x.m.abs.after call v) :
    Done x call v (x.m.setChunk t c') w' where
  late := hlate
  allows := hallow
  answers := hans
  after := hafter
  sound := hmove.sound hx
  data k o o' ho ho' := by
    unfold Manager.setChunk at ho'
    rw [OrdMap.getElem?_insert] at ho'
    by_cases hk : k = t.id
    · rw [if_pos hk] at ho'
      rw [hk, hmove.record] at ho
      cases ho
      cases ho'
      exact hdata
    · rw [if_neg hk, ho] at ho'
      cases ho'
      unfold ManagerAux.data
      rw [hmove.handles hx hk ho]

/-! ## Mapping and unmapping -/

/-- The first call of the driver failed. -/
theorem Undone.first {call : ManagerCall} {e : fails = true ∨ ¬x.m.abs.Allows call} :
    Undone fails x call x.m { d := x.d, fresh := false } :=
  .inl ⟨rfl, rfl, rfl, e⟩

/-- `unmap` does what the model does, or nothing. -/
theorem unmap_wp (hx : x.Sound) : wp (Cuda.watched β fails) (unmap t) (Done x (.unmap t)) (fun _ => Undone fails x (.unmap t))
    x.m { d := x.d } := by
  refine mappedChunk_wp hx.serial (fun c ht hc hm => ?_) fun f hno => Undone.refused hno
  have hlive := live_of_chunk ht hc
  have hmp := hx.mapped t.id c hc hm
  rw [wp_bind]
  refine cu_wp (fun v y hacc hv => ?_) fun e hfail => Undone.first (e := ?_)
  · obtain ⟨hid, p, hp⟩ := hx.chunk t.id c hc
    refine Done.move (c := c) { c with va := 0 } hx rfl ?_ rfl ⟨c.abs, c.va, hlive, abs_mapped hm⟩ ?_
      (abs_setChunk ht hc rfl)
    · refine ⟨hc, hid, rfl, ⟨p, hp⟩, .inl rfl, ?_, ?_, rfl, nofun, nofun⟩
      · intro h hne
        rw [if_neg hne]
        rfl
      · intro va
        rw [if_neg (fun h => nomatch h.1)]
        show (x.d.mappings.erase c.va)[va]? = _
        rw [OrdMap.getElem?_erase]
        by_cases hva : va = c.va
        · rw [if_pos hva, if_pos ⟨hm, hva⟩]
        · rw [if_neg hva, if_neg fun h => hva h.2]
    · show (x.m.abs.live t).bind FuzzChunk.mapped = some c.va
      rw [hlive]
      exact abs_mapped hm
  · exact hfail.imp_right fun hacc => absurd ⟨_, hmp, rfl⟩ hacc

/-- Access to a mapped range. -/
theorem grant_wp {va : Ptr} (mp : Mapping) {Q : Unit → Manager → Watched β → Prop} {E : Fault → Manager → Watched β → Prop}
    (hmp : w.d.mappings[va]? = some mp)
    (hok : Q () m { w with d := { w.d with mappings := w.d.mappings.insert va { mp with rw := true } }, fresh := false })
    (hfail : ∀ e : CuError, fails = true → E (.cu e) m { w with fresh := false, late := w.late || !w.fresh }) :
    wp (Cuda.watched β fails) (grant va mp.size) Q E m w := by
  unfold grant
  rw [wp_bind, wp_get, wp_bind]
  refine cu_wp (fun v y hacc hv => ?_) fun e he => hfail e ?_
  · have hafter : w.d.after (.setAccess va mp.size m.device) v y =
        { w.d with mappings := w.d.mappings.insert va { mp with rw := true } } := by
      unfold Cuda.after
      simp only [hmp]
    rw [hafter]
    exact hok
  · exact he.resolve_right fun hacc => hacc ⟨mp, hmp, rfl⟩

/-- Map a range for the device to read and write. A mapping that the access failed for stays. -/
theorem mapGrant_wp {va : Ptr} {size : Size} {h : Handle} {α : Type} {k : ManagerM α} {Q : α → Manager → Watched β → Prop}
    {E : Fault → Manager → Watched β → Prop}
    (hok : w.d.Accepts (.map va size h) → wp (Cuda.watched β fails) k Q E m
      { w with d := { w.d with mappings := w.d.mappings.insert va ⟨size, h, true⟩ }, fresh := false })
    (hfirst : ∀ e : CuError, (fails = true ∨ ¬w.d.Accepts (.map va size h)) →
      E (.cu e) m { w with fresh := false, late := w.late || !w.fresh })
    (hsecond : ∀ e : CuError, fails = true →
      E (.cu e) m { d := { w.d with mappings := w.d.mappings.insert va ⟨size, h, false⟩ }, fresh := false, late := true }) :
    wp (Cuda.watched β fails) (do
      let _ ← cu (.map va size h)
      grant va size
      k) Q E m w := by
  rw [wp_bind]
  refine cu_wp (fun v y hacc hv => ?_) hfirst
  rw [wp_bind]
  have hmp : (w.d.mappings.insert va ⟨size, h, false⟩)[va]? = some ⟨size, h, false⟩ := by
    rw [OrdMap.getElem?_insert, if_pos rfl]
  refine grant_wp ⟨size, h, false⟩ hmp ?_ fun e he => ?_
  · have hk := hok hacc
    rw [← OrdMap.insert_insert _ _ ⟨size, h, false⟩] at hk
    exact hk
  · have hs := hsecond e he
    show E _ _ { d := _, fresh := false, late := w.late || true }
    rw [Bool.or_true]
    exact hs

/-! ## Inside one reservation -/

/-- A range in one reservation passes the check: the reservation is the last one at or below its start. -/
theorem insideReservation_of_inside (hx : x.Sound) {va : Ptr} {size : Size} (hsize : size ≠ 0) (h : x.m.abs.Inside va size) :
    x.m.insideReservation va size = true := by
  obtain ⟨base, len, hr, hle, hend⟩ := h
  have hr : x.m.reservations[base]? = some len := hr
  obtain ⟨-, -, hlt⟩ := hx.range base len hr
  have hpos : size.toNat ≠ 0 := fun h0 => hsize (BitVec.eq_of_toNat_eq (by simpa using h0))
  have hf : x.m.reservations.floor? va = some (base, len) := by
    refine OrdMap.floor?_eq_some_iff.2 ⟨hr, by rwa [OrdMap.isLE_iff, BitVec.le_def], ?_⟩
    intro base' len' hr' hle'
    rw [OrdMap.isLE_iff, BitVec.le_def] at hle' ⊢
    -- a reservation that began between would overlap this one
    by_contra hgt
    have hne : base ≠ base' := by
      intro heq
      rw [heq] at hgt
      exact hgt le_rfl
    have hne' : len' ≠ 0 := (hx.range base' len' hr').2.1
    have hpos' : len'.toNat ≠ 0 := fun h0 => hne' (BitVec.eq_of_toNat_eq (by simpa using h0))
    rcases hx.apart base base' len len' hne hr hr' with hap | hap
    all_goals omega
  unfold Manager.insideReservation
  rw [hf]
  refine decide_eq_true ?_
  rw [BitVec.le_def, BitVec.toNat_add, BitVec.toNat_add, Nat.mod_eq_of_lt (by omega), Nat.mod_eq_of_lt (by omega)]
  exact hend

/-- A range that passes the check, and that the driver maps, lies in one reservation. The sum in the check may wrap, but then the range
reaches the end of the address space, where no reservation is. -/
theorem inside_of_accepts (hx : x.Sound) {va : Ptr} {size : Size} {h : Handle} (hin : x.m.insideReservation va size = true)
    (hacc : x.d.Accepts (.map va size h)) : x.m.abs.Inside va size := by
  unfold Manager.insideReservation at hin
  cases hf : x.m.reservations.floor? va with
  | none =>
    rw [hf] at hin
    cases hin
  | some bl =>
    obtain ⟨base, len⟩ := bl
    rw [hf] at hin
    obtain ⟨hr, hle, -⟩ := OrdMap.floor?_eq_some_iff.1 hf
    rw [OrdMap.isLE_iff, BitVec.le_def] at hle
    obtain ⟨-, -, hlt⟩ := hx.range base len hr
    have hend := of_decide_eq_true hin
    rw [BitVec.le_def, BitVec.toNat_add, BitVec.toNat_add, Nat.mod_eq_of_lt hlt] at hend
    by_cases hwrap : va.toNat + size.toNat < 2 ^ 64
    · rw [Nat.mod_eq_of_lt hwrap] at hend
      exact ⟨base, len, hr, hle, hend⟩
    · have hva := va.isLt
      obtain ⟨base', len', hr', hle', hlt'⟩ := hacc.2.1 (2 ^ 64 - 1) (by omega) (by omega)
      rw [hx.reservations] at hr'
      have hrange := (hx.range base' len' hr').2.2
      omega

/-- The driver maps a chunk where the model allows it. -/
theorem accepts_of_allows (hx : x.Sound) (hc : x.m.chunks[id]? = some c) {va : Ptr} (hin : x.m.abs.Inside va c.size)
    (hun : x.m.abs.Unused va c.size) : x.d.Accepts (.map va c.size c.handle) := by
  obtain ⟨-, y, hy⟩ := hx.chunk id c hc
  obtain ⟨base, len, hr, hle, hend⟩ := hin
  refine ⟨⟨_, hy, rfl⟩, ?_, (unused_iff hx.toDescribes va c.size).1 hun⟩
  intro a hva ha
  exact ⟨base, len, by rw [hx.reservations]; exact hr, by omega, by omega⟩

/-- A mapping that the device may not access is not what the records say. -/
theorem not_describes_of_mapping {d' : Cuda β} (va : Ptr) (size : Size) (h : Handle)
    (hmp : d'.mappings[va]? = some ⟨size, h, false⟩) : ¬(⟨m, d'⟩ : Managed β).Describes := by
  intro hd
  obtain ⟨k, o, ho, hm, hva, -⟩ := hd.mapping va _ hmp
  have hmp' := hd.mapped k o ho hm
  rw [hva] at hmp'
  cases hmp.symm.trans hmp'

/-- `map` does what the model does, or nothing but a late fault. -/
theorem map_wp (hx : x.Sound) {va : Ptr} : wp (Cuda.watched β fails) (map t va) (Done x (.map t va))
    (fun _ => Undone fails x (.map t va)) x.m { d := x.d } := by
  unfold map
  rw [wp_bind]
  refine chunkOf_wp hx.serial (fun c ht hc => ?_) fun f hnone => Undone.refused fun hallow => ?_
  · have hlive := live_of_chunk ht hc
    have hsize := hx.size t.id c hc
    -- what the model says of this call
    have hallows : x.m.abs.Allows (.map t va) ↔
        c.mapped = false ∧ va % x.m.gran = 0 ∧ x.m.abs.Inside va c.size ∧ x.m.abs.Unused va c.size := by
      constructor
      · intro hallow
        obtain ⟨ch, hl, hmapped, hrest⟩ := hallow
        rw [hlive] at hl
        cases hl
        refine ⟨?_, hrest⟩
        cases hm : c.mapped with
        | false => rfl
        | true =>
          rw [abs_mapped hm] at hmapped
          cases hmapped
      · intro h
        exact ⟨c.abs, hlive, abs_unmapped h.1, h.2⟩
    rw [wp_bind]
    refine require_wp (fun hm => ?_) fun hm => Undone.refused fun h => hm (hallows.1 h).1
    rw [wp_bind, wp_get, wp_bind]
    refine require_wp (fun hal => ?_) fun hal => Undone.refused fun h => hal (hallows.1 h).2.1
    rw [wp_bind]
    refine require_wp (fun hin => ?_) fun hin => Undone.refused fun h =>
      hin (insideReservation_of_inside hx hsize (hallows.1 h).2.2.1)
    refine mapGrant_wp (fun hacc => ?_) (fun e he => Undone.first (e := he.imp_right fun hacc h => hacc ?_)) fun e he =>
      .inr ⟨rfl, he, not_describes_of_mapping va c.size c.handle ?_⟩
    · have hin' := inside_of_accepts hx hin hacc
      obtain ⟨hid, p, hp⟩ := hx.chunk t.id c hc
      have hun := (unused_iff hx.toDescribes va c.size).2 hacc.2.2
      have hne : va ≠ 0 := by
        obtain ⟨base, len, hr, hle, -⟩ := hin'
        intro h0
        refine (hx.range base len hr).1 (BitVec.eq_of_toNat_eq ?_)
        rw [h0] at hle
        simpa using hle
      have hm' : ({ c with va } : ManagedChunk).mapped = true := bne_iff_ne.2 hne
      refine Done.move (c := c) { c with va } hx rfl ?_ rfl (hallows.2 ⟨hm, hal, hin', hun⟩) rfl
        (abs_setChunk ht hc ?_)
      · refine ⟨hc, hid, rfl, ⟨p, hp⟩, .inl rfl, ?_, ?_, rfl, fun _ => hin', ?_⟩
        · intro h hne
          rw [if_neg hne]
        · intro va'
          show (x.d.mappings.insert va _)[va']? = _
          rw [OrdMap.getElem?_insert]
          by_cases hva : va' = va
          · rw [if_pos hva, if_pos ⟨hm', hva⟩]
          · rw [if_neg hva, if_neg fun h => hva h.2, if_neg fun h => by rw [hm] at h; exact nomatch h.1]
        · intro _ k o hk ho hom
          exact hun k o.abs o.va (by rw [abs_chunk, ho]; rfl) (abs_mapped hom)
      · show ManagedChunk.abs _ = _
        unfold ManagedChunk.abs
        rw [if_pos hm']
    · exact (OrdMap.getElem?_insert _ _ _ _).trans (if_pos rfl)
    · exact accepts_of_allows hx hc (hallows.1 h).2.2.1 (hallows.1 h).2.2.2
  · obtain ⟨ch, hlive, -⟩ := hallow
    rw [hnone] at hlive
    cases hlive

/-! ## Moving the contents -/

/-- A call of the driver after its first: it accepts the call. -/
theorem later_wp {call : CuCall} {d : Cuda β} {Q : BitVec 64 → Manager → Watched β → Prop} {E : Fault → Manager → Watched β → Prop}
    (hacc : d.Accepts call) (hok : ∀ (v : BitVec 64) (y : β), d.Gives call v → Q v m ⟨d.after call v y, false, false⟩)
    (hE : ∀ e : CuError, fails = true → E (.cu e) m ⟨d, false, true⟩) :
    wp (Cuda.watched β fails) (cu call) Q E m ⟨d, false, false⟩ :=
  cu_wp (fun v y _ hv => hok v y hv) fun e he => hE e (he.resolve_right fun h => h hacc)

variable {scratch : Ptr} {nh : Handle} {E : Fault → Manager → Watched β → Prop}

/-- The contents are copied through a scratch range, which is unmapped again. -/
theorem copyTo_wp {d : Cuda β} {h : Handle} {p q : Phys β} {Q : Unit → Manager → Watched β → Prop}
    (hnh : d.handles[nh]? = some p) (hsrc : d.mappings[c.va]? = some ⟨c.size, h, true⟩) (hq : d.handles[h]? = some q)
    (hne : c.va ≠ scratch) (hacc : d.Accepts (.map scratch c.size nh))
    (hE : ∀ (e : CuError) (d' : Cuda β), fails = true → d'.handles[nh]? ≠ none → E (.cu e) m ⟨d', false, true⟩)
    (hok : Q () m ⟨{ d with
      handles := d.handles.insert nh { p with data := q.data }
      mappings := d.mappings.insert scratch ⟨c.size, nh, true⟩ }, false, false⟩) :
    wp (Cuda.watched β fails) (copyTo c scratch nh) Q E m ⟨d, false, false⟩ := by
  have hnone : d.handles[nh]? ≠ none := by
    rw [hnh]
    exact nofun
  unfold copyTo
  refine mapGrant_wp (fun _ => ?_) (fun e he => hE e d (he.resolve_right fun h => h hacc) hnone) fun e he => hE e _ he hnone
  have hdst : (d.mappings.insert scratch ⟨c.size, nh, true⟩)[scratch]? = some ⟨c.size, nh, true⟩ := by
    rw [OrdMap.getElem?_insert, if_pos rfl]
  have hsrc' : (d.mappings.insert scratch ⟨c.size, nh, true⟩)[c.va]? = some ⟨c.size, h, true⟩ := by
    rw [OrdMap.getElem?_insert, if_neg hne, hsrc]
  rw [wp_bind]
  refine later_wp ⟨⟨_, hdst, rfl, rfl⟩, _, hsrc', rfl, rfl⟩ (fun v y _ => ?_) fun e he => hE e _ he hnone
  have hafter : Cuda.after { d with mappings := d.mappings.insert scratch ⟨c.size, nh, true⟩ } (.memcpyDtoD scratch c.va c.size) v y =
      { d with
        handles := d.handles.insert nh { p with data := q.data }
        mappings := d.mappings.insert scratch ⟨c.size, nh, true⟩ } := by
    unfold Cuda.after Cuda.contents Cuda.write
    simp only [hdst, hsrc', hq, hnh, Option.map_some]
  rw [hafter, wp_bind]
  refine later_wp trivial (fun v y _ => hok) fun e he => hE e _ he ?_
  rw [OrdMap.getElem?_insert, if_pos rfl]
  exact nofun

/-- The new handle is mapped in the place of the old one, or the old one comes back. -/
theorem swap_wp {d : Cuda β} {p : Phys β} {Q : Unit → Manager → Watched β → Prop}
    (hmp : d.mappings[c.va]? = some ⟨c.size, c.handle, true⟩) (hold : ∃ q, d.handles[c.handle]? = some q)
    (hnh : d.handles[nh]? = some p) (hne : nh ≠ c.handle)
    (hacc : Cuda.Accepts { d with handles := d.handles.erase c.handle, mappings := d.mappings.erase c.va } (.map c.va c.size nh))
    (hE : ∀ (e : CuError) (d' : Cuda β), fails = true → d'.handles[nh]? ≠ none → E (.cu e) m ⟨d', false, true⟩)
    (hok : Q () m ⟨{ d with
      handles := d.handles.erase c.handle
      mappings := d.mappings.insert c.va ⟨c.size, nh, true⟩ }, false, false⟩) :
    wp (Cuda.watched β fails) (swap c nh) Q E m ⟨d, false, false⟩ := by
  have hnone : d.handles[nh]? ≠ none := by
    rw [hnh]
    exact nofun
  have hnone' : (d.handles.erase c.handle)[nh]? ≠ none := by
    rw [OrdMap.getElem?_erase, if_neg hne]
    exact hnone
  unfold swap
  rw [wp_bind]
  refine later_wp ⟨_, hmp, rfl⟩ (fun _ _ _ => ?_) fun e he => hE e _ he hnone
  rw [wp_bind]
  refine later_wp hold (fun _ _ _ => ?_) fun e he => hE e _ he hnone
  have hwp : wp (Cuda.watched β fails) (do
      let _ ← cu (.map c.va c.size nh)
      grant c.va c.size
      pure ()) Q E m ⟨{ d with handles := d.handles.erase c.handle, mappings := d.mappings.erase c.va }, false, false⟩ :=
    mapGrant_wp (fun _ => ?_) (fun e he => hE e _ (he.resolve_right fun h => h hacc) hnone') fun e he => hE e _ he hnone'
  · rw [bind_pure_unit] at hwp
    exact hwp
  · rw [wp_pure]
    show Q () m ⟨{ d with handles := _, mappings := (d.mappings.erase c.va).insert c.va _ }, false, false⟩
    rw [OrdMap.insert_erase]
    exact hok

/-- A range that was just reserved is no reservation of the manager, and nothing is mapped in it. -/
theorem fresh_range (hx : x.Sound) {size align : Size} {v : BitVec 64} (hv : x.d.Gives (.reserve size align) v) :
    x.m.reservations[v]? = none ∧ ∀ (va : Ptr) (mp : Mapping), x.d.mappings[va]? = some mp → Apart v size va mp.size := by
  obtain ⟨⟨hsize, -, -, hap⟩, -⟩ := hv
  refine ⟨?_, fun va mp hmp => ?_⟩
  · cases hr : x.m.reservations[v]? with
    | none => rfl
    | some s => exact absurd rfl (ne_of_apart hsize (hx.range v s hr).2.1 (hap v s (by rw [hx.reservations]; exact hr)))
  · obtain ⟨k, o, ho, hm, rfl, -⟩ := hx.mapping va mp hmp
    have hmp' := hx.mapped k o ho hm
    rw [hmp] at hmp'
    cases hmp'
    obtain ⟨base, len, hr, hle, hend⟩ := hx.inside k o ho hm
    have hr : x.m.reservations[base]? = some len := hr
    have h := hap base len (by rw [hx.reservations]; exact hr)
    unfold Apart at h ⊢
    dsimp only
    omega

/-- A handle that no record names is not what the records say. -/
theorem not_describes_of_handle (hx : x.Describes) {d' : Cuda β} (hnone : x.d.handles[nh]? = none) (hsome : d'.handles[nh]? ≠ none) :
    ¬(⟨x.m, d'⟩ : Managed β).Describes := by
  intro hd
  obtain ⟨p, hp⟩ := Option.ne_none_iff_exists'.1 hsome
  obtain ⟨k, o, ho, hoh⟩ := hd.handle nh p hp
  obtain ⟨-, y, hy⟩ := hx.chunk k o ho
  rw [hoh, hnone] at hy
  cases hy

/-- The properties of a location name it. -/
theorem prop_loc (m : Manager) (l : Loc) : (m.prop l).loc = l := by
  cases l with
  | device => rfl
  | host => rfl

/-- The driver after a `remap`: the scratch range is gone again. -/
def remapped (d : Cuda β) (c : ManagedChunk) (scratch : Ptr) (nh : Handle) (p : Phys β) : Cuda β where
  reservations := d.reservations
  handles := (d.handles.insert nh p).erase c.handle
  mappings := ((d.mappings.insert scratch ⟨c.size, nh, true⟩).insert c.va ⟨c.size, nh, true⟩).erase scratch

/-- A chunk whose contents were moved has a new handle. -/
theorem remapped_move (hx : x.Sound) (hc : x.m.chunks[id]? = some c) (hm : c.mapped = true) {p : Phys β} (hp : p.size = c.size)
    (hnone : x.d.handles[nh]? = none) (hscratch : ∀ (va : Ptr) (mp : Mapping), x.d.mappings[va]? = some mp → Apart scratch c.size va mp.size) :
    Move x id c { c with handle := nh, loc := p.loc } (remapped x.d c scratch nh p) := by
  obtain ⟨hid, y, hy⟩ := hx.chunk id c hc
  have hsize := hx.size id c hc
  have hne : nh ≠ c.handle := by
    intro heq
    rw [heq, hy] at hnone
    cases hnone
  have hva : scratch ≠ c.va := ne_of_apart hsize hsize (hscratch _ _ (hx.mapped id c hc hm))
  have hs : x.d.mappings[scratch]? = none := by
    cases hmp : x.d.mappings[scratch]? with
    | none => rfl
    | some mp =>
      obtain ⟨k, o, ho, hom, rfl, -⟩ := hx.mapping scratch mp hmp
      exact absurd rfl (ne_of_apart hsize (hx.size k o ho) (hscratch _ _ (hx.mapped k o ho hom)))
  refine ⟨hc, hid, rfl, ⟨p.data, ?_⟩, .inr hnone, ?_, ?_, rfl, fun _ => hx.inside id c hc hm,
    fun _ k o hk ho hom => hx.unused id k c o (Ne.symm hk) hc ho hm hom⟩
  · show ((x.d.handles.insert nh p).erase c.handle)[nh]? = _
    rw [OrdMap.getElem?_erase, if_neg hne, OrdMap.getElem?_insert, if_pos rfl, ← hp]
  · intro h hh
    show ((x.d.handles.insert nh p).erase c.handle)[h]? = _
    rw [OrdMap.getElem?_erase, OrdMap.getElem?_insert, if_neg hh]
  · intro va
    show (((x.d.mappings.insert scratch _).insert c.va _).erase scratch)[va]? = _
    rw [OrdMap.getElem?_erase, OrdMap.getElem?_insert, OrdMap.getElem?_insert]
    by_cases h1 : va = c.va
    · rw [if_neg fun h => hva (h.symm.trans h1), if_pos h1, if_pos ⟨hm, h1⟩]
    · have h3 : ¬(({ c with handle := nh, loc := p.loc } : ManagedChunk).mapped = true ∧ va = c.va) := fun h => h1 h.2
      have h4 : ¬(c.mapped = true ∧ va = c.va) := fun h => h1 h.2
      rw [if_neg h1, if_neg h3, if_neg h4]
      by_cases h2 : va = scratch
      · rw [if_pos h2, h2, hs]
      · rw [if_neg h2, if_neg h2]

/-- While the contents move, the driver accepts the range of the chunk for the new handle. -/
theorem accepts_swapped (hx : x.Sound) (hc : x.m.chunks[id]? = some c) (hm : c.mapped = true) {p : Phys β} (hp : p.size = c.size)
    (hnone : x.d.handles[nh]? = none) (hr : x.m.reservations[scratch]? = none)
    (hscratch : ∀ (va : Ptr) (mp : Mapping), x.d.mappings[va]? = some mp → Apart scratch c.size va mp.size) :
    Cuda.Accepts ({
      reservations := x.d.reservations.insert scratch c.size
      handles := (x.d.handles.insert nh p).erase c.handle
      mappings := (x.d.mappings.insert scratch ⟨c.size, nh, true⟩).erase c.va } : Cuda β) (.map c.va c.size nh) := by
  refine ⟨⟨p, ?_, hp⟩, ?_, ?_⟩
  · have hne : nh ≠ c.handle := by
      intro heq
      obtain ⟨-, y, hy⟩ := hx.chunk id c hc
      rw [heq, hy] at hnone
      cases hnone
    show ((x.d.handles.insert nh p).erase c.handle)[nh]? = _
    rw [OrdMap.getElem?_erase, if_neg hne, OrdMap.getElem?_insert, if_pos rfl]
  · intro a hva ha
    obtain ⟨base, len, hbase, hle, hend⟩ := hx.inside id c hc hm
    have hbase : x.m.reservations[base]? = some len := hbase
    have hne : base ≠ scratch := by
      intro heq
      rw [heq, hr] at hbase
      cases hbase
    refine ⟨base, len, ?_, by omega, by omega⟩
    show (x.d.reservations.insert scratch c.size)[base]? = _
    rw [OrdMap.getElem?_insert, if_neg hne, hx.reservations, hbase]
  · intro va' mp hmp
    have hmp : ((x.d.mappings.insert scratch ⟨c.size, nh, true⟩).erase c.va)[va']? = some mp := hmp
    rw [OrdMap.getElem?_erase] at hmp
    by_cases h1 : va' = c.va
    · rw [if_pos h1] at hmp
      cases hmp
    · rw [if_neg h1, OrdMap.getElem?_insert] at hmp
      by_cases h2 : va' = scratch
      · rw [if_pos h2] at hmp
        cases hmp
        rw [h2]
        exact (hscratch _ _ (hx.mapped id c hc hm)).symm
      · rw [if_neg h2] at hmp
        obtain ⟨k, o, ho, hom, rfl, -⟩ := hx.mapping va' mp hmp
        have hk : k ≠ id := by
          intro heq
          rw [heq, hc] at ho
          cases ho
          exact h1 rfl
        have hmp' := hx.mapped k o ho hom
        rw [hmp] at hmp'
        cases hmp'
        exact hx.unused id k c o (Ne.symm hk) hc ho hm hom

/-- The rest of `remap`, when the contents are in the scratch range. -/
theorem remapEnd_wp (c' : ManagedChunk) {p : Phys β} {Q : Ptr → Manager → Watched β → Prop} (hx : x.Sound) (hc : x.m.chunks[t.id]? = some c)
    (hm : c.mapped = true) (hp : p.size = c.size) (hnone : x.d.handles[nh]? = none) (hr : x.m.reservations[scratch]? = none)
    (hscratch : ∀ (va : Ptr) (mp : Mapping), x.d.mappings[va]? = some mp → Apart scratch c.size va mp.size)
    (hE : ∀ (e : CuError) (d' : Cuda β), fails = true → d'.handles[nh]? ≠ none → E (.cu e) x.m ⟨d', false, true⟩)
    (hQ : Q c.va (x.m.setChunk t c') ⟨remapped x.d c scratch nh p, false, false⟩) :
    wp (Cuda.watched β fails) (do
      swap c nh
      let _ ← cu (.unmap scratch c.size)
      let _ ← cu (.addressFree scratch c.size)
      modify fun m => m.setChunk t c'
      pure c.va) Q E x.m ⟨{
        reservations := x.d.reservations.insert scratch c.size
        handles := x.d.handles.insert nh p
        mappings := x.d.mappings.insert scratch ⟨c.size, nh, true⟩ }, false, false⟩ := by
  obtain ⟨-, y, hy⟩ := hx.chunk t.id c hc
  have hsize := hx.size t.id c hc
  have hmp := hx.mapped t.id c hc hm
  have hva : scratch ≠ c.va := ne_of_apart hsize hsize (hscratch _ _ hmp)
  have hne : nh ≠ c.handle := by
    intro heq
    rw [heq, hy] at hnone
    cases hnone
  have hsome : (x.d.handles.insert nh p)[nh]? = some p := by rw [OrdMap.getElem?_insert, if_pos rfl]
  have hsome' : ((x.d.handles.insert nh p).erase c.handle)[nh]? ≠ none := by
    rw [OrdMap.getElem?_erase, if_neg hne, hsome]
    exact nofun
  have hmp' : (x.d.mappings.insert scratch ⟨c.size, nh, true⟩)[c.va]? = some ⟨c.size, c.handle, true⟩ := by
    rw [OrdMap.getElem?_insert, if_neg (Ne.symm hva), hmp]
  have hold : (x.d.handles.insert nh p)[c.handle]? = some ⟨c.size, c.loc, y⟩ := by
    rw [OrdMap.getElem?_insert, if_neg (Ne.symm hne), hy]
  rw [wp_bind]
  refine swap_wp hmp' ⟨_, hold⟩ hsome hne (accepts_swapped hx hc hm hp hnone hr hscratch) hE ?_
  rw [wp_bind]
  refine later_wp ⟨⟨c.size, nh, true⟩, ?_, rfl⟩ (fun _ _ _ => ?_) fun e he => hE e _ he hsome'
  · show ((x.d.mappings.insert scratch _).insert c.va _)[scratch]? = _
    rw [OrdMap.getElem?_insert, if_neg hva, OrdMap.getElem?_insert, if_pos rfl]
  · rw [wp_bind]
    refine later_wp ⟨(OrdMap.getElem?_insert _ _ _ _).trans (if_pos rfl), ?_⟩ (fun _ _ _ => ?_) fun e he => hE e _ he hsome'
    · intro va' mp hmp''
      have hmp'' : (remapped x.d c scratch nh p).mappings[va']? = some mp := hmp''
      rw [(remapped_move hx hc hm hp hnone hscratch).mappings] at hmp''
      split at hmp''
      · have hva' : va' = c.va := And.right ‹_›
        cases hmp''
        rw [hva']
        have hap := hscratch _ _ hmp
        exact hap
      · split at hmp''
        · cases hmp''
        · exact hscratch _ _ hmp''
    · rw [wp_bind, wp_modify, wp_pure]
      have hnone' : x.d.reservations[scratch]? = none := by rw [hx.reservations, hr]
      show Q _ _ ⟨({ reservations := (x.d.reservations.insert scratch c.size).erase scratch, handles := _, mappings := _ } : Cuda β), _, _⟩
      rw [OrdMap.erase_insert _ hnone']
      exact hQ

/-- `remap` does what the model does, or nothing but a late fault. -/
theorem remap_wp (hx : x.Sound) {target : Loc} : wp (Cuda.watched β fails) (remap t target) (Done x (.remap t target))
    (fun _ => Undone fails x (.remap t target)) x.m { d := x.d } := by
  refine mappedChunk_wp hx.serial (fun c ht hc hm => ?_) fun f hno => Undone.refused hno
  have hlive := live_of_chunk ht hc
  have hallow : x.m.abs.Allows (.remap t target) := ⟨c.abs, c.va, hlive, abs_mapped hm⟩
  have hans : x.m.abs.Answers (.remap t target) c.va := by
    show (x.m.abs.live t).bind FuzzChunk.mapped = some c.va
    rw [hlive]
    exact abs_mapped hm
  rw [wp_ite]
  refine ⟨fun hloc => ?_, fun hloc => ?_⟩
  · refine Done.same hx hallow hans ?_
    show x.m.abs.change t _ = _
    have hg : c.abs = { c.abs with loc := target } := by
      rw [← hloc]
      rfl
    rw [← abs_setChunk ht hc hg]
    unfold Manager.setChunk
    rw [OrdMap.insert_of_getElem? hc]
  · have hsize := hx.size t.id c hc
    obtain ⟨hid, y, hy⟩ := hx.chunk t.id c hc
    have hmp := hx.mapped t.id c hc hm
    rw [wp_bind, wp_get, wp_bind]
    refine cu_wp (fun nh y' _ hv => ?_) fun e he => Undone.first (e := he.imp_right fun h => absurd hsize h)
    have hnone : x.d.handles[nh]? = none := hv
    have hne : nh ≠ c.handle := by
      intro heq
      rw [heq, hy] at hnone
      cases hnone
    -- from here on the new handle is there, and no record names it
    have hE : ∀ (e : CuError) (d' : Cuda β), fails = true → d'.handles[nh]? ≠ none →
        Undone fails x (.remap t target) x.m ⟨d', false, true⟩ :=
      fun _ d' he hsome => .inr ⟨rfl, he, not_describes_of_handle hx.toDescribes hnone hsome⟩
    have hsome (p : Phys β) : (x.d.handles.insert nh p)[nh]? = some p := by rw [OrdMap.getElem?_insert, if_pos rfl]
    have hsome' (p : Phys β) : (x.d.handles.insert nh p)[nh]? ≠ none := by
      rw [hsome]
      exact nofun
    have hsome'' (p : Phys β) : ((x.d.handles.insert nh p).erase c.handle)[nh]? ≠ none := by
      rw [OrdMap.getElem?_erase, if_neg hne]
      exact hsome' p
    have hold (p : Phys β) : (x.d.handles.insert nh p)[c.handle]? = some ⟨c.size, c.loc, y⟩ := by
      rw [OrdMap.getElem?_insert, if_neg (Ne.symm hne), hy]
    rw [wp_bind]
    refine later_wp hsize (fun scratch _ hr => ?_) fun e he => hE e _ he (hsome' _)
    have hr : x.d.Gives (.reserve c.size x.m.gran) scratch := hr
    obtain ⟨hrnone, hscratch⟩ := fresh_range hx hr
    have hva : scratch ≠ c.va := ne_of_apart hsize hsize (hscratch _ _ hmp)
    have hpos : scratch ≠ 0 := hr.1.2.1
    rw [wp_bind]
    refine copyTo_wp (hsome _) hmp (hold _) (Ne.symm hva) ⟨⟨_, hsome _, rfl⟩, ?_, hscratch⟩ hE ?_
    · intro a hle hlt
      exact ⟨scratch, c.size, (OrdMap.getElem?_insert _ _ _ _).trans (if_pos rfl), hle, hlt⟩
    · have hwp := remapEnd_wp { c with handle := nh, loc := target } (t := t) (E := fun _ => Undone fails x (.remap t target))
        (p := ⟨c.size, (x.m.prop target).loc, y⟩) (Q := Done x (.remap t target)) hx hc hm rfl hnone hrnone hscratch hE ?_
      · rw [← OrdMap.insert_insert x.d.handles nh ⟨c.size, (x.m.prop target).loc, y'⟩] at hwp
        exact hwp
      · have hmove := remapped_move hx hc hm (p := ⟨c.size, (x.m.prop target).loc, y⟩) rfl hnone hscratch
        rw [prop_loc] at hmove ⊢
        refine Done.move _ hx rfl hmove ?_ hallow hans (abs_setChunk ht hc rfl)
        show ((x.d.handles.insert nh _).erase c.handle)[nh]?.map Phys.data = x.d.handles[c.handle]?.map Phys.data
        rw [OrdMap.getElem?_erase, if_neg hne, hsome, hy]
        rfl

end ManagerAux

end Vmem
