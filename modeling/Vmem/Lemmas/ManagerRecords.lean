import Vmem.Lemmas.ManagerMoves

/-!
# Calls that add or remove a record

`reserve` and `free`, `create` and `release`: each makes one call of the driver and then changes one table.
-/

namespace Vmem

namespace ManagerAux

open Manager Throwing

variable {β : Type} {fails : Bool} {x : Managed β} {m : Manager} {w : Watched β} {t : ChunkToken}

/-! ## Reservations -/

/-- A reservation more, apart from the others. -/
theorem sound_reserve (hx : x.Sound) {size align : Size} {v : BitVec 64} (hv : x.d.Gives (.reserve size align) v) :
    (⟨{ x.m with reservations := x.m.reservations.insert v size },
      { x.d with reservations := x.d.reservations.insert v size }⟩ : Managed β).Sound := by
  obtain ⟨hnone, -⟩ := fresh_range hx hv
  obtain ⟨⟨hsize, hv0, -, hap⟩, hend⟩ := hv
  rw [hx.reservations] at hap
  have hold {k : Ptr} {s : Size} (hk : k ≠ v) (hs : (x.m.reservations.insert v size)[k]? = some s) : x.m.reservations[k]? = some s := by
    rwa [OrdMap.getElem?_insert, if_neg hk] at hs
  have hnew {s : Size} (hs : (x.m.reservations.insert v size)[v]? = some s) : size = s := by
    rw [OrdMap.getElem?_insert, if_pos rfl] at hs
    cases hs
    rfl
  refine { hx with range := ?_, apart := ?_, inside := ?_, reservations := ?_ }
  · exact congrArg (fun r => r.insert v size) hx.reservations
  · intro k s hs
    by_cases hk : k = v
    · subst hk
      obtain rfl := hnew hs
      exact ⟨hv0, hsize, hend⟩
    · exact hx.range k s (hold hk hs)
  · intro k k' s s' hne hs hs'
    by_cases hk : k = v
    · subst hk
      obtain rfl := hnew hs
      exact hap k' s' (hold (Ne.symm hne) hs')
    · by_cases hk' : k' = v
      · subst hk'
        obtain rfl := hnew hs'
        exact (hap k s (hold hne hs)).symm
      · exact hx.apart k k' s s' hne (hold hk hs) (hold hk' hs')
  · intro id c hc hm
    obtain ⟨base, len, hr, hle, hlt⟩ := hx.inside id c hc hm
    have hr : x.m.reservations[base]? = some len := hr
    have hne : base ≠ v := by
      intro heq
      rw [heq, hnone] at hr
      cases hr
    exact ⟨base, len, by show (x.m.reservations.insert v size)[base]? = _; rw [OrdMap.getElem?_insert, if_neg hne, hr], hle, hlt⟩

/-- `reserve` does what the model does, or nothing. -/
theorem reserve_wp (hx : x.Sound) {size : Size} : wp (Cuda.watched β fails) (reserve size) (Done x (.reserve size))
    (fun _ => Undone fails x (.reserve size)) x.m { d := x.d } := by
  unfold reserve
  rw [wp_bind, wp_get, wp_bind]
  refine cu_wp (fun v y hacc hv => ?_) fun e he => Undone.first (e := he)
  rw [wp_bind, wp_modify, wp_pure]
  refine ⟨rfl, hacc, ⟨hv.1.2.1, ?_⟩, rfl, sound_reserve hx hv, ?_⟩
  · have hap := hv.1.2.2.2
    rw [hx.reservations] at hap
    exact hap
  · intro id ch ch' hc hc'
    cases hc.symm.trans hc'
    rfl

/-- A reservation with nothing mapped inside is gone. -/
theorem sound_free (hx : x.Sound) {va : Ptr} (hno : ∀ (id : BitVec 32) (c : ManagedChunk) (len : Size), x.m.chunks[id]? = some c →
    c.mapped = true → x.m.reservations[va]? = some len → ¬(va.toNat ≤ c.va.toNat ∧ c.va.toNat < va.toNat + len.toNat)) :
    (⟨{ x.m with reservations := x.m.reservations.erase va },
      { x.d with reservations := x.d.reservations.erase va }⟩ : Managed β).Sound := by
  have hold {k : Ptr} {s : Size} (hs : (x.m.reservations.erase va)[k]? = some s) : x.m.reservations[k]? = some s := by
    rw [OrdMap.getElem?_erase] at hs
    by_cases hk : k = va
    · rw [if_pos hk] at hs
      cases hs
    · rwa [if_neg hk] at hs
  refine { hx with range := ?_, apart := ?_, inside := ?_, reservations := ?_ }
  · exact congrArg (fun r => r.erase va) hx.reservations
  · exact fun k s hs => hx.range k s (hold hs)
  · exact fun k k' s s' hne hs hs' => hx.apart k k' s s' hne (hold hs) (hold hs')
  · intro id c hc hm
    obtain ⟨base, len, hr, hle, hlt⟩ := hx.inside id c hc hm
    have hr : x.m.reservations[base]? = some len := hr
    have hpos : c.size.toNat ≠ 0 := fun h0 => hx.size id c hc (BitVec.eq_of_toNat_eq (by simpa using h0))
    have hne : base ≠ va := by
      intro heq
      rw [heq] at hr hle hlt
      exact hno id c len hc hm hr ⟨hle, by omega⟩
    exact ⟨base, len, by show (x.m.reservations.erase va)[base]? = _; rw [OrdMap.getElem?_erase, if_neg hne, hr], hle, hlt⟩

/-- The search of `free` finds nothing exactly if no mapped chunk starts in the range. -/
theorem mappedInside_eq_none (hx : x.Sound) {va : Ptr} {size : Size} (hr : x.m.reservations[va]? = some size) :
    x.m.mappedInside va size = none ↔ ∀ (id : BitVec 32) (c : ManagedChunk), x.m.chunks[id]? = some c → c.mapped = true →
      ¬(va.toNat ≤ c.va.toNat ∧ c.va.toNat < va.toNat + size.toNat) := by
  obtain ⟨-, -, hlt⟩ := hx.range va size hr
  have hend : (va + size).toNat = va.toNat + size.toNat := by rw [BitVec.toNat_add, Nat.mod_eq_of_lt hlt]
  unfold Manager.mappedInside
  rw [List.find?_eq_none]
  constructor
  · intro h id c hc hm hin
    refine h (id, c) (Std.ExtTreeMap.mem_toList_iff_getElem?_eq_some.2 hc) ?_
    rw [Bool.and_eq_true, Bool.and_eq_true, decide_eq_true_iff, decide_eq_true_iff]
    refine ⟨⟨hm, ?_⟩, ?_⟩
    · exact BitVec.le_def.2 hin.1
    · rw [BitVec.lt_def, hend]
      exact hin.2
  · intro h p hp hin
    rw [Bool.and_eq_true, Bool.and_eq_true, decide_eq_true_iff, decide_eq_true_iff] at hin
    obtain ⟨⟨hm, hle⟩, hlt'⟩ := hin
    rw [BitVec.lt_def, hend] at hlt'
    exact h p.1 p.2 (Std.ExtTreeMap.mem_toList_iff_getElem?_eq_some.1 hp) hm ⟨BitVec.le_def.1 hle, hlt'⟩

/-- `free` does what the model does, or nothing. -/
theorem free_wp (hx : x.Sound) {va : Ptr} : wp (Cuda.watched β fails) (free va) (Done x (.free va))
    (fun _ => Undone fails x (.free va)) x.m { d := x.d } := by
  unfold free
  rw [wp_bind, wp_get]
  cases hr : x.m.reservations[va]? with
  | none =>
    refine Undone.refused fun hallow => ?_
    obtain ⟨len, hlen, -⟩ := hallow
    exact nomatch hr.symm.trans hlen
  | some size =>
    -- what the model says of this call
    have hallows : x.m.abs.Allows (.free va) ↔ x.m.mappedInside va size = none := by
      rw [mappedInside_eq_none hx hr]
      constructor
      · intro h id c hc hm
        obtain ⟨len, hlen, hall⟩ := h
        cases hr.symm.trans hlen
        exact hall id c.abs c.va (by rw [abs_chunk, hc]; rfl) (abs_mapped hm)
      · intro h
        refine ⟨size, hr, fun id o va' ho hva => ?_⟩
        rw [abs_chunk, Option.map_eq_some_iff] at ho
        obtain ⟨c, hc, rfl⟩ := ho
        obtain ⟨hm, rfl⟩ := mapped_of_abs hva
        exact h id c hc hm
    dsimp only
    cases hin : x.m.mappedInside va size with
    | some ic => exact Undone.refused fun h => nomatch hin.symm.trans (hallows.1 h)
    | none =>
      have hno := (mappedInside_eq_none hx hr).1 hin
      have hacc : x.d.Accepts (.addressFree va size) := by
        refine ⟨by rw [hx.reservations, hr], fun va' mp hmp => ?_⟩
        obtain ⟨k, o, ho, hm, rfl, -⟩ := hx.mapping va' mp hmp
        cases hmp.symm.trans (hx.mapped k o ho hm)
        obtain ⟨base, len, hbase, hle, hlt⟩ := hx.inside k o ho hm
        have hbase : x.m.reservations[base]? = some len := hbase
        have hk := hno k o ho hm
        have hpos : o.size.toNat ≠ 0 := fun h0 => hx.size k o ho (BitVec.eq_of_toNat_eq (by simpa using h0))
        have hne : va ≠ base := by
          intro heq
          rw [← heq] at hle hlt hbase
          cases hr.symm.trans hbase
          exact hk ⟨hle, by omega⟩
        have hap := hx.apart va base size len hne hr hbase
        unfold Apart at hap ⊢
        dsimp only
        omega
      dsimp only
      rw [wp_bind]
      refine cu_wp (fun v y _ hv => ?_) fun e he => Undone.first (e := he.imp_right fun h => absurd hacc h)
      rw [wp_bind, wp_modify, wp_pure]
      refine ⟨rfl, hallows.2 hin, hr, rfl, sound_free hx fun id c len hc hm hlen => ?_, ?_⟩
      · cases hr.symm.trans hlen
        exact hno id c hc hm
      · intro id ch ch' hc hc'
        cases hc.symm.trans hc'
        rfl

/-! ## Chunks -/

/-- A chunk more, with a new handle. -/
theorem sound_create (hx : x.Sound) (hid : x.m.nextId.toNat + 1 < 2 ^ 31) {size : Size} (hsize : size ≠ 0) (l : Loc) {v : Handle} {y : β}
    (hv : x.d.handles[v]? = none) : (⟨{ x.m with
      nextId := x.m.nextId + 1
      chunks := x.m.chunks.insert x.m.nextId ⟨x.m.nextId, size, l, v, 0⟩ },
      { x.d with handles := x.d.handles.insert v ⟨size, l, y⟩ }⟩ : Managed β).Sound := by
  have hnext : (x.m.nextId + 1).toNat = x.m.nextId.toNat + 1 := by
    rw [BitVec.toNat_add, Nat.mod_eq_of_lt]
    · rfl
    · show x.m.nextId.toNat + 1 < 2 ^ 32
      omega
  have hold {k : BitVec 32} {c : ManagedChunk} (hk : k ≠ x.m.nextId)
      (hc : (x.m.chunks.insert x.m.nextId ⟨x.m.nextId, size, l, v, 0⟩)[k]? = some c) : x.m.chunks[k]? = some c := by
    rwa [OrdMap.getElem?_insert, if_neg hk] at hc
  have hnew {c : ManagedChunk} (hc : (x.m.chunks.insert x.m.nextId ⟨x.m.nextId, size, l, v, 0⟩)[x.m.nextId]? = some c) :
      c = ⟨x.m.nextId, size, l, v, 0⟩ := by
    rw [OrdMap.getElem?_insert, if_pos rfl] at hc
    cases hc
    rfl
  -- a mapped chunk is one of before
  have hmapped {k : BitVec 32} {c : ManagedChunk} (hc : (x.m.chunks.insert x.m.nextId ⟨x.m.nextId, size, l, v, 0⟩)[k]? = some c)
      (hm : c.mapped = true) : x.m.chunks[k]? = some c := by
    by_cases hk : k = x.m.nextId
    · subst hk
      rw [hnew hc] at hm
      cases hm
    · exact hold hk hc
  have hkept {k : BitVec 32} {c : ManagedChunk} (hc : x.m.chunks[k]? = some c) :
      (x.m.chunks.insert x.m.nextId ⟨x.m.nextId, size, l, v, 0⟩)[k]? = some c := by
    have hk : k ≠ x.m.nextId := by
      intro heq
      have hlt := hx.ids k c hc
      rw [heq] at hlt
      exact lt_irrefl _ hlt
    rw [OrdMap.getElem?_insert, if_neg hk, hc]
  have hhandle {k : BitVec 32} {c : ManagedChunk} (hc : x.m.chunks[k]? = some c) : c.handle ≠ v := by
    intro heq
    obtain ⟨-, z, hz⟩ := hx.chunk k c hc
    rw [heq, hv] at hz
    cases hz
  refine ⟨⟨?_, ?_, ?_, ?_, ?_, hx.reservations⟩, hx.serial, hx.gran, ?_, ?_, hx.range, hx.apart, ?_, ?_⟩
  · intro k c hc
    show _ ∧ ∃ z, (x.d.handles.insert v _)[c.handle]? = _
    rw [OrdMap.getElem?_insert]
    by_cases hk : k = x.m.nextId
    · subst hk
      rw [hnew hc]
      exact ⟨rfl, y, if_pos rfl⟩
    · rw [if_neg (hhandle (hold hk hc))]
      exact hx.chunk k c (hold hk hc)
  · intro k k' c c' hc hc' heq
    by_cases hk : k = x.m.nextId
    · by_cases hk' : k' = x.m.nextId
      · exact hk.trans hk'.symm
      · subst hk
        rw [hnew hc] at heq
        exact absurd heq.symm (hhandle (hold hk' hc'))
    · by_cases hk' : k' = x.m.nextId
      · subst hk'
        rw [hnew hc'] at heq
        exact absurd heq (hhandle (hold hk hc))
      · exact hx.alone k k' c c' (hold hk hc) (hold hk' hc') heq
  · intro k p hp
    have hp : (x.d.handles.insert v ⟨size, l, y⟩)[k]? = some p := hp
    rw [OrdMap.getElem?_insert] at hp
    by_cases hk : k = v
    · exact ⟨x.m.nextId, _, (OrdMap.getElem?_insert _ _ _ _).trans (if_pos rfl), hk.symm⟩
    · rw [if_neg hk] at hp
      obtain ⟨j, c, hc, hh⟩ := hx.handle k p hp
      exact ⟨j, c, hkept hc, hh⟩
  · exact fun k c hc hm => hx.mapped k c (hmapped hc hm) hm
  · intro va mp hmp
    obtain ⟨k, c, hc, hrest⟩ := hx.mapping va mp hmp
    exact ⟨k, c, hkept hc, hrest⟩
  · intro k c hc
    by_cases hk : k = x.m.nextId
    · subst hk
      rw [hnew hc]
      exact hsize
    · exact hx.size k c (hold hk hc)
  · intro k c hc
    show k.toNat < (x.m.nextId + 1).toNat
    rw [hnext]
    by_cases hk : k = x.m.nextId
    · rw [hk]
      exact Nat.lt_succ_self _
    · exact Nat.lt_succ_of_lt (hx.ids k c (hold hk hc))
  · exact fun k c hc hm => hx.inside k c (hmapped hc hm) hm
  · exact fun k k' c c' hne hc hc' hm hm' => hx.unused k k' c c' hne (hmapped hc hm) (hmapped hc' hm') hm hm'

/-- `create` does what the model does, or nothing, as long as its numbers last. -/
theorem create_wp (hx : x.Sound) (hid : x.m.nextId.toNat + 1 < 2 ^ 31) {size : Size} {l : Loc} :
    wp (Cuda.watched β fails) (create size l) (Done x (.create size l)) (fun _ => Undone fails x (.create size l)) x.m { d := x.d } := by
  unfold create
  rw [wp_bind]
  refine require_wp (fun hpos => ?_) fun hpos => Undone.refused fun h => hpos ?_
  · have hne : size ≠ 0 := by
      intro h0
      rw [h0] at hpos
      exact absurd hpos (BitVec.lt_irrefl _)
    rw [wp_bind, wp_get, wp_bind]
    refine cu_wp (fun v y hacc hv => ?_) fun e he => Undone.first (e := he.imp_right fun h hallow => h hallow.2)
    rw [wp_bind, wp_modify, wp_bind, wp_modify, wp_pure]
    have hd : x.d.after (.create (x.m.roundUp size) (x.m.prop l)) v y =
        { x.d with handles := x.d.handles.insert v ⟨x.m.roundUp size, l, y⟩ } := by
      show { x.d with handles := x.d.handles.insert v ⟨x.m.roundUp size, (x.m.prop l).loc, y⟩ } = _
      rw [prop_loc]
    have hsound := sound_create hx hid hacc l (v := v) (y := y) hv
    show Done x (.create size l) _ _ ⟨x.d.after (.create (x.m.roundUp size) (x.m.prop l)) v y, false, false⟩
    rw [hd]
    refine ⟨rfl, ⟨hne, hacc⟩, rfl, (abs_insert { x.m with nextId := x.m.nextId + 1 } _ _).trans rfl, hsound, ?_⟩
    intro id c c' hc hc'
    have hc' : (x.m.chunks.insert x.m.nextId ⟨x.m.nextId, x.m.roundUp size, l, v, 0⟩)[id]? = some c' := hc'
    have hlt := hx.ids id c hc
    rw [OrdMap.getElem?_insert, if_neg (fun heq => by rw [heq] at hlt; exact lt_irrefl _ hlt), hc] at hc'
    cases hc'
    have hh : c.handle ≠ v := by
      intro heq
      obtain ⟨-, z, hz⟩ := hx.chunk id c hc
      rw [heq] at hz
      exact nomatch hz.symm.trans hv
    show (x.d.handles.insert v _)[c.handle]?.map Phys.data = x.d.handles[c.handle]?.map Phys.data
    rw [OrdMap.getElem?_insert, if_neg hh]
  · have hnat : size.toNat ≠ 0 := fun h0 => h.1 (BitVec.eq_of_toNat_eq (by simpa using h0))
    show (0 : Size) < size
    rw [BitVec.lt_def]
    exact Nat.pos_of_ne_zero hnat

/-- A chunk that is mapped nowhere is gone, with its handle. -/
theorem sound_release (hx : x.Sound) {id : BitVec 32} {c : ManagedChunk} (hc : x.m.chunks[id]? = some c) (hm : c.mapped = false) :
    (⟨{ x.m with chunks := x.m.chunks.erase id }, { x.d with handles := x.d.handles.erase c.handle }⟩ : Managed β).Sound := by
  have hold {k : BitVec 32} {o : ManagedChunk} (ho : (x.m.chunks.erase id)[k]? = some o) : k ≠ id ∧ x.m.chunks[k]? = some o := by
    rw [OrdMap.getElem?_erase] at ho
    by_cases hk : k = id
    · rw [if_pos hk] at ho
      cases ho
    · rw [if_neg hk] at ho
      exact ⟨hk, ho⟩
  have hkept {k : BitVec 32} {o : ManagedChunk} (hk : k ≠ id) (ho : x.m.chunks[k]? = some o) : (x.m.chunks.erase id)[k]? = some o := by
    rw [OrdMap.getElem?_erase, if_neg hk, ho]
  refine ⟨⟨?_, ?_, ?_, ?_, ?_, hx.reservations⟩, hx.serial, hx.gran, ?_, ?_, hx.range, hx.apart, ?_, ?_⟩
  · intro k o ho
    obtain ⟨hk, ho⟩ := hold ho
    have hh : o.handle ≠ c.handle := fun heq => hk (hx.alone k id o c ho hc heq)
    show _ ∧ ∃ z, (x.d.handles.erase c.handle)[o.handle]? = _
    rw [OrdMap.getElem?_erase, if_neg hh]
    exact hx.chunk k o ho
  · exact fun k k' o o' ho ho' heq => hx.alone k k' o o' (hold ho).2 (hold ho').2 heq
  · intro k p hp
    have hp : (x.d.handles.erase c.handle)[k]? = some p := hp
    rw [OrdMap.getElem?_erase] at hp
    by_cases hk : k = c.handle
    · rw [if_pos hk] at hp
      cases hp
    · rw [if_neg hk] at hp
      obtain ⟨j, o, ho, hh⟩ := hx.handle k p hp
      have hj : j ≠ id := by
        intro heq
        rw [heq] at ho
        cases hc.symm.trans ho
        exact hk hh.symm
      exact ⟨j, o, hkept hj ho, hh⟩
  · exact fun k o ho hom => hx.mapped k o (hold ho).2 hom
  · intro va mp hmp
    obtain ⟨j, o, ho, hom, hrest⟩ := hx.mapping va mp hmp
    have hj : j ≠ id := by
      intro heq
      rw [heq] at ho
      cases hc.symm.trans ho
      exact nomatch hm.symm.trans hom
    exact ⟨j, o, hkept hj ho, hom, hrest⟩
  · exact fun k o ho => hx.size k o (hold ho).2
  · exact fun k o ho => hx.ids k o (hold ho).2
  · exact fun k o ho hom => hx.inside k o (hold ho).2 hom
  · exact fun k k' o o' hne ho ho' hom hom' => hx.unused k k' o o' hne (hold ho).2 (hold ho').2 hom hom'

/-- A chunk that is gone is gone from the model. -/
theorem abs_erase (m : Manager) (id : BitVec 32) :
    Manager.abs { m with chunks := m.chunks.erase id } = { m.abs with chunks := m.abs.chunks.erase id } := by
  unfold Manager.abs
  congr 1
  apply Std.ExtTreeMap.ext_getElem?
  intro k
  rw [Std.ExtTreeMap.getElem?_map, OrdMap.getElem?_erase, OrdMap.getElem?_erase, Std.ExtTreeMap.getElem?_map]
  by_cases hk : k = id
  · rw [if_pos hk, if_pos hk]
    rfl
  · rw [if_neg hk, if_neg hk]

/-- `release` does what the model does, or nothing. -/
theorem release_wp (hx : x.Sound) : wp (Cuda.watched β fails) (release t) (Done x (.release t)) (fun _ => Undone fails x (.release t))
    x.m { d := x.d } := by
  unfold release
  rw [wp_bind]
  refine chunkOf_wp hx.serial (fun c ht hc => ?_) fun f hnone => Undone.refused fun hallow => ?_
  · have hlive := live_of_chunk ht hc
    obtain ⟨hid, y, hy⟩ := hx.chunk t.id c hc
    rw [wp_bind]
    refine require_wp (fun hm => ?_) fun hm => Undone.refused fun h => ?_
    · rw [wp_bind]
      refine cu_wp (fun v y' _ hv => ?_) fun e he => Undone.first (e := he.imp_right fun h => absurd ⟨_, hy⟩ h)
      rw [wp_bind, wp_modify, wp_pure, hid]
      refine ⟨rfl, ⟨c.abs, hlive, abs_unmapped hm⟩, ?_, abs_erase x.m t.id, sound_release hx hc hm, ?_⟩
      · show (x.m.abs.live t).map FuzzChunk.size = some c.size
        rw [hlive]
        rfl
      · intro k o o' ho ho'
        have ho' : (x.m.chunks.erase t.id)[k]? = some o' := ho'
        rw [OrdMap.getElem?_erase] at ho'
        by_cases hk : k = t.id
        · rw [if_pos hk] at ho'
          cases ho'
        · rw [if_neg hk, ho] at ho'
          cases ho'
          have hh : o.handle ≠ c.handle := fun heq => hk (hx.alone k t.id o c ho hc heq)
          show (x.d.handles.erase c.handle)[o.handle]?.map Phys.data = x.d.handles[o.handle]?.map Phys.data
          rw [OrdMap.getElem?_erase, if_neg hh]
    · obtain ⟨ch, hl, hum⟩ := h
      rw [hlive] at hl
      cases hl
      cases hmap : c.mapped with
      | false => exact hm hmap
      | true => exact nomatch (abs_mapped hmap).symm.trans hum
  · obtain ⟨ch, hlive, -⟩ := hallow
    exact nomatch hnone.symm.trans hlive

/-! ## Every call -/

/-- Every call does what the model does, or nothing but a late fault. -/
theorem program_wp (hx : x.Sound) (c : ManagerCall) (hid : ∀ (size : Size) (l : Loc), c = .create size l → x.m.nextId.toNat + 1 < 2 ^ 31) :
    wp (Cuda.watched β fails) c.program (Done x c) (fun _ => Undone fails x c) x.m { d := x.d } := by
  cases c with
  | reserve size => exact reserve_wp hx
  | create size l => exact create_wp hx (hid size l rfl)
  | map t va => exact map_wp hx
  | unmap t => exact unmap_wp hx
  | remap t target => exact remap_wp hx
  | release t => exact release_wp hx
  | free va => exact free_wp hx
  | va t => exact va_wp hx
  | loc t => exact loc_wp hx
  | info t => exact info_wp hx

end ManagerAux

end Vmem
