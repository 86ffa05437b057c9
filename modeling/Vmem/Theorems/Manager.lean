import Vmem.Lemmas.ManagerEnd

/-!
# What a manager guarantees

With a driver that fails only what it has no reason to accept, a manager is the model of `tests/fuzz.py` (`refines_fuzz`). With a driver
that may fail any call, its calls are all or nothing as long as no call of the driver other than the first fails
(`calls_all_or_nothing`).
-/

namespace Vmem

namespace ManagerAux

open Manager Throwing

variable {β : Type} {x x' : Managed β} {f : Fuzz} {t : ChunkToken}

/-! ## Dead tokens -/

/-- A dead token has no chunk. -/
theorem live_of_dead (h : f.Dead t) : f.live t = none := by
  unfold Fuzz.live
  rcases h with hne | hrel
  · exact if_neg hne
  · split
    · exact hrel.2
    · rfl

/-- No call about a dead token succeeds. -/
theorem not_allows_of_dead (h : f.Dead t) {c : ManagerCall} (hc : c.token = some t) : ¬f.Allows c := by
  have hnone := live_of_dead h
  intro hallow
  cases c with
  | reserve size => cases hc
  | create size l => cases hc
  | free va => cases hc
  | map t' va =>
    cases hc
    obtain ⟨ch, hl, -⟩ := hallow
    exact nomatch hnone.symm.trans hl
  | unmap t' =>
    cases hc
    obtain ⟨ch, va, hl, -⟩ := hallow
    exact nomatch hnone.symm.trans hl
  | remap t' target =>
    cases hc
    obtain ⟨ch, va, hl, -⟩ := hallow
    exact nomatch hnone.symm.trans hl
  | release t' =>
    cases hc
    obtain ⟨ch, hl, -⟩ := hallow
    exact nomatch hnone.symm.trans hl
  | va t' =>
    cases hc
    obtain ⟨ch, va, hl, -⟩ := hallow
    exact nomatch hnone.symm.trans hl
  | loc t' =>
    cases hc
    obtain ⟨ch, hl⟩ := hallow
    exact nomatch hnone.symm.trans hl
  | info t' =>
    cases hc
    obtain ⟨ch, hl⟩ := hallow
    exact nomatch hnone.symm.trans hl

/-- Changing a live chunk does not bring a dead token back. -/
theorem dead_change (h : f.Dead t) (t' : ChunkToken) (g : FuzzChunk → FuzzChunk) : (f.change t' g).Dead t := by
  unfold Fuzz.change
  cases hl : f.live t' with
  | none => exact h
  | some ch =>
    rcases h with hne | ⟨hlt, hnone⟩
    · exact .inl hne
    · refine .inr ⟨hlt, ?_⟩
      show (f.chunks.insert t'.id (g ch))[t.id]? = none
      have hne : t.id ≠ t'.id := by
        intro heq
        unfold Fuzz.live at hl
        split at hl
        · rw [← heq, hnone] at hl
          cases hl
        · cases hl
      rw [OrdMap.getElem?_insert, if_neg hne, hnone]

/-- A dead token stays dead. -/
theorem dead_after (h : f.Dead t) {c : ManagerCall} (v : c.Result)
    (hid : ∀ (size : Size) (l : Loc), c = .create size l → f.next.toNat + 1 < 2 ^ 31) : (f.after c v).Dead t := by
  cases c with
  | reserve size => exact h
  | create size l =>
    have hlt := hid size l rfl
    rcases h with hne | ⟨hold, hnone⟩
    · exact .inl hne
    · have hnext : (f.next + 1).toNat = f.next.toNat + 1 := by
        rw [BitVec.toNat_add, Nat.mod_eq_of_lt]
        · rfl
        · show f.next.toNat + 1 < 2 ^ 32
          omega
      have hne : t.id ≠ f.next := by
        intro heq
        rw [heq] at hold
        exact lt_irrefl _ hold
      refine .inr ⟨by show t.id.toNat < (f.next + 1).toNat; omega, ?_⟩
      show (f.chunks.insert f.next _)[t.id]? = none
      rw [OrdMap.getElem?_insert, if_neg hne, hnone]
  | map t' va => exact dead_change h t' _
  | unmap t' => exact dead_change h t' _
  | remap t' target => exact dead_change h t' _
  | release t' =>
    rcases h with hne | ⟨hold, hnone⟩
    · exact .inl hne
    · refine .inr ⟨hold, ?_⟩
      show (f.chunks.erase t'.id)[t.id]? = none
      rw [OrdMap.getElem?_erase, hnone, ite_self]
  | free va => exact h
  | va t' => exact h
  | loc t' => exact h
  | info t' => exact h

/-- The conditions of the runs here keep the records true. -/
theorem sound_of_creates {fails : Bool} {ok : Managed β → ManagerCall → Bool → Prop}
    (hok : ∀ (x : Managed β) (c : ManagerCall) (late : Bool), ok x c late → x.CanCreate c ∧ (fails = true → late = false))
    (hx : x.Sound) (h : x.Later fails ok x') (hdead : x.m.abs.Dead t) : x'.Sound ∧ x'.m.abs.Dead t := by
  induction h with
  | refl => exact ⟨hx, hdead⟩
  | call h hs hk ih =>
    obtain ⟨hid, hlate⟩ := hok _ _ _ hk
    have hstep := step_cases ih.1 hid hs
    cases hstep with
    | done h =>
      refine ⟨h.sound, ?_⟩
      rw [h.after]
      exact dead_after ih.2 _ hid
    | refused h hno =>
      rw [h]
      exact ih
    | broken h hfails => exact nomatch hlate hfails
  | kernel h k y ih => exact ⟨sound_write ih.1 k y, ih.2⟩

/-- A chunk that was released leaves a dead token. -/
theorem dead_of_release (hx : x.Sound) {v : Size} {w : Watched β} (h : Done x (.release t) v x'.m w) : x'.m.abs.Dead t := by
  obtain ⟨ch, hl, -⟩ := h.allows
  rw [h.after]
  by_cases ht : t.owner = x.m.serial
  · rw [live_of_token ht, Option.map_eq_some_iff] at hl
    obtain ⟨c, hc, -⟩ := hl
    refine .inr ⟨hx.ids t.id c hc, ?_⟩
    show (x.m.abs.chunks.erase t.id)[t.id]? = none
    rw [OrdMap.getElem?_erase, if_pos rfl]
  · exact .inl ht

/-! ## A size in whole granules -/

/-- A size that does not wrap is rounded up to some granules. -/
theorem round_ne_zero {size : Size} (hsize : size ≠ 0) (hwrap : size.toNat + f.gran.toNat ≤ 2 ^ 64) (hgran : f.gran ≠ 0) :
    f.round size ≠ 0 := by
  have hs : size.toNat ≠ 0 := fun h0 => hsize (BitVec.eq_of_toNat_eq (by simpa using h0))
  have hg : f.gran.toNat ≠ 0 := fun h0 => hgran (BitVec.eq_of_toNat_eq (by simpa using h0))
  have hsum : (size + f.gran - 1).toNat = size.toNat + f.gran.toNat - 1 := by
    have hone : (1 : Size).toNat = 1 := rfl
    rw [BitVec.toNat_sub, BitVec.toNat_add, hone]
    omega
  have hle : (size.toNat + f.gran.toNat - 1) / f.gran.toNat * f.gran.toNat ≤ size.toNat + f.gran.toNat - 1 := Nat.div_mul_le_self _ _
  have hpos : 0 < (size.toNat + f.gran.toNat - 1) / f.gran.toNat := Nat.div_pos (by omega) (by omega)
  intro h0
  have hnat := congrArg BitVec.toNat h0
  unfold Fuzz.round at hnat
  rw [BitVec.toNat_mul, BitVec.toNat_udiv, hsum, Nat.mod_eq_of_lt (by omega)] at hnat
  have hzero := Nat.mul_eq_zero.1 (hnat : _ = 0)
  omega

/-! ## A chunk that may be mapped -/

/-- A manager of one reservation and one chunk of the same size. -/
theorem exists_mappable (fails : Bool) (ok : Managed Unit → ManagerCall → Bool → Prop)
    (hok : ∀ (x : Managed Unit) (c : ManagerCall), x.CanCreate c → ok x c false) : ∃ x : Managed Unit, x.Reached fails ok ∧
      x.Sound ∧ x.m.serial = 1 ∧ x.m.gran = 0x200000 ∧ x.m.chunks[(0 : BitVec 32)]? = some ⟨0, 0x200000, .device, 1, 0⟩ ∧
      x.m.abs.Allows (.map ⟨1, 0⟩ 0x200000) ∧
      (∀ (va : Ptr) (size : Size), x.m.reservations[va]? = some size → va = 0x200000 ∧ size = 0x200000) ∧
      ∀ (id : BitVec 32) (o : FuzzChunk), x.m.abs.chunks[id]? = some o → o.mapped = none := by
  have hmade : Managed.Made (β := Unit) ⟨{ device := 0, numa := 0, serial := 1, gran := 0x200000 }, {}⟩ :=
    ⟨by decide, by decide, rfl, rfl, rfl, rfl⟩
  have hgives : Cuda.Gives ({} : Cuda Unit) (.reserve 0x200000 0x200000) 0x200000 := by
    refine ⟨⟨by decide, by decide, by decide, fun va s hs => ?_⟩, by decide⟩
    simp at hs
  have hstart : Managed.Reached fails ok ⟨{ device := 0, numa := 0, serial := 1, gran := 0x200000 }, {}⟩ := .made hmade
  have hreserve := hstart.call (c := .reserve 0x200000) (reserve_step () hgives) (hok _ _ nofun)
  have hcreate := hreserve.call (c := .create 0x200000 .device) (create_step (v := 1) () (by decide) (by decide) (by simp))
    (hok _ _ fun _ _ _ => by decide)
  have hsize : (0x200000 : Size) ≠ 0 := by decide
  have hsound := sound_create (sound_reserve (made_sound hmade) hgives) (by decide) hsize .device (v := 1) (y := ()) (by simp)
  have hchunk : (((∅ : OrdMap (BitVec 32) ManagedChunk)).insert 0 ⟨0, 0x200000, .device, 1, 0⟩)[(0 : BitVec 32)]? =
      some ⟨0, 0x200000, .device, 1, 0⟩ := by rw [OrdMap.getElem?_insert, if_pos rfl]
  have hunmapped (id : BitVec 32) (o : FuzzChunk)
      (ho : (((∅ : OrdMap (BitVec 32) ManagedChunk)).insert 0 ⟨0, 0x200000, .device, 1, 0⟩)[id]?.map ManagedChunk.abs = some o) :
      o.mapped = none := by
    rw [OrdMap.getElem?_insert] at ho
    by_cases hid : id = 0
    · rw [if_pos hid] at ho
      cases ho
      rfl
    · rw [if_neg hid] at ho
      simp at ho
  refine ⟨_, hcreate, hsound, rfl, rfl, hchunk, ⟨⟨0x200000, .device, none⟩, ?_, rfl, by decide, ?_, ?_⟩, ?_, ?_⟩
  · rw [live_of_token rfl]
    exact congrArg (Option.map ManagedChunk.abs) hchunk
  · refine ⟨0x200000, 0x200000, ?_, by decide, by decide⟩
    exact (OrdMap.getElem?_insert _ _ _ _).trans (if_pos rfl)
  · intro id o va' ho hva
    rw [abs_chunk] at ho
    rw [hunmapped id o ho] at hva
    cases hva
  · intro va size hr
    have hr : (((∅ : OrdMap Ptr Size)).insert 0x200000 0x200000)[va]? = some size := hr
    rw [OrdMap.getElem?_insert] at hr
    by_cases hva : va = 0x200000
    · rw [if_pos hva] at hr
      cases hr
      exact ⟨hva, rfl⟩
    · rw [if_neg hva] at hr
      simp at hr
  · intro id o ho
    rw [abs_chunk] at ho
    exact hunmapped id o ho

end ManagerAux

open ManagerAux

/-! ## The model -/

/-- In every state that a run of any calls reaches, with fewer than 2^31 chunks made and a driver that fails only what it has no reason
to accept, the manager refines the model. -/
theorem refines_fuzz {β : Type} [Inhabited β] (x : Managed β) (h : x.Reached false fun x c _ => x.CanCreate c) : x.Refines := by
  have hok (x : Managed β) (c : ManagerCall) (late : Bool) (h : x.CanCreate c) : x.CanCreate c ∧ (false = true → late = false) :=
    ⟨h, nofun⟩
  have hx := reached_sound hok h
  refine
    { calls := ?_
      ends := fun c hroom => exists_step hx c hroom
      allows := ?_
      inside := hx.inside
      apart := hx.unused
      released := ?_
      dead := ?_ }
  · intro c r x' late hid hs
    cases step_cases hx hid hs with
    | done h => exact .inl ⟨_, rfl, h.allows, h.answers, h.after⟩
    | refused h hno => exact .inr ⟨_, rfl, hno.resolve_left nofun, h⟩
    | broken h hfails => cases hfails
  · intro size hsize hwrap
    have hround := round_ne_zero (f := x.m.abs) hsize hwrap hx.gran
    exact ⟨hround, fun _ => ⟨hsize, hround⟩⟩
  · intro t v x' late hs
    have hid : x.CanCreate (.release t) := fun _ _ h => nomatch h
    cases step_cases hx hid hs with
    | done h => exact dead_of_release hx h
  · intro t hdead x' hlater c hc
    exact not_allows_of_dead (sound_of_creates hok hx hlater hdead).2 hc

/-- One reservation and one chunk: a token of another manager does not unmap it. -/
theorem refines_fuzz_foreign : ∃ x : Managed Unit, x.m.chunks[(0 : BitVec 32)]? ≠ none ∧
    ¬x.m.abs.Allows (.unmap ⟨2, 0⟩) ∧ x.m.abs.Allows (.reserve 1) := by
  obtain ⟨x, hreached, -, hserial, hgran, hc, -, -⟩ := exists_mappable false (fun x c _ => x.CanCreate c) fun _ _ h => h
  have hfuzz := refines_fuzz x hreached
  refine ⟨x, by rw [hc]; exact nofun, ?_, ?_⟩
  · refine hfuzz.dead ⟨2, 0⟩ (.inl ?_) x .refl _ rfl
    show (2 : BitVec 32) ≠ x.m.serial
    rw [hserial]
    decide
  · refine (hfuzz.allows 1 (by decide) ?_).1
    rw [hgran]
    decide

/-! ## All or nothing -/

/-- In every run, with a driver that may fail any call, whose steps fail no call of the driver other than the first of a call of the
manager, and which makes fewer than 2^31 chunks, the calls are all or nothing. -/
theorem calls_all_or_nothing {β : Type} (x : Managed β) (h : x.Reached true fun x c late => x.CanCreate c ∧ late = false) :
    x.AllOrNothing := by
  have hx := reached_sound (fun _ _ _ h => ⟨h.1, fun _ => h.2⟩) h
  refine ⟨hx.toDescribes, ?_, ?_, ?_, destruct_wp hx.toDescribes⟩
  · intro c r x' late hid hs
    exact (step_cases hx hid hs).describes_iff hx
  · intro c e x' hid hs
    cases step_cases hx hid hs with
    | refused h hno => exact h
  · intro c v x' late hid hs
    cases step_cases hx hid hs with
    | done h => exact ⟨rfl, h.data⟩

/-- One reservation and one chunk: a range that the driver refuses changes nothing, the chunk is mapped, and the destructor gives both
back. -/
theorem calls_all_or_nothing_refused : ∃ x : Managed Unit, x.m.chunks[(0 : BitVec 32)]? ≠ none ∧
    (∃ x' : Managed Unit, x.Step true (.reserve 1) (.error (.cu .outOfMemory)) x' false ∧ x' = x) ∧
    (∃ x' : Managed Unit, x.Step true (.map ⟨1, 0⟩ 0x200000) (.ok 0x200000) x' false ∧ x'.Describes) ∧
    Throwing.wp (Cuda.watched Unit true) Manager.destruct (fun _ _ w => w.d = {}) (fun _ _ _ => False) x.m { d := x.d } := by
  obtain ⟨x, hreached, hx, -, -, hc, hallow, -⟩ :=
    exists_mappable true (fun x c late => x.CanCreate c ∧ late = false) fun _ _ h => ⟨h, rfl⟩
  have hcalls := calls_all_or_nothing x hreached
  have hrefused : x.Step true (.reserve 1) (.error (.cu .outOfMemory)) x false := reserve_step_refused .outOfMemory
  have hmapped : x.Step true (.map ⟨1, 0⟩ 0x200000) (.ok 0x200000) _ false := map_step () hc (mapsAt_of_allows hx hallow)
  have hreserve : x.CanCreate (.reserve 1) := fun _ _ h => nomatch h
  have hmap : x.CanCreate (.map ⟨1, 0⟩ 0x200000) := fun _ _ h => nomatch h
  refine ⟨x, by rw [hc]; exact nofun, ⟨x, hrefused, hcalls.throws _ _ _ hreserve hrefused⟩, ⟨_, hmapped, ?_⟩, hcalls.destructs⟩
  exact (hcalls.exact _ _ _ _ hmap hmapped).2 rfl

/-- The driver maps the chunk and fails to give the device access: the range stays mapped, and the record says that it is not. -/
theorem calls_all_or_nothing_false : ¬∀ x : Managed Unit, x.Reached true (fun x c _ => x.CanCreate c) →
    ∀ (c : ManagerCall) (e : Fault) (x' : Managed Unit) (late : Bool), x.CanCreate c → x.Step true c (.error e) x' late → x'.Describes := by
  intro hall
  obtain ⟨x, hreached, hx, -, -, hc, hallow, -⟩ := exists_mappable true (fun x c _ => x.CanCreate c) fun _ _ h => h
  have hs := map_step_broken (t := ⟨1, 0⟩) () .outOfMemory hc (mapsAt_of_allows hx hallow)
  have hid : x.CanCreate (.map ⟨1, 0⟩ 0x200000) := fun _ _ h => nomatch h
  exact nomatch ((step_cases hx hid hs).describes_iff hx).1 (hall x hreached _ _ _ _ hid hs)

end Vmem
