import Vmem.Theorems.Manager

/-!
# The containment check

`inside_reservation` compares two sums of 64 bits. It is exact where neither wraps, or both, and otherwise where the wrapped sum is past
the end of the reservation.
-/

namespace Vmem

namespace ManagerAux

open Manager Throwing

variable {m : Manager} {va : Ptr} {size : Size}

/-- A range in a reservation is in the last one at or below its start, and there is one. -/
theorem inside_iff_floor (hm : m.Disjoint) : m.abs.Inside va size ↔
    ∃ (base : Ptr) (len : Size), m.reservations.floor? va = some (base, len) ∧ va.toNat + size.toNat ≤ base.toNat + len.toNat := by
  constructor
  · intro h
    obtain ⟨base, len, hr, hle, hend⟩ := h
    have hr : m.reservations[base]? = some len := hr
    cases hf : m.reservations.floor? va with
    | none => exact absurd (by rwa [OrdMap.isLE_iff, BitVec.le_def]) (OrdMap.floor?_eq_none_iff.1 hf base len hr)
    | some bl =>
      obtain ⟨base', len'⟩ := bl
      obtain ⟨hr', hle', hmax⟩ := OrdMap.floor?_eq_some_iff.1 hf
      rw [OrdMap.isLE_iff, BitVec.le_def] at hle'
      refine ⟨base', len', rfl, ?_⟩
      by_cases heq : base = base'
      · subst heq
        cases hr.symm.trans hr'
        exact hend
      · have hlast := hmax base len hr (by rwa [OrdMap.isLE_iff, BitVec.le_def])
        rw [OrdMap.isLE_iff, BitVec.le_def] at hlast
        have hne : base.toNat ≠ base'.toNat := fun h => heq (BitVec.eq_of_toNat_eq h)
        -- the range is empty and starts where the first reservation ends
        rcases hm.apart base base' len len' heq hr hr' with hap | hap
        all_goals omega
  · intro h
    obtain ⟨base, len, hf, hend⟩ := h
    obtain ⟨hr, hle, -⟩ := OrdMap.floor?_eq_some_iff.1 hf
    rw [OrdMap.isLE_iff, BitVec.le_def] at hle
    exact ⟨base, len, hr, hle, hend⟩

/-- What the check compares. -/
theorem check_iff_floor : m.insideReservation va size = true ↔
    ∃ (base : Ptr) (len : Size), m.reservations.floor? va = some (base, len) ∧
      (va.toNat + size.toNat) % 2 ^ 64 ≤ (base.toNat + len.toNat) % 2 ^ 64 := by
  unfold Manager.insideReservation
  cases hf : m.reservations.floor? va with
  | none => exact ⟨nofun, fun ⟨_, _, h, _⟩ => nomatch h⟩
  | some bl =>
    obtain ⟨base, len⟩ := bl
    dsimp only
    rw [decide_eq_true_iff, BitVec.le_def, BitVec.toNat_add, BitVec.toNat_add]
    constructor
    · exact fun h => ⟨base, len, rfl, h⟩
    · intro h
      obtain ⟨base', len', heq, h⟩ := h
      cases heq
      exact h

/-- A chunk is mapped only where the check passes. -/
theorem map_contained {t : ChunkToken} (hcheck : ∀ c : ManagedChunk, m.chunks[t.id]? = some c →
    m.insideReservation va c.size = true → m.abs.Inside va c.size) :
    wp (Cuda.contained m) (map t va) (fun _ _ _ => True) (fun _ _ _ => True) m () := by
  have hcu {c : CuCall} (hp : (Cuda.contained m).permits (.cu c) ()) :
      wp (Cuda.contained m) (cu c) (fun _ _ _ => True) (fun _ _ _ => True) m () := by
    unfold cu
    rw [wp_bind, wp_call]
    refine ⟨hp, fun r _ _ => ?_⟩
    cases r with
    | ok v => trivial
    | error e => trivial
  have hgrant {c : ManagedChunk} : wp (Cuda.contained m) (do
      grant va c.size
      modify fun m => m.setChunk t { c with va }
      pure va) (fun _ _ _ => True) (fun _ _ _ => True) m () := by
    unfold grant
    rw [wp_bind, wp_bind, wp_get, wp_bind]
    refine wp_mono (hcu trivial) (fun _ _ _ _ => ?_) fun _ _ _ h => h
    rw [wp_pure, wp_bind, wp_modify]
    trivial
  unfold map chunkOf
  rw [wp_bind, wp_bind]
  refine require_wp (fun _ => ?_) fun _ => trivial
  rw [wp_bind, wp_get, wp_bind]
  refine require_wp (fun _ => ?_) fun _ => trivial
  cases hc : m.chunks[t.id]? with
  | none => trivial
  | some c =>
    dsimp only
    rw [wp_pure, wp_bind]
    refine require_wp (fun _ => ?_) fun _ => trivial
    rw [wp_bind, wp_get, wp_bind]
    refine require_wp (fun _ => ?_) fun _ => trivial
    rw [wp_bind]
    refine require_wp (fun hin => ?_) fun _ => trivial
    rw [wp_bind]
    have hinside := hcheck c hc hin
    unfold cu
    rw [wp_bind, wp_call]
    refine ⟨hinside, fun r _ _ => ?_⟩
    cases r with
    | ok v => exact hgrant
    | error e => trivial

/-! ## One reservation -/

def single (base : Ptr) (len : Size) : OrdMap Ptr Size := (∅ : OrdMap Ptr Size).insert base len

/-- The only reservation is found at its address. -/
theorem single_eq_some {base base' : Ptr} {len len' : Size} : (single base len)[base']? = some len' ↔ base' = base ∧ len' = len := by
  unfold single
  rw [OrdMap.getElem?_insert]
  by_cases heq : base' = base
  · rw [if_pos heq, Option.some_inj]
    exact ⟨fun h => ⟨heq, h.symm⟩, fun h => h.2.symm⟩
  · rw [if_neg heq]
    refine ⟨fun h => ?_, fun h => absurd h.1 heq⟩
    simp at h

/-- It is the one at or below any address behind its start. -/
theorem floor?_single {base : Ptr} {len : Size} (h : base ≤ va) : (single base len).floor? va = some (base, len) := by
  refine OrdMap.floor?_eq_some_iff.2 ⟨single_eq_some.2 ⟨rfl, rfl⟩, (OrdMap.isLE_iff _ _).2 h, fun base' len' hr _ => ?_⟩
  rw [(single_eq_some.1 hr).1, OrdMap.isLE_iff]
  exact BitVec.le_refl _

/-- It is apart from itself. -/
theorem disjoint_single {base : Ptr} {len : Size} (hm : m.reservations = single base len) (h : base.toNat + len.toNat ≤ 2 ^ 64) :
    m.Disjoint := by
  refine ⟨fun base' len' hr => ?_, fun base' base'' len' len'' hne hr hr' => ?_⟩
  · rw [hm] at hr
    obtain ⟨rfl, rfl⟩ := single_eq_some.1 hr
    exact h
  · rw [hm] at hr hr'
    exact absurd ((single_eq_some.1 hr).1.trans (single_eq_some.1 hr').1.symm) hne

end ManagerAux

open ManagerAux

/-- For every set of disjoint reservations and every address and size: the check passes exactly for the ranges inside one reservation if
and only if its sums fit. Where they fit for the chunk of a token, `map` asks the driver only for ranges inside one reservation. -/
theorem containment_exact (m : Manager) (hm : m.Disjoint) (va : Ptr) :
    (∀ size : Size, (m.insideReservation va size = true ↔ m.abs.Inside va size) ↔ m.SumsFit va size) ∧
    ∀ t : ChunkToken, (∀ c : ManagedChunk, m.chunks[t.id]? = some c → m.SumsFit va c.size) →
      Throwing.wp (Cuda.contained m) (Manager.map t va) (fun _ _ _ => True) (fun _ _ _ => True) m () := by
  have hexact (size : Size) : (m.insideReservation va size = true ↔ m.abs.Inside va size) ↔ m.SumsFit va size := by
    rw [check_iff_floor, inside_iff_floor hm]
    unfold Manager.SumsFit
    cases hf : m.reservations.floor? va with
    | none => exact ⟨fun _ _ _ h => (nomatch h), fun _ => ⟨fun ⟨_, _, h, _⟩ => (nomatch h), fun ⟨_, _, h, _⟩ => (nomatch h)⟩⟩
    | some bl =>
      obtain ⟨base, len⟩ := bl
      obtain ⟨hr, hle, -⟩ := OrdMap.floor?_eq_some_iff.1 hf
      rw [OrdMap.isLE_iff, BitVec.le_def] at hle
      have hend := hm.ends base len hr
      have hlen := len.isLt
      have hva := va.isLt
      have hsize := size.isLt
      -- the two comparisons, of the sums and of the wrapped sums
      have harith : ((va.toNat + size.toNat) % 2 ^ 64 ≤ (base.toNat + len.toNat) % 2 ^ 64 ↔
          va.toNat + size.toNat ≤ base.toNat + len.toNat) ↔
          ((va.toNat + size.toNat < 2 ^ 64 ↔ base.toNat + len.toNat < 2 ^ 64) ∨
            (base.toNat + len.toNat < 2 ^ 64 ∧ base.toNat + len.toNat + 2 ^ 64 < va.toNat + size.toNat)) := by
        omega
      constructor
      · intro h base' len' heq
        cases heq
        refine harith.1 ⟨fun hw => ?_, fun hn => ?_⟩
        · obtain ⟨_, _, heq, hn⟩ := h.1 ⟨base, len, rfl, hw⟩
          cases heq
          exact hn
        · obtain ⟨_, _, heq, hw⟩ := h.2 ⟨base, len, rfl, hn⟩
          cases heq
          exact hw
      · intro h
        have hiff := harith.2 (h base len rfl)
        constructor
        · intro hw
          obtain ⟨_, _, heq, hw⟩ := hw
          cases heq
          exact ⟨base, len, rfl, hiff.1 hw⟩
        · intro hn
          obtain ⟨_, _, heq, hn⟩ := hn
          cases heq
          exact ⟨base, len, rfl, hiff.2 hn⟩
  exact ⟨hexact, fun t hfit => map_contained fun c hc => ((hexact c.size).2 (hfit c hc)).1⟩

/-- One reservation: a range in its second half passes the check. -/
theorem containment_exact_inside : ∃ m : Manager, m.reservations[(0x200000 : Ptr)]? = some 0x400000 ∧
    m.insideReservation 0x400000 0x200000 = true := by
  have hdisjoint : Manager.Disjoint { device := 0, numa := 0, serial := 1, gran := 0x200000, reservations := single 0x200000 0x400000 } :=
    disjoint_single rfl (by decide)
  refine ⟨_, single_eq_some.2 ⟨rfl, rfl⟩, (((containment_exact _ hdisjoint 0x400000).1 0x200000).2 fun base len hf => ?_).2 ?_⟩
  · have hfloor : (single 0x200000 0x400000).floor? 0x400000 = some (0x200000, 0x400000) := floor?_single (by decide)
    cases hfloor.symm.trans hf
    exact .inl (by decide)
  · exact ⟨0x200000, 0x400000, single_eq_some.2 ⟨rfl, rfl⟩, by decide, by decide⟩

/-- One reservation of 2 MiB at 2 MiB: a range of 2 MiB at the end of the address space passes the check. -/
theorem containment_exact_false : ¬∀ m : Manager, m.Disjoint → ∀ (va : Ptr) (size : Size),
    m.insideReservation va size = true ↔ m.abs.Inside va size := by
  intro hall
  have hdisjoint : Manager.Disjoint { device := 0, numa := 0, serial := 1, gran := 0x200000, reservations := single 0x200000 0x200000 } :=
    disjoint_single rfl (by decide)
  have hinside := (hall _ hdisjoint 0xffffffffffe00000 0x200000).1 (check_iff_floor.2 ⟨0x200000, 0x200000, ?_, by decide⟩)
  · obtain ⟨base, len, hr, -, hend⟩ := hinside
    obtain ⟨rfl, rfl⟩ := single_eq_some.1 hr
    exact absurd hend (by decide)
  · exact floor?_single (by decide)

end Vmem
