import Vmem.Lemmas.Reports

/-!
# Admission (K3)

The broker compares sums that wrap at 2^64 with its limits. Its answer to an `Alloc` or a `Move` is the one that the true sums call
for exactly if no sum that wraps passes the test that decides.
-/

namespace Vmem

namespace AdmissionAux

variable {t : Tenant} {g : Global} {l : LocField} {size : Size}

/-- The test of the source: it passes when there is room, and when a sum wraps to a small one. -/
theorem fitsLimit_iff : fitsLimit { t, g } l size = true ↔ t.Fits g l size ∨ t.Wraps g l size := by
  have ht := (t.limit l).isLt
  have hg := (g.limit l).isLt
  simp only [fitsLimit, Bool.and_eq_true, decide_eq_true_eq, BitVec.le_def, BitVec.toNat_add, Tenant.Fits, Tenant.Wraps]
  omega

/-- A size that wraps does not fit. -/
theorem not_fits_of_wraps (h : t.Wraps g l size) : ¬t.Fits g l size := by
  have ht := (t.limit l).isLt
  have hg := (g.limit l).isLt
  obtain ⟨hw, -, -⟩ := h
  rintro ⟨h₁, h₂⟩
  omega

/-- The answer names the place that was counted. -/
theorem countAlloc_reply (w : Work) (size : Size) (ptr : Ptr) (l : Loc) : (countAlloc w size ptr l).2 = ⟨.ok, l⟩ := rfl

/-- The answer to an `Alloc` is the one that the limits call for, unless the test that decides passes with a sum that wraps. -/
theorem alloc_reply_iff {ptr : Ptr} (hn : t.chunks[ptr]? = none) : (handleAlloc { t, g } size ptr).2 = t.allocAnswer g size ↔
    ¬t.Wraps g .device size ∧ (t.Fits g .device size ∨ ¬t.Wraps g .host size) := by
  have hheld : t.chunks.contains ptr = false := by
    rw [Std.ExtTreeMap.contains_eq_isSome_getElem?, hn]
    rfl
  simp only [handleAlloc, hheld, Bool.false_eq_true, if_false, Tenant.allocAnswer]
  by_cases hd : t.Fits g .device size
  · have hw : ¬t.Wraps g .device size := fun hw => not_fits_of_wraps hw hd
    simp [fitsLimit_iff.2 (.inl hd), hd, hw, countAlloc_reply]
  · by_cases hwd : t.Wraps g .device size
    · rw [if_pos (fitsLimit_iff.2 (.inr hwd)), if_neg hd, countAlloc_reply]
      split <;> simp [hwd]
    · rw [if_neg (fun h => (fitsLimit_iff.1 h).elim hd hwd), if_neg hd]
      by_cases hh : t.Fits g .host size
      · have hw : ¬t.Wraps g .host size := fun hw => not_fits_of_wraps hw hh
        simp [fitsLimit_iff.2 (.inl hh), hh, hwd, hw, countAlloc_reply]
      · by_cases hwh : t.Wraps g .host size
        · rw [if_pos (fitsLimit_iff.2 (.inr hwh)), if_neg hh, countAlloc_reply]
          simp [hd, hwh]
        · rw [if_neg (fun h => (fitsLimit_iff.1 h).elim hh hwh), if_neg hh]
          simp [hwd, hwh]

/-- A move that is possible is granted when the test passes. -/
theorem move_status {ptr : Ptr} {target : LocField} {c : ChunkRec} (hc : t.chunks[ptr]? = some c) (hl : c.loc ≠ target)
    (hmv : t.moving = none) : (handleMove { t, g } ptr target).2 = .ok ↔ fitsLimit { t, g } target c.size = true := by
  simp only [handleMove, hc, hl, hmv, if_false]
  cases fitsLimit { t, g } target c.size <;> simp

/-- What passes the test is under the limits once it is counted. -/
theorem countAlloc_under {ptr : Ptr} {l : Loc} (h : fitsLimit { t, g } l.field size = true) :
    (countAlloc { t, g } size ptr l).1.t.usedBytes l.field ≤ (countAlloc { t, g } size ptr l).1.t.limit l.field ∧
      (countAlloc { t, g } size ptr l).1.g.usedBytes l.field ≤ (countAlloc { t, g } size ptr l).1.g.limit l.field := by
  simp only [fitsLimit, Bool.and_eq_true, decide_eq_true_eq] at h
  cases l <;> exact h

/-- A granted `Alloc` leaves both counts where it was placed under their limits. -/
theorem alloc_under {ptr : Ptr} (hok : (handleAlloc { t, g } size ptr).2.status = .ok) :
    (handleAlloc { t, g } size ptr).1.t.usedBytes (handleAlloc { t, g } size ptr).2.loc.field ≤
        (handleAlloc { t, g } size ptr).1.t.limit (handleAlloc { t, g } size ptr).2.loc.field ∧
      (handleAlloc { t, g } size ptr).1.g.usedBytes (handleAlloc { t, g } size ptr).2.loc.field ≤
        (handleAlloc { t, g } size ptr).1.g.limit (handleAlloc { t, g } size ptr).2.loc.field := by
  simp only [handleAlloc] at hok ⊢
  split at hok
  · cases hok
  · rename_i hheld
    rw [if_neg hheld]
    split at hok
    · rename_i hd
      rw [if_pos hd]
      exact countAlloc_under (l := .device) hd
    · rename_i hd
      rw [if_neg hd]
      split at hok
      · rename_i hh
        rw [if_pos hh]
        exact countAlloc_under (l := .host) hh
      · cases hok

/-- A granted `Move` leaves both counts at its target under their limits. -/
theorem move_under {ptr : Ptr} {target : LocField} {c : ChunkRec} (hc : t.chunks[ptr]? = some c) (hl : c.loc ≠ target)
    (hmv : t.moving = none) (hok : (handleMove { t, g } ptr target).2 = .ok) :
    (handleMove { t, g } ptr target).1.t.usedBytes target ≤ (handleMove { t, g } ptr target).1.t.limit target ∧
      (handleMove { t, g } ptr target).1.g.usedBytes target ≤ (handleMove { t, g } ptr target).1.g.limit target := by
  have hfit := (move_status hc hl hmv).1 hok
  simp only [handleMove, hc, hl, hmv, if_false, hfit, Bool.not_true, Bool.false_eq_true]
  simp only [fitsLimit, Bool.and_eq_true, decide_eq_true_eq] at hfit
  cases target <;> exact hfit

end AdmissionAux

open AdmissionAux

/-- K3. In every state of the broker and for every size: an `Alloc` of a pointer that the tenant does not hold is answered as the
limits call for exactly if the device test does not pass with a sum that wraps, and there is room on the device or the host test
does not; a `Move` of a tracked chunk to another place, with no move in flight, is granted if and only if there is room, exactly
if the test does not pass with a sum that wraps. After every grant both counts at the place are at most their limits. -/
theorem admission_exact (cfg : Global) (es : List Event) (fd : Fd) (t : Tenant) (m : Msg)
    (ht : ((Broker.start cfg).run es).tenants[fd]? = some t) :
    (m.type = .alloc → t.chunks[m.ptr]? = none →
      ((((Broker.start cfg).run es).step (.msg fd m)).reply = some (t.allocAnswer ((Broker.start cfg).run es).g m.size) ↔
        ¬t.Wraps ((Broker.start cfg).run es).g .device m.size ∧
          (t.Fits ((Broker.start cfg).run es).g .device m.size ∨ ¬t.Wraps ((Broker.start cfg).run es).g .host m.size)) ∧
      ∀ rep : Reply, (((Broker.start cfg).run es).step (.msg fd m)).reply = some rep → rep.status = .ok →
        ∃ t', (((Broker.start cfg).run es).step (.msg fd m)).b.tenants[fd]? = some t' ∧
          t'.usedBytes rep.loc.field ≤ t'.limit rep.loc.field ∧
          (((Broker.start cfg).run es).step (.msg fd m)).b.g.usedBytes rep.loc.field ≤
            (((Broker.start cfg).run es).step (.msg fd m)).b.g.limit rep.loc.field) ∧
    (m.type = .move → ∀ c : ChunkRec, t.chunks[m.ptr]? = some c → c.loc ≠ m.loc → t.moving = none →
      (((((Broker.start cfg).run es).step (.msg fd m)).reply = some ⟨.ok, .device⟩ ↔
        t.Fits ((Broker.start cfg).run es).g m.loc c.size) ↔ ¬t.Wraps ((Broker.start cfg).run es).g m.loc c.size) ∧
      ((((Broker.start cfg).run es).step (.msg fd m)).reply = some ⟨.ok, .device⟩ →
        ∃ t', (((Broker.start cfg).run es).step (.msg fd m)).b.tenants[fd]? = some t' ∧
          t'.usedBytes m.loc ≤ t'.limit m.loc ∧
          (((Broker.start cfg).run es).step (.msg fd m)).b.g.usedBytes m.loc ≤
            (((Broker.start cfg).run es).step (.msg fd m)).b.g.limit m.loc)) := by
  generalize (Broker.start cfg).run es = b at ht
  rw [BrokerOrderAux.step_msg ht]
  refine ⟨fun hm hn => ⟨?_, fun rep hrep hok => ?_⟩, fun hm c hc hl hmv => ⟨?_, fun hrep => ?_⟩⟩
  · simp only [Broker.onMsg, handle, hm, Option.some.injEq]
    exact alloc_reply_iff hn
  · simp only [Broker.onMsg, handle, hm, Option.some.injEq, Std.ExtTreeMap.getElem?_insert_self, exists_eq_left'] at hrep ⊢
    subst hrep
    exact alloc_under hok
  · have hst := move_status (g := b.g) hc hl hmv
    simp only [Broker.onMsg, handle, hm, Option.some.injEq, Reply.mk.injEq, and_true, hst, fitsLimit_iff]
    constructor
    · intro h hw
      exact not_fits_of_wraps hw (h.1 (.inr hw))
    · intro h
      exact ⟨fun hor => hor.elim id fun hw => absurd hw h, .inl⟩
  · simp only [Broker.onMsg, handle, hm, Option.some.injEq, Reply.mk.injEq, and_true, Std.ExtTreeMap.getElem?_insert_self,
      exists_eq_left'] at hrep ⊢
    exact move_under hc hl hmv hrep

/-- A tenant with ten bytes on the device asks for five more, of twenty. -/
theorem admission_exact_second : (((Broker.start { vramLimit := 20 }).run [.connect 5 1,
      .msg 5 { type := .alloc, ptr := 1, size := 10 }]).step (.msg 5 { type := .alloc, ptr := 2, size := 5 })).reply =
    some ⟨.ok, .device⟩ :=
  ((admission_exact { vramLimit := 20 } [.connect 5 1, .msg 5 { type := .alloc, ptr := 1, size := 10 }] 5 _
    { type := .alloc, ptr := 2, size := 5 } rfl).1 rfl rfl).1.2 ⟨by decide, .inl (by decide)⟩

/-- K3 is false near 2^64: with ten bytes in use, an `Alloc` of 2^64 - 1 bytes is granted on the device, under a limit of 100. -/
theorem admission_exact_false : ¬∀ (cfg : Global) (es : List Event) (fd : Fd) (t : Tenant) (m : Msg),
    ((Broker.start cfg).run es).tenants[fd]? = some t → m.type = .alloc → t.chunks[m.ptr]? = none →
      (((Broker.start cfg).run es).step (.msg fd m)).reply = some (t.allocAnswer ((Broker.start cfg).run es).g m.size) := by
  intro hall
  have h := hall { vramLimit := 100, dramLimit := 100 } [.connect 5 1, .msg 5 { type := .alloc, ptr := 1, size := 10 }] 5 _
    { type := .alloc, ptr := 2, size := BitVec.allOnes 64 } rfl rfl rfl
  revert h
  decide

end Vmem
