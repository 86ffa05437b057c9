import Vmem.Caller
import Vmem.Lemmas.Guarantee
import Vmem.Lib.Ranges

/-!
# The records of the backend and the driver

Between calls the driver holds exactly what the backend records: one reservation, one mapping and one handle per live chunk.
Each outcome of a call keeps this.
-/

namespace Vmem

namespace GuaranteeAux

variable {β : Type}

/-- The invariant of a run: also the reservations are apart from each other, and the counts are right modulo 2^64. -/
structure Inv (st : Caller β) : Prop extends st.Consistent where
  range : ∀ (va : Ptr) (s : Size), st.d.reservations[va]? = some s → va ≠ 0 ∧ s ≠ 0 ∧ va.toNat + s.toNat ≤ 2 ^ 64
  apart : ∀ (va va' : Ptr) (s s' : Size), st.d.reservations[va]? = some s → st.d.reservations[va']? = some s' → va ≠ va' →
    Apart va s va' s'
  used : ∀ l, st.b.used l = OrdMap.total st.b.chunks fun _ r => if r.loc = l then r.size else 0

/-- The driver is sane between two calls. -/
theorem Inv.sane {st : Caller β} (h : Inv st) : Sane st.d := by
  refine ⟨h.range, h.apart, fun va m hm => ?_⟩
  rw [h.mappings va] at hm
  obtain ⟨r, hr, rfl⟩ := Option.map_eq_some_iff.1 hm
  simp [h.reservations va, hr]

/-- The chunk the caller holds is live. -/
theorem Inv.live {st : Caller β} (h : Inv st) {va : Ptr} {c : Chunk} (hc : st.held[va]? = some c) :
    ∃ (r : Rec) (x : β), c = ⟨va, r.size, r.loc⟩ ∧ Live st.b st.d c r ⟨r.size, r.loc, x⟩ := by
  rw [h.held va] at hc
  obtain ⟨r, hr, rfl⟩ := Option.map_eq_some_iff.1 hc
  obtain ⟨x, hx⟩ := h.backed va r hr
  refine ⟨r, x, rfl, hr, ?_, hx⟩
  simp [h.mappings va, hr]

/-- The chunks lie apart from each other below 2^64, so their total length is below 2^64 and the counts are exact. -/
theorem Inv.exact {st : Caller β} (h : Inv st) (l : Loc) : (st.b.used l).toNat = st.b.liveBytes l := by
  have hres : ∀ (va : Ptr) (r : Rec), st.b.chunks[va]? = some r → st.d.reservations[va]? = some r.size := by
    intro va r hr
    simp [h.reservations va, hr]
  have hle : OrdMap.total st.b.chunks (fun _ r => r.size.toNat) ≤ 2 ^ 64 - 1 := by
    refine Ranges.total_le st.b.chunks BitVec.toNat (fun r => r.size.toNat) 1 (2 ^ 64) ?_ ?_
    · intro va va' r r' hr hr' hne
      exact h.apart va va' r.size r'.size (hres va r hr) (hres va' r' hr') hne
    · intro va r hr
      obtain ⟨h0, -, hend⟩ := h.range va r.size (hres va r hr)
      exact ⟨BitVec.toNat_pos_of_ne_zero h0, hend⟩
  have hlive : st.b.liveBytes l ≤ OrdMap.total st.b.chunks (fun _ r => r.size.toNat) := by
    refine OrdMap.total_le_total fun va r _ => ?_
    split
    · exact le_refl _
    · exact Nat.zero_le _
  have hcast : st.b.used l = BitVec.ofNat 64 (st.b.liveBytes l) := by
    have hmap := OrdMap.map_total (Nat.castAddMonoidHom Size) st.b.chunks
      fun _ r => if r.loc = l then r.size.toNat else 0
    rw [h.used l, ← BitVec.natCast_eq_ofNat]
    refine Eq.trans (OrdMap.total_congr fun va r _ => ?_) hmap.symm
    simp only [Nat.coe_castAddMonoidHom]
    split <;> simp
  rw [hcast, BitVec.toNat_ofNat, Nat.mod_eq_of_lt (by omega)]

/-! ## What each call keeps -/

/-- A run that changed neither memory nor driver keeps the invariant. -/
theorem Inv.of_same {st : Caller β} (h : Inv st) {b' : VmemBackend} (hb : st.b.SameMemory b') :
    Inv ⟨b', st.held, st.d⟩ := by
  have hu : ∀ l, b'.used l = OrdMap.total b'.chunks fun _ r => if r.loc = l then r.size else 0 := by
    intro l
    rw [hb.used, hb.chunks]
    exact h.used l
  refine ⟨⟨?_, ?_, ?_, ?_, ?_, ?_⟩, h.range, h.apart, hu⟩ <;> simp only [hb.chunks]
  · exact h.reservations
  · exact h.mappings
  · exact h.backed
  · exact h.owned
  · exact h.single
  · exact h.held

/-- A new chunk keeps the invariant. -/
theorem Inv.created {st : Caller β} (h : Inv st) {size : Size} {c : Chunk} {b' : VmemBackend} {d' : Cuda β} {nh : Handle}
    (hc : Created st.b st.d size c b' d' nh) : Inv ⟨b', st.held.insert c.ptr c, d'⟩ := by
  obtain ⟨⟨align, hv⟩, hfresh, hsize, ⟨x, rfl⟩, hchunks, hused⟩ := hc
  have hnew : st.b.chunks[c.ptr]? = none := by
    have := h.reservations c.ptr
    rw [h.sane.fresh hv] at this
    exact Option.map_eq_none_iff.1 this.symm
  -- a chunk that was there has another address and another handle
  have hother : ∀ (va : Ptr) (r : Rec), st.b.chunks[va]? = some r → c.ptr ≠ va ∧ nh ≠ r.h := by
    intro va r hr
    constructor
    · rintro rfl
      rw [hnew] at hr
      cases hr
    · rintro rfl
      obtain ⟨y, hy⟩ := h.backed va r hr
      rw [hfresh] at hy
      cases hy
  refine ⟨⟨fun va => ?_, fun va => ?_, fun va r hr => ?_, fun k p hk => ?_, fun va va' r r' hr hr' hh => ?_, fun va => ?_⟩,
    fun va s hs => ?_, fun va va' s s' hs hs' hne => ?_, fun l => ?_⟩
  · simp only [hchunks, Std.ExtTreeMap.getElem?_insert, Std.compare_eq_iff_eq]
    split
    · rfl
    · exact h.reservations va
  · simp only [hchunks, Std.ExtTreeMap.getElem?_insert, Std.compare_eq_iff_eq]
    split
    · rfl
    · exact h.mappings va
  · simp only [hchunks, Std.ExtTreeMap.getElem?_insert, Std.compare_eq_iff_eq] at hr
    split at hr
    · cases hr
      exact ⟨x, Std.ExtTreeMap.getElem?_insert_self⟩
    · obtain ⟨y, hy⟩ := h.backed va r hr
      refine ⟨y, ?_⟩
      simp [Std.ExtTreeMap.getElem?_insert, (hother va r hr).2, hy]
  · simp only [Std.ExtTreeMap.getElem?_insert, Std.compare_eq_iff_eq] at hk
    split at hk
    · rename_i hk'
      exact ⟨c.ptr, ⟨nh, size, c.loc⟩, by simp [hchunks], hk'⟩
    · obtain ⟨va, r, hr, hrk⟩ := h.owned k p hk
      refine ⟨va, r, ?_, hrk⟩
      simp [hchunks, Std.ExtTreeMap.getElem?_insert, (hother va r hr).1, hr]
  · simp only [hchunks, Std.ExtTreeMap.getElem?_insert, Std.compare_eq_iff_eq] at hr hr'
    split at hr <;> split at hr'
    · rename_i h₁ h₂
      exact h₁.symm.trans h₂
    · cases hr
      exact absurd hh (hother va' r' hr').2
    · cases hr'
      exact absurd hh.symm (hother va r hr).2
    · exact h.single va va' r r' hr hr' hh
  · simp only [hchunks, Std.ExtTreeMap.getElem?_insert, Std.compare_eq_iff_eq]
    split
    · rename_i hva
      subst hva
      simp [← hsize]
    · exact h.held va
  · simp only [Std.ExtTreeMap.getElem?_insert, Std.compare_eq_iff_eq] at hs
    split at hs
    · rename_i hva
      subst hva
      cases hs
      exact ⟨hv.2.1, hv.1, hv.2.2.1⟩
    · exact h.range va s hs
  · simp only [Std.ExtTreeMap.getElem?_insert, Std.compare_eq_iff_eq] at hs hs'
    split at hs <;> split at hs'
    · rename_i h₁ h₂
      exact absurd (h₁.symm.trans h₂) hne
    · rename_i h₁ _
      subst h₁
      cases hs
      exact hv.2.2.2 va' s' hs'
    · rename_i h₁
      subst h₁
      cases hs'
      exact (hv.2.2.2 va s hs).symm
    · exact h.apart va va' s s' hs hs' hne
  · show b'.used l = OrdMap.total b'.chunks _
    rw [hused, hchunks, OrdMap.total_insert_new hnew, h.used l]
    exact add_comm _ _

/-- So does one that is gone. -/
theorem Inv.destroyed {st : Caller β} (h : Inv st) {va : Ptr} {r : Rec} {b' : VmemBackend} {d' : Cuda β}
    (hr : st.b.chunks[va]? = some r) (hc : Destroyed st.b st.d ⟨va, r.size, r.loc⟩ r b' d') :
    Inv ⟨b', st.held.erase va, d'⟩ := by
  obtain ⟨rfl, hchunks, hused⟩ := hc
  simp only at hchunks
  refine ⟨⟨fun va' => ?_, fun va' => ?_, fun va' r' hr' => ?_, fun k p hk => ?_, fun va₁ va₂ r₁ r₂ hr₁ hr₂ hh => ?_,
    fun va' => ?_⟩, fun va' s hs => ?_, fun va₁ va₂ s₁ s₂ hs₁ hs₂ hne => ?_, fun l => ?_⟩
  · simp only [hchunks, Std.ExtTreeMap.getElem?_erase, Std.compare_eq_iff_eq]
    split
    · rfl
    · exact h.reservations va'
  · simp only [hchunks, Std.ExtTreeMap.getElem?_erase, Std.compare_eq_iff_eq]
    split
    · rfl
    · exact h.mappings va'
  · simp only [hchunks, Std.ExtTreeMap.getElem?_erase, Std.compare_eq_iff_eq] at hr'
    split at hr'
    · cases hr'
    · rename_i hne
      obtain ⟨y, hy⟩ := h.backed va' r' hr'
      refine ⟨y, ?_⟩
      have hh : r.h ≠ r'.h := fun hh => hne (h.single va va' r r' hr hr' hh)
      simp [Std.ExtTreeMap.getElem?_erase, hh, hy]
  · simp only [Std.ExtTreeMap.getElem?_erase, Std.compare_eq_iff_eq] at hk
    split at hk
    · cases hk
    · rename_i hne
      obtain ⟨va', r', hr', hrk⟩ := h.owned k p hk
      refine ⟨va', r', ?_, hrk⟩
      have hva : va ≠ va' := by
        rintro rfl
        rw [hr] at hr'
        cases hr'
        exact hne hrk
      simp [hchunks, Std.ExtTreeMap.getElem?_erase, hva, hr']
  · simp only [hchunks, Std.ExtTreeMap.getElem?_erase, Std.compare_eq_iff_eq] at hr₁ hr₂
    split at hr₁
    · cases hr₁
    · split at hr₂
      · cases hr₂
      · exact h.single va₁ va₂ r₁ r₂ hr₁ hr₂ hh
  · simp only [hchunks, Std.ExtTreeMap.getElem?_erase, Std.compare_eq_iff_eq]
    split
    · rfl
    · exact h.held va'
  · simp only [Std.ExtTreeMap.getElem?_erase, Std.compare_eq_iff_eq] at hs
    split at hs
    · cases hs
    · exact h.range va' s hs
  · simp only [Std.ExtTreeMap.getElem?_erase, Std.compare_eq_iff_eq] at hs₁ hs₂
    split at hs₁
    · cases hs₁
    · split at hs₂
      · cases hs₂
      · exact h.apart va₁ va₂ s₁ s₂ hs₁ hs₂ hne
  · show b'.used l = OrdMap.total b'.chunks _
    rw [hused, hchunks, h.used l, OrdMap.total_of_getElem? hr]
    exact add_sub_cancel_left _ _

/-- So does one that is somewhere else. -/
theorem Inv.moved {st : Caller β} (h : Inv st) {va : Ptr} {r : Rec} {x : β} {target : Loc} {b' : VmemBackend} {d' : Cuda β}
    {nh : Handle} (hr : st.b.chunks[va]? = some r)
    (hm : Moved st.b st.d ⟨va, r.size, r.loc⟩ target r ⟨r.size, r.loc, x⟩ b' d' nh) :
    Inv ⟨b', st.held.insert va ⟨va, r.size, target⟩, d'⟩ := by
  obtain ⟨hfresh, rfl, hchunks, hused⟩ := hm
  simp only at hchunks
  have hne : ∀ (va' : Ptr) (r' : Rec), st.b.chunks[va']? = some r' → nh ≠ r'.h := by
    rintro va' r' hr' rfl
    obtain ⟨y, hy⟩ := h.backed va' r' hr'
    rw [hfresh] at hy
    cases hy
  refine ⟨⟨fun va' => ?_, fun va' => ?_, fun va' r' hr' => ?_, fun k p hk => ?_, fun va₁ va₂ r₁ r₂ hr₁ hr₂ hh => ?_,
    fun va' => ?_⟩, h.range, h.apart, fun l => ?_⟩
  · simp only [hchunks, mapped, Std.ExtTreeMap.getElem?_insert, Std.compare_eq_iff_eq]
    split
    · rename_i hva
      subst hva
      simp [h.reservations va, hr]
    · exact h.reservations va'
  · simp only [hchunks, mapped, Std.ExtTreeMap.getElem?_insert, Std.compare_eq_iff_eq]
    split
    · rfl
    · exact h.mappings va'
  · simp only [hchunks, Std.ExtTreeMap.getElem?_insert, Std.compare_eq_iff_eq] at hr'
    split at hr'
    · cases hr'
      refine ⟨x, ?_⟩
      simp [(hne va r hr).symm]
    · rename_i hva
      obtain ⟨y, hy⟩ := h.backed va' r' hr'
      refine ⟨y, ?_⟩
      have hh : r.h ≠ r'.h := fun hh => hva (h.single va va' r r' hr hr' hh)
      simp [Std.ExtTreeMap.getElem?_erase, Std.ExtTreeMap.getElem?_insert, hh, hne va' r' hr', hy]
  · simp only [Std.ExtTreeMap.getElem?_erase, Std.ExtTreeMap.getElem?_insert, Std.compare_eq_iff_eq] at hk
    split at hk
    · cases hk
    · rename_i hrk
      split at hk
      · rename_i hnk
        exact ⟨va, ⟨nh, r.size, target⟩, by simp [hchunks], hnk⟩
      · obtain ⟨va', r', hr', hk'⟩ := h.owned k p hk
        refine ⟨va', r', ?_, hk'⟩
        have hva : va ≠ va' := by
          rintro rfl
          rw [hr] at hr'
          cases hr'
          exact hrk hk'
        simp [hchunks, Std.ExtTreeMap.getElem?_insert, hva, hr']
  · simp only [hchunks, Std.ExtTreeMap.getElem?_insert, Std.compare_eq_iff_eq] at hr₁ hr₂
    split at hr₁ <;> split at hr₂
    · rename_i h₁ h₂
      exact h₁.symm.trans h₂
    · cases hr₁
      exact absurd hh (hne va₂ r₂ hr₂)
    · cases hr₂
      exact absurd hh.symm (hne va₁ r₁ hr₁)
    · exact h.single va₁ va₂ r₁ r₂ hr₁ hr₂ hh
  · simp only [hchunks, Std.ExtTreeMap.getElem?_insert, Std.compare_eq_iff_eq]
    split
    · rename_i hva
      subst hva
      rfl
    · exact h.held va'
  · show b'.used l = OrdMap.total b'.chunks _
    rw [hused, hchunks, OrdMap.total_insert, h.used l, OrdMap.total_of_getElem? hr]
    ring

/-- A kernel only writes to memory. -/
theorem Inv.kernel {st : Caller β} (h : Inv st) (k : Handle) (x : β) : Inv { st with d := st.d.write k x } := by
  have hkeep : ∀ (j : Handle) (p : Phys β), st.d.handles[j]? = some p →
      ∃ y, (st.d.write k x).handles[j]? = some { p with data := y } := by
    intro j p hp
    by_cases hj : k = j
    · subst hj
      exact ⟨x, by simp [write_handles hp]⟩
    · refine ⟨p.data, ?_⟩
      unfold Cuda.write
      split
      · exact hp
      · simp [Std.ExtTreeMap.getElem?_insert, hj, hp]
  refine ⟨⟨?_, ?_, fun va r hr => ?_, fun j p hp => ?_, h.single, h.held⟩, ?_, ?_, h.used⟩
  · simpa using h.reservations
  · simpa using h.mappings
  · obtain ⟨y, hy⟩ := h.backed va r hr
    obtain ⟨z, hz⟩ := hkeep r.h _ hy
    exact ⟨z, hz⟩
  · cases hj : st.d.handles[j]? with
    | some q => exact h.owned j q hj
    | none =>
      exfalso
      revert hp
      simp only [Cuda.write]
      split
      · simp [hj]
      · rename_i q hq
        have hkj : k ≠ j := by
          rintro rfl
          rw [hj] at hq
          cases hq
        simp [Std.ExtTreeMap.getElem?_insert, hkj, hj]
  · simpa using h.range
  · simpa using h.apart

/-! ## What a call can do -/

/-- The outcomes of a call that is not `Fatal`: nothing changed, a new chunk, a chunk gone, a chunk moved, or a chunk that is
already where it was sent. -/
theorem Inv.step_cases {st st' : Caller β} (h : Inv st) {c : MemCall} {s : Status} (hs : st.Step c s st') (hf : s ≠ .fatal) :
    (s ≠ .ok ∧ st.b.SameMemory st'.b ∧ st'.held = st.held ∧ st'.d = st.d) ∨
    (∃ (size : Size) (ch : Chunk) (nh : Handle), c = .create size ∧ s = .ok ∧
      Created st.b st.d size ch st'.b st'.d nh ∧ st'.held = st.held.insert ch.ptr ch) ∨
    (∃ (va : Ptr) (r : Rec), c = .destroy va ∧ s = .ok ∧ st.b.chunks[va]? = some r ∧
      Destroyed st.b st.d ⟨va, r.size, r.loc⟩ r st'.b st'.d ∧ st'.held = st.held.erase va) ∨
    (∃ (va : Ptr) (target : Loc) (r : Rec) (x : β) (nh : Handle), c = .move va target ∧ s = .ok ∧
      st.b.chunks[va]? = some r ∧ st.d.contents va = some x ∧
      Moved st.b st.d ⟨va, r.size, r.loc⟩ target r ⟨r.size, r.loc, x⟩ st'.b st'.d nh ∧
      st'.held = st.held.insert va ⟨va, r.size, target⟩) ∨
    ∃ (va : Ptr) (r : Rec), c = .move va r.loc ∧ s = .ok ∧ st.b.chunks[va]? = some r ∧ st' = st := by
  cases hs with
  | create hrun =>
    rcases hrun.of_wp (create_wp h.sane) with ⟨hok, nh, hc⟩ | ⟨hok, -, hd, hb⟩
    · obtain rfl : s = .ok := hok
      exact .inr (.inl ⟨_, _, nh, rfl, rfl, hc, by simp⟩)
    · exact .inl ⟨hok, hb, if_neg hok, hd⟩
  | destroy hc hrun =>
    obtain ⟨r, x, rfl, hl⟩ := h.live hc
    rcases hrun.of_wp (destroy_wp hl.recorded) with ⟨hok, -, hdes⟩ | hfatal
    · obtain rfl : s = .ok := hok
      exact .inr (.inr (.inl ⟨_, r, rfl, rfl, hl.recorded, hdes, by simp⟩))
    · exact absurd hfatal hf
  | @move va target s c c' b' d' hc hrun =>
    obtain ⟨r, x, rfl, hl⟩ := h.live hc
    by_cases ht : r.loc = target
    · subst ht
      have hret : Prog.wp (Cuda.world β) (VmemBackend.move ⟨va, r.size, r.loc⟩ r.loc st.b)
          (fun res d' => res = ((.ok, ⟨va, r.size, r.loc⟩), st.b) ∧ d' = st.d) st.d := by
        simp only [VmemBackend.move, if_true]
        exact ⟨rfl, rfl⟩
      obtain ⟨hres, rfl⟩ := hrun.of_wp hret
      cases hres
      refine .inr (.inr (.inr (.inr ⟨va, r, rfl, rfl, hl.recorded, ?_⟩)))
      rw [OrdMap.insert_of_getElem? hc]
    · rcases hrun.of_wp (move_wp h.sane hl ht) with ⟨hok, rfl, nh, hm⟩ | hfatal | ⟨hok, hc', hd, hb⟩
      · obtain rfl : s = .ok := hok
        have hx : st.d.contents va = some x := by simp [Cuda.contents, hl.mapped, hl.backed]
        exact .inr (.inr (.inr (.inl ⟨va, target, r, x, nh, rfl, rfl, hl.recorded, hx, hm, rfl⟩)))
      · exact absurd hfatal hf
      · refine .inl ⟨hok, hb, ?_, hd⟩
        obtain rfl : c' = ⟨va, r.size, r.loc⟩ := hc'
        exact OrdMap.insert_of_getElem? hc

/-- A call that is not fatal keeps the invariant. -/
theorem Inv.step {st st' : Caller β} (h : Inv st) {c : MemCall} {s : Status} (hs : st.Step c s st') (hf : s ≠ .fatal) :
    Inv st' := by
  obtain ⟨b', held', d'⟩ := st'
  rcases h.step_cases hs hf with ⟨-, hb, rfl, rfl⟩ | ⟨size, ch, nh, -, -, hc, rfl⟩ | ⟨va, r, -, -, hr, hd, rfl⟩ |
    ⟨va, target, r, x, nh, -, -, hr, -, hm, rfl⟩ | ⟨va, r, -, -, -, rfl⟩
  · exact h.of_same hb
  · exact h.created hc
  · exact h.destroyed hr hd
  · exact h.moved hr hm
  · exact h

/-- The invariant holds in every state of a run. -/
theorem reached_inv {st : Caller β} (h : st.Reached) : Inv st := by
  induction h with
  | start b hc hu =>
    refine ⟨⟨?_, ?_, ?_, ?_, ?_, ?_⟩, ?_, ?_, ?_⟩ <;> simp [hc, hu]
  | call hst hstep hs ih => exact ih.step hstep hs
  | kernel hst k x ih => exact ih.kernel k x

/-- No call changes the contents of a chunk that is live before and after it. -/
theorem Inv.step_contents {st st' : Caller β} (h : Inv st) {c : MemCall} {s : Status} (hs : st.Step c s st')
    (hf : s ≠ .fatal) {va : Ptr} {r r' : Rec} (hr : st.b.chunks[va]? = some r) (hr' : st'.b.chunks[va]? = some r') :
    st'.d.contents va = st.d.contents va := by
  have hm : st.d.mappings[va]? = some ⟨r.size, r.h, true⟩ := by simp [h.mappings va, hr]
  obtain ⟨x, hx⟩ := h.backed va r hr
  rcases h.step_cases hs hf with ⟨-, -, -, hd⟩ | ⟨size, ch, nh, -, -, hc, -⟩ | ⟨va', r₀, -, -, hr₀, hd, -⟩ |
    ⟨va', target, r₀, x₀, nh, -, -, hr₀, hx₀, hmv, -⟩ | ⟨va', r₀, -, -, -, rfl⟩
  · rw [hd]
  · obtain ⟨align, hv⟩ := hc.reserved
    obtain ⟨y, hd⟩ := hc.driver
    have hne : ch.ptr ≠ va := by
      rintro rfl
      have := h.sane.fresh hv
      simp [h.reservations, hr] at this
    have hnh : nh ≠ r.h := by
      rintro rfl
      rw [hc.fresh] at hx
      cases hx
    simp [hd, Cuda.contents, Std.ExtTreeMap.getElem?_insert, hne, hnh, hm]
  · have hne : va' ≠ va := by
      rintro rfl
      simp [hd.chunks] at hr'
    have hh : r₀.h ≠ r.h := fun hh => hne (h.single va' va r₀ r hr₀ hr hh)
    simp [hd.driver, Cuda.contents, Std.ExtTreeMap.getElem?_erase, hne, hh, hm]
  · have hnh : ∀ (w : Ptr) (q : Rec), st.b.chunks[w]? = some q → nh ≠ q.h := by
      rintro w q hq rfl
      obtain ⟨y, hy⟩ := h.backed w q hq
      rw [hmv.fresh] at hy
      cases hy
    by_cases hva : va' = va
    · subst hva
      rw [hx₀]
      simp [hmv.driver, Cuda.contents, mapped, (hnh va' r₀ hr₀).symm]
    · have hh : r₀.h ≠ r.h := fun hh => hva (h.single va' va r₀ r hr₀ hr hh)
      simp [hmv.driver, Cuda.contents, mapped, Std.ExtTreeMap.getElem?_erase, Std.ExtTreeMap.getElem?_insert, hva, hh, hm,
        hnh va r hr]
  · rfl

end GuaranteeAux

end Vmem
