import Vmem.Lemmas.Books

/-!
# The handlers, one by one

For each handler: what it leaves alone (`Work.Keeps`), and that it moves the counts exactly as the books of the tenant move.
The second holds in any record whose move in flight names a tracked chunk; a `Resync` of the moving chunk must also report the
size that is on record, since the reservation keeps the old one.
-/

namespace Vmem

/-! ## What a handler leaves alone -/

/-- Counting a new chunk keeps the balance, the limits and the tenant. -/
theorem countAlloc_keeps (w : Work) (size : Size) (ptr : Ptr) (l : Loc) : w.Keeps (countAlloc w size ptr l).1 :=
  (Work.Keeps.setChunk _ _ _).trans ((Work.Keeps.updateCount _ _ _ _).trans (Work.Keeps.say _ _))

/-- So does `Alloc`, granted or refused. -/
theorem handleAlloc_keeps (w : Work) (size : Size) (ptr : Ptr) : w.Keeps (handleAlloc w size ptr).1 := by
  unfold handleAlloc
  split
  · exact Work.Keeps.say _ _
  · split
    · exact countAlloc_keeps _ _ _ _
    · split
      · exact countAlloc_keeps _ _ _ _
      · exact Work.Keeps.say _ _

/-- So does `AllocFail`, which counts the chunk on the host instead. -/
theorem handleAllocFail_keeps (w : Work) (ptr : Ptr) : w.Keeps (handleAllocFail w ptr) := by
  unfold handleAllocFail
  split
  · exact Work.Keeps.say _ _
  · split
    · exact Work.Keeps.say _ _
    · exact (Work.Keeps.updateCount _ _ _ _).trans ((Work.Keeps.updateCount _ _ _ _).trans
        ((Work.Keeps.setChunk _ _ _).trans ((Work.Keeps.say _ _).trans (Work.Keeps.checkOverLimit _ _))))

/-- So does `Move`, which only counts the target. -/
theorem handleMove_keeps (w : Work) (ptr : Ptr) (target : LocField) : w.Keeps (handleMove w ptr target).1 := by
  unfold handleMove
  split
  · exact Work.Keeps.say _ _
  · split
    · exact Work.Keeps.refl _
    · split
      · exact Work.Keeps.say _ _
      · split
        · exact Work.Keeps.say _ _
        · exact (Work.Keeps.updateCount _ _ _ _).trans ((Work.Keeps.setMoving _ _).trans (Work.Keeps.say _ _))

/-- So does the end of a move, which takes the target off again. -/
theorem releaseMove_keeps (w : Work) (ptr : Ptr) (size : Size) (place : LocField) :
    w.Keeps (releaseMove w ptr size place) := by
  unfold releaseMove
  split
  · exact Work.Keeps.say _ _
  · split
    · exact Work.Keeps.say _ _
    · rename_i mv _ _
      refine Work.Keeps.trans ?_ (Work.Keeps.setMoving _ _)
      refine Work.Keeps.trans (Work.Keeps.updateCount w mv.target size false) ?_
      split
      · exact Work.Keeps.say _ _
      · exact Work.Keeps.refl _

/-- So does counting a chunk at its new place. -/
theorem relocate_keeps (w : Work) (ptr : Ptr) (c : ChunkRec) (place : LocField) : w.Keeps (relocate w ptr c place) := by
  unfold relocate
  split
  · exact (Work.Keeps.updateCount _ _ _ _).trans ((Work.Keeps.updateCount _ _ _ _).trans
      ((Work.Keeps.setChunk _ _ _).trans (Work.Keeps.checkOverLimit _ _)))
  · exact Work.Keeps.refl _

theorem handleMoveDone_keeps (w : Work) (ptr : Ptr) (place : LocField) : w.Keeps (handleMoveDone w ptr place) := by
  unfold handleMoveDone
  split
  · exact Work.Keeps.say _ _
  · exact (releaseMove_keeps _ _ _ _).trans (relocate_keeps _ _ _ _)

theorem handleResync_keeps (w : Work) (ptr : Ptr) (size : Size) (place : LocField) :
    w.Keeps (handleResync w ptr size place) := by
  unfold handleResync
  refine Work.Keeps.trans ?_ ((Work.Keeps.setChunk _ _ _).trans ((Work.Keeps.updateCount _ _ _ _).trans
    ((Work.Keeps.say _ _).trans (Work.Keeps.checkOverLimit _ _))))
  unfold dropTracked
  split
  · exact Work.Keeps.refl _
  · exact (Work.Keeps.say _ _).trans (Work.Keeps.updateCount _ _ _ _)

theorem handleFree_keeps (w : Work) (ptr : Ptr) : w.Keeps (handleFree w ptr) := by
  unfold handleFree
  split
  · exact Work.Keeps.say _ _
  · refine Work.Keeps.trans ?_ ((Work.Keeps.updateCount _ _ _ _).trans
      ((Work.Keeps.say _ _).trans (Work.Keeps.eraseChunk _ _)))
    unfold dropMove
    split
    · exact Work.Keeps.refl _
    · split
      · exact Work.Keeps.refl _
      · exact (Work.Keeps.say _ _).trans ((Work.Keeps.updateCount _ _ _ _).trans (Work.Keeps.setMoving _ _))

/-- So does `Hello`, which counts the overhead once. -/
theorem handleHello_keeps (w : Work) (name : List UInt8) : w.Keeps (handleHello w name) := by
  unfold handleHello
  split
  · exact Work.Keeps.refl _
  · refine Work.Keeps.trans ?_ ((Work.Keeps.updateCount _ _ _ _).trans (Work.Keeps.say _ _))
    exact ⟨fun l => by cases l <;> rfl, rfl, rfl, by funext l; cases l <;> rfl⟩

/-- Every message keeps the balance, the limits and the tenant. -/
theorem handle_keeps (w : Work) (m : Msg) : w.Keeps (handle w m).1 := by
  unfold handle
  split
  · exact handleHello_keeps w _
  · exact handleAlloc_keeps w _ _
  · exact handleAllocFail_keeps w _
  · exact handleMove_keeps w _ _
  · exact handleMoveDone_keeps w _ _
  · exact handleResync_keeps w _ _ _
  · exact handleFree_keeps w _
  · exact Work.Keeps.say _ _

/-! ## What a handler does to the books -/

/-- A tenant's first `Hello` moves its device count and its books by the overhead. -/
theorem handleHello_sound {w : Work} (name : List UInt8) (h : w.t.Sound w.g.ctxOverhead) :
    (handleHello w name).t.Sound w.g.ctxOverhead := by
  unfold handleHello
  split
  · exact h
  · rename_i hh
    refine ⟨fun l => ?_, by simpa using h.tracked⟩
    have hc := h.counts l
    rw [Tenant.owed, Tenant.overhead, if_neg (fun hl => hh hl.1)] at hc
    have hcount : ({ w.t with hello := true, name := (name.take nameLen).takeWhile (· ≠ 0) } : Tenant).count l =
        w.t.count l := by cases l <;> rfl
    rw [Tenant.owed_of_same (t := w.t) (by simp) (by simp), Work.say_t, Work.updateCount_add_t, hcount, hc]
    cases l
    · simp only [Tenant.overhead, Work.updateCount_hello, LocField.side, if_true, and_self, id_eq]
      ring
    · simp [Tenant.overhead, LocField.side]

/-- A chunk that was not tracked enters the table and the counts. -/
theorem sound_of_new {w w' : Work} {ov : Size} {ptr : Ptr} {c : ChunkRec} (h : w.t.Sound ov)
    (hn : w.t.chunks[ptr]? = none) (hh : w'.t.hello = w.t.hello) (hm : w'.t.moving = w.t.moving)
    (hk : w'.t.chunks = w.t.chunks.insert ptr c) (hl : ∀ l, w'.t.count l = w.t.count l + c.share id l) :
    w'.t.Sound ov := by
  have hne : ∀ mv, w.t.moving = some mv → ptr ≠ mv.ptr := by
    rintro mv hmv rfl
    obtain ⟨c, hc⟩ := h.tracked mv hmv
    rw [hn] at hc
    cases hc
  refine ⟨fun l => ?_, fun mv hmv => ?_⟩
  · rw [hl, h.counts l, Tenant.owed_eq, Tenant.owed_eq, hh, hm, hk, OrdMap.total_insert_new hn]
    cases hmv : w.t.moving with
    | none =>
      dsimp only
      ring
    | some mv =>
      simp only [Std.ExtTreeMap.getElem?_insert, Std.compare_eq_iff_eq, hne mv hmv, if_false]
      ring
  · obtain ⟨c', hc'⟩ := h.tracked mv (hm ▸ hmv)
    exact ⟨c', by simp [hk, Std.ExtTreeMap.getElem?_insert, hne mv (hm ▸ hmv), hc']⟩

/-- A tracked chunk is recorded anew, in the counts and in the table; a chunk that is moving keeps its size. -/
theorem sound_of_replaced {w w' : Work} {ov : Size} {ptr : Ptr} {c d : ChunkRec} (h : w.t.Sound ov)
    (hc : w.t.chunks[ptr]? = some c) (hs : ∀ mv, w.t.moving = some mv → mv.ptr = ptr → c.size = d.size)
    (hh : w'.t.hello = w.t.hello) (hm : w'.t.moving = w.t.moving) (hk : w'.t.chunks = w.t.chunks.insert ptr d)
    (hl : ∀ l, w'.t.count l = w.t.count l - c.share id l + d.share id l) : w'.t.Sound ov := by
  refine ⟨fun l => ?_, fun mv hmv => ?_⟩
  · rw [hl, h.counts l, Tenant.owed_eq, Tenant.owed_eq, hh, hm, hk, OrdMap.total_of_getElem? hc, OrdMap.total_insert]
    cases hmv : w.t.moving with
    | none =>
      dsimp only
      ring
    | some mv =>
      by_cases hp : ptr = mv.ptr
      · simp only [← hp, hc, Std.ExtTreeMap.getElem?_insert_self, hs mv hmv hp.symm]
        ring
      · simp only [Std.ExtTreeMap.getElem?_insert, Std.compare_eq_iff_eq, hp, if_false]
        ring
  · obtain ⟨c₀, hc₀⟩ := h.tracked mv (hm ▸ hmv)
    by_cases hp : ptr = mv.ptr
    · exact ⟨d, by simp [hk, hp]⟩
    · exact ⟨c₀, by simp [hk, Std.ExtTreeMap.getElem?_insert, hp, hc₀]⟩

/-- A new chunk is counted where it is recorded. -/
theorem countAlloc_sound {w : Work} {ov : Size} (size : Size) {ptr : Ptr} (l : Loc) (h : w.t.Sound ov)
    (hn : w.t.chunks[ptr]? = none) : (countAlloc w size ptr l).1.t.Sound ov :=
  sound_of_new (c := ⟨size, l.field⟩) h hn (by simp [countAlloc]) (by simp [countAlloc]) (by simp [countAlloc])
    (fun l' => by simp [countAlloc, ChunkRec.share])

/-- `Alloc` keeps the books. -/
theorem handleAlloc_sound {w : Work} {ov : Size} (size : Size) (ptr : Ptr) (h : w.t.Sound ov) :
    (handleAlloc w size ptr).1.t.Sound ov := by
  unfold handleAlloc
  split
  · exact h
  · rename_i hn
    have hn : w.t.chunks[ptr]? = none := by simpa using hn
    split
    · exact countAlloc_sound _ _ h hn
    · split
      · exact countAlloc_sound _ _ h hn
      · exact h

/-- `AllocFail` keeps the books: the bytes go to the host with the chunk. -/
theorem handleAllocFail_sound {w : Work} {ov : Size} (ptr : Ptr) (h : w.t.Sound ov) :
    (handleAllocFail w ptr).t.Sound ov := by
  unfold handleAllocFail
  split
  · exact h
  · rename_i c hc
    split
    · exact h
    · rename_i hl
      have hl : c.loc = .device := by simpa using hl
      exact sound_of_replaced (d := { c with loc := .host }) h hc (fun _ _ _ => rfl) (by simp) (by simp) (by simp)
        (fun l => by simp [ChunkRec.share, hl])

/-- `Move` keeps the books: what it counts is reserved for the chunk. -/
theorem handleMove_sound {w : Work} {ov : Size} (ptr : Ptr) (target : LocField) (h : w.t.Sound ov) :
    (handleMove w ptr target).1.t.Sound ov := by
  unfold handleMove
  split
  · exact h
  · rename_i c hc
    split
    · exact h
    · split
      · exact h
      · rename_i hm
        split
        · exact h
        · refine ⟨fun l => ?_, fun mv hmv => ?_⟩
          · have hb := h.counts l
            rw [Tenant.owed_eq] at hb ⊢
            simp [hb, hm, hc]
          · have : mv = ⟨ptr, target⟩ := by simpa [eq_comm] using hmv
            exact ⟨c, by simp [this, hc]⟩

/-- The reservation of a tracked chunk's move, if it has one, leaves the counts and the books. -/
theorem sound_of_released {w w' : Work} {ov : Size} {c : ChunkRec} {mv : Move} (h : w.t.Sound ov)
    (hmv : w.t.moving = some mv) (hc : w.t.chunks[mv.ptr]? = some c) (hh : w'.t.hello = w.t.hello)
    (hm : w'.t.moving = none) (hk : w'.t.chunks = w.t.chunks)
    (hl : ∀ l, w'.t.count l = w.t.count l - if mv.target.side = l then c.size else 0) : w'.t.Sound ov := by
  refine ⟨fun l => ?_, by simp [hm]⟩
  rw [hl, h.counts l, Tenant.owed_eq, Tenant.owed_eq, hh, hm, hk]
  simp only [hmv, hc, id_eq]
  ring

/-- The end of a move keeps the books of a chunk that is recorded. -/
theorem releaseMove_sound {w : Work} {ov : Size} {ptr : Ptr} {c : ChunkRec} (place : LocField) (h : w.t.Sound ov)
    (hc : w.t.chunks[ptr]? = some c) : (releaseMove w ptr c.size place).t.Sound ov := by
  unfold releaseMove
  split
  · exact h
  · rename_i mv hm
    split
    · exact h
    · rename_i hp
      have hp : mv.ptr = ptr := by simpa using hp
      subst hp
      refine sound_of_released h hm hc ?_ ?_ ?_ (fun l => ?_)
      all_goals dsimp only; split <;> simp

/-- The end of a move leaves the chunks. -/
theorem releaseMove_chunks (w : Work) (ptr : Ptr) (size : Size) (place : LocField) :
    (releaseMove w ptr size place).t.chunks = w.t.chunks := by
  unfold releaseMove
  split
  · rfl
  · split
    · rfl
    · dsimp only
      split <;> simp

/-- Counting a chunk at its new place keeps the books. -/
theorem relocate_sound {w : Work} {ov : Size} {ptr : Ptr} {c : ChunkRec} (place : LocField) (h : w.t.Sound ov)
    (hc : w.t.chunks[ptr]? = some c) : (relocate w ptr c place).t.Sound ov := by
  unfold relocate
  split
  · exact sound_of_replaced (d := { c with loc := place }) h hc (fun _ _ _ => rfl) (by simp) (by simp) (by simp)
      (fun l => by simp [ChunkRec.share])
  · exact h

/-- `MoveDone` keeps the books. -/
theorem handleMoveDone_sound {w : Work} {ov : Size} (ptr : Ptr) (place : LocField) (h : w.t.Sound ov) :
    (handleMoveDone w ptr place).t.Sound ov := by
  unfold handleMoveDone
  split
  · exact h
  · rename_i c hc
    exact relocate_sound place (releaseMove_sound place h hc) (by rw [releaseMove_chunks, hc])

/-- `Resync` keeps the books, if it names the size of the chunk that is moving. -/
theorem handleResync_sound {w : Work} {ov : Size} {ptr : Ptr} {size : Size} (place : LocField) (h : w.t.Sound ov)
    (hs : ∀ mv ∈ w.t.moving, mv.ptr = ptr → ∀ c ∈ w.t.chunks[ptr]?, c.size = size) :
    (handleResync w ptr size place).t.Sound ov := by
  cases hc : w.t.chunks[ptr]? with
  | none =>
    exact sound_of_new (c := ⟨size, place⟩) h hc (by simp [handleResync, dropTracked, hc])
      (by simp [handleResync, dropTracked, hc]) (by simp [handleResync, dropTracked, hc])
      (fun l => by simp [handleResync, dropTracked, hc, ChunkRec.share])
  | some c =>
    exact sound_of_replaced (d := ⟨size, place⟩) h hc (fun mv hmv hp => hs mv hmv hp c hc)
      (by simp [handleResync, dropTracked, hc]) (by simp [handleResync, dropTracked, hc])
      (by simp [handleResync, dropTracked, hc]) (fun l => by simp [handleResync, dropTracked, hc, ChunkRec.share])

/-- Giving up a move leaves the chunks. -/
theorem dropMove_chunks (w : Work) (ptr : Ptr) (size : Size) : (dropMove w ptr size).t.chunks = w.t.chunks := by
  unfold dropMove
  split
  · rfl
  · split <;> simp

/-- After `dropMove` the chunk is not moving. -/
theorem dropMove_moving (w : Work) (ptr : Ptr) (size : Size) :
    ∀ mv, (dropMove w ptr size).t.moving = some mv → mv.ptr ≠ ptr := by
  intro mv
  unfold dropMove
  split
  · rename_i hm
    simp [hm]
  · rename_i mv' hm
    split
    · rename_i hp
      rw [hm, Option.some.injEq]
      rintro rfl
      exact hp
    · simp

/-- Giving up a move keeps the books of a chunk that is recorded. -/
theorem dropMove_sound {w : Work} {ov : Size} {ptr : Ptr} {c : ChunkRec} (h : w.t.Sound ov)
    (hc : w.t.chunks[ptr]? = some c) : (dropMove w ptr c.size).t.Sound ov := by
  unfold dropMove
  split
  · exact h
  · rename_i mv hm
    split
    · exact h
    · rename_i hp
      have hp : mv.ptr = ptr := by simpa using hp
      subst hp
      exact sound_of_released h hm hc (by simp) (by simp) (by simp) (fun l => by simp)

/-- A tracked chunk that is not moving leaves the counts and the table. -/
theorem sound_of_erased {w w' : Work} {ov : Size} {ptr : Ptr} {c : ChunkRec} (h : w.t.Sound ov)
    (hc : w.t.chunks[ptr]? = some c) (hne : ∀ mv, w.t.moving = some mv → mv.ptr ≠ ptr)
    (hh : w'.t.hello = w.t.hello) (hm : w'.t.moving = w.t.moving) (hk : w'.t.chunks = w.t.chunks.erase ptr)
    (hl : ∀ l, w'.t.count l = w.t.count l - c.share id l) : w'.t.Sound ov := by
  refine ⟨fun l => ?_, fun mv hmv => ?_⟩
  · rw [hl, h.counts l, Tenant.owed_eq, Tenant.owed_eq, hh, hm, hk, OrdMap.total_of_getElem? hc]
    cases hmv : w.t.moving with
    | none =>
      dsimp only
      ring
    | some mv =>
      simp only [Std.ExtTreeMap.getElem?_erase, Std.compare_eq_iff_eq, (hne mv hmv).symm, if_false]
      ring
  · obtain ⟨c₀, hc₀⟩ := h.tracked mv (hm ▸ hmv)
    exact ⟨c₀, by simp [hk, Std.ExtTreeMap.getElem?_erase, (hne mv (hm ▸ hmv)).symm, hc₀]⟩

/-- `Free` keeps the books, with a move in flight or without. -/
theorem handleFree_sound {w : Work} {ov : Size} (ptr : Ptr) (h : w.t.Sound ov) : (handleFree w ptr).t.Sound ov := by
  unfold handleFree
  split
  · exact h
  · rename_i c hc
    exact sound_of_erased (dropMove_sound h hc) (by rw [dropMove_chunks, hc]) (dropMove_moving _ _ _) (by simp)
      (by simp) (by simp) (fun l => by simp [ChunkRec.share])

/-- The books rule: a message keeps a tenant's record sound, unless it is a `Resync` of the moving chunk with another size. -/
theorem handle_sound {w : Work} {m : Msg} (h : w.t.Sound w.g.ctxOverhead) (hs : w.t.ResyncKeepsSize m) :
    (handle w m).1.t.Sound w.g.ctxOverhead := by
  unfold handle
  split
  · exact handleHello_sound _ h
  · exact handleAlloc_sound _ _ h
  · exact handleAllocFail_sound _ h
  · exact handleMove_sound _ _ h
  · exact handleMoveDone_sound _ _ h
  · rename_i ht
    exact handleResync_sound _ h (hs ht)
  · exact handleFree_sound _ h
  · exact h

/-! ## No subtraction goes below zero -/

/-- The counts of the tenant and of the broker hold at least `n` bytes at each place. -/
def Work.Covers (w : Work) (n : Loc → ℕ) : Prop := ∀ l, n l ≤ (w.t.count l).toNat ∧ n l ≤ (w.g.count l).toNat

/-- Counts that cover some bytes cover fewer. -/
theorem Work.Covers.mono {w : Work} {n n' : Loc → ℕ} (h : w.Covers n) (hn : ∀ l, n' l ≤ n l) : w.Covers n' :=
  fun l => ⟨(hn l).trans (h l).1, (hn l).trans (h l).2⟩

/-- A subtraction that the counts cover does not wrap, and the counts still cover the rest. -/
theorem updateCount_covered {w : Work} {f : LocField} {s : Size} {n : Loc → ℕ}
    (h : w.Covers fun l => n l + if f.side = l then s.toNat else 0) :
    (updateCount w f s false).wrapped = w.wrapped ∧ (updateCount w f s false).Covers n := by
  have hf := h f.side
  simp only [if_true] at hf
  constructor
  · rw [Work.updateCount_sub_wrapped]
    have ht : ¬w.t.count f.side < s := by rw [BitVec.lt_def]; omega
    have hg : ¬w.g.count f.side < s := by rw [BitVec.lt_def]; omega
    simp [ht, hg]
  · intro l
    have hl := h l
    rw [Work.updateCount_sub_t, Work.updateCount_sub_g]
    split
    · rename_i heq
      simp only [heq, if_true] at hl
      rw [BitVec.toNat_sub_of_le (by rw [BitVec.le_def]; omega), BitVec.toNat_sub_of_le (by rw [BitVec.le_def]; omega)]
      omega
    · rename_i hne
      simpa [hne] using hl

/-- The share of one chunk is part of what its tenant owes. -/
theorem Tenant.share_le_owed {t : Tenant} {ptr : Ptr} {c : ChunkRec} (ov : Size) (hc : t.chunks[ptr]? = some c) (l : Loc) :
    c.share BitVec.toNat l ≤ t.owed BitVec.toNat ov l := by
  have h := OrdMap.le_total hc (fun _ c => c.share BitVec.toNat l)
  unfold Tenant.owed Tenant.recorded
  omega

/-- The books hold a moving chunk twice: where it is recorded, and at the target of its move. -/
theorem Tenant.moving_le_owed {t : Tenant} {mv : Move} {c : ChunkRec} (ov : Size) (hm : t.moving = some mv)
    (hc : t.chunks[mv.ptr]? = some c) (l : Loc) :
    c.share BitVec.toNat l + (if mv.target.side = l then c.size.toNat else 0) ≤ t.owed BitVec.toNat ov l := by
  have h := OrdMap.le_total hc (fun _ c => c.share BitVec.toNat l)
  rw [Tenant.owed_eq, hm]
  simp only [hc]
  omega

/-- Covered counts do not go below zero at an `AllocFail`. -/
theorem handleAllocFail_wrapped {w : Work} {ov : Size} (ptr : Ptr) (h : w.Covers (w.t.owed BitVec.toNat ov)) :
    (handleAllocFail w ptr).wrapped = w.wrapped := by
  unfold handleAllocFail
  split
  · rfl
  · rename_i c hc
    split
    · rfl
    · rename_i hl
      have hl : c.loc = .device := by simpa using hl
      have hsub : w.Covers fun l => 0 + if LocField.device.side = l then c.size.toNat else 0 :=
        h.mono fun l => by simpa [ChunkRec.share, hl] using Tenant.share_le_owed ov hc l
      simpa using (updateCount_covered hsub).1

/-- Nor at the end of a move, after which they still cover the chunk. -/
theorem releaseMove_wrapped {w : Work} {ov : Size} {ptr : Ptr} {c : ChunkRec} (place : LocField)
    (h : w.Covers (w.t.owed BitVec.toNat ov)) (hc : w.t.chunks[ptr]? = some c) :
    (releaseMove w ptr c.size place).wrapped = w.wrapped ∧
      (releaseMove w ptr c.size place).Covers (c.share BitVec.toNat) := by
  have hshare : w.Covers (c.share BitVec.toNat) := h.mono (Tenant.share_le_owed ov hc)
  unfold releaseMove
  split
  · exact ⟨rfl, hshare⟩
  · rename_i mv hm
    split
    · exact ⟨rfl, hshare⟩
    · rename_i hp
      have hp : mv.ptr = ptr := by simpa using hp
      subst hp
      have hsub := updateCount_covered (h.mono (Tenant.moving_le_owed ov hm hc))
      dsimp only
      split
      · exact ⟨hsub.1, fun l => by simpa using hsub.2 l⟩
      · exact ⟨hsub.1, fun l => by simpa using hsub.2 l⟩

/-- Nor when the chunk leaves its old place. -/
theorem relocate_wrapped {w : Work} {c : ChunkRec} (ptr : Ptr) (place : LocField)
    (h : w.Covers (c.share BitVec.toNat)) : (relocate w ptr c place).wrapped = w.wrapped := by
  unfold relocate
  split
  · have hsub : w.Covers fun l => 0 + if c.loc.side = l then c.size.toNat else 0 :=
      h.mono fun l => by simp [ChunkRec.share]
    simpa using (updateCount_covered hsub).1
  · rfl

theorem handleMoveDone_wrapped {w : Work} {ov : Size} (ptr : Ptr) (place : LocField)
    (h : w.Covers (w.t.owed BitVec.toNat ov)) : (handleMoveDone w ptr place).wrapped = w.wrapped := by
  unfold handleMoveDone
  split
  · rfl
  · rename_i c hc
    obtain ⟨hw, hcov⟩ := releaseMove_wrapped place h hc
    rw [relocate_wrapped ptr place hcov, hw]

theorem handleResync_wrapped {w : Work} {ov : Size} (ptr : Ptr) (size : Size) (place : LocField)
    (h : w.Covers (w.t.owed BitVec.toNat ov)) : (handleResync w ptr size place).wrapped = w.wrapped := by
  unfold handleResync dropTracked
  cases hc : w.t.chunks[ptr]? with
  | none => simp
  | some c =>
    have hsub : (w.say (.resyncTracked w.t.pid ptr)).Covers fun l => 0 + if c.loc.side = l then c.size.toNat else 0 :=
      h.mono fun l => by simpa [ChunkRec.share] using Tenant.share_le_owed ov hc l
    simpa using (updateCount_covered hsub).1

/-- Nor when a move is given up, after which they still cover the chunk. -/
theorem dropMove_wrapped {w : Work} {ov : Size} {ptr : Ptr} {c : ChunkRec} (h : w.Covers (w.t.owed BitVec.toNat ov))
    (hc : w.t.chunks[ptr]? = some c) :
    (dropMove w ptr c.size).wrapped = w.wrapped ∧ (dropMove w ptr c.size).Covers (c.share BitVec.toNat) := by
  have hshare : w.Covers (c.share BitVec.toNat) := h.mono (Tenant.share_le_owed ov hc)
  unfold dropMove
  split
  · exact ⟨rfl, hshare⟩
  · rename_i mv hm
    split
    · exact ⟨rfl, hshare⟩
    · rename_i hp
      have hp : mv.ptr = ptr := by simpa using hp
      subst hp
      have hcov : (w.say (.freeMoving w.t.pid mv.ptr)).Covers _ := h.mono (Tenant.moving_le_owed ov hm hc)
      have hsub := updateCount_covered hcov
      exact ⟨hsub.1, fun l => by simpa using hsub.2 l⟩

theorem handleFree_wrapped {w : Work} {ov : Size} (ptr : Ptr) (h : w.Covers (w.t.owed BitVec.toNat ov)) :
    (handleFree w ptr).wrapped = w.wrapped := by
  unfold handleFree
  split
  · rfl
  · rename_i c hc
    obtain ⟨hw, hcov⟩ := dropMove_wrapped h hc
    have hsub : (dropMove w ptr c.size).Covers fun l => 0 + if c.loc.side = l then c.size.toNat else 0 :=
      hcov.mono fun l => by simp [ChunkRec.share]
    simpa [hw] using (updateCount_covered hsub).1

/-- `Hello` subtracts nothing. -/
theorem handleHello_wrapped (w : Work) (name : List UInt8) : (handleHello w name).wrapped = w.wrapped := by
  unfold handleHello
  split <;> simp

/-- `Alloc` subtracts nothing. -/
theorem handleAlloc_wrapped (w : Work) (size : Size) (ptr : Ptr) : (handleAlloc w size ptr).1.wrapped = w.wrapped := by
  unfold handleAlloc
  split
  · rfl
  · split
    · simp [countAlloc]
    · split
      · simp [countAlloc]
      · rfl

/-- `Move` subtracts nothing. -/
theorem handleMove_wrapped (w : Work) (ptr : Ptr) (target : LocField) :
    (handleMove w ptr target).1.wrapped = w.wrapped := by
  unfold handleMove
  split
  · rfl
  · split
    · rfl
    · split
      · rfl
      · split
        · rfl
        · simp

/-- Where the counts cover the books, no message makes a subtraction go below zero. -/
theorem handle_wrapped {w : Work} {ov : Size} (m : Msg) (h : w.Covers (w.t.owed BitVec.toNat ov)) :
    (handle w m).1.wrapped = w.wrapped := by
  unfold handle
  split
  · exact handleHello_wrapped _ _
  · exact handleAlloc_wrapped _ _ _
  · exact handleAllocFail_wrapped _ h
  · exact handleMove_wrapped _ _ _
  · exact handleMoveDone_wrapped _ _ h
  · exact handleResync_wrapped _ _ _ h
  · exact handleFree_wrapped _ h
  · rfl

end Vmem
