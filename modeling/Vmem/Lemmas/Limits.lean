import Vmem.Lemmas.Records

/-!
# What a message does to the bytes of a record

For any message, orderly or not: a request raises the bytes at a place only by what fits there, and of the other messages only the
reports that the broker cannot refuse raise them, and it logs when they go over a limit.
-/

namespace Vmem

namespace LimitsAux

variable {ov : Size}

/-! ## Requests -/

/-- What a request does to the bytes of its tenant at a place: they do not fall, and those of a sound record stay or rise by a size
that fit there. -/
def Raised (ov : Size) (t : Tenant) (g : Global) (l : Loc) (t' : Tenant) : Prop :=
  t.bytes l ≤ t'.bytes l ∧ (t.Sound ov → t'.bytes l = t.bytes l ∨
    ∃ size : Size, t'.bytes l = t.bytes l + size.toNat ∧ t.count l + size ≤ t.cap l ∧ g.count l + size ≤ g.cap l ∧
      t'.hello = t.hello)

/-- A request that leaves the bytes is within the limits. -/
theorem Raised.same {t t' : Tenant} {g : Global} {l : Loc} (h : t'.bytes l = t.bytes l) : Raised ov t g l t' :=
  ⟨le_of_eq h.symm, fun _ => .inl h⟩

/-- So is one that adds a size that fit. -/
theorem Raised.raised {t t' : Tenant} {g : Global} {l : Loc} {size : Size} (h : t'.bytes l = t.bytes l + size.toNat)
    (hfit : t.count l + size ≤ t.cap l ∧ g.count l + size ≤ g.cap l) (hh : t'.hello = t.hello) : Raised ov t g l t' :=
  ⟨h ▸ Nat.le_add_right _ _, fun _ => .inr ⟨size, h, hfit.1, hfit.2, hh⟩⟩

/-- What `fits_limit` lets through is under both limits, as the words add up. -/
theorem fits_of_fitsLimit {t : Tenant} {g : Global} {f : LocField} {size : Size} (h : fitsLimit { t, g } f size = true) :
    t.count f.side + size ≤ t.cap f.side ∧ g.count f.side + size ≤ g.cap f.side := by
  simpa only [fitsLimit, Bool.and_eq_true, decide_eq_true_eq, Global.usedBytes_eq, Global.limit_eq, Tenant.usedBytes_eq,
    Tenant.limit_eq] using h

/-- A new chunk takes nothing off the bytes of a move. -/
theorem moveBytes_le_insert {M : OrdMap Ptr ChunkRec} {p : Ptr} (hn : M[p]? = none) (d : ChunkRec) (mv : Option Move) (l : Loc) :
    moveBytes M mv l ≤ moveBytes (M.insert p d) mv l := by
  cases mv with
  | none => exact le_refl _
  | some mv =>
    by_cases hp : p = mv.ptr
    · subst hp
      simp [moveBytes, hn]
    · simp [moveBytes, Std.ExtTreeMap.getElem?_insert, hp]

/-- Counting a new chunk raises the bytes of its place by a size that fit. -/
theorem countAlloc_raised {t : Tenant} {g : Global} {ptr : Ptr} {size : Size} {l' : Loc} (hn : t.chunks[ptr]? = none)
    (hfit : fitsLimit { t, g } l'.field size = true) (l : Loc) : Raised ov t g l (countAlloc { t, g } size ptr l').1.t := by
  have hbytes : (countAlloc { t, g } size ptr l').1.t.bytes l = tableBytes t.chunks l + (if l' = l then size.toNat else 0) +
      moveBytes (t.chunks.insert ptr ⟨size, l'.field⟩) t.moving l := by
    simp only [Tenant.bytes, countAlloc, Work.say_t, Work.updateCount_chunks, Work.setChunk_chunks, Work.updateCount_moving,
      Work.setChunk_moving, Tenant.tableBytes_insert, OrdMap.erase_of_getElem? hn, ChunkRec.share, Loc.side_field]
    omega
  refine ⟨?_, fun hs => ?_⟩
  · have hle := moveBytes_le_insert hn ⟨size, l'.field⟩ t.moving l
    rw [hbytes, Tenant.bytes]
    omega
  · -- the move in flight names another chunk
    have hmove : moveBytes (t.chunks.insert ptr ⟨size, l'.field⟩) t.moving l = moveBytes t.chunks t.moving l := by
      cases hm : t.moving with
      | none => rfl
      | some mv =>
        obtain ⟨c, hc⟩ := hs.tracked mv hm
        have hne : ptr ≠ mv.ptr := by
          rintro rfl
          rw [hn] at hc
          cases hc
        simp [moveBytes, Std.ExtTreeMap.getElem?_insert, hne]
    rw [hmove] at hbytes
    by_cases hl : l' = l
    · subst hl
      obtain ⟨htenant, hglobal⟩ := fits_of_fitsLimit hfit
      rw [Loc.side_field] at htenant hglobal
      refine .inr ⟨size, ?_, htenant, hglobal, by simp [countAlloc]⟩
      rw [hbytes, Tenant.bytes, if_pos rfl]
      omega
    · refine .inl ?_
      rw [hbytes, Tenant.bytes, if_neg hl, add_zero]

/-- Every request raises the bytes by a size that fit, or not at all. -/
theorem request_raised {t : Tenant} {g : Global} {m : Msg} (hm : m.type.isRequest = true) (l : Loc) :
    Raised ov t g l (handle { t, g } m).1.t := by
  cases ht : m.type with
  | allocFail => simp [ht, MsgType.isRequest] at hm
  | free => simp [ht, MsgType.isRequest] at hm
  | moveDone => simp [ht, MsgType.isRequest] at hm
  | resync => simp [ht, MsgType.isRequest] at hm
  | other raw => simp [ht, MsgType.isRequest] at hm
  | hello =>
    refine .same ?_
    simp only [handle, ht, handleHello]
    split
    · rfl
    · simp [Tenant.bytes]
  | alloc =>
    simp only [handle, ht, handleAlloc]
    split
    · exact .same rfl
    · rename_i hheld
      have hn : t.chunks[m.ptr]? = none := by
        rw [Std.ExtTreeMap.contains_eq_isSome_getElem?, Bool.not_eq_true, Option.isSome_eq_false_iff] at hheld
        exact Option.isNone_iff_eq_none.1 hheld
      split
      · exact @countAlloc_raised _ _ _ _ _ .device hn ‹_› l
      · split
        · exact @countAlloc_raised _ _ _ _ _ .host hn ‹_› l
        · exact .same rfl
  | move =>
    simp only [handle, ht, handleMove]
    split
    · exact .same rfl
    · rename_i c hc
      split
      · exact .same rfl
      · split
        · exact .same rfl
        · rename_i hmv
          split
          · exact .same rfl
          · rename_i hfit
            have hfit : fitsLimit { t, g } m.loc c.size = true := by simpa using hfit
            have hc : t.chunks[m.ptr]? = some c := hc
            have hmv : t.moving = none := hmv
            have hbytes : ((updateCount { t, g } m.loc c.size true).setMoving (some ⟨m.ptr, m.loc⟩)).t.bytes l =
                t.bytes l + if m.loc.side = l then c.size.toNat else 0 := by
              simp [Tenant.bytes, moveBytes, hmv, hc]
            by_cases hl : m.loc.side = l
            · refine Raised.raised ?_ (hl ▸ fits_of_fitsLimit hfit) (by simp)
              simpa [hl] using hbytes
            · exact .same (by simpa [hl] using hbytes)

/-! ## Reports -/

/-- A count over a limit is logged. -/
theorem checkOverLimit_logs {w : Work} {f : LocField}
    (h : w.t.cap f.side < w.t.count f.side ∨ w.g.cap f.side < w.g.count f.side) :
    .overLimit f w.t.pid (w.t.count f.side) (w.g.count f.side) (w.g.cap f.side) ∈ (checkOverLimit w f).log := by
  simp [checkOverLimit, h, Work.say]

/-- Going over a limit at `l` is logged. -/
def LogsOver (w : Work) (l : Loc) : Prop :=
  w.t.cap l < w.t.count l ∨ w.g.cap l < w.g.count l → ∃ f : LocField, f.side = l ∧
    .overLimit f w.t.pid (w.t.count l) (w.g.count l) (w.g.cap l) ∈ w.log

/-- After the check, going over a limit on that side is logged. -/
theorem logsOver_check (w : Work) (f : LocField) : LogsOver (checkOverLimit w f) f.side := by
  intro h
  simp only [Work.checkOverLimit_t, Work.checkOverLimit_g] at h ⊢
  exact ⟨f, rfl, checkOverLimit_logs h⟩

/-- The end of a move does not greet. -/
theorem releaseMove_hello (w : Work) (ptr : Ptr) (size : Size) (place : LocField) :
    (releaseMove w ptr size place).t.hello = w.t.hello := by
  unfold releaseMove
  split
  · rfl
  · split
    · rfl
    · dsimp only
      split <;> simp

/-- Giving up a move does not greet. -/
theorem dropMove_hello (w : Work) (ptr : Ptr) (size : Size) : (dropMove w ptr size).t.hello = w.t.hello := by
  unfold dropMove
  split
  · rfl
  · split <;> simp

/-- Only a `Hello` greets. -/
theorem hello_of_handle {w : Work} {m : Msg} (hm : m.type ≠ .hello) : (handle w m).1.t.hello = w.t.hello := by
  cases ht : m.type with
  | hello => exact absurd ht hm
  | alloc =>
    simp only [handle, ht, handleAlloc]
    split
    · rfl
    · split
      · simp [countAlloc]
      · split
        · simp [countAlloc]
        · rfl
  | allocFail =>
    simp only [handle, ht, handleAllocFail]
    split
    · rfl
    · split
      · rfl
      · simp
  | move =>
    simp only [handle, ht, handleMove]
    split
    · rfl
    · split
      · rfl
      · split
        · rfl
        · split
          · rfl
          · simp
  | moveDone =>
    simp only [handle, ht, handleMoveDone]
    split
    · rfl
    · unfold relocate
      split
      · simp [releaseMove_hello]
      · exact releaseMove_hello _ _ _ _
  | resync =>
    simp only [handle, ht, handleResync, dropTracked]
    split <;> simp
  | free =>
    simp only [handle, ht, handleFree]
    split
    · rfl
    · simp [dropMove_hello]
  | other raw => simp only [handle, ht, Work.say_t]

/-- Relocating a chunk to another side raises no bytes but those at its new place. -/
theorem relocated_le {M : OrdMap Ptr ChunkRec} {ptr : Ptr} {c : ChunkRec} (hc : M[ptr]? = some c) (f : LocField) {l : Loc}
    (hl : f.side ≠ l) : tableBytes (M.insert ptr { c with loc := f }) l ≤ tableBytes M l := by
  rw [Tenant.tableBytes_insert, Tenant.tableBytes_of_getElem? hc]
  simp only [ChunkRec.share, hl, if_false]
  omega

/-- `AllocFail` raises no bytes, or the check for the host follows. -/
theorem allocFail_bytes {t : Tenant} {g : Global} {ptr : Ptr} (l : Loc) :
    (handleAllocFail { t, g } ptr).t.bytes l ≤ t.bytes l ∨ LogsOver (handleAllocFail { t, g } ptr) l := by
  unfold handleAllocFail
  split
  · exact .inl (le_refl _)
  · rename_i c hc
    have hc : t.chunks[ptr]? = some c := hc
    split
    · exact .inl (le_refl _)
    · cases l with
      | host => exact .inr (logsOver_check _ .host)
      | device =>
        refine .inl ?_
        simp only [Tenant.bytes, Work.checkOverLimit_t, Work.say_t, Work.setChunk_chunks, Work.updateCount_chunks,
          Work.setChunk_moving, Work.updateCount_moving]
        rw [Tenant.moveBytes_insert (d := ⟨c.size, .host⟩) hc rfl]
        exact Nat.add_le_add_right (relocated_le (l := .device) hc .host fun h => by cases h) _

/-- `Free` raises no bytes. -/
theorem free_bytes {t : Tenant} {g : Global} {ptr : Ptr} (l : Loc) : (handleFree { t, g } ptr).t.bytes l ≤ t.bytes l := by
  unfold handleFree
  split
  · exact le_refl _
  · rename_i c hc
    have hc : t.chunks[ptr]? = some c := hc
    have hmove : moveBytes (t.chunks.erase ptr) (dropMove { t, g } ptr c.size).t.moving l ≤ moveBytes t.chunks t.moving l := by
      unfold dropMove
      split
      · exact Tenant.moveBytes_erase_le _ _
      · split
        · exact Tenant.moveBytes_erase_le _ _
        · exact Nat.zero_le _
    simp only [Tenant.bytes, Work.eraseChunk_chunks, Work.say_t, Work.updateCount_chunks, dropMove_chunks, Work.eraseChunk_moving,
      Work.updateCount_moving]
    rw [Tenant.tableBytes_of_getElem? hc]
    omega

/-- `MoveDone` raises no bytes, or it was of a move that was not granted and the check follows. -/
theorem moveDone_bytes {t : Tenant} {g : Global} {m : Msg} (hm : m.type = .moveDone) (hmd : t.LandsKnown m) (l : Loc) :
    (handleMoveDone { t, g } m.ptr m.loc).t.bytes l ≤ t.bytes l ∨
      ((∀ mv, t.moving = some mv → mv.ptr ≠ m.ptr) ∧ LogsOver (handleMoveDone { t, g } m.ptr m.loc) l) := by
  unfold handleMoveDone
  split
  · exact .inl (le_refl _)
  · rename_i c hc
    have hc : t.chunks[m.ptr]? = some c := hc
    have hchunks : (releaseMove { t, g } m.ptr c.size m.loc).t.chunks = t.chunks := releaseMove_chunks _ _ _ _
    by_cases hgrant : ∃ mv, t.moving = some mv ∧ mv.ptr = m.ptr
    · -- the reservation goes, whatever the place
      obtain ⟨mv, hmv, hp⟩ := hgrant
      have hnone : (releaseMove { t, g } m.ptr c.size m.loc).t.moving = none := by
        simp only [releaseMove, hmv, hp, ne_eq, not_true_eq_false, if_false]
        rfl
      have hbytes : t.bytes l = tableBytes t.chunks l + if mv.target.side = l then c.size.toNat else 0 := by
        simp [Tenant.bytes, moveBytes, hmv, hp, hc]
      left
      rw [hbytes]
      unfold relocate
      split
      · simp only [Tenant.bytes, Work.checkOverLimit_t, Work.setChunk_chunks, Work.updateCount_chunks, hchunks,
          Work.setChunk_moving, Work.updateCount_moving, hnone]
        have hkeep := Tenant.tableBytes_of_getElem? hc l
        rw [Tenant.tableBytes_insert]
        simp only [moveBytes, ChunkRec.share] at hkeep ⊢
        rcases hmd hm mv hmv hp c hc with hside | hside
        · rw [hside]
          omega
        · rw [hside]
          omega
      · simp only [Tenant.bytes, hchunks, hnone]
        simp only [moveBytes]
        omega
    · have hno : ∀ mv, t.moving = some mv → mv.ptr ≠ m.ptr := fun mv hmv hp => hgrant ⟨mv, hmv, hp⟩
      have hmoving : (releaseMove { t, g } m.ptr c.size m.loc).t.moving = t.moving := by
        unfold releaseMove
        split
        · rfl
        · rename_i mv hmv
          rw [if_pos (hno mv hmv)]
          rfl
      unfold relocate
      split
      · by_cases hl : m.loc.side = l
        · subst hl
          exact .inr ⟨hno, logsOver_check _ m.loc⟩
        · refine .inl ?_
          simp only [Tenant.bytes, Work.checkOverLimit_t, Work.setChunk_chunks, Work.updateCount_chunks, hchunks,
            Work.setChunk_moving, Work.updateCount_moving, hmoving]
          rw [Tenant.moveBytes_insert (d := ⟨c.size, m.loc⟩) hc rfl]
          exact Nat.add_le_add_right (relocated_le hc m.loc hl) _
      · refine .inl ?_
        simp only [Tenant.bytes, hchunks, hmoving, le_refl]

/-- `Resync` raises no bytes, or the check follows. -/
theorem resync_bytes {t : Tenant} {g : Global} {m : Msg} (hs : t.Sound ov) (hm : m.type = .resync) (hr : t.ResyncKeepsSize m)
    (l : Loc) : (handleResync { t, g } m.ptr m.size m.loc).t.bytes l ≤ t.bytes l ∨
      LogsOver (handleResync { t, g } m.ptr m.size m.loc) l := by
  by_cases hl : m.loc.side = l
  · subst hl
    exact .inr (logsOver_check _ m.loc)
  · refine .inl ?_
    have hdrop : ∀ w : Work, (dropTracked w m.ptr).t.chunks = w.t.chunks ∧ (dropTracked w m.ptr).t.moving = w.t.moving := by
      intro w
      unfold dropTracked
      split <;> simp
    simp only [handleResync, Tenant.bytes, Work.checkOverLimit_t, Work.say_t, Work.updateCount_chunks, Work.setChunk_chunks,
      Work.updateCount_moving, Work.setChunk_moving, hdrop]
    have hmove : moveBytes (t.chunks.insert m.ptr ⟨m.size, m.loc⟩) t.moving l = moveBytes t.chunks t.moving l := by
      cases hmv : t.moving with
      | none => rfl
      | some mv =>
        obtain ⟨c, hc⟩ := hs.tracked mv hmv
        by_cases hp : mv.ptr = m.ptr
        · rw [hp] at hc
          exact Tenant.moveBytes_insert hc (hr hm mv hmv hp c hc).symm l
        · simp [moveBytes, Std.ExtTreeMap.getElem?_insert, Ne.symm hp]
    rw [hmove, Tenant.tableBytes_insert]
    have hshare : ChunkRec.share BitVec.toNat ⟨m.size, m.loc⟩ l = 0 := by simp [ChunkRec.share, hl]
    have herase : tableBytes (t.chunks.erase m.ptr) l ≤ tableBytes t.chunks l := by
      cases hc : t.chunks[m.ptr]? with
      | none => rw [OrdMap.erase_of_getElem? hc]
      | some c =>
        rw [Tenant.tableBytes_of_getElem? hc]
        exact Nat.le_add_left _ _
    omega

/-- A message without a reply raises the bytes at a place only if it is a report that cannot be refused, and then logs it when a
limit is passed there. -/
theorem report_bytes {t : Tenant} {g : Global} {m : Msg} (hs : t.Sound ov) (hreq : m.type.isRequest = false)
    (hr : t.ResyncKeepsSize m) (hmd : t.LandsKnown m) (l : Loc) :
    (handle { t, g } m).1.t.bytes l ≤ t.bytes l ∨ (t.Reports m ∧ LogsOver (handle { t, g } m).1 l) := by
  cases ht : m.type with
  | hello => simp [ht, MsgType.isRequest] at hreq
  | alloc => simp [ht, MsgType.isRequest] at hreq
  | move => simp [ht, MsgType.isRequest] at hreq
  | allocFail =>
    simp only [handle, ht]
    exact (allocFail_bytes l).imp_right fun h => ⟨.inl ht, h⟩
  | free =>
    simp only [handle, ht]
    exact .inl (free_bytes l)
  | moveDone =>
    simp only [handle, ht]
    exact (moveDone_bytes ht hmd l).imp_right fun h => ⟨.inr (.inr ⟨ht, h.1⟩), h.2⟩
  | resync =>
    simp only [handle, ht]
    exact (resync_bytes hs ht hr l).imp_right fun h => ⟨.inr (.inl ht), h⟩
  | other raw =>
    simp only [handle, ht, Work.say_t]
    exact .inl (le_refl _)

end LimitsAux

end Vmem
