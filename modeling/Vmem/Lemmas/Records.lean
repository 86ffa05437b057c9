import Vmem.Lemmas.Reports

/-!
# Well-behaved messages

What a well-behaved client's message does to its record (`Orderly`): no branch of the broker that logs a misuse, and a result
that depends on the record alone, or on the record and the broker's answer. Each message also says by how much the bytes that
the record stands for can grow.
-/

namespace Vmem

/-- The requests: the messages that get a reply. -/
def MsgType.isRequest : MsgType → Bool
  | .hello => true
  | .alloc => true
  | .move => true
  | _ => false

/-- The broker may answer `rep` to the request `m` and then holds the record `t'`. -/
def Tenant.Answers (ov : Size) (t : Tenant) (m : Msg) (rep : Reply) (t' : Tenant) : Prop :=
  ∃ g : Global, g.ctxOverhead = ov ∧ (handle { t, g } m).2 = some rep ∧ (handle { t, g } m).1.t = t'

/-- The message takes no misuse branch: it is a first `Hello`, an `Alloc` of a pointer that is not held, an `AllocFail` of a
chunk on the device, a `Free` of a tracked chunk that is not moving, a `Move` of a tracked chunk to another place with no move
in flight, a `MoveDone` of the granted move that names its target or the place the chunk was at, or a `Resync` of a pointer
that is not tracked. -/
def Tenant.Orderly (t : Tenant) (m : Msg) : Prop :=
  match m.type with
  | .hello => t.hello = false
  | .alloc => t.chunks[m.ptr]? = none
  | .allocFail => ∃ c, t.chunks[m.ptr]? = some c ∧ c.loc = .device
  | .free => (∃ c, t.chunks[m.ptr]? = some c) ∧ ∀ mv, t.moving = some mv → mv.ptr ≠ m.ptr
  | .move => (∃ c, t.chunks[m.ptr]? = some c ∧ c.loc ≠ m.loc) ∧ t.moving = none
  | .moveDone => ∃ c target, t.chunks[m.ptr]? = some c ∧ t.moving = some ⟨m.ptr, target⟩ ∧ (m.loc = target ∨ m.loc = c.loc)
  | .resync => t.chunks[m.ptr]? = none
  | .other _ => False

/-- The record of a connected tenant: greeted, with the chunks `M` and the granted move `mv`, and sound counts. -/
structure Tenant.Is (ov : Size) (t : Tenant) (M : OrdMap Ptr ChunkRec) (mv : Option Move) : Prop where
  hello : t.hello = true
  chunks : t.chunks = M
  moving : t.moving = mv
  sound : t.Sound ov

/-- The bytes of a table of chunks at a place. -/
def tableBytes (M : OrdMap Ptr ChunkRec) (l : Loc) : ℕ := OrdMap.total M fun _ c => c.share BitVec.toNat l

/-- The bytes a granted move holds at its target. -/
def moveBytes (M : OrdMap Ptr ChunkRec) (mv : Option Move) (l : Loc) : ℕ :=
  match mv with
  | none => 0
  | some mv =>
    match M[mv.ptr]? with
    | none => 0
    | some c => if mv.target.side = l then c.size.toNat else 0

/-- The bytes a record stands for at a place, as a natural number: its chunks and its granted move. -/
def Tenant.bytes (t : Tenant) (l : Loc) : ℕ := tableBytes t.chunks l + moveBytes t.chunks t.moving l

/-- What a tenant's count should be: the overhead and the bytes. -/
theorem Tenant.owed_eq_bytes (ov : Size) (t : Tenant) (l : Loc) :
    t.owed BitVec.toNat ov l = t.overhead BitVec.toNat ov l + t.bytes l :=
  Nat.add_assoc _ _ _

namespace Tenant

variable {ov : Size} {t t' : Tenant} {m : Msg} {M : OrdMap Ptr ChunkRec} {mv : Option Move} {c : ChunkRec} {rep : Reply}

/-- An orderly `Resync` names no chunk that is moving. -/
theorem resyncKeepsSize_of_orderly (h : t.Orderly m) : t.ResyncKeepsSize m := by
  intro hm mv _ _ c hc
  simp only [Orderly, hm] at h
  simp [h] at hc

/-- An orderly message keeps a record sound, whatever the global counts. -/
theorem Orderly.sound (h : t.Orderly m) (hs : t.Sound ov) {g : Global} (hg : g.ctxOverhead = ov) :
    (handle { t, g } m).1.t.Sound ov := by
  subst hg
  exact handle_sound (w := { t, g }) hs (resyncKeepsSize_of_orderly h)

/-! ## Messages without a reply -/

/-- An `AllocFail` of a chunk on the device records it on the host. -/
theorem applied_allocFail (hm : m.type = .allocFail) (hc : t.chunks[m.ptr]? = some c) (hl : c.loc = .device) :
    (t.applied ov m).chunks = t.chunks.insert m.ptr { c with loc := .host } ∧ (t.applied ov m).moving = t.moving ∧
      (t.applied ov m).hello = t.hello := by
  simp [applied, handle, hm, handleAllocFail, hc, hl]

/-- A `Free` of a chunk that is not moving forgets it. -/
theorem applied_free (hm : m.type = .free) (hc : t.chunks[m.ptr]? = some c)
    (hmv : ∀ mv, t.moving = some mv → mv.ptr ≠ m.ptr) :
    (t.applied ov m).chunks = t.chunks.erase m.ptr ∧ (t.applied ov m).moving = t.moving ∧
      (t.applied ov m).hello = t.hello := by
  have hdrop : ∀ w : Work, w.t = t → (dropMove w m.ptr c.size).t = t := by
    rintro w rfl
    unfold dropMove
    split
    · rfl
    · rename_i mv h
      simp [hmv mv h]
  simp [applied, handle, hm, handleFree, hc, hdrop]

/-- The `MoveDone` of a granted move records the chunk at its target and ends the move. -/
theorem applied_moveDone {target : LocField} (hm : m.type = .moveDone) (hc : t.chunks[m.ptr]? = some c)
    (hmv : t.moving = some ⟨m.ptr, target⟩) :
    (t.applied ov m).chunks = t.chunks.insert m.ptr { c with loc := m.loc } ∧ (t.applied ov m).moving = none ∧
      (t.applied ov m).hello = t.hello := by
  have hrel : ∀ w : Work, w.t = t → (releaseMove w m.ptr c.size m.loc).t.chunks = t.chunks ∧
      (releaseMove w m.ptr c.size m.loc).t.moving = none ∧ (releaseMove w m.ptr c.size m.loc).t.hello = t.hello := by
    rintro w rfl
    simp only [releaseMove, hmv, ne_eq, not_true_eq_false, if_false]
    split <;> simp
  simp only [applied, handle, hm, handleMoveDone, hc, relocate]
  obtain ⟨hk, hmove, hh⟩ := hrel { t, g := { ctxOverhead := ov } } rfl
  split
  · simp [hrel]
  · rename_i hloc
    have hloc : m.loc = c.loc := by simpa using hloc
    refine ⟨?_, hmove, hh⟩
    rw [hk, hloc, OrdMap.insert_of_getElem? hc]

/-- A `Resync` of an unknown chunk records it. -/
theorem applied_resync (hm : m.type = .resync) (hn : t.chunks[m.ptr]? = none) :
    (t.applied ov m).chunks = t.chunks.insert m.ptr ⟨m.size, m.loc⟩ ∧ (t.applied ov m).moving = t.moving ∧
      (t.applied ov m).hello = t.hello := by
  simp [applied, handle, hm, handleResync, dropTracked, hn]

/-! ## Requests -/

/-- The first `Hello` greets and changes nothing else of the record. -/
theorem answers_hello (hm : m.type = .hello) (hh : t.hello = false) (h : t.Answers ov m rep t') :
    t'.hello = true ∧ t'.chunks = t.chunks ∧ t'.moving = t.moving := by
  obtain ⟨g, -, -, rfl⟩ := h
  simp [handle, hm, handleHello, hh]

/-- A granted `Alloc` records the chunk where the reply says; a refused one changes nothing. -/
theorem answers_alloc (hm : m.type = .alloc) (hn : t.chunks[m.ptr]? = none) (h : t.Answers ov m rep t') :
    (rep.status = .ok → t'.chunks = t.chunks.insert m.ptr ⟨m.size, rep.loc.field⟩ ∧ t'.moving = t.moving ∧
      t'.hello = t.hello) ∧ (rep.status ≠ .ok → t' = t) := by
  obtain ⟨g, -, hrep, rfl⟩ := h
  have hnot : t.chunks.contains m.ptr = false := by
    simp [Std.ExtTreeMap.contains_eq_isSome_getElem?, hn]
  simp only [handle, hm, handleAlloc, hnot, Bool.false_eq_true, if_false] at hrep ⊢
  split at hrep
  · rename_i hfit
    cases hrep
    simp [hfit, countAlloc]
  · rename_i hfit
    split at hrep
    · rename_i hfit'
      cases hrep
      simp [hfit, hfit', countAlloc]
    · rename_i hfit'
      cases hrep
      simp [hfit, hfit']

/-- A granted `Move` reserves the target; a refused one changes nothing. -/
theorem answers_move (hm : m.type = .move) (hc : t.chunks[m.ptr]? = some c) (hl : c.loc ≠ m.loc) (hmv : t.moving = none)
    (h : t.Answers ov m rep t') :
    (rep.status = .ok → t'.chunks = t.chunks ∧ t'.moving = some ⟨m.ptr, m.loc⟩ ∧ t'.hello = t.hello) ∧
      (rep.status ≠ .ok → t' = t) := by
  obtain ⟨g, -, hrep, rfl⟩ := h
  simp only [handle, hm, handleMove, hc, hl, hmv, if_false] at hrep ⊢
  split at hrep
  · rename_i hfit
    cases hrep
    simp [hfit]
  · rename_i hfit
    cases hrep
    simp [hfit]

/-! ## Bytes -/

/-- The bytes of a table with a new entry are its share and those of the others. -/
theorem tableBytes_insert (M : OrdMap Ptr ChunkRec) (p : Ptr) (c : ChunkRec) (l : Loc) :
    tableBytes (M.insert p c) l = c.share BitVec.toNat l + tableBytes (M.erase p) l :=
  OrdMap.total_insert M p c _

/-- The bytes of a table are the share of an entry and those of the others. -/
theorem tableBytes_of_getElem? {p : Ptr} (h : M[p]? = some c) (l : Loc) :
    tableBytes M l = c.share BitVec.toNat l + tableBytes (M.erase p) l :=
  OrdMap.total_of_getElem? h _

/-- Rewriting a chunk with its size leaves what a move holds. -/
theorem moveBytes_insert {p : Ptr} {d : ChunkRec} (h : M[p]? = some c) (hs : d.size = c.size) (l : Loc) :
    moveBytes (M.insert p d) mv l = moveBytes M mv l := by
  cases mv with
  | none => rfl
  | some mv =>
    by_cases hp : p = mv.ptr
    · subst hp
      simp [moveBytes, h, hs]
    · simp [moveBytes, Std.ExtTreeMap.getElem?_insert, hp]

/-- Forgetting a chunk adds nothing to the bytes of a move. -/
theorem moveBytes_erase_le (p : Ptr) (l : Loc) : moveBytes (M.erase p) mv l ≤ moveBytes M mv l := by
  cases mv with
  | none => exact le_refl _
  | some mv =>
    by_cases hp : p = mv.ptr
    · subst hp
      simp [moveBytes]
    · simp [moveBytes, Std.ExtTreeMap.getElem?_erase, hp]

/-- A message without a reply raises no bytes, but for an `AllocFail`, which moves its chunk's to the host, and a `Resync`. -/
theorem Orderly.bytes_le (h : t.Orderly m) (hreq : m.type.isRequest = false) (hr : m.type ≠ .resync) (l : Loc) :
    (t.applied ov m).bytes l ≤ t.bytes l + if l = .host then t.allocFailBytes m else 0 := by
  cases hm : m.type with
  | hello => simp [hm, MsgType.isRequest] at hreq
  | alloc => simp [hm, MsgType.isRequest] at hreq
  | move => simp [hm, MsgType.isRequest] at hreq
  | resync => exact absurd hm hr
  | other raw => simp [Orderly, hm] at h
  | allocFail =>
    simp only [Orderly, hm] at h
    obtain ⟨c, hc, hl⟩ := h
    obtain ⟨hk, hmv, -⟩ := @applied_allocFail ov _ _ _ hm hc hl
    have hsize : t.allocFailBytes m = c.size.toNat := by simp [allocFailBytes, hm, hc]
    rw [bytes, bytes, hk, hmv, moveBytes_insert (d := ⟨c.size, .host⟩) hc rfl, tableBytes_insert, tableBytes_of_getElem? hc, hsize]
    cases l with
    | device => simp [ChunkRec.share, hl, LocField.side]
    | host =>
      simp [ChunkRec.share, hl, LocField.side]
      omega
  | free =>
    simp only [Orderly, hm] at h
    obtain ⟨⟨c, hc⟩, hne⟩ := h
    obtain ⟨hk, hmv, -⟩ := @applied_free ov _ _ _ hm hc hne
    rw [bytes, bytes, hk, hmv, tableBytes_of_getElem? hc]
    have hle : moveBytes (t.chunks.erase m.ptr) t.moving l ≤ moveBytes t.chunks t.moving l := moveBytes_erase_le _ _
    omega
  | moveDone =>
    simp only [Orderly, hm] at h
    obtain ⟨c, target, hc, hmv, hloc⟩ := h
    obtain ⟨hk, hmv', -⟩ := @applied_moveDone ov _ _ _ _ hm hc hmv
    rw [bytes, bytes, hk, hmv', hmv, tableBytes_insert, tableBytes_of_getElem? hc]
    simp only [moveBytes, hc, ChunkRec.share]
    rcases hloc with hloc | hloc
    · rw [hloc]
      omega
    · rw [hloc]
      omega

end Tenant

end Vmem
