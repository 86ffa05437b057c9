import Vmem.Lemmas.BrokerRuns

/-!
# Reports

A report (`Hello`, `AllocFail`, `Free`, `MoveDone`, `Resync`, a connection or a departure) branches on the record of its own
tenant only: what it leaves there is the same in any two brokers that hold the same record.
-/

namespace Vmem

namespace BrokerOrderAux

/-- What counting does to a tenant depends on that tenant only. -/
theorem updateCount_t {w w' : Work} (h : w.t = w'.t) (f : LocField) (s : Size) (add : Bool) :
    (updateCount w f s add).t = (updateCount w' f s add).t := by
  cases add <;> simp [updateCount, h]

theorem setChunk_t {w w' : Work} (h : w.t = w'.t) (ptr : Ptr) (c : ChunkRec) :
    (w.setChunk ptr c).t = (w'.setChunk ptr c).t := by
  simp [Work.setChunk, h]

theorem eraseChunk_t {w w' : Work} (h : w.t = w'.t) (ptr : Ptr) : (w.eraseChunk ptr).t = (w'.eraseChunk ptr).t := by
  simp [Work.eraseChunk, h]

/-- So does starting or ending a move. -/
theorem setMoving_t {w w' : Work} (h : w.t = w'.t) (mv : Option Move) : (w.setMoving mv).t = (w'.setMoving mv).t := by
  simp [Work.setMoving, h]

/-- So does the end of a move that takes its target off. -/
theorem releaseMove_t {w w' : Work} (h : w.t = w'.t) (ptr : Ptr) (size : Size) (place : LocField) :
    (releaseMove w ptr size place).t = (releaseMove w' ptr size place).t := by
  unfold releaseMove
  rw [← h]
  split
  · exact h
  · split
    · exact h
    · refine setMoving_t ?_ _
      split <;> exact updateCount_t h _ _ _

/-- So does counting a chunk at its new place. -/
theorem relocate_t {w w' : Work} (h : w.t = w'.t) (ptr : Ptr) (c : ChunkRec) (place : LocField) :
    (relocate w ptr c place).t = (relocate w' ptr c place).t := by
  unfold relocate
  split
  · simp only [Work.checkOverLimit_t]
    exact setChunk_t (updateCount_t (updateCount_t h _ _ _) _ _ _) _ _
  · exact h

/-- So does forgetting a chunk with its bytes. -/
theorem dropTracked_t {w w' : Work} (h : w.t = w'.t) (ptr : Ptr) : (dropTracked w ptr).t = (dropTracked w' ptr).t := by
  unfold dropTracked
  rw [← h]
  split
  · exact h
  · exact updateCount_t (by simp [h]) _ _ _

/-- So does giving up a move. -/
theorem dropMove_t {w w' : Work} (h : w.t = w'.t) (ptr : Ptr) (size : Size) :
    (dropMove w ptr size).t = (dropMove w' ptr size).t := by
  unfold dropMove
  rw [← h]
  split
  · exact h
  · split
    · exact h
    · exact setMoving_t (updateCount_t (by simp [h]) _ _ _) _

/-- What a report does to the record of its tenant depends on that record and the configured overhead alone. -/
theorem handle_t {w v : Work} (h : w.t = v.t) (hov : w.g.ctxOverhead = v.g.ctxOverhead) {m : Msg}
    (hm : m.type ≠ .alloc ∧ m.type ≠ .move) : (handle w m).1.t = (handle v m).1.t := by
  unfold handle
  split
  · dsimp only [handleHello]
    rw [← h, ← hov]
    split
    · exact h
    · exact updateCount_t rfl _ _ _
  · rename_i ht
    exact absurd ht hm.1
  · dsimp only [handleAllocFail]
    rw [← h]
    split
    · exact h
    · split
      · exact h
      · simp only [Work.checkOverLimit_t]
        exact setChunk_t (updateCount_t (updateCount_t h _ _ _) _ _ _) _ _
  · rename_i ht
    exact absurd ht hm.2
  · dsimp only [handleMoveDone]
    rw [← h]
    split
    · exact h
    · exact relocate_t (releaseMove_t h _ _ _) _ _ _
  · dsimp only [handleResync]
    simp only [Work.checkOverLimit_t, Work.say_t]
    exact updateCount_t (setChunk_t (dropTracked_t h _) _ _) _ _ _
  · dsimp only [handleFree]
    rw [← h]
    split
    · exact h
    · exact eraseChunk_t (updateCount_t (dropMove_t h _ _) _ _ _) _
  · exact h

/-- A report leaves the same record for its tenant in any two brokers that hold the same record for it. -/
theorem step_own {b b' : Broker} {e : Event} (he : e.IsReport) (hov : b.g.ctxOverhead = b'.g.ctxOverhead)
    (h : b.tenants[e.fd]? = b'.tenants[e.fd]?) : (b.step e).b.tenants[e.fd]? = (b'.step e).b.tenants[e.fd]? := by
  cases e with
  | connect fd pid =>
    have h : b.tenants[fd]? = b'.tenants[fd]? := h
    simp [Broker.step, Broker.onConnect, Event.fd, Std.ExtTreeMap.getD_eq_getD_getElem?, h]
  | readable fd r =>
    have h : b.tenants[fd]? = b'.tenants[fd]? := h
    simp only [Broker.step, Event.fd, ← h]
    cases ht : b.tenants[fd]? with
    | none => simp [ht, ← h]
    | some t =>
      simp only [Broker.onReadable]
      split
      · simp [ht, ← h]
      · split
        · simp [Broker.onDisconnect]
        · split
          · simp [Broker.onDisconnect]
          · rename_i hn
            have ht' := handle_t (w := { t, g := b.g }) (v := { t, g := b'.g }) rfl hov (he (by simpa using hn))
            simp [Broker.onMsg, ht']

/-- An event leaves the tenants of the other descriptors. -/
theorem step_getElem?_other {b : Broker} {e : Event} {fd : Fd} (hfd : e.fd ≠ fd) :
    (b.step e).b.tenants[fd]? = b.tenants[fd]? := by
  have ho := congrArg (fun m => m[fd]?) (b.step_other e)
  simpa [Std.ExtTreeMap.getElem?_erase, hfd] using ho

/-- A whole message is handled by the handler of its type. -/
theorem step_msg {b : Broker} {fd : Fd} {t : Tenant} (ht : b.tenants[fd]? = some t) (m : Msg) :
    b.step (.msg fd m) = b.onMsg fd t m := by
  simp [Broker.step, Event.msg, ht, Broker.onReadable, sizeofMsg]

end BrokerOrderAux

end Vmem
