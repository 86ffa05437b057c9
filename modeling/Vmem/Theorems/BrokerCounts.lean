import Vmem.Lemmas.BrokerRuns

/-!
# The broker's counts

Conservation and isolation hold in every run (K2). That a tenant's counts are its chunks and its move in flight (K1) holds in
every run without a `Resync` that gives the moving chunk another size; one such message is enough to break it.
-/

namespace Vmem

/-! ## Refusals -/

namespace BrokerCountsAux

/-- What is not in a map is not found. -/
theorem getElem?_none_of_not_mem {α : Type} {m : OrdMap Ptr α} {ptr : Ptr} (h : ptr ∉ m) : m[ptr]? = none := by
  simpa using h

/-- A message that is ignored changes neither the tenant nor the global state. -/
theorem handle_of_ignores {t : Tenant} {g : Global} {m : Msg} (h : t.Ignores g m) :
    (handle { t, g } m).1.t = t ∧ (handle { t, g } m).1.g = g := by
  unfold Tenant.Ignores at h
  unfold handle
  cases hm : m.type with
  | hello =>
    simp only [hm] at h
    simp [handleHello, h]
  | alloc =>
    simp only [hm] at h
    dsimp only [handleAlloc]
    rcases h with h | ⟨hd, hh⟩
    · simp [h]
    · rw [if_neg hd, if_neg hh]
      split <;> exact ⟨rfl, rfl⟩
  | allocFail =>
    simp only [hm] at h
    dsimp only [handleAllocFail]
    cases hc : t.chunks[m.ptr]? with
    | none => exact ⟨rfl, rfl⟩
    | some c => simp [h c hc]
  | move =>
    simp only [hm] at h
    dsimp only [handleMove]
    cases hc : t.chunks[m.ptr]? with
    | none => exact ⟨rfl, rfl⟩
    | some c =>
      obtain ⟨hl, hr⟩ := h c hc
      dsimp only
      rw [if_neg hl]
      cases hmv : t.moving with
      | some mv => exact ⟨rfl, rfl⟩
      | none =>
        rcases hr with hr | hr
        · exact absurd hmv hr
        · simp [hr]
  | moveDone =>
    simp only [hm] at h
    dsimp only [handleMoveDone]
    rw [getElem?_none_of_not_mem h]
    exact ⟨rfl, rfl⟩
  | resync =>
    simp only [hm] at h
  | free =>
    simp only [hm] at h
    dsimp only [handleFree]
    rw [getElem?_none_of_not_mem h]
    exact ⟨rfl, rfl⟩
  | other raw => exact ⟨rfl, rfl⟩

/-- Only messages that are ignored get a reply other than `Ok`. -/
theorem ignores_of_refused {t : Tenant} {g : Global} {m : Msg} {r : Reply} (h : (handle { t, g } m).2 = some r)
    (hr : r.status ≠ .ok) : t.Ignores g m := by
  unfold Tenant.Ignores
  unfold handle at h
  cases hm : m.type with
  | alloc =>
    simp only [hm, handleAlloc, Option.some.injEq] at h ⊢
    by_cases hmem : m.ptr ∈ t.chunks
    · exact Or.inl hmem
    · right
      have hnc : ¬t.chunks.contains m.ptr = true := by simpa using hmem
      rw [if_neg hnc] at h
      by_cases hd : fitsLimit { t, g } .device m.size
      · rw [if_pos hd] at h
        exact absurd (h ▸ rfl) hr
      · rw [if_neg hd] at h
        by_cases hh : fitsLimit { t, g } .host m.size
        · rw [if_pos hh] at h
          exact absurd (h ▸ rfl) hr
        · exact ⟨hd, hh⟩
  | move =>
    simp only [hm, handleMove, Option.some.injEq] at h ⊢
    intro c hc
    have hc : t.chunks[m.ptr]? = some c := hc
    simp only [hc] at h
    by_cases hl : c.loc = m.loc
    · rw [if_pos hl] at h
      exact absurd (h ▸ rfl) hr
    · refine ⟨hl, ?_⟩
      rw [if_neg hl] at h
      cases hmv : t.moving with
      | some mv => exact Or.inl nofun
      | none =>
        right
        intro hf
        simp only [hmv, hf, Bool.not_true, Bool.false_eq_true, if_false] at h
        exact hr (h ▸ rfl)
  | hello => simp only [hm, Option.some.injEq] at h; exact absurd (h ▸ rfl) hr
  | allocFail => simp [hm] at h
  | moveDone => simp [hm] at h
  | resync => simp [hm] at h
  | free => simp [hm] at h
  | other raw => trivial

/-- An ignored message leaves the whole broker as it was. -/
theorem onMsg_of_ignores {b : Broker} {fd : Fd} {t : Tenant} {m : Msg} (ht : b.tenants[fd]? = some t)
    (h : t.Ignores b.g m) : (b.onMsg fd t m).b = b := by
  obtain ⟨h1, h2⟩ := handle_of_ignores h
  unfold Broker.onMsg
  dsimp only
  rw [h1, h2, OrdMap.insert_of_getElem? ht]

end BrokerCountsAux

open BrokerCountsAux

/-! ## Conservation and isolation (K2) -/

/-- K2. In every run the global counts are the sums over the connected tenants modulo 2^64, so both are zero when nobody is
connected; an event leaves every other tenant's record and changes the global counts by the change of its own tenant's; and a
message that is refused (a reply other than `Ok`) or ignored leaves the whole broker as it was. -/
theorem broker_conserves (cfg : Global) (es : List Event) :
    (∀ l, ((Broker.start cfg).run es).g.count l =
      OrdMap.total ((Broker.start cfg).run es).tenants fun _ t => t.count l) ∧
    (((Broker.start cfg).run es).tenants = ∅ →
      ((Broker.start cfg).run es).g.device = 0 ∧ ((Broker.start cfg).run es).g.host = 0) ∧
    (∀ e, (∀ fd, fd ≠ e.fd → (((Broker.start cfg).run es).step e).b.tenants[fd]? =
        ((Broker.start cfg).run es).tenants[fd]?) ∧
      ∀ l, (((Broker.start cfg).run es).step e).b.g.count l - ((Broker.start cfg).run es).g.count l =
        (((Broker.start cfg).run es).step e).b.countAt e.fd l - ((Broker.start cfg).run es).countAt e.fd l) ∧
    (∀ fd t m, ((Broker.start cfg).run es).tenants[fd]? = some t →
      (t.Ignores ((Broker.start cfg).run es).g m ∨
        ∃ r, (((Broker.start cfg).run es).step (.msg fd m)).reply = some r ∧ r.status ≠ .ok) →
      (((Broker.start cfg).run es).step (.msg fd m)).b = (Broker.start cfg).run es) := by
  have hc : ((Broker.start cfg).run es).Conserved := Broker.run_conserved (Broker.start_conserved cfg) es
  generalize (Broker.start cfg).run es = b at hc
  refine ⟨hc, fun h0 => ?_, fun e => ⟨fun fd hfd => ?_, fun l => ?_⟩, fun fd t m ht h => ?_⟩
  · have hd := hc .device
    have hh := hc .host
    rw [h0, OrdMap.total_empty] at hd hh
    exact ⟨hd, hh⟩
  · have ho := congrArg (fun m => m[fd]?) (b.step_other e)
    simpa [Std.ExtTreeMap.getElem?_erase, Ne.symm hfd] using ho
  · have hb := b.step_balance e l
    rw [sub_eq_sub_iff_add_eq_add] at hb ⊢
    rw [add_comm _ (b.g.count l), ← hb, add_comm]
  · have hs : b.step (.msg fd m) = b.onMsg fd t m := by simp [Broker.step, Event.msg, ht, Broker.onReadable, sizeofMsg]
    rw [hs] at h ⊢
    refine onMsg_of_ignores ht ?_
    rcases h with h | ⟨r, hr, hne⟩
    · exact h
    · exact ignores_of_refused hr hne

/-! ## Counts and chunks (K1) -/

/-- K1, in every run whose true totals stay below 2^64 and which has no `Resync` of the moving chunk with a size other than
the one on record: a connected tenant's device count is the overhead (once it said `Hello`), the sizes of its chunks on the
device and the size of the moving chunk when its granted move targets the device; its host count likewise (a location field
that is not `Device` counts on the host); a move in flight names a tracked chunk; a tenant without chunks has its overhead and
nothing else; and no subtraction of any further message goes below zero. -/
theorem counts_follow_chunks (cfg : Global) (b : Broker)
    (h : Broker.Reached cfg (fun b e => b.KeepsMovingSize e ∧ ∀ l, (b.step e).b.owed l < 2 ^ 64) b) :
    (∀ (fd : Fd) (t : Tenant), b.tenants[fd]? = some t →
      (t.device.toNat = (if t.hello then cfg.ctxOverhead.toNat else 0) + t.recorded BitVec.toNat .device +
        t.reserved BitVec.toNat .device) ∧
      (t.host.toNat = t.recorded BitVec.toNat .host + t.reserved BitVec.toNat .host) ∧
      (∀ mv, t.moving = some mv → ∃ c, t.chunks[mv.ptr]? = some c) ∧
      (t.chunks = ∅ → t.device.toNat = (if t.hello then cfg.ctxOverhead.toNat else 0) ∧ t.host = 0)) ∧
    ∀ e, (b.step e).wrapped = false := by
  have hs : b.Sound := h.sound fun _ _ he => he.1
  have hc : b.Conserved := h.conserved
  have hov : b.g.ctxOverhead = cfg.ctxOverhead := h.ctxOverhead
  have hlt : ∀ l, b.owed l < 2 ^ 64 :=
    h.induct (P := fun b => ∀ l, b.owed l < 2 ^ 64) (by simp [Broker.owed, Broker.start]) fun _ _ _ he => he.2
  refine ⟨fun fd t ht => ?_, fun e => Broker.step_wrapped hc hs hlt e⟩
  have hexact (l : Loc) : (t.count l).toNat = t.owed BitVec.toNat cfg.ctxOverhead l := by
    rw [← hov]
    exact (hs fd t ht).exact (lt_of_le_of_lt (Tenant.owed_le_broker ht l) (hlt l))
  have hdev : t.device.toNat = (if t.hello then cfg.ctxOverhead.toNat else 0) + t.recorded BitVec.toNat .device +
      t.reserved BitVec.toNat .device := by
    simpa [Tenant.owed, Tenant.overhead, Tenant.count] using hexact .device
  have hhost : t.host.toNat = t.recorded BitVec.toNat .host + t.reserved BitVec.toNat .host := by
    simpa [Tenant.owed, Tenant.overhead, Tenant.count] using hexact .host
  refine ⟨hdev, hhost, (hs fd t ht).tracked, fun h0 => ?_⟩
  have hm : t.moving = none := by
    cases hmv : t.moving with
    | none => rfl
    | some mv =>
      obtain ⟨c, hc⟩ := (hs fd t ht).tracked mv hmv
      simp [h0] at hc
  constructor
  · simpa [Tenant.recorded, Tenant.reserved, h0, hm] using hdev
  · rw [← BitVec.toNat_inj]
    simpa [Tenant.recorded, Tenant.reserved, h0, hm] using hhost

/-- A tenant says `Hello`, evicts a chunk of ten bytes and starts on the way back. -/
theorem counts_follow_chunks_moving : ∃ b : Broker, Broker.Reached { ctxOverhead := 3 }
    (fun b e => b.KeepsMovingSize e ∧ ∀ l, (b.step e).b.owed l < 2 ^ 64) b ∧
    ∃ t : Tenant, b.tenants[5]? = some t ∧ t.moving = some ⟨1, .device⟩ ∧
      t.device.toNat = (if t.hello then 3 else 0) + t.recorded BitVec.toNat .device + t.reserved BitVec.toNat .device := by
  have h : Broker.Reached { ctxOverhead := 3 } (fun b e => b.KeepsMovingSize e ∧ ∀ l, (b.step e).b.owed l < 2 ^ 64)
      ((Broker.start { ctxOverhead := 3 }).run [.connect 5 1, .msg 5 { type := .hello },
        .msg 5 { type := .alloc, ptr := 1, size := 10 }, .msg 5 { type := .move, ptr := 1, loc := .host },
        .msg 5 { type := .moveDone, ptr := 1, loc := .host }, .msg 5 { type := .move, ptr := 1, loc := .device }]) := by
    refine .step (.step (.step (.step (.step (.step .start ?_) ?_) ?_) ?_) ?_) ?_ <;>
      exact ⟨by decide, by decide⟩
  exact ⟨_, h, _, rfl, rfl, ((counts_follow_chunks _ _ h).1 5 _ rfl).1⟩

/-- K1 is false for runs with any `Resync`: a tenant that starts to evict a chunk of ten bytes, reports it with twenty bytes and
frees it is left without chunks but with ten bytes less than nothing on the host, and the subtraction goes below zero. -/
theorem counts_follow_chunks_false : ¬∀ (cfg : Global) (b : Broker),
    Broker.Reached cfg (fun b e => ∀ l, (b.step e).b.owed l < 2 ^ 64) b →
      (∀ (fd : Fd) (t : Tenant), b.tenants[fd]? = some t →
        t.host.toNat = t.recorded BitVec.toNat .host + t.reserved BitVec.toNat .host ∧
        (t.chunks = ∅ → t.host = 0)) ∧ ∀ e, (b.step e).wrapped = false := by
  intro hall
  have h : Broker.Reached {} (fun b e => ∀ l, (b.step e).b.owed l < 2 ^ 64)
      ((Broker.start {}).run [.connect 5 1, .msg 5 { type := .alloc, ptr := 1, size := 10 },
        .msg 5 { type := .move, ptr := 1, loc := .host }, .msg 5 { type := .resync, ptr := 1, size := 20 },
        .msg 5 { type := .free, ptr := 1 }]) := by
    refine .step (.step (.step (.step (.step .start ?_) ?_) ?_) ?_) ?_ <;>
      decide
  have h0 := ((hall _ _ h).1 5 _ rfl).2 (by decide)
  revert h0
  decide

end Vmem
