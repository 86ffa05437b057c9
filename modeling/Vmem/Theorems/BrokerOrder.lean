import Vmem.Lemmas.Reports

/-!
# Order between tenants

Reports (`Hello`, `AllocFail`, `Free`, `MoveDone`, `Resync`, a connection or a departure) branch on the record of their own
tenant only. So the record of a tenant after any run of reports is the record after its own reports, and two interleavings of
the same per-tenant sequences leave the same broker. After a restart this fixes the outcome of the resync.
-/

namespace Vmem

namespace BrokerOrderAux

/-- The record of a tenant after a run of reports is its record after its own reports of that run. -/
theorem run_project (fd : Fd) (es : List Event) (hes : ∀ e ∈ es, e.IsReport) :
    ∀ b b' : Broker, b.g.ctxOverhead = b'.g.ctxOverhead → b.tenants[fd]? = b'.tenants[fd]? →
      (b.run es).tenants[fd]? = (b'.run (es.filter (·.fd = fd))).tenants[fd]? := by
  induction es with
  | nil => intro b b' _ h; exact h
  | cons e es ih =>
    intro b b' hov h
    have hes' : ∀ e ∈ es, e.IsReport := fun e he => hes e (List.mem_cons_of_mem _ he)
    have hov' : (b.step e).b.g.ctxOverhead = b.g.ctxOverhead := b.step_ctxOverhead e
    by_cases hfd : e.fd = fd
    · rw [List.filter_cons_of_pos (by simpa using hfd)]
      refine ih hes' _ _ (by rw [hov', b'.step_ctxOverhead e, hov]) ?_
      subst hfd
      exact step_own (hes e List.mem_cons_self) hov h
    · rw [List.filter_cons_of_neg (by simpa using hfd)]
      exact ih hes' _ _ (hov'.trans hov) ((step_getElem?_other hfd).trans h)

/-- Two runs of reports with the same reports of each tenant leave the same broker. -/
theorem run_eq_of_project {b : Broker} {es es' : List Event} (hes : ∀ e ∈ es, e.IsReport) (hes' : ∀ e ∈ es', e.IsReport)
    (h : ∀ fd, es.filter (·.fd = fd) = es'.filter (·.fd = fd)) : b.run es = b.run es' := by
  have ht : (b.run es).tenants = (b.run es').tenants := by
    apply Std.ExtTreeMap.ext_getElem?
    intro fd
    rw [run_project fd es hes b b rfl rfl, run_project fd es' hes' b b rfl rfl, h fd]
  have hg : (b.run es).g = (b.run es').g := by
    refine Global.ext_counts ((b.run_config es).trans (b.run_config es').symm) fun l => ?_
    have hs := (b.run_slack es l).trans (b.run_slack es' l).symm
    unfold Broker.slack at hs
    rw [ht] at hs
    exact sub_left_injective hs
  calc b.run es = ⟨(b.run es).tenants, (b.run es).g⟩ := rfl
    _ = ⟨(b.run es').tenants, (b.run es').g⟩ := by rw [ht, hg]

end BrokerOrderAux

/-! ## Rejoining after a restart -/

namespace BrokerOrderAux

/-- The record after a run of resyncs: the chunks are written into its table. -/
theorem run_resyncs (fd : Fd) (cs : List (Ptr × ChunkRec)) :
    ∀ (b : Broker) (t : Tenant), b.tenants[fd]? = some t → t.moving = none → t.Sound b.g.ctxOverhead →
      ∃ t', (b.run (cs.map (resyncEvent fd))).tenants[fd]? = some t' ∧ t'.moving = none ∧ t'.hello = t.hello ∧
        t'.Sound b.g.ctxOverhead ∧ t'.chunks = cs.foldl (fun m p => m.insert p.1 p.2) t.chunks := by
  induction cs with
  | nil => intro b t ht hm hs; exact ⟨t, ht, hm, rfl, hs, rfl⟩
  | cons p cs ih =>
    intro b t ht hm hs
    have hstep : b.step (resyncEvent fd p) = _ := step_msg ht _
    have hov : (b.step (resyncEvent fd p)).b.g.ctxOverhead = b.g.ctxOverhead := b.step_ctxOverhead _
    have hsound : (handleResync { t, g := b.g } p.1 p.2.size p.2.loc).t.Sound b.g.ctxOverhead :=
      handleResync_sound p.2.loc hs (by simp [hm])
    obtain ⟨t', ht', hm', hh', hs', hk'⟩ := ih (b.step (resyncEvent fd p)).b
      (handleResync { t, g := b.g } p.1 p.2.size p.2.loc).t (by rw [hstep]; simp [Broker.onMsg, handle])
      (by simp [handleResync, dropTracked]; split <;> simp [hm]) (by rw [hov]; exact hsound)
    refine ⟨t', ht', hm', hh'.trans ?_, hov ▸ hs', hk'.trans ?_⟩
    · simp only [handleResync, dropTracked, Work.checkOverLimit_t, Work.say_t, Work.updateCount_hello,
        Work.setChunk_hello]
      split <;> simp
    · rw [List.foldl_cons]
      congr 1
      simp only [handleResync, dropTracked, Work.checkOverLimit_t, Work.say_t, Work.updateCount_chunks,
        Work.setChunk_chunks]
      split <;> simp

/-- The record of a tenant that rejoined a fresh broker. -/
theorem run_rejoins (cfg : Global) {fd : Fd} {M : OrdMap Ptr ChunkRec} {es : List Event} (h : Rejoins fd M es) :
    ∃ t, ((Broker.start cfg).run es).tenants[fd]? = some t ∧ t.moving = none ∧ t.hello = true ∧
      t.Sound cfg.ctxOverhead ∧ t.chunks = M := by
  obtain ⟨pid, name, cs, hcs, rfl⟩ := h
  have hconn : ((Broker.start cfg).step (.connect fd pid)).b.tenants[fd]? = some { pid } := by
    simp [Broker.step, Broker.onConnect, Broker.start]
  have hhello := step_msg hconn { type := .hello, name := name }
  have h0 : (handleHello { t := { pid }, g := ((Broker.start cfg).step (.connect fd pid)).b.g } name).t.Sound
      cfg.ctxOverhead :=
    handleHello_sound (w := { t := { pid }, g := ((Broker.start cfg).step (.connect fd pid)).b.g }) name
      (Tenant.sound_default _ _ rfl rfl rfl (fun l => by cases l <;> rfl))
  obtain ⟨t, ht, hm, hh, hs, hk⟩ := run_resyncs fd cs
    (((Broker.start cfg).step (.connect fd pid)).b.step (.msg fd { type := .hello, name := name })).b
    (handleHello { t := { pid }, g := ((Broker.start cfg).step (.connect fd pid)).b.g } name).t
    (by rw [hhello]; simp [Broker.onMsg, handle]) (by simp [handleHello])
    (by rw [Broker.step_ctxOverhead]; exact h0)
  refine ⟨t, ht, hm, hh.trans (by simp [handleHello]), ?_, hk.trans ?_⟩
  · rw [Broker.step_ctxOverhead] at hs
    exact hs
  · rw [← OrdMap.foldl_insert_of_perm hcs]
    congr 1

/-- A tenant that rejoins only reports. -/
theorem rejoins_isReport {fd : Fd} {M : OrdMap Ptr ChunkRec} {es : List Event} (h : Rejoins fd M es) :
    ∀ e ∈ es, e.IsReport := by
  obtain ⟨pid, name, cs, -, rfl⟩ := h
  intro e he
  simp only [List.mem_cons, List.mem_map] at he
  rcases he with rfl | rfl | ⟨p, -, rfl⟩
  · trivial
  · exact fun _ => ⟨nofun, nofun⟩
  · exact fun _ => ⟨nofun, nofun⟩

end BrokerOrderAux

open BrokerOrderAux

/-- Order between tenants does not matter for reports. From any broker, two interleavings that keep each tenant's own reports
in order leave the same broker. After a restart, when each of a set of tenants connects, says `Hello` and reports every live
chunk once, every interleaving ends with each table equal to the tenant's chunks, its device count the overhead and its device
bytes, its host count its host bytes, no move in flight, and the global counts the sums. -/
theorem reports_commute :
    (∀ (b : Broker) (es es' : List Event), (∀ e ∈ es, e.IsReport) → (∀ e ∈ es', e.IsReport) →
      (∀ fd, es.filter (·.fd = fd) = es'.filter (·.fd = fd)) → b.run es = b.run es') ∧
    ∀ (cfg : Global) (clients : OrdMap Fd (OrdMap Ptr ChunkRec)) (es : List Event),
      (∀ fd : Fd, clients[fd]? = none → es.filter (·.fd = fd) = []) →
      (∀ (fd : Fd) (M : OrdMap Ptr ChunkRec), clients[fd]? = some M → Rejoins fd M (es.filter (·.fd = fd))) →
      (∀ fd : Fd, clients[fd]? = none → ((Broker.start cfg).run es).tenants[fd]? = none) ∧
      (∀ (fd : Fd) (M : OrdMap Ptr ChunkRec), clients[fd]? = some M →
        ∃ t : Tenant, ((Broker.start cfg).run es).tenants[fd]? = some t ∧
          t.chunks = M ∧ t.moving = none ∧ t.hello = true ∧
          t.device = cfg.ctxOverhead + OrdMap.total M (fun _ c => c.share id .device) ∧
          t.host = OrdMap.total M fun _ c => c.share id .host) ∧
      ∀ l, ((Broker.start cfg).run es).g.count l =
        OrdMap.total ((Broker.start cfg).run es).tenants fun _ t => t.count l := by
  refine ⟨fun b es es' hes hes' h => run_eq_of_project hes hes' h, fun cfg clients es hnone hsome => ?_⟩
  have hes : ∀ e ∈ es, e.IsReport := by
    intro e he
    have hmem : e ∈ es.filter (·.fd = e.fd) := List.mem_filter.2 ⟨he, by simp⟩
    cases hc : clients[e.fd]? with
    | none => rw [hnone _ hc] at hmem; cases hmem
    | some M => exact rejoins_isReport (hsome _ M hc) e hmem
  have hproj (fd : Fd) := run_project fd es hes (Broker.start cfg) (Broker.start cfg) rfl rfl
  refine ⟨fun fd hfd => ?_, fun fd M hfd => ?_, ?_⟩
  · rw [hproj fd, hnone fd hfd]
    simp [Broker.run, Broker.start]
  · obtain ⟨t, ht, hm, hh, hs, hk⟩ := run_rejoins cfg (hsome fd M hfd)
    refine ⟨t, (hproj fd).trans ht, hk, hm, hh, ?_, ?_⟩
    · simpa [Tenant.owed, Tenant.overhead, Tenant.recorded, Tenant.reserved, Tenant.count, hh, hm, hk]
        using hs.counts .device
    · simpa [Tenant.owed, Tenant.overhead, Tenant.recorded, Tenant.reserved, Tenant.count, hh, hm, hk]
        using hs.counts .host
  · exact Broker.run_conserved (Broker.start_conserved cfg) es

namespace BrokerOrderAux

/-- The chunks of two tenants before a restart. -/
def chunksBefore : OrdMap Fd (OrdMap Ptr ChunkRec) :=
  ((∅ : OrdMap Fd (OrdMap Ptr ChunkRec)).insert 4
    (((∅ : OrdMap Ptr ChunkRec).insert 0x1000 ⟨100, .device⟩).insert 0x2000 ⟨30, .host⟩)).insert 5
    ((∅ : OrdMap Ptr ChunkRec).insert 0x1000 ⟨50, .device⟩)

/-- The tenants in turn. -/
def oneByOne : List Event :=
  [.connect 4 77, .msg 4 { type := .hello }, resyncEvent 4 (0x2000, ⟨30, .host⟩), resyncEvent 4 (0x1000, ⟨100, .device⟩),
    .connect 5 78, .msg 5 { type := .hello }, resyncEvent 5 (0x1000, ⟨50, .device⟩)]

/-- The same events, mixed. -/
def mixed : List Event :=
  [.connect 5 78, .connect 4 77, .msg 4 { type := .hello }, .msg 5 { type := .hello }, resyncEvent 4 (0x2000, ⟨30, .host⟩),
    resyncEvent 5 (0x1000, ⟨50, .device⟩), resyncEvent 4 (0x1000, ⟨100, .device⟩)]

/-- The events of a tenant are those that it rejoins with. -/
theorem rejoins_mixed (fd : Fd) (M : OrdMap Ptr ChunkRec) (h : chunksBefore[fd]? = some M) : Rejoins fd M (mixed.filter (·.fd = fd)) := by
  unfold chunksBefore at h
  rw [OrdMap.getElem?_insert, OrdMap.getElem?_insert] at h
  split at h
  · next hfd =>
    cases h
    subst hfd
    exact ⟨78, [], [(0x1000, ⟨50, .device⟩)], by decide, rfl⟩
  · split at h
    · next hfd =>
      cases h
      subst hfd
      exact ⟨77, [], [(0x2000, ⟨30, .host⟩), (0x1000, ⟨100, .device⟩)], by decide, rfl⟩
    · simp at h

/-- Those that were not there before send nothing. -/
theorem filter_mixed {fd : Fd} (h : chunksBefore[fd]? = none) : mixed.filter (·.fd = fd) = [] := by
  have h4 : 4 ≠ fd := by
    rintro rfl
    exact absurd h (by decide)
  have h5 : 5 ≠ fd := by
    rintro rfl
    exact absurd h (by decide)
  simp [mixed, resyncEvent, Event.fd, Event.msg, h4, h5]

end BrokerOrderAux

/-- Two tenants with chunks rejoin after a restart, one after the other or mixed. -/
theorem reports_commute_restart : (Broker.start { ctxOverhead := 10 }).run oneByOne = (Broker.start { ctxOverhead := 10 }).run mixed ∧
    (∃ t : Tenant, ((Broker.start { ctxOverhead := 10 }).run mixed).tenants[(4 : Fd)]? = some t ∧ t.device = 10 + 100 ∧ t.host = 30) ∧
    ((Broker.start { ctxOverhead := 10 }).run mixed).g.count .device = 170 := by
  have hreports (es : List Event) (h : es = oneByOne ∨ es = mixed) : ∀ e ∈ es, e.IsReport := by
    rcases h with rfl | rfl
    all_goals simp [oneByOne, mixed, resyncEvent, Event.msg, Event.IsReport]
  obtain ⟨hcommute, hrejoin⟩ := reports_commute
  obtain ⟨-, htenants, -⟩ := hrejoin { ctxOverhead := 10 } chunksBefore mixed (fun _ => filter_mixed) rejoins_mixed
  obtain ⟨t, ht, -, -, -, hdevice, hhost⟩ := htenants 4 _ rfl
  refine ⟨hcommute _ _ _ (hreports _ (.inl rfl)) (hreports _ (.inr rfl)) fun fd => ?_, ⟨t, ht, hdevice.trans ?_, hhost.trans ?_⟩, ?_⟩
  · by_cases h4 : 4 = fd
    · subst h4
      rfl
    · by_cases h5 : 5 = fd
      · subst h5
        rfl
      · simp [oneByOne, mixed, resyncEvent, Event.fd, Event.msg, h4, h5]
  · decide
  · decide
  · decide

end Vmem
