import Vmem.Lemmas.Agreement
import Vmem.Lemmas.SystemRuns

/-!
# Agreement of client and broker (B5)

Whatever fails on the way, at the end of every call the messages still on the way make the broker's record of a client what the
client's backend recorded; and no client makes the broker take a misuse branch.
-/

namespace Vmem

namespace ClientAgreementAux

open ViewAux AgreementAux

variable {ov : Size}

/-- What is found is in the map. -/
theorem mem_of_getElem? {α : Type} {m : OrdMap Ptr α} {ptr : Ptr} {a : α} (h : m[ptr]? = some a) : ptr ∈ m := by
  rw [Std.ExtTreeMap.mem_iff_isSome_getElem?, h]
  rfl

/-- What is not found is not. -/
theorem not_mem_of_getElem? {α : Type} {m : OrdMap Ptr α} {ptr : Ptr} (h : m[ptr]? = none) : ptr ∉ m := by
  rw [Std.ExtTreeMap.mem_iff_isSome_getElem?, h]
  nofun

/-- An orderly message is no misuse. -/
theorem not_misuses_of_orderly {t : Tenant} {m : Msg} (h : t.Orderly m) : ¬t.Misuses m := by
  unfold Tenant.Orderly at h
  unfold Tenant.Misuses
  cases hm : m.type with
  | hello =>
    simp only [hm] at h
    simp [h]
  | alloc =>
    simp only [hm] at h
    exact not_mem_of_getElem? h
  | allocFail =>
    simp only [hm] at h
    obtain ⟨c, hc, hl⟩ := h
    exact fun hall => hall c hc hl
  | free =>
    simp only [hm] at h
    obtain ⟨⟨c, hc⟩, hne⟩ := h
    rintro (hno | ⟨mv, hmv, hp⟩)
    · exact hno (mem_of_getElem? hc)
    · exact hne mv hmv hp
  | move =>
    simp only [hm] at h
    obtain ⟨⟨c, hc, hl⟩, hmv⟩ := h
    rintro (hno | hno | ⟨d, hd, hl'⟩)
    · exact hno (mem_of_getElem? hc)
    · exact hno hmv
    · have hd : t.chunks[m.ptr]? = some d := hd
      rw [hc] at hd
      cases hd
      exact hl hl'
  | moveDone =>
    simp only [hm] at h
    obtain ⟨c, target, hc, hmv, -⟩ := h
    rintro (hno | hno)
    · exact hno (mem_of_getElem? hc)
    · exact hno _ hmv rfl
  | resync =>
    simp only [hm] at h
    exact not_mem_of_getElem? h
  | other raw =>
    simp [hm] at h

/-- Messages without a reply do not greet. -/
theorem applied_hello {t : Tenant} {m : Msg} (h : t.Orderly m) (hreq : m.type.isRequest = false) :
    (t.applied ov m).hello = t.hello := by
  cases hm : m.type with
  | hello => simp [hm, MsgType.isRequest] at hreq
  | alloc => simp [hm, MsgType.isRequest] at hreq
  | move => simp [hm, MsgType.isRequest] at hreq
  | other raw => simp [Tenant.Orderly, hm] at h
  | allocFail =>
    simp only [Tenant.Orderly, hm] at h
    obtain ⟨c, hc, hl⟩ := h
    exact (Tenant.applied_allocFail hm hc hl).2.2
  | free =>
    simp only [Tenant.Orderly, hm] at h
    obtain ⟨⟨c, hc⟩, hne⟩ := h
    exact (Tenant.applied_free hm hc hne).2.2
  | moveDone =>
    simp only [Tenant.Orderly, hm] at h
    obtain ⟨c, target, hc, hmv, -⟩ := h
    exact (Tenant.applied_moveDone hm hc hmv).2.2
  | resync =>
    simp only [Tenant.Orderly, hm] at h
    exact (Tenant.applied_resync hm h).2.2

/-- Messages without a reply do not greet. -/
theorem after_hello {ms : List Msg} : ∀ {t : Tenant}, t.Queue ov ms → (∀ m ∈ ms, m.type.isRequest = false) →
    (t.after ov ms).hello = t.hello := by
  induction ms with
  | nil => exact fun _ _ => rfl
  | cons m ms ih =>
    intro t hq hr
    exact (ih hq.2.2 fun m hm => hr m (List.mem_cons_of_mem _ hm)).trans
      (applied_hello hq.1 (hr m List.mem_cons_self))

/-- Reading queued messages in order applies them to the tenant's record. -/
theorem run_msgs {n : ConnId} {ms : List Msg} : ∀ {b : Broker} {t : Tenant}, b.g.ctxOverhead = ov → b.tenants[n]? = some t →
    (∀ m ∈ ms, m.type.isRequest = false) → (b.run (ms.map (.msg n))).tenants[n]? = some (t.after ov ms) := by
  induction ms with
  | nil => exact fun _ ht _ => ht
  | cons m ms ih =>
    intro b t hov ht hr
    have hself : (b.step (.msg n m)).b.tenants[n]? = some (t.applied ov m) := by
      rw [BrokerOrderAux.step_msg ht]
      simp [Broker.onMsg, handle_report hov (hr m List.mem_cons_self)]
    exact ih ((b.step_ctxOverhead _).trans hov) hself fun m hm => hr m (List.mem_cons_of_mem _ hm)

/-- The counts of a record that agrees with a backend's chunks. -/
theorem count_of_agree {b : VmemBackend} {held : OrdMap Ptr Chunk} {g : Gpu} {t : Tenant} (hm : Memory b held g)
    (ht : t.Is ov (entries b.chunks) none) (l : Loc) : t.count l = (if l = .device then ov else 0) + b.used l := by
  rw [ht.sound.counts l, Tenant.owed_eq, ht.hello, ht.chunks, ht.moving, entries, OrdMap.total_map, hm.used l, add_zero]
  congr 1
  · simp
  · apply OrdMap.total_congr
    intro va r _
    simp [ChunkRec.share, Rec.entry]

end ClientAgreementAux

open ViewAux AgreementAux ClientAgreementAux PlayAux

/-- B5. Between two calls, a process whose link is not `Connected` has no socket, and one whose link is has one connection. If
that is still open at the broker, the queued messages, applied in order, make the broker's record of it exactly the backend's
chunks, with no move in flight and with counts that are the backend's own and the overhead. And no message of any process is
a misuse when the broker reads it. -/
theorem client_broker_agree (cfg : Global) (s : Sys) (h : s.Reached cfg fun _ _ _ => True) :
    (∀ (i : Nat) (cl : Client), s.clients[i]? = some cl → cl.run = none →
      (cl.b.link ≠ .connected → cl.socks = ∅) ∧
      (cl.b.link = .connected → ∃ (fd : Fd) (n : ConnId) (c : Conn), cl.b.fd = some fd ∧
        cl.socks = (∅ : OrdMap Fd (Option ConnId)).insert fd (some n) ∧ s.conns[n]? = some c ∧
        (c.gone = false → ∃ t, (s.broker.run (c.up.map (.msg n))).tenants[n]? = some t ∧
          (∀ va : Ptr, t.chunks[va]? = cl.b.chunks[va]?.map fun r => ⟨r.size, r.loc.field⟩) ∧ t.moving = none ∧
          t.device = cfg.ctxOverhead + cl.b.used .device ∧ t.host = cl.b.used .host))) ∧
    ∀ (n : ConnId) (m : Msg) (s' : Sys), s.Step cfg (.deliver n m) s' → ∀ t : Tenant, s.broker.tenants[n]? = some t →
      ¬t.Misuses m := by
  have hinv := h.inv
  refine ⟨fun i cl hi hrun => ?_, fun n m s' hs t ht => ?_⟩
  · obtain ⟨v, hgpu, hsock, hb⟩ := hinv.clients i cl hi
    rw [hrun] at hb
    obtain ⟨⟨hl, fd, t, w, hfd, hs, ht⟩ | ⟨hl, hfd, hs⟩, hm⟩ := hb
    · refine ⟨fun hno => absurd hl hno, fun _ => ?_⟩
      rw [hs] at hsock
      rcases hsock with ⟨hno, -⟩ | ⟨n, c, hsocks, hc, rfl, -, hlive, -⟩
      · cases hno
      · refine ⟨fd, n, c, hfd, hsocks, hc, fun hg => ?_⟩
        obtain ⟨-, -, hno, hafter⟩ := hlive hg
        have hq := hinv.queue n c hc hg
        -- a record that was greeted is the broker's
        have hknown : ∃ t₀, s.broker.tenants[n]? = some t₀ := by
          cases hn : s.broker.tenants[n]? with
          | some t₀ => exact ⟨t₀, rfl⟩
          | none =>
            have hhello := after_hello hq hno
            rw [hafter, ht.hello] at hhello
            simp [Broker.record, hn] at hhello
        obtain ⟨t₀, ht₀⟩ := hknown
        have hrecord : s.broker.record n c.owner = t₀ := by simp [Broker.record, ht₀]
        rw [hrecord] at hafter
        refine ⟨t, hafter ▸ run_msgs hinv.overhead ht₀ hno, fun va => ?_, ht.moving, ?_, ?_⟩
        · rw [ht.chunks, entries_getElem?]
          rfl
        · exact count_of_agree hm ht .device
        · exact (count_of_agree hm ht .host).trans (by simp)
    · refine ⟨fun _ => ?_, fun hyes => absurd hyes hl⟩
      rw [hs] at hsock
      exact hsock
  · cases hs with
    | deliver hn ha hg hup =>
      rename_i c ms
      have hq := hinv.queue n c hn hg
      rw [hup] at hq
      have hrecord : s.broker.record n c.owner = t := by simp [Broker.record, ht]
      rw [hrecord] at hq
      exact not_misuses_of_orderly hq.1

/-- A process opens with a broker and creates a chunk of ten bytes; the device is full, so its `AllocFail` is still on its way when
the call returns. -/
theorem client_broker_agree_created : ∃ (s : Sys) (cl : Client) (c : Conn) (t : Tenant),
    s.Reached { ctxOverhead := 3 } (fun _ _ _ => True) ∧ s.clients[0]? = some cl ∧ s.conns[4]? = some c ∧
    c.up = [{ type := .allocFail, loc := .host, ptr := 64 }] ∧
    (s.broker.run (c.up.map (.msg 4))).tenants[4]? = some t ∧ t.device = 3 + cl.b.used .device ∧ t.host = cl.b.used .host ∧
    t.host = 10 := by
  have hend : ((Sys.start { ctxOverhead := 3 }).play (fun _ _ _ => True) (fun l => decide (l = .host))
      (asking ++ List.replicate 6 (.go 0))).any (fun s : Sys =>
        s.clients[0]?.any (fun cl : Client => cl.run.isNone &&
          decide (cl.b.link = .connected ∧ cl.b.fd = some 3 ∧ cl.socks[3]? = some (some 4) ∧ cl.b.used .host = 10)) &&
        s.conns[4]?.any fun c : Conn => decide (c.gone = false ∧ c.up = [{ type := .allocFail, loc := .host, ptr := 64 }])) = true := by
    decide
  obtain ⟨s, hs, hend⟩ := (Option.any_eq_true _ _).1 hend
  obtain ⟨hclient, hconn⟩ := Bool.and_eq_true_iff.1 hend
  obtain ⟨cl, hcl, hclient⟩ := (Option.any_eq_true _ _).1 hclient
  obtain ⟨hrun, hclient⟩ := Bool.and_eq_true_iff.1 hclient
  obtain ⟨hlink, hfd, hsock, hused⟩ := of_decide_eq_true hclient
  obtain ⟨c, hc, hconn⟩ := (Option.any_eq_true _ _).1 hconn
  obtain ⟨hgone, hup⟩ := of_decide_eq_true hconn
  have h := reached_play .start hs
  obtain ⟨-, hagree⟩ := (client_broker_agree _ _ h).1 0 cl hcl (Option.isNone_iff_eq_none.1 hrun)
  obtain ⟨fd, n, c', hfd', hsocks, hn, hagree⟩ := hagree hlink
  cases hfd.symm.trans hfd'
  rw [hsocks, OrdMap.getElem?_insert, if_pos rfl] at hsock
  cases hsock
  cases hc.symm.trans hn
  obtain ⟨t, ht, -, -, hd, hh⟩ := hagree hgone
  exact ⟨s, cl, c, t, h, hcl, hc, hup, ht, hd, hh, hh.trans hused⟩

end Vmem
