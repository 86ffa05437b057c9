import Vmem.Lemmas.ClientPrograms

/-!
# The invariant of the system

Each process sees its connection as a `View`, and the rest of its call is a program that its view permits. The messages on the
way to the broker are orderly for the record they will find there. `Sys.Inv` says so of a whole system, and every step keeps it.
-/

namespace Vmem

/-- The record once the messages are applied in order. -/
def Tenant.after (ov : Size) (t : Tenant) (ms : List Msg) : Tenant := ms.foldl (Tenant.applied ov) t

/-- Each message is orderly when its turn comes, and only the last may be a request. -/
def Tenant.Queue (ov : Size) : Tenant → List Msg → Prop
  | _, [] => True
  | t, m :: ms => t.Orderly m ∧ (m.type.isRequest = true → ms = []) ∧ (t.applied ov m).Queue ov ms

/-- A connection that is open at the broker, with the record `t₀` there, as its client sees it. -/
def Peer.Live (ov : Size) (t₀ : Tenant) (c : Conn) : Peer → Prop
  | .unconnected => False
  | .idle t w => c.whole = w ∧ c.down = [] ∧ (∀ m ∈ c.up, m.type.isRequest = false) ∧ t₀.after ov c.up = t
  | .awaiting t m w => c.whole = w ∧ m.type.isRequest = true ∧
      ((c.down = [] ∧ ∃ ms, c.up = ms ++ [m] ∧ (∀ m ∈ ms, m.type.isRequest = false) ∧ t₀.after ov ms = t) ∨
        (c.up = [] ∧ ∃ rep, c.down = [rep] ∧ t.Answers ov m rep t₀))

/-- A connection whose other end is gone: at most the reply to the last request is still on its way. -/
def Peer.Gone (ov : Size) (c : Conn) : Peer → Prop
  | .unconnected => False
  | .idle _ _ => c.down = []
  | .awaiting t m _ => c.down = [] ∨ ∃ rep t', c.down = [rep] ∧ t.Answers ov m rep t'

/-- The sockets of process `i` are what it sees. -/
def SockHolds (ov : Size) (b : Broker) (conns : OrdMap ConnId Conn) (i : Nat) (socks : OrdMap Fd (Option ConnId)) :
    Option (Fd × Peer) → Prop
  | none => socks = ∅
  | some (fd, p) => (p = .unconnected ∧ socks = (∅ : OrdMap Fd (Option ConnId)).insert fd none) ∨
      ∃ n c, socks = (∅ : OrdMap Fd (Option ConnId)).insert fd (some n) ∧ conns[n]? = some c ∧ c.owner = i ∧ c.shut = false ∧
        (c.gone = false → p.Live ov (b.record n i) c) ∧ (c.gone = true → p.Gone ov c)

/-- A process and what it sees. -/
structure ClientHolds (ov : Size) (b : Broker) (conns : OrdMap ConnId Conn) (i : Nat) (cl : Client) (v : View) : Prop where
  gpu : v.gpu = cl.gpu
  sock : SockHolds ov b conns i cl.socks v.sock
  run : match cl.run with
    | some p => p.wp (view ov) (fun r v' => ViewAux.Boundary ov r.2 r.1 v') v
    | none => ViewAux.Boundary ov cl.b cl.held v

/-- The invariant. -/
structure Sys.Inv (ov : Size) (s : Sys) : Prop where
  overhead : s.broker.g.ctxOverhead = ov
  tenants : ∀ n : ConnId, s.broker.tenants[n]?.isSome ↔ ∃ c, s.conns[n]? = some c ∧ c.accepted = true ∧ c.gone = false
  queue : ∀ (n : ConnId) (c : Conn), s.conns[n]? = some c → c.gone = false → (s.broker.record n c.owner).Queue ov c.up
  clients : ∀ (i : Nat) (cl : Client), s.clients[i]? = some cl → ∃ v, ClientHolds ov s.broker s.conns i cl v

namespace AgreementAux

variable {ov : Size}

/-! ## Queues -/

/-- A message that is orderly after a queue may join it. -/
theorem queue_append {ms : List Msg} {m : Msg} : ∀ {t : Tenant}, t.Queue ov ms → (∀ m ∈ ms, m.type.isRequest = false) →
    (t.after ov ms).Orderly m → t.Queue ov (ms ++ [m]) := by
  induction ms with
  | nil => exact fun _ _ ho => ⟨ho, fun _ => rfl, trivial⟩
  | cons x ms ih =>
    intro t hq hr ho
    refine ⟨hq.1, fun hx => ?_, ih hq.2.2 (fun m hm => hr m (List.mem_cons_of_mem _ hm)) ho⟩
    rw [hr x List.mem_cons_self] at hx
    cases hx

/-- The record after a longer queue is that after one more message. -/
theorem after_append (t : Tenant) (ms : List Msg) (m : Msg) : t.after ov (ms ++ [m]) = (t.after ov ms).applied ov m := by
  simp [Tenant.after]

/-- Requests are answered, and nothing else is. -/
theorem reply_isSome (w : Work) (m : Msg) : (handle w m).2.isSome = m.type.isRequest := by
  unfold handle
  cases m.type <;> rfl

/-- What a message without a reply makes of a record does not depend on the rest of the broker. -/
theorem handle_report {t : Tenant} {g : Global} {m : Msg} (hg : g.ctxOverhead = ov) (hm : m.type.isRequest = false) :
    (handle { t, g } m).1.t = t.applied ov m := by
  refine BrokerOrderAux.handle_t (w := { t, g }) (v := { t, g := { ctxOverhead := ov } }) rfl hg ⟨?_, ?_⟩
  · intro h
    rw [h] at hm
    cases hm
  · intro h
    rw [h] at hm
    cases hm

/-! ## Peers -/

/-- What a process holds of a connection, it still holds when the broker's end goes. -/
theorem gone_of_live {t₀ : Tenant} {c c' : Conn} {p : Peer} (h : p.Live ov t₀ c) (hd : c'.down = c.down) : p.Gone ov c' := by
  cases p with
  | unconnected => exact h
  | idle t w => exact hd.trans h.2.1
  | awaiting t m w =>
    rcases h.2.2 with ⟨hdown, -⟩ | ⟨-, rep, hrep, hans⟩
    · exact .inl (hd.trans hdown)
    · exact .inr ⟨rep, t₀, hd.trans hrep, hans⟩

/-- A process sees nothing of what happens elsewhere. -/
theorem sockHolds_congr {b b' : Broker} {conns conns' : OrdMap ConnId Conn} {i : Nat} {socks : OrdMap Fd (Option ConnId)}
    {sk : Option (Fd × Peer)} (h : SockHolds ov b conns i socks sk)
    (hconn : ∀ (n : ConnId) (c : Conn), conns[n]? = some c → c.owner = i → c.shut = false →
      conns'[n]? = some c ∧ b'.record n i = b.record n i) : SockHolds ov b' conns' i socks sk := by
  cases sk with
  | none => exact h
  | some fp =>
    obtain ⟨fd, p⟩ := fp
    rcases h with h | ⟨n, c, hs, hc, ho, hsh, hlive, hgone⟩
    · exact .inl h
    · obtain ⟨hc', hr⟩ := hconn n c hc ho hsh
      exact .inr ⟨n, c, hs, hc', ho, hsh, fun hg => hr ▸ hlive hg, hgone⟩

/-! ## Steps of the broker -/

/-- A step of one connection at the broker keeps the invariant if its queue stays orderly and its client, if there is one, still
sees what it saw. -/
theorem inv_conn {s : Sys} (h : s.Inv ov) {n : ConnId} {c c' : Conn} {b' : Broker} (hn : s.conns[n]? = some c)
    (hg : c.gone = false) (hb : ∀ k : ConnId, n ≠ k → b'.tenants[k]? = s.broker.tenants[k]?)
    (hov : b'.g.ctxOverhead = s.broker.g.ctxOverhead) (hself : b'.tenants[n]?.isSome ↔ c'.accepted = true ∧ c'.gone = false)
    (howner : c'.owner = c.owner) (hshut : c'.shut = c.shut)
    (hqueue : c'.gone = false → (b'.record n c.owner).Queue ov c'.up)
    (hpeer : ∀ p : Peer, c.shut = false → p.Live ov (s.broker.record n c.owner) c →
      (c'.gone = false → p.Live ov (b'.record n c.owner) c') ∧ (c'.gone = true → p.Gone ov c')) :
    Sys.Inv ov { s with broker := b', conns := s.conns.insert n c' } := by
  have hrecord : ∀ (k : ConnId) (i : Nat), n ≠ k → b'.record k i = s.broker.record k i := by
    intro k i hk
    simp only [Broker.record, hb k hk]
  refine ⟨hov.trans h.overhead, fun k => ?_, fun k d hk hgone => ?_, fun i cl hi => ?_⟩
  · by_cases hk : n = k
    · subst hk
      simp only [Std.ExtTreeMap.getElem?_insert_self, Option.some.injEq, exists_eq_left']
      exact hself
    · simp only [Std.ExtTreeMap.getElem?_insert, Std.compare_eq_iff_eq, hk, if_false, hb k hk]
      exact h.tenants k
  · simp only [Std.ExtTreeMap.getElem?_insert, Std.compare_eq_iff_eq] at hk
    split at hk
    · rename_i he
      subst he
      cases hk
      rw [howner]
      exact hqueue hgone
    · rename_i he
      rw [hrecord k _ he]
      exact h.queue k d hk hgone
  · obtain ⟨v, hgpu, hsock, hrun⟩ := h.clients i cl hi
    refine ⟨v, hgpu, ?_, hrun⟩
    cases hv : v.sock with
    | none =>
      rw [hv] at hsock
      exact hsock
    | some fp =>
      rw [hv] at hsock
      obtain ⟨fd, p⟩ := fp
      rcases hsock with hsock | ⟨k, d, hs, hd, ho, hsh, hlive, hgone⟩
      · exact .inl hsock
      · by_cases hk : n = k
        · subst hk
          rw [hn] at hd
          cases hd
          subst ho
          obtain ⟨hl, hg'⟩ := hpeer p hsh (hlive hg)
          exact .inr ⟨n, c', hs, by simp, howner, hshut.trans hsh, hl, hg'⟩
        · refine .inr ⟨k, d, hs, ?_, ho, hsh, fun hg => ?_, hgone⟩
          · simp [Std.ExtTreeMap.getElem?_insert, hk, hd]
          · rw [hrecord k i hk]
            exact hlive hg

/-- Accepting a connection keeps the invariant: the broker starts the record it was to start with. -/
theorem inv_accept {s : Sys} (h : s.Inv ov) {n : ConnId} {c : Conn} (hn : s.conns[n]? = some c) (ha : c.accepted = false)
    (hg : c.gone = false) :
    Sys.Inv ov { s with
      broker := (s.broker.step (.connect n c.owner)).b, conns := s.conns.insert n { c with accepted := true } } := by
  have hnone : s.broker.tenants[n]? = none := by
    cases ht : s.broker.tenants[n]? with
    | none => rfl
    | some t =>
      obtain ⟨c', hc', ha', -⟩ := (h.tenants n).1 (by simp [ht])
      rw [hn] at hc'
      cases hc'
      rw [ha] at ha'
      cases ha'
  have hself : (s.broker.step (.connect n c.owner)).b.tenants[n]? = some { pid := c.owner } := by
    simp [Broker.step, Broker.onConnect, Std.ExtTreeMap.getD_eq_getD_getElem?, hnone]
  have hrecord : (s.broker.step (.connect n c.owner)).b.record n c.owner = s.broker.record n c.owner := by
    simp [Broker.record, hself, hnone]
  refine inv_conn h hn hg (fun k hk => BrokerOrderAux.step_getElem?_other hk) (s.broker.step_ctxOverhead _) ?_ rfl rfl ?_ ?_
  · simp [hself, hg]
  · intro _
    rw [hrecord]
    exact h.queue n c hn hg
  · intro p _ hp
    rw [hrecord]
    refine ⟨fun _ => ?_, fun hg' => ?_⟩
    · cases p <;> exact hp
    · rw [hg] at hg'
      cases hg'

/-- An accepted connection has a tenant until it is gone. -/
theorem tenant_of_accepted {s : Sys} (h : s.Inv ov) {n : ConnId} {c : Conn} (hn : s.conns[n]? = some c)
    (ha : c.accepted = true) (hg : c.gone = false) : ∃ t, s.broker.tenants[n]? = some t :=
  Option.isSome_iff_exists.1 ((h.tenants n).2 ⟨c, hn, ha, hg⟩)

/-- Reading a message keeps the invariant: its effect moves from the queue to the record. -/
theorem inv_deliver {s : Sys} (h : s.Inv ov) {n : ConnId} {c : Conn} {m : Msg} {ms : List Msg} (hn : s.conns[n]? = some c)
    (ha : c.accepted = true) (hg : c.gone = false) (hup : c.up = m :: ms) :
    Sys.Inv ov { s with
      broker := (s.broker.step (.msg n m)).b
      conns := s.conns.insert n { c with up := ms, down := c.down ++ (s.broker.step (.msg n m)).reply.toList } } := by
  obtain ⟨t, ht⟩ := tenant_of_accepted h hn ha hg
  have hrecord : s.broker.record n c.owner = t := by simp [Broker.record, ht]
  have hq := h.queue n c hn hg
  rw [hrecord, hup] at hq
  obtain ⟨hord, hlast, hrest⟩ := hq
  have hself : (s.broker.step (.msg n m)).b.tenants[n]? = some (handle { t, g := s.broker.g } m).1.t := by
    rw [BrokerOrderAux.step_msg ht]
    simp [Broker.onMsg]
  have hreply : (s.broker.step (.msg n m)).reply = (handle { t, g := s.broker.g } m).2 := by
    rw [BrokerOrderAux.step_msg ht]
    rfl
  have hrecord' : (s.broker.step (.msg n m)).b.record n c.owner = (handle { t, g := s.broker.g } m).1.t := by
    simp [Broker.record, hself]
  have hsome := reply_isSome { t, g := s.broker.g } m
  refine inv_conn h hn hg (fun k hk => BrokerOrderAux.step_getElem?_other hk) (s.broker.step_ctxOverhead _) ?_ rfl rfl ?_ ?_
  · simp [hself, ha, hg]
  · intro _
    rw [hrecord']
    cases hm : m.type.isRequest with
    | true =>
      rw [hlast hm]
      trivial
    | false =>
      rw [handle_report h.overhead hm]
      exact hrest
  · intro p _ hp
    rw [hrecord] at hp
    rw [hrecord', hreply]
    refine ⟨fun _ => ?_, fun hg' => ?_⟩
    · cases p with
      | unconnected => exact hp
      | idle t' w =>
        obtain ⟨hw, hd, hno, hafter⟩ := hp
        rw [hup] at hno hafter
        have hm := hno m List.mem_cons_self
        rw [hm, Option.isSome_eq_false_iff, Option.isNone_iff_eq_none] at hsome
        refine ⟨hw, by simp [hd, hsome], fun m hm => hno m (List.mem_cons_of_mem _ hm), ?_⟩
        rw [handle_report h.overhead hm]
        exact hafter
      | awaiting t' m' w =>
        obtain ⟨hw, hreq, ⟨hd, xs, hxs, hno, hafter⟩ | ⟨hnil, -⟩⟩ := hp
        · rw [hup] at hxs
          cases xs with
          | nil =>
            cases hxs
            obtain ⟨rep, hrep⟩ := Option.isSome_iff_exists.1 (hsome.trans hreq)
            refine ⟨hw, hreq, .inr ⟨rfl, rep, by simp [hd, hrep], s.broker.g, h.overhead, ?_, ?_⟩⟩
            · rw [← hrep, ← hafter]
              rfl
            · rw [← hafter]
              rfl
          | cons x xs =>
            cases hxs
            have hm := hno m List.mem_cons_self
            rw [hm, Option.isSome_eq_false_iff, Option.isNone_iff_eq_none] at hsome
            refine ⟨hw, hreq, .inl ⟨by simp [hd, hsome], xs, rfl, fun m hm => hno m (List.mem_cons_of_mem _ hm), ?_⟩⟩
            rw [handle_report h.overhead hm]
            exact hafter
        · rw [hup] at hnil
          cases hnil
    · rw [hg] at hg'
      cases hg'

/-- A connection ends at the broker: its tenant is gone, and its client, if there is one, has lost the other end. -/
theorem inv_end {s : Sys} (h : s.Inv ov) {n : ConnId} {c : Conn} {e : Event} (hn : s.conns[n]? = some c) (hg : c.gone = false)
    (he : e.fd = n) (hself : (s.broker.step e).b.tenants[n]? = none) :
    Sys.Inv ov { s with broker := (s.broker.step e).b, conns := s.conns.insert n { c with gone := true } } := by
  refine inv_conn h hn hg (fun k hk => BrokerOrderAux.step_getElem?_other (he ▸ hk)) (s.broker.step_ctxOverhead e) ?_ rfl rfl
    nofun ?_
  · simp [hself]
  · exact fun p _ hp => ⟨nofun, fun _ => gone_of_live hp rfl⟩

/-! ## Steps of a process -/

/-- What a call of process `i` may do to the connections. -/
structure Touches (ov : Size) (b : Broker) (conns : OrdMap ConnId Conn) (i : Nat) (conns' : OrdMap ConnId Conn) : Prop where
  other : ∀ (n : ConnId) (c : Conn), conns[n]? = some c → c.owner ≠ i → conns'[n]? = some c
  open' : ∀ n : ConnId, (∃ c, conns'[n]? = some c ∧ c.accepted = true ∧ c.gone = false) ↔
    ∃ c, conns[n]? = some c ∧ c.accepted = true ∧ c.gone = false
  queue : ∀ (n : ConnId) (c : Conn), conns'[n]? = some c → c.gone = false → (b.record n c.owner).Queue ov c.up

/-- A process that leaves the connections alone touches none. -/
theorem touches_none {s : Sys} (h : s.Inv ov) (i : Nat) : Touches ov s.broker s.conns i s.conns :=
  ⟨fun _ _ hc _ => hc, fun _ => Iff.rfl, h.queue⟩

/-- A connection of the process changes on the client's side. -/
theorem touches_insert {s : Sys} (h : s.Inv ov) {i : Nat} {n : ConnId} {c c' : Conn} (hn : s.conns[n]? = some c)
    (ho : c.owner = i) (howner : c'.owner = c.owner) (ha : c'.accepted = c.accepted) (hg : c'.gone = c.gone)
    (hqueue : c.gone = false → (s.broker.record n c.owner).Queue ov c'.up) :
    Touches ov s.broker s.conns i (s.conns.insert n c') := by
  refine ⟨fun k d hd hne => ?_, fun k => ?_, fun k d hd hgone => ?_⟩
  · have hk : n ≠ k := by
      rintro rfl
      rw [hn] at hd
      cases hd
      exact hne ho
    simp [Std.ExtTreeMap.getElem?_insert, hk, hd]
  · by_cases hk : n = k
    · subst hk
      simp [hn, ha, hg]
    · simp [Std.ExtTreeMap.getElem?_insert, hk]
  · simp only [Std.ExtTreeMap.getElem?_insert, Std.compare_eq_iff_eq] at hd
    split at hd
    · rename_i he
      subst he
      cases hd
      rw [howner]
      exact hqueue (hg ▸ hgone)
    · exact h.queue k d hd hgone

/-- A new connection of the process. -/
theorem touches_new {s : Sys} (h : s.Inv ov) {i : Nat} {n : ConnId} {c' : Conn} (hn : s.conns[n]? = none)
    (ha : c'.accepted = false) (hup : c'.up = []) : Touches ov s.broker s.conns i (s.conns.insert n c') := by
  refine ⟨fun k d hd _ => ?_, fun k => ?_, fun k d hd hgone => ?_⟩
  · have hk : n ≠ k := by
      rintro rfl
      rw [hn] at hd
      cases hd
    simp [Std.ExtTreeMap.getElem?_insert, hk, hd]
  · by_cases hk : n = k
    · subst hk
      simp [hn, ha]
    · simp [Std.ExtTreeMap.getElem?_insert, hk]
  · simp only [Std.ExtTreeMap.getElem?_insert, Std.compare_eq_iff_eq] at hd
    split at hd
    · cases hd
      rw [hup]
      trivial
    · exact h.queue k d hd hgone

/-- The connection of an open socket. -/
theorem conn_of_sock {b : Broker} {conns : OrdMap ConnId Conn} {i : Nat} {socks : OrdMap Fd (Option ConnId)} {fd : Fd} {p : Peer}
    (h : SockHolds ov b conns i socks (some (fd, p))) {n : ConnId} {c : Conn} (hs : socks[fd]? = some (some n))
    (hn : conns[n]? = some c) : socks = (∅ : OrdMap Fd (Option ConnId)).insert fd (some n) ∧ c.owner = i ∧ c.shut = false ∧
      (c.gone = false → p.Live ov (b.record n i) c) ∧ (c.gone = true → p.Gone ov c) := by
  rcases h with ⟨-, hsocks⟩ | ⟨k, d, hsocks, hd, hrest⟩
  · rw [hsocks] at hs
    simp at hs
  · have hk : k = n := by
      rw [hsocks] at hs
      simpa using hs
    subst hk
    rw [hn] at hd
    cases hd
    exact ⟨hsocks, hrest⟩

/-- A message that a process sends is the last of its queue. -/
theorem act_send {s : Sys} (h : s.Inv ov) {i : Nat} {cl : Client} {v : View} (hv : ClientHolds ov s.broker s.conns i cl v)
    {fd : Fd} {m : Msg} {t : Tenant} {w : Bool} (hs : v.sock = some (fd, .idle t w)) (hord : t.Orderly m) {n : ConnId} {c : Conn}
    (hsock : cl.socks[fd]? = some (some n)) (hn : s.conns[n]? = some c) :
    SockHolds ov s.broker (s.conns.insert n (c.push m)) i cl.socks (some (fd, (Peer.idle t w).sent ov m)) ∧
      Touches ov s.broker s.conns i (s.conns.insert n (c.push m)) := by
  have hsh := hv.sock
  rw [hs] at hsh
  obtain ⟨hsocks, ho, hshut, hlive, hgone⟩ := conn_of_sock hsh hsock hn
  cases hg : c.gone with
  | true =>
    have hpush : c.push m = c := by simp [Conn.push, hg]
    rw [hpush, OrdMap.insert_of_getElem? hn]
    refine ⟨.inr ⟨n, c, hsocks, hn, ho, hshut, fun hg' => ?_, fun _ => ?_⟩, touches_none h i⟩
    · rw [hg] at hg'
      cases hg'
    · have hdown : c.down = [] := hgone hg
      simp only [Peer.sent]
      split
      · exact .inl hdown
      · exact hdown
  | false =>
    obtain ⟨hw, hd, hno, hafter⟩ := hlive hg
    have hpush : c.push m = { c with up := c.up ++ [m], whole := c.whole && decide (m.type ≠ .resync) } := by
      simp [Conn.push, hg]
    rw [hpush]
    refine ⟨.inr ⟨n, { c with up := c.up ++ [m], whole := c.whole && decide (m.type ≠ .resync) }, hsocks, by simp, ho, hshut,
      fun _ => ?_, fun hg' => ?_⟩, touches_insert h hn ho rfl rfl rfl fun _ => ?_⟩
    · simp only [Peer.sent]
      split
      · rename_i hreq
        have hne : m.type ≠ .resync := by
          intro hm
          rw [hm] at hreq
          cases hreq
        exact ⟨by simp [hw, hne], hreq, .inl ⟨hd, c.up, rfl, hno, hafter⟩⟩
      · rename_i hreq
        refine ⟨by simp [hw], hd, ?_, ?_⟩
        · intro x hx
          rcases List.mem_append.1 hx with hx | hx
          · exact hno x hx
          · rw [List.mem_singleton.1 hx]
            simpa using hreq
        · rw [after_append, hafter]
    · exact absurd (hg.symm.trans hg') (by decide)
    · have hq := h.queue n c hn hg
      rw [ho] at hq ⊢
      exact queue_append hq hno (hafter ▸ hord)

/-- A process that receives has the answer to its own request. -/
theorem act_recv {s : Sys} (h : s.Inv ov) {i : Nat} {cl : Client} {v : View} (hv : ClientHolds ov s.broker s.conns i cl v)
    {fd : Fd} {m : Msg} {t : Tenant} {w : Bool} (hs : v.sock = some (fd, .awaiting t m w)) {n : ConnId} {c : Conn}
    (hsock : cl.socks[fd]? = some (some n)) (hn : s.conns[n]? = some c) {rep : Reply} {rest : List Reply}
    (hdown : c.down = rep :: rest) :
    (∃ t', t.Answers ov m rep t' ∧
      SockHolds ov s.broker (s.conns.insert n { c with down := rest }) i cl.socks (some (fd, .idle t' w))) ∧
      Touches ov s.broker s.conns i (s.conns.insert n { c with down := rest }) := by
  have hsh := hv.sock
  rw [hs] at hsh
  obtain ⟨hsocks, ho, hshut, hlive, hgone⟩ := conn_of_sock hsh hsock hn
  refine ⟨?_, touches_insert h hn ho rfl rfl rfl fun hg => h.queue n c hn hg⟩
  cases hg : c.gone with
  | true =>
    rcases hgone hg with hnil | ⟨rep', t', hrep, hans⟩
    · rw [hdown] at hnil
      cases hnil
    · rw [hdown] at hrep
      cases hrep
      refine ⟨t', hans, .inr ⟨n, { c with down := [] }, hsocks, by simp [hg], ho, hshut, fun hg' => ?_, fun _ => rfl⟩⟩
      exact absurd (hg.symm.trans hg') (by decide)
  | false =>
    obtain ⟨hw, -, ⟨hnil, -⟩ | ⟨hup, rep', hrep, hans⟩⟩ := hlive hg
    · rw [hdown] at hnil
      cases hnil
    · rw [hdown] at hrep
      cases hrep
      refine ⟨_, hans, .inr ⟨n, { c with down := [] }, hsocks, by simp [hg], ho, hshut, fun _ => ⟨hw, rfl, ?_, ?_⟩, fun hg' => ?_⟩⟩
      · simp [hup]
      · rw [hup]
        rfl
      · exact absurd (hg.symm.trans hg') (by decide)

/-- A process that closes its descriptor has no other. -/
theorem act_close {s : Sys} (h : s.Inv ov) {i : Nat} {cl : Client} {v : View} (hv : ClientHolds ov s.broker s.conns i cl v)
    {fd : Fd} {p : Peer} (hs : v.sock = some (fd, p)) :
    cl.socks.erase fd = ∅ ∧ Touches ov s.broker s.conns i (shutConn s.conns cl.socks[fd]?) := by
  have hsh := hv.sock
  rw [hs] at hsh
  rcases hsh with ⟨-, hsocks⟩ | ⟨n, c, hsocks, hn, ho, -⟩
  · rw [hsocks]
    refine ⟨OrdMap.erase_insert _ (by simp), ?_⟩
    simp only [Std.ExtTreeMap.getElem?_insert_self, shutConn]
    exact touches_none h i
  · rw [hsocks]
    refine ⟨OrdMap.erase_insert _ (by simp), ?_⟩
    simp only [Std.ExtTreeMap.getElem?_insert_self, shutConn, hn]
    exact touches_insert h hn ho rfl rfl rfl fun hg => h.queue n c hn hg

/-- A process that connects has a fresh connection. -/
theorem act_connect {s : Sys} (h : s.Inv ov) {i : Nat} {fd : Fd} {n : ConnId} {w : Bool} (hn : s.conns[n]? = none) :
    SockHolds ov s.broker (s.conns.insert n { owner := i, whole := w }) i
      ((∅ : OrdMap Fd (Option ConnId)).insert fd (some n)) (some (fd, .idle { pid := i } w)) := by
  have hnone : s.broker.tenants[n]? = none := by
    cases ht : s.broker.tenants[n]? with
    | none => rfl
    | some t =>
      obtain ⟨c, hc, -⟩ := (h.tenants n).1 (by simp [ht])
      rw [hn] at hc
      cases hc
  refine .inr ⟨n, { owner := i, whole := w }, rfl, by simp, rfl, rfl, fun _ => ⟨rfl, rfl, by simp, ?_⟩, fun hg => ?_⟩
  · simp [Broker.record, hnone, Tenant.after]
  · cases hg

/-- A call that a process makes has an answer in its view, and touches nothing but its own connection. -/
theorem act_view {s : Sys} (h : s.Inv ov) {i : Nat} {cl cl' : Client} {v : View} (hv : ClientHolds ov s.broker s.conns i cl v)
    {o : Op} {r : o.Answer} {conns' : OrdMap ConnId Conn} (hp : (view ov).permits o v) (ha : Act s.conns i cl o r cl' conns') :
    ∃ v', (view ov).answers o v r v' ∧ v'.gpu = cl'.gpu ∧ SockHolds ov s.broker conns' i cl'.socks v'.sock ∧
      Touches ov s.broker s.conns i conns' := by
  have hnone := touches_none h i
  -- a call without an effect
  have hsame : ∀ (hcl : cl' = cl) (hcs : conns' = s.conns), v.gpu = cl'.gpu ∧ SockHolds ov s.broker conns' i cl'.socks v.sock ∧
      Touches ov s.broker s.conns i conns' := by
    rintro rfl rfl
    exact ⟨hv.gpu, hv.sock, hnone⟩
  cases o with
  | cu c =>
    obtain ⟨rfl, g, hg, rfl⟩ := ha
    exact ⟨{ v with gpu := g }, ⟨g, hv.gpu ▸ hg, rfl⟩, rfl, hv.sock, hnone⟩
  | drop c =>
    obtain ⟨rfl, g, hg, rfl⟩ := ha
    exact ⟨{ v with gpu := g }, ⟨g, hv.gpu ▸ hg, rfl⟩, rfl, hv.sock, hnone⟩
  | cudaSetDevice d => exact ⟨v, rfl, hsame ha.1 ha.2⟩
  | cudaFreeNull => exact ⟨v, rfl, hsame ha.1 ha.2⟩
  | «attribute» a d => exact ⟨v, rfl, hsame ha.1 ha.2⟩
  | setsockopt fd n => exact ⟨v, rfl, hsame ha.1 ha.2⟩
  | atFailed => exact ha.elim
  | socket =>
    obtain ⟨rfl, ha⟩ := ha
    cases r with
    | error e => exact ⟨v, rfl, hsame ha rfl⟩
    | ok fd =>
      obtain ⟨-, rfl⟩ := ha
      have hsh := hv.sock
      rw [show v.sock = none from hp.2] at hsh
      refine ⟨{ v with sock := some (fd, .unconnected) }, rfl, hv.gpu, .inl ⟨rfl, ?_⟩, hnone⟩
      rw [show cl.socks = ∅ from hsh]
  | connect fd path =>
    cases r with
    | some e => exact ⟨v, rfl, hsame ha.1 ha.2⟩
    | none =>
      obtain ⟨hs, n, hn, rfl, rfl⟩ := ha
      have hsh := hv.sock
      rw [show v.sock = some (fd, .unconnected) from hp.2] at hsh
      have hsocks : cl.socks.insert fd (some n) = (∅ : OrdMap Fd (Option ConnId)).insert fd (some n) := by
        rcases hsh with ⟨-, hsocks⟩ | ⟨k, c, hsocks, -⟩
        · rw [hsocks, OrdMap.insert_insert]
        · rw [hsocks] at hs
          simp at hs
      refine ⟨{ v with sock := some (fd, .idle { pid := i } v.gpu.copies.isEmpty) }, ⟨i, rfl⟩, hv.gpu, ?_,
        touches_new h hn rfl rfl⟩
      dsimp only
      rw [hsocks, hv.gpu]
      exact act_connect h hn
  | close fd =>
    obtain ⟨rfl, rfl⟩ := ha
    obtain ⟨-, p, hs⟩ := hp
    obtain ⟨hempty, ht⟩ := act_close h hv hs
    exact ⟨{ v with sock := none }, rfl, hv.gpu, hempty, ht⟩
  | send fd m =>
    obtain ⟨-, f, t, w, hf, hs, hord⟩ := hp
    obtain ⟨rfl, ha⟩ := ha
    cases r with
    | some e => exact ⟨v, rfl, hsame rfl ha⟩
    | none =>
      obtain ⟨f', n, c, hf', hsock, hn, rfl⟩ := ha
      rw [hf] at hf'
      cases hf'
      obtain ⟨hsh, ht⟩ := act_send h hv hs hord hsock hn
      refine ⟨{ v with sock := some (f, (Peer.idle t w).sent ov m) }, ?_, hv.gpu, hsh, ht⟩
      show _ = _
      rw [hs]
      rfl
  | recv fd =>
    obtain ⟨-, f, t, m, w, hf, hs⟩ := hp
    obtain ⟨rfl, ha⟩ := ha
    cases r with
    | error e => exact ⟨v, rfl, hsame rfl ha⟩
    | short n => exact ⟨v, rfl, hsame rfl ha⟩
    | reply rep =>
      obtain ⟨f', n, c, rest, hf', hsock, hn, hdown, rfl⟩ := ha
      rw [hf] at hf'
      cases hf'
      obtain ⟨⟨t', hans, hsh⟩, ht⟩ := act_recv h hv hs hsock hn hdown
      exact ⟨{ v with sock := some (f, .idle t' w) }, ⟨f, t, m, w, t', hs, hans, rfl⟩, hv.gpu, hsh, ht⟩

/-- A step of one process keeps the invariant of the others. -/
theorem inv_clients {s : Sys} (h : s.Inv ov) {i : Nat} {cl' : Client} {conns' : OrdMap ConnId Conn}
    (ht : Touches ov s.broker s.conns i conns') (hcl : ∃ v, ClientHolds ov s.broker conns' i cl' v) :
    Sys.Inv ov { s with clients := s.clients.insert i cl', conns := conns' } := by
  refine ⟨h.overhead, fun n => (h.tenants n).trans (ht.open' n).symm, ht.queue, fun j cl hj => ?_⟩
  simp only [Std.ExtTreeMap.getElem?_insert, Std.compare_eq_iff_eq] at hj
  split at hj
  · rename_i he
    subst he
    cases hj
    exact hcl
  · rename_i hne
    obtain ⟨v, hgpu, hsock, hrun⟩ := h.clients j cl hj
    refine ⟨v, hgpu, sockHolds_congr hsock fun n c hc ho _ => ⟨ht.other n c hc ?_, rfl⟩, hrun⟩
    rintro rfl
    exact hne ho

/-- A process that is gone has closed its connection. -/
theorem touches_shutAll {s : Sys} (h : s.Inv ov) {i : Nat} {cl : Client} {v : View}
    (hv : ClientHolds ov s.broker s.conns i cl v) : Touches ov s.broker s.conns i (shutAll s.conns cl.socks) := by
  cases hs : v.sock with
  | none =>
    have hsh := hv.sock
    rw [hs] at hsh
    rw [show cl.socks = ∅ from hsh]
    exact touches_none h i
  | some fp =>
    obtain ⟨fd, p⟩ := fp
    obtain ⟨hempty, ht⟩ := act_close h hv hs
    have hsome : ∃ x, cl.socks[fd]? = some x := by
      have hsh := hv.sock
      rw [hs] at hsh
      rcases hsh with ⟨-, hsocks⟩ | ⟨n, c, hsocks, -⟩ <;> simp [hsocks]
    obtain ⟨x, hx⟩ := hsome
    have hlist : cl.socks.toList = [(fd, x)] := by
      have hperm := OrdMap.toList_insert_perm (cl.socks.erase fd) fd x
      rw [OrdMap.insert_erase, OrdMap.insert_of_getElem? hx, hempty] at hperm
      exact List.perm_singleton.1 hperm
    rw [hx] at ht
    simp only [shutAll, hlist, List.foldl_cons, List.foldl_nil]
    exact ht

/-- A crash keeps the invariant: every connection is gone, and its queue with it. -/
theorem inv_crash {cfg : Global} (hov : cfg.ctxOverhead = ov) {s : Sys} (h : s.Inv ov) :
    Sys.Inv ov { s with broker := Broker.start cfg, conns := dropAll s.conns } := by
  have hget : ∀ n : ConnId, (dropAll s.conns)[n]? = s.conns[n]?.map fun c => { c with gone := true } := by
    intro n
    simp [dropAll, Std.ExtTreeMap.getElem?_map]
  refine ⟨hov, fun n => ?_, fun n c hc hg => ?_, fun i cl hi => ?_⟩
  · simp only [hget, Broker.start]
    constructor
    · intro hsome
      simp at hsome
    · rintro ⟨c, hc, -, hg⟩
      obtain ⟨d, -, rfl⟩ := Option.map_eq_some_iff.1 hc
      cases hg
  · simp only [hget] at hc
    obtain ⟨d, -, rfl⟩ := Option.map_eq_some_iff.1 hc
    cases hg
  · obtain ⟨v, hgpu, hsock, hrun⟩ := h.clients i cl hi
    refine ⟨v, hgpu, ?_, hrun⟩
    cases hv : v.sock with
    | none =>
      rw [hv] at hsock
      exact hsock
    | some fp =>
      rw [hv] at hsock
      obtain ⟨fd, p⟩ := fp
      rcases hsock with hsock | ⟨n, c, hs, hc, ho, hsh, hlive, hgone⟩
      · exact .inl hsock
      · refine .inr ⟨n, { c with gone := true }, hs, by simp [hget, hc], ho, hsh, fun hup => absurd hup (by simp), fun _ => ?_⟩
        cases hg : c.gone with
        | true =>
          have hg' := hgone hg
          cases p <;> exact hg'
        | false => exact gone_of_live (hlive hg) rfl

/-! ## Every step -/

/-- A connection whose end is closed has no client, so nobody sees it end. -/
theorem inv_step {cfg : Global} (hov : cfg.ctxOverhead = ov) {s s' : Sys} {l : Label} (h : s.Inv ov) (hs : s.Step cfg l s') :
    s'.Inv ov := by
  cases hs with
  | join hi =>
    refine inv_clients h (touches_none h _) ⟨{}, rfl, rfl, ?_⟩
    exact ViewAux.opening_view _ _
  | call hi hrun hp =>
    rename_i i c cl p
    obtain ⟨v, hgpu, hsock, hinv⟩ := h.clients i cl hi
    rw [hrun] at hinv
    refine inv_clients h (touches_none h i) ⟨v, hgpu, hsock, ?_⟩
    exact ViewAux.program_view hinv hp
  | act hi hrun ha =>
    rename_i i o r cl cl' k cs
    obtain ⟨v, hv⟩ := h.clients i cl hi
    have hinv := hv.run
    rw [hrun] at hinv
    obtain ⟨v', hans, hgpu, hsock, ht⟩ := act_view h hv hinv.1 ha
    exact inv_clients h ht ⟨v', hgpu, hsock, hinv.2 r v' hans⟩
  | ret hi hrun =>
    rename_i i cl held b
    obtain ⟨v, hgpu, hsock, hinv⟩ := h.clients i cl hi
    rw [hrun] at hinv
    exact inv_clients h (touches_none h i) ⟨v, hgpu, hsock, hinv⟩
  | exit hi =>
    rename_i i cl
    obtain ⟨v, hv⟩ := h.clients i cl hi
    have ht := touches_shutAll h hv
    refine ⟨h.overhead, fun n => (h.tenants n).trans (ht.open' n).symm, ht.queue, fun j cl' hj => ?_⟩
    simp only [Std.ExtTreeMap.getElem?_erase, Std.compare_eq_iff_eq] at hj
    split at hj
    · cases hj
    · rename_i hne
      obtain ⟨v', hgpu, hsock, hrun⟩ := h.clients j cl' hj
      refine ⟨v', hgpu, sockHolds_congr hsock fun n c hc ho _ => ⟨ht.other n c hc ?_, rfl⟩, hrun⟩
      rintro rfl
      exact hne ho
  | accept hn ha hg => exact inv_accept h hn ha hg
  | deliver hn ha hg hup => exact inv_deliver h hn ha hg hup
  | hangup hn ha hg hup hsh =>
    rename_i n c
    obtain ⟨t, ht⟩ := tenant_of_accepted h hn ha hg
    refine inv_end h hn hg rfl ?_
    simp [Event.disconnect, Broker.step, ht, Broker.onReadable, Broker.onDisconnect]
  | fail hn ha hg =>
    rename_i n c m
    obtain ⟨t, ht⟩ := tenant_of_accepted h hn ha hg
    refine inv_end h hn hg rfl ?_
    simp [Broker.step, ht, Broker.onReadable, Broker.onDisconnect]
  | crash => exact inv_crash hov h

end AgreementAux

/-- The invariant holds in every state of every run. -/
theorem Sys.Reached.inv {cfg : Global} {A : Sys → Label → Sys → Prop} {s : Sys} (h : Sys.Reached cfg A s) :
    s.Inv cfg.ctxOverhead := by
  refine h.induct (P := Sys.Inv cfg.ctxOverhead) ⟨rfl, fun n => ?_, fun n c hc => ?_, fun i cl hi => ?_⟩
    fun s l s' _ hinv hs _ => AgreementAux.inv_step rfl hinv hs
  · simp [Sys.start, Broker.start]
  · simp [Sys.start] at hc
  · simp [Sys.start] at hi

end Vmem
