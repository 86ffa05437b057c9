import Vmem.Lemmas.Agreement
import Vmem.Lemmas.Limits

/-!
# Memory and counts

The bytes that the broker's records stand for, in natural numbers, against the memory that connected processes hold. A queue of
messages without a `Resync` does not raise the bytes on the device, and raises those on the host by its `AllocFail`s; a request
raises them only if there was room.
-/

namespace Vmem

/-! ## What is counted -/

/-- The bytes that all records stand for at a place. -/
def Broker.bytes (b : Broker) (l : Loc) : ℕ := OrdMap.total b.tenants fun _ t => t.bytes l

namespace CapacityAux

open AgreementAux LimitsAux

variable {ov : Size}

/-! ## Counts and bytes -/

/-- On the host the broker owes the bytes of the records, as there is no overhead. -/
theorem owed_host (b : Broker) : b.owed .host = b.bytes .host := by
  simp only [Broker.owed, Broker.bytes, Tenant.owed_eq_bytes, Tenant.overhead, and_false, reduceCtorEq, if_false, zero_add]

/-- On the device it also owes the overhead of every tenant that said `Hello`. -/
theorem owed_device (b : Broker) : b.owed .device = b.g.ctxOverhead.toNat * b.greeted + b.bytes .device := by
  have hoverhead : OrdMap.total b.tenants (fun _ t => t.overhead BitVec.toNat b.g.ctxOverhead .device) =
      b.g.ctxOverhead.toNat * b.greeted := by
    have hmul := OrdMap.map_total (AddMonoidHom.mulLeft b.g.ctxOverhead.toNat) b.tenants
      fun _ t => if t.hello = true then 1 else 0
    rw [Broker.greeted]
    refine Eq.trans ?_ hmul.symm
    refine OrdMap.total_congr fun fd t _ => ?_
    cases ht : t.hello <;> simp [Tenant.overhead, ht]
  rw [← hoverhead, Broker.bytes, ← OrdMap.total_add]
  simp only [Broker.owed, Tenant.owed_eq_bytes]

/-! ## Queues -/

/-- The messages in a queue without requests and `Resync` raise the bytes of the host by their `AllocFail`s, and nothing else. -/
theorem after_bytes_le (l : Loc) {ms : List Msg} : ∀ {t : Tenant}, t.Queue ov ms → (∀ m ∈ ms, m.type.isRequest = false) →
    (∀ m ∈ ms, m.type ≠ .resync) →
    (t.after ov ms).bytes l ≤ t.bytes l + if l = .host then t.allocFails ov ms else 0 := by
  induction ms with
  | nil => exact fun _ _ _ => Nat.le_add_right _ _
  | cons m ms ih =>
    intro t hq hreq hres
    have hhead : (t.applied ov m).bytes l ≤ _ := hq.1.bytes_le (hreq m List.mem_cons_self) (hres m List.mem_cons_self) l
    have htail := ih hq.2.2 (fun x hx => hreq x (List.mem_cons_of_mem _ hx)) fun x hx => hres x (List.mem_cons_of_mem _ hx)
    simp only [Tenant.allocFails]
    simp only [Tenant.after, List.foldl_cons] at htail ⊢
    cases l with
    | device =>
      simp only [reduceCtorEq, if_false] at hhead htail ⊢
      omega
    | host =>
      simp only [if_true] at hhead htail ⊢
      omega

/-- The front of a queue of orderly messages is one. -/
theorem queue_of_append {ms ms' : List Msg} : ∀ {t : Tenant}, t.Queue ov (ms ++ ms') → t.Queue ov ms := by
  induction ms with
  | nil => exact fun _ => trivial
  | cons m ms ih =>
    intro t hq
    exact ⟨hq.1, fun hm => (List.append_eq_nil_iff.1 (hq.2.1 hm)).1, ih hq.2.2⟩

/-! ## The broker's part of a step -/

/-- The events that reach the broker: a new connection, the end of one, and an orderly message that was on its way. -/
inductive Arrives (s : Sys) : Event → Prop
  | connect {n : ConnId} {pid : Nat} (hn : s.broker.tenants[n]? = none) : Arrives s (.connect n pid)
  | leave {n : ConnId} {t : Tenant} {r : Recv} (hn : s.broker.tenants[n]? = some t) (hr : r.n ≠ sizeofMsg)
      (h : (s.broker.step (.readable n r)).b = (s.broker.onDisconnect n t).b) : Arrives s (.readable n r)
  | msg {n : ConnId} {t : Tenant} {m : Msg} {c : Conn} (hn : s.broker.tenants[n]? = some t) (hord : t.Orderly m)
      (hc : s.conns[n]? = some c) (hm : m ∈ c.up) : Arrives s (.msg n m)

/-- A step leaves the broker alone, starts it again, or brings it one event. -/
theorem broker_cases {cfg : Global} {s s' : Sys} {l : Label} (h : s.Inv ov) (hs : s.Step cfg l s') :
    s'.broker = s.broker ∨ s'.broker = Broker.start cfg ∨ ∃ e, Arrives s e ∧ s'.broker = (s.broker.step e).b := by
  cases hs with
  | join hi => exact .inl rfl
  | call hi hrun hp => exact .inl rfl
  | act hi hrun ha => exact .inl rfl
  | ret hi hrun => exact .inl rfl
  | exit hi => exact .inl rfl
  | crash => exact .inr (.inl rfl)
  | accept hn ha hg =>
    rename_i n c
    refine .inr (.inr ⟨_, .connect ?_, rfl⟩)
    cases ht : s.broker.tenants[n]? with
    | none => rfl
    | some t =>
      obtain ⟨c', hc', ha', -⟩ := (h.tenants n).1 (by simp [ht])
      rw [hn] at hc'
      cases hc'
      exact absurd (ha.symm.trans ha') (by decide)
  | deliver hn ha hg hup =>
    rename_i n c m ms
    obtain ⟨t, ht⟩ := tenant_of_accepted h hn ha hg
    have hq := h.queue n c hn hg
    have hrecord : s.broker.record n c.owner = t := by simp [Broker.record, ht]
    rw [hrecord, hup] at hq
    exact .inr (.inr ⟨_, .msg ht hq.1 hn (hup ▸ List.mem_cons_self), rfl⟩)
  | hangup hn ha hg hup hsh =>
    obtain ⟨t, ht⟩ := tenant_of_accepted h hn ha hg
    refine .inr (.inr ⟨_, .leave ht (by decide) ?_, rfl⟩)
    simp [Broker.step, ht, Broker.onReadable]
  | fail hn ha hg =>
    obtain ⟨t, ht⟩ := tenant_of_accepted h hn ha hg
    refine .inr (.inr ⟨_, .leave ht (show (-1 : Int) ≠ sizeofMsg by decide) ?_, rfl⟩)
    simp [Broker.step, ht, Broker.onReadable]

/-- An event that arrives names the size of the moving chunk, if it is a `Resync`. -/
theorem Arrives.keepsMovingSize {s : Sys} {e : Event} (h : Arrives s e) : s.broker.KeepsMovingSize e := by
  cases h with
  | connect hn => trivial
  | leave hn hr h => exact fun he => absurd he hr
  | msg hn hord hc hm =>
    intro _ t ht
    have ht : s.broker.tenants[_]? = some t := ht
    rw [hn] at ht
    cases ht
    exact Tenant.resyncKeepsSize_of_orderly hord

/-! ## The cap -/

/-- Total of the records, and those of the others. -/
theorem bytes_split {b : Broker} {n : ConnId} {t : Tenant} (h : b.tenants[n]? = some t) (l : Loc) :
    b.bytes l = t.bytes l + OrdMap.total (b.tenants.erase n) fun _ t => t.bytes l :=
  OrdMap.total_of_getElem? h _

/-- The greeted tenants are one of them and the others. -/
theorem greeted_split {b : Broker} {n : ConnId} {t : Tenant} (h : b.tenants[n]? = some t) :
    b.greeted = (if t.hello = true then 1 else 0) +
      OrdMap.total (b.tenants.erase n) fun _ t => if t.hello = true then 1 else 0 :=
  OrdMap.total_of_getElem? h _

/-- What arrives keeps the bytes on the device under the global limit, as long as no total reaches 2^64: they grow only by a
grant, which fits. -/
theorem arrives_capped {s : Sys} {e : Event} (h : Arrives s e) (hc : s.broker.Conserved) (hs : s.broker.Sound)
    (hlt : s.broker.owed .device < 2 ^ 64) (hlt' : (s.broker.step e).b.owed .device < 2 ^ 64)
    (hres : ∀ (n : ConnId) (c : Conn), s.conns[n]? = some c → ∀ m ∈ c.up, m.type ≠ .resync)
    (hcap : s.broker.bytes .device ≤ s.broker.g.vramLimit.toNat) :
    (s.broker.step e).b.bytes .device ≤ s.broker.g.vramLimit.toNat := by
  cases h with
  | connect hn =>
    rename_i n pid
    have hself : (s.broker.step (.connect n pid)).b.tenants = s.broker.tenants.insert n { pid } := by
      simp [Broker.step, Broker.onConnect, Std.ExtTreeMap.getD_eq_getD_getElem?, hn]
    have hzero : ({ pid } : Tenant).bytes .device = 0 := by simp [Tenant.bytes, tableBytes, moveBytes]
    rw [Broker.bytes, hself, OrdMap.total_insert_new hn, hzero, zero_add]
    exact hcap
  | leave hn hr h =>
    rename_i n t r
    rw [h, Broker.bytes]
    rw [bytes_split hn] at hcap
    exact le_trans (Nat.le_add_left _ _) hcap
  | msg hn hord hconn hm =>
    rename_i n t m c
    have hstep := BrokerOrderAux.step_msg hn m
    have hself : (s.broker.step (.msg n m)).b.tenants[n]? = some (handle { t, g := s.broker.g } m).1.t := by
      rw [hstep]
      simp [Broker.onMsg]
    have hother : (s.broker.step (.msg n m)).b.tenants.erase n = s.broker.tenants.erase n := s.broker.step_other (.msg n m)
    have hov := s.broker.step_ctxOverhead (.msg n m)
    have hbytes' := bytes_split hself .device
    rw [hother] at hbytes'
    have hbytes := bytes_split hn .device
    cases hreq : m.type.isRequest with
    | false =>
      have hle : (t.applied s.broker.g.ctxOverhead m).bytes _ ≤ _ := hord.bytes_le hreq (hres n c hconn m hm) .device
      rw [handle_report rfl hreq] at hbytes'
      simp only [reduceCtorEq, if_false] at hle
      omega
    | true =>
      rcases (request_raised (g := s.broker.g) hreq .device).2 (hs n t hn) with heq | ⟨size, heq, -, hfit, hhello⟩
      · omega
      · have hgreeted : (s.broker.step (.msg n m)).b.greeted = s.broker.greeted := by
          rw [greeted_split hself, greeted_split hn, hother, hhello]
        have hexact := Broker.exact hc hs hlt
        rw [owed_device, hov, hgreeted] at hlt'
        rw [owed_device] at hlt hexact
        have hsum : (s.broker.g.count .device + size).toNat = (s.broker.g.count .device).toNat + size.toNat := by
          rw [BitVec.toNat_add, Nat.mod_eq_of_lt]
          omega
        have hle : (s.broker.g.count .device + size).toNat ≤ s.broker.g.vramLimit.toNat := hfit
        omega

/-! ## Runs without `Resync` -/

/-- Every connection was made without memory, and no `Resync` is on its way. -/
def AllWhole (conns : OrdMap ConnId Conn) : Prop :=
  ∀ (n : ConnId) (c : Conn), conns[n]? = some c → c.whole = true ∧ ∀ m ∈ c.up, m.type ≠ .resync

/-- A connection made without memory joins others of its kind. -/
theorem allWhole_insert {conns : OrdMap ConnId Conn} (h : AllWhole conns) {n : ConnId} {c : Conn} (hw : c.whole = true)
    (hup : ∀ m ∈ c.up, m.type ≠ .resync) : AllWhole (conns.insert n c) := by
  intro k d hd
  simp only [Std.ExtTreeMap.getElem?_insert, Std.compare_eq_iff_eq] at hd
  split at hd
  · cases hd
    exact ⟨hw, hup⟩
  · exact h k d hd

/-- Closing a descriptor leaves the connections whole. -/
theorem allWhole_shutConn {conns : OrdMap ConnId Conn} (h : AllWhole conns) (x : Option (Option ConnId)) :
    AllWhole (shutConn conns x) := by
  unfold shutConn
  split
  · rename_i n
    split
    · exact h
    · rename_i c hc
      exact allWhole_insert h (h n c hc).1 (h n c hc).2
  · exact h

/-- So does closing all of a process. -/
theorem allWhole_shutAll {conns : OrdMap ConnId Conn} (h : AllWhole conns) (socks : OrdMap Fd (Option ConnId)) :
    AllWhole (shutAll conns socks) := by
  unfold shutAll
  generalize socks.toList = l
  induction l generalizing conns with
  | nil => exact h
  | cons p l ih => exact ih (allWhole_shutConn h _)

/-- So does a call that sends no `Resync` and connects without memory. -/
theorem allWhole_act {conns conns' : OrdMap ConnId Conn} {i : Nat} {cl cl' : Client} {o : Op} {r : o.Answer} {s : Sys}
    (h : AllWhole conns) (ha : Act conns i cl o r cl' conns') (hi : s.clients[i]? = some cl) (hp : Plain s (.act i o r)) :
    AllWhole conns' := by
  cases o with
  | cu c => exact ha.1 ▸ h
  | drop c => exact ha.1 ▸ h
  | cudaSetDevice d => exact ha.2 ▸ h
  | cudaFreeNull => exact ha.2 ▸ h
  | «attribute» a d => exact ha.2 ▸ h
  | setsockopt fd n => exact ha.2 ▸ h
  | atFailed => exact ha.elim
  | socket => exact ha.1 ▸ h
  | close fd =>
    obtain ⟨-, rfl⟩ := ha
    exact allWhole_shutConn h _
  | connect fd path =>
    cases r with
    | some e => exact ha.2 ▸ h
    | none =>
      obtain ⟨-, n, -, -, rfl⟩ := ha
      exact allWhole_insert h (by simp [hp cl hi]) nofun
  | send fd m =>
    obtain ⟨-, ha⟩ := ha
    cases r with
    | some e => exact ha ▸ h
    | none =>
      obtain ⟨f, n, c, -, -, hn, rfl⟩ := ha
      have hm : m.type ≠ .resync := hp
      obtain ⟨hw, hup⟩ := h n c hn
      unfold Conn.push
      split
      · exact allWhole_insert h hw hup
      · refine allWhole_insert h (by simp [hw, hm]) fun x hx => ?_
        rcases List.mem_append.1 hx with hx | hx
        · exact hup x hx
        · rw [List.mem_singleton.1 hx]
          exact hm
  | recv fd =>
    obtain ⟨-, ha⟩ := ha
    cases r with
    | error e => exact ha ▸ h
    | short n => exact ha ▸ h
    | reply rep =>
      obtain ⟨f, n, c, rest, -, -, hn, -, rfl⟩ := ha
      exact allWhole_insert h (h n c hn).1 (h n c hn).2

/-- So does every step of a run without `Resync`. -/
theorem allWhole_step {cfg : Global} {s s' : Sys} {l : Label} (h : AllWhole s.conns) (hs : s.Step cfg l s') (hp : Plain s l) :
    AllWhole s'.conns := by
  cases hs with
  | join hi => exact h
  | call hi hrun hp => exact h
  | act hi hrun ha => exact allWhole_act h ha hi hp
  | ret hi hrun => exact h
  | exit hi => exact allWhole_shutAll h _
  | accept hn ha hg => exact allWhole_insert h (h _ _ hn).1 (h _ _ hn).2
  | deliver hn ha hg hup =>
    refine allWhole_insert h (h _ _ hn).1 fun m hm => (h _ _ hn).2 m ?_
    rw [hup]
    exact List.mem_cons_of_mem _ hm
  | hangup hn ha hg hup hsh => exact allWhole_insert h (h _ _ hn).1 (h _ _ hn).2
  | fail hn ha hg => exact allWhole_insert h (h _ _ hn).1 (h _ _ hn).2
  | crash =>
    intro n c hc
    simp only [dropAll, Std.ExtTreeMap.getElem?_map] at hc
    obtain ⟨d, hd, rfl⟩ := Option.map_eq_some_iff.1 hc
    exact h n d hd

/-- What holds of the broker in a run without `Resync` whose totals stay below 2^64. -/
structure Capped (cfg : Global) (s : Sys) : Prop where
  conserved : s.broker.Conserved
  sound : s.broker.Sound
  config : s.broker.g.rest = cfg.rest
  owed : ∀ l, s.broker.owed l < 2 ^ 64
  whole : AllWhole s.conns
  cap : s.broker.bytes .device ≤ cfg.vramLimit.toNat

/-- At the start nothing is counted. -/
theorem Capped.start (cfg : Global) : Capped cfg (Sys.start cfg) := by
  refine ⟨Broker.start_conserved cfg, fun fd t ht => ?_, rfl, fun l => ?_, fun n c hc => ?_, ?_⟩
  · simp [Sys.start, Broker.start] at ht
  · simp [Sys.start, Broker.start, Broker.owed]
  · simp [Sys.start] at hc
  · simp [Sys.start, Broker.start, Broker.bytes]

/-- Every step of such a run keeps the device under the global limit. -/
theorem Capped.step {cfg : Global} {s s' : Sys} {l : Label} (h : Capped cfg s) (hi : s.Inv cfg.ctxOverhead)
    (hs : s.Step cfg l s') (hp : Plain s l) (hlt : ∀ l, s'.broker.owed l < 2 ^ 64) : Capped cfg s' := by
  have hwhole := allWhole_step h.whole hs hp
  have hlimit : s.broker.g.vramLimit = cfg.vramLimit := by
    have hrest := congrArg Global.vramLimit h.config
    exact hrest
  rcases broker_cases hi hs with hb | hb | ⟨e, he, hb⟩
  · refine ⟨?_, ?_, ?_, hlt, hwhole, ?_⟩ <;> rw [hb]
    · exact h.conserved
    · exact h.sound
    · exact h.config
    · exact h.cap
  · have hstart := Capped.start cfg
    refine ⟨?_, ?_, ?_, hlt, hwhole, ?_⟩ <;> rw [hb]
    · exact hstart.conserved
    · exact hstart.sound
    · exact hstart.config
    · exact hstart.cap
  · have hlt' := hlt .device
    rw [hb] at hlt'
    refine ⟨?_, ?_, ?_, hlt, hwhole, ?_⟩ <;> rw [hb]
    · exact Broker.step_conserved h.conserved e
    · exact Broker.step_sound h.sound he.keepsMovingSize
    · exact (s.broker.step_config e).trans h.config
    · have hcap := h.cap
      rw [← hlimit] at hcap ⊢
      exact arrives_capped he h.conserved h.sound (h.owed .device) hlt' (fun n c hc => (h.whole n c hc).2) hcap

/-- The device is under the global limit in every such run. -/
theorem Capped.of_reached {cfg : Global} {s : Sys}
    (h : s.Reached cfg fun s l s' => Plain s l ∧ ∀ l, s'.broker.owed l < 2 ^ 64) : Capped cfg s := by
  refine h.induct (P := Capped cfg) (Capped.start cfg) ?_
  intro s l s' hr hcap hs ha
  exact hcap.step hr.inv hs ha.1 ha.2

/-! ## What processes hold -/

/-- The entries of a map with one entry. -/
theorem toList_single (fd : Fd) (x : Option ConnId) : ((∅ : OrdMap Fd (Option ConnId)).insert fd x).toList = [(fd, x)] := by
  have hperm := OrdMap.toList_insert_perm (∅ : OrdMap Fd (Option ConnId)) fd x
  rw [OrdMap.erase_of_getElem? (by simp)] at hperm
  exact List.perm_singleton.1 hperm

/-- A connected process sees a connection that is live. -/
theorem live_of_connected {s : Sys} {i : Nat} {cl : Client} {v : View} (hv : ClientHolds ov s.broker s.conns i cl v)
    (hc : s.connected cl = true) : ∃ (fd : Fd) (p : Peer) (n : ConnId) (c : Conn), v.sock = some (fd, p) ∧
      s.conns[n]? = some c ∧ c.owner = i ∧ c.gone = false ∧ p.Live ov (s.broker.record n i) c := by
  have hsock := hv.sock
  cases hs : v.sock with
  | none =>
    rw [hs] at hsock
    have hsocks : cl.socks = ∅ := hsock
    rw [Sys.connected, hsocks] at hc
    cases hc
  | some fp =>
    obtain ⟨fd, p⟩ := fp
    rw [hs] at hsock
    rcases hsock with ⟨-, hsocks⟩ | ⟨n, c, hsocks, hn, ho, -, hlive, -⟩
    · rw [Sys.connected, hsocks, toList_single] at hc
      cases hc
    · rw [Sys.connected, hsocks, toList_single] at hc
      have hg : c.gone = false := by simpa [hn] using hc
      exact ⟨fd, p, n, c, rfl, hn, ho, hg, hlive hg⟩

/-- At any point of a call the record covers the copies on the device. -/
theorem room_of_holds {b : Broker} {conns : OrdMap ConnId Conn} {i : Nat} {cl : Client} {v : View}
    (hv : ClientHolds ov b conns i cl v) : v.Room 0 := by
  have hrun := hv.run
  cases hr : cl.run with
  | none =>
    rw [hr] at hrun
    exact ViewAux.Boundary.room hrun
  | some p =>
    rw [hr] at hrun
    cases p with
    | ret a => exact ViewAux.Boundary.room hrun
    | op o k => exact hrun.1.1

/-- A request takes no bytes off. -/
theorem answers_bytes_le {t t' : Tenant} {m : Msg} {rep : Reply} (hm : m.type.isRequest = true)
    (h : t.Answers ov m rep t') (l : Loc) : t.bytes l ≤ t'.bytes l := by
  obtain ⟨g, -, -, rfl⟩ := h
  exact (@request_raised ov _ _ _ hm l).1

/-- What a process sees as covered, its record at the broker covers. -/
theorem live_device_le {t₀ : Tenant} {c : Conn} {p : Peer} {n : ℕ} (hl : p.Live ov t₀ c) (hq : t₀.Queue ov c.up)
    (hw : c.whole = true) (hup : ∀ m ∈ c.up, m.type ≠ .resync) (hr : p.Room n) : n ≤ t₀.bytes .device := by
  cases p with
  | unconnected => exact hl.elim
  | idle t w =>
    obtain ⟨rfl, -, hno, hafter⟩ := hl
    rw [hw] at hr
    have hle := after_bytes_le .device hq hno hup
    rw [hafter] at hle
    exact le_trans hr hle
  | awaiting t m w =>
    obtain ⟨rfl, hreq, ⟨-, ms, hms, hno, hafter⟩ | ⟨-, rep, -, hans⟩⟩ := hl
    · rw [hw] at hr
      rw [hms] at hq hup
      have hle := after_bytes_le .device (queue_of_append hq) hno fun x hx => hup x (List.mem_append_left _ hx)
      rw [hafter] at hle
      exact le_trans hr hle
    · rw [hw] at hr
      exact le_trans hr (answers_bytes_le hreq hans .device)

/-- A connected process has a connection whose record covers its copies: those on the device always, those on the host between
calls and up to the `AllocFail`s on their way. -/
theorem held_le {s : Sys} (h : s.Inv ov) (hw : AllWhole s.conns) {i : Nat} {cl : Client} (hi : s.clients[i]? = some cl)
    (hc : s.connected cl = true) : ∃ (n : ConnId) (c : Conn), s.conns[n]? = some c ∧ c.owner = i ∧ c.gone = false ∧
      cl.gpu.bytes .device ≤ (s.broker.record n i).bytes .device ∧
      (cl.run = none → cl.gpu.bytes .host ≤ (s.broker.record n i).bytes .host + (s.broker.record n i).allocFails ov c.up) := by
  obtain ⟨v, hv⟩ := h.clients i cl hi
  obtain ⟨fd, p, n, c, hs, hn, rfl, hg, hlive⟩ := live_of_connected hv hc
  have hq := h.queue n c hn hg
  obtain ⟨hwhole, hup⟩ := hw n c hn
  refine ⟨n, c, hn, rfl, hg, ?_, fun hrun => ?_⟩
  · have hroom := room_of_holds hv fd p hs
    rw [hv.gpu] at hroom
    exact live_device_le hlive hq hwhole hup hroom
  · have hb := hv.run
    rw [hrun] at hb
    obtain ⟨⟨-, fd', t, w, -, hs', ht⟩ | ⟨-, -, hs'⟩, hm⟩ := hb
    · rw [hs] at hs'
      cases hs'
      obtain ⟨-, -, hno, hafter⟩ := hlive
      have hle := after_bytes_le .host hq hno hup
      have hcov := hm.backed.bytes_le .host
      rw [hv.gpu] at hcov
      rw [hafter, Tenant.bytes, ht.chunks] at hle
      simp only [if_true] at hle
      omega
    · rw [hs] at hs'
      cases hs'

/-- The open connections stand for no more bytes than the broker's records. -/
theorem conns_bytes_le {s : Sys} (l : Loc) :
    (OrdMap.total s.conns fun n c => if c.gone = true then 0 else (s.broker.record n c.owner).bytes l) ≤ s.broker.bytes l := by
  refine OrdMap.total_le_of_embed (fun n _ => n) fun n c hn hne => ?_
  cases ht : s.broker.tenants[n]? with
  | none =>
    have hzero : (s.broker.record n c.owner).bytes l = 0 := by
      simp [Broker.record, ht, Tenant.bytes, tableBytes, moveBytes]
    rw [hzero, ite_self] at hne
    exact absurd rfl hne
  | some t =>
    refine ⟨n, t, ht, rfl, ?_⟩
    have hrecord : s.broker.record n c.owner = t := by simp [Broker.record, ht]
    rw [hrecord]
    split
    · exact Nat.zero_le _
    · exact le_refl _

/-- What connected processes hold on the device is on the broker's records. -/
theorem deviceHeld_le {s : Sys} (h : s.Inv ov) (hw : AllWhole s.conns) : s.deviceHeld ≤ s.broker.bytes .device := by
  refine le_trans ?_ (conns_bytes_le .device)
  refine OrdMap.total_le_of_embed (fun _ c => c.owner) fun i cl hi hne => ?_
  have hc : s.connected cl = true := by
    by_contra hno
    rw [if_neg hno] at hne
    exact hne rfl
  obtain ⟨n, c, hn, rfl, hg, hle, -⟩ := held_le h hw hi hc
  refine ⟨n, c, hn, rfl, ?_⟩
  simpa [hc, hg] using hle

/-- What they hold on the host between two calls is on the records, but for the `AllocFail`s on their way. -/
theorem hostHeld_le {s : Sys} (h : s.Inv ov) (hw : AllWhole s.conns) : s.hostHeld ≤ s.broker.bytes .host + s.allocFails := by
  refine le_trans ?_ (Nat.add_le_add_right (conns_bytes_le .host) _)
  rw [Sys.allocFails, ← OrdMap.total_add]
  refine OrdMap.total_le_of_embed (fun _ c => c.owner) fun i cl hi hne => ?_
  have hc : s.connected cl = true ∧ cl.run.isNone = true := by
    by_contra hno
    rw [if_neg hno] at hne
    exact hne rfl
  obtain ⟨n, c, hn, rfl, hg, -, hle⟩ := held_le h hw hi hc.1
  refine ⟨n, c, hn, rfl, ?_⟩
  rw [h.overhead]
  simpa [hc.1, hc.2, hg] using hle (Option.isNone_iff_eq_none.1 hc.2)

end CapacityAux

end Vmem
