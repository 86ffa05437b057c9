import Vmem.Lemmas.Tenancy

/-!
# One tenant per allocator

An allocator holds one connection while its link is `Connected` and none otherwise, and nothing of a process stays with the broker but the
connections of its live allocators, unless a constructor rejects its sizes after it connected.
-/

namespace Vmem

namespace TenancyAux

open Allocator VmemBackend Throwing Prog

variable {out : Outside} {i : Nat} {invocation : List UInt8}

/-- A constructor whose backend could be opened ends with it, and throws if the sizes do not fit. -/
theorem construct_runs_of_open {c : Config} {env : Env} {b : VmemBackend} {s s' : Net} (hkind : envKind env c.backend = .ok .vmem)
    (hopen : Prog.Runs (Net.world out i) (served (openBackend ⟨c.device, env.daemon.or c.daemon, c.name, c.autoReconnect⟩ invocation) {}) s
      (.ok, some b) s') (hle : c.smallMax.toNat ≤ 2 ^ 63) :
    ∃ a : Allocator, Prog.Runs (tenancy out invocation i) ((construct c env).run {}) (none, s)
      (if c.SizesFit b.gran then .ok () else .error ⟨.unsupported, .config⟩, a) (some b, s') := by
  have hmake : (tenancy out invocation i).answers (.make .vmem) (none, s) () (some {}, s) := .ret _ _
  have hopen' : (tenancy out invocation i).answers (.openWith _) (some {}, s) .ok (some b, s') := hopen
  have hgran : (tenancy out invocation i).answers .granularity (some b, s') b.gran (some b, s') := .ret _ _
  refine ⟨{ cfg := { c with smallChunk := (c.smallChunk + b.gran - 1) / b.gran * b.gran } }, ?_⟩
  unfold construct
  refine runs_seq runs_modify ?_
  rw [hkind]
  refine runs_seq (runs_call hmake) (runs_seq (runs_call hopen') ?_)
  rw [if_neg (by decide)]
  refine runs_seq (runs_seq (runs_call hgran) runs_pure) (runs_seq runs_modify ?_)
  unfold bitCeil
  rw [if_pos hle]
  refine runs_seq runs_pure ?_
  by_cases hfit : c.SizesFit b.gran
  · rw [if_pos hfit, if_neg (BitVec.not_lt.2 hfit.2)]
    exact runs_pure
  · rw [if_neg hfit, if_pos (BitVec.not_le.1 fun h => hfit ⟨hle, h⟩)]
    exact .ret _ _

/-- A broker with the context overhead `ov`, and a backend that connects to it. -/
theorem open_runs (out : Outside) (hreads : ∀ b m, m.type = .hello → out.reads b (.msg 4 m)) :
    Prog.Runs (Net.world out 0) (served (openBackend { daemon := some [47] } []) {}) { broker := Broker.start out.cfg }
    (.ok, some { gran := 0x200000, path := [47], fd := some 3, link := .connected })
    { broker := (Broker.start out.cfg).run [.connect 4 77, .msg 4 { type := .hello }]
      socks := ((∅ : OrdMap Fd Sock).insert 3 { owner := 0 }).insert 3 { owner := 0, conn := some 4 }
      made := ((∅ : OrdMap ConnId Bool).insert 4 true).insert 4 false } := by
  -- the broker accepts the connection and reads the `Hello` before the reply is received
  have hbroker {s : Net} (hs : s.made = (∅ : OrdMap ConnId Bool).insert 4 true) (hb : s.broker = Broker.start out.cfg) : Net.Later out s
      { s with
        broker := (Broker.start out.cfg).run [.connect 4 77, .msg 4 { type := .hello }]
        made := ((∅ : OrdMap ConnId Bool).insert 4 true).insert 4 false } := by
    have h1 := @Net.BrokerStep.accept out s 4 77 (by rw [hs]; rfl)
    have h2 := @Net.BrokerStep.read out { s with broker := (s.broker.step (.connect 4 77)).b, made := s.made.insert 4 false } 4
      ⟨sizeofMsg, false, { type := .hello }⟩ (hreads _ _ rfl)
    rw [hs, hb] at h1 h2
    exact .tail (.single h1) h2
  -- nothing else happens between the calls
  have hquiet {o : Op} {r : o.Answer} {s s' : Net} (h : Net.After 0 s o r s') : (Net.world out 0).answers o s r s' := ⟨s, .refl, h⟩
  refine runs_ask true (hquiet rfl) (runs_ask true (hquiet rfl) (runs_ask (1 : Int) (hquiet rfl) (runs_ask (1 : Int) (hquiet rfl) ?_)))
  refine runs_ask (0 : Int) (hquiet rfl) (runs_ask (.ok 0x200000) (hquiet rfl) (runs_ask (.ok 0x200000) (hquiet rfl) ?_))
  refine runs_ask (.ok 3) (hquiet ⟨rfl, rfl⟩) (runs_ask none (hquiet rfl) (runs_ask none (hquiet ⟨4, rfl, rfl, rfl⟩) ?_))
  exact runs_ask none (hquiet rfl) (runs_ask (.reply ⟨.ok, .device⟩) ⟨_, hbroker rfl rfl, rfl⟩ (.ret _ _))

/-- With one connection, whose descriptor is open, there is no end left to be read. -/
theorem settled_of_open {s : Net} (hmade : s.made = ((∅ : OrdMap ConnId Bool).insert 4 true).insert 4 false)
    (hsock : s.socks[3]? = some { owner := 0, conn := some 4 }) : s.Settled := by
  intro n t _ hn
  have hn : n = 4 := by
    by_contra hne
    simp [hmade, OrdMap.getElem?_insert, hne] at hn
  exact ⟨3, _, hsock, by rw [hn]⟩

end TenancyAux

open TenancyAux in
/-- In every run of a process, with any outcomes of the driver, the sockets and the broker, in which each allocator whose backend connects
has sizes that fit, there is one tenant for each allocator that is connected and none for any other; the broker, once it has read the ends of
closed connections, has the overhead in its counts at most once for each live allocator. An allocator that connects and does not fit leaves
its connection behind. -/
theorem one_tenant_each (out : Outside) (invocation : List UInt8) (broker : Broker) (x : Process)
    (h : x.Reached out invocation Deed.Tidy broker) : x.OneTenantEach out invocation broker := by
  have hx := reached_sound h
  have hconn (fd : Fd) (k : Sock) (hk : x.net.socks[fd]? = some k) : ∃ n : ConnId, k = { owner := k.owner, conn := some n } := by
    obtain ⟨a, ha⟩ := hx.owned fd k hk
    have hl := hx.linked _ a ha
    obtain ⟨n, hn⟩ := hl.held fd (hl.own fd k hk rfl)
    exact ⟨n, Option.some.inj (hk.symm.trans hn)⟩
  constructor
  case one =>
    intro i a hi fd fd' k k' hk hk' ho ho'
    have hl := hx.linked i a hi
    exact Option.some.inj ((hl.own fd k hk ho).symm.trans (hl.own fd' k' hk' ho'))
  case connected =>
    intro i a hi
    have hl := hx.linked i a hi
    have hlink : a.link = (a.b.getD {}).link := by
      unfold Holder.link
      cases a.b <;> rfl
    rw [hlink, hl.link]
    constructor
    · rintro ⟨fd, n, hn⟩
      rw [hl.own fd _ hn rfl]
      rfl
    · intro hsome
      obtain ⟨fd, hfd⟩ := Option.isSome_iff_exists.1 hsome
      obtain ⟨n, hn⟩ := hl.held fd hfd
      exact ⟨fd, n, hn⟩
  case calls =>
    intro i a hi c
    exact Throwing.wp_mono (program_wp invocation c ⟨hx.linked i a hi, fun _ _ _ => Iff.rfl⟩) (fun _ _ _ _ => trivial) fun _ _ _ _ => trivial
  case destructs =>
    intro i a hi
    exact Throwing.wp_mono (destruct_wp invocation ⟨hx.linked i a hi, fun _ _ _ => Iff.rfl⟩) (fun _ _ _ _ => trivial) fun _ _ _ _ => trivial
  case constructs =>
    intro c env
    exact Throwing.wp_mono (construct_wp invocation c env (free_next hx)) (fun _ _ _ _ => trivial) fun _ _ _ _ => trivial
  case held =>
    intro fd k hk
    obtain ⟨n, hn⟩ := hconn fd k hk
    exact ⟨by rw [hn]; exact nofun, hx.owned fd k hk⟩
  case tenants =>
    intro hsettled n t ht hmade
    obtain ⟨fd, k, hk, hkn⟩ := hsettled n t ht hmade
    obtain ⟨a, ha⟩ := hx.owned fd k hk
    refine ⟨fd, k.owner, a, ?_, ha⟩
    rw [hk, ← hkn]
  case counts =>
    intro hreads hbroker
    have hb := broker_reached hreads h hbroker
    exact ⟨fun n t ht => device_eq (hb.ctxOverhead ▸ hb.sound (fun _ _ h => h) n t ht), hb.conserved .device⟩
  case overhead =>
    intro hsettled hreads hbroker
    exact ⟨_, greeted_le hx hsettled, counted_eq (broker_reached hreads h hbroker)⟩
  case ghost =>
    intro c env ob x' hs hle huntidy
    cases hs with
    | @construct c env r a ob s hr =>
      obtain ⟨hbound, hfits, -⟩ := construct_runs hx hr
      cases ob with
      | none => exact absurd trivial huntidy
      | some b =>
        obtain ⟨hl, hunfit⟩ := Classical.not_imp.1 huntidy
        have hr : r.isOk = false := by
          by_contra hok
          exact hunfit (hfits (by simpa using hok) b rfl hle)
        obtain ⟨fd, hfd⟩ := Option.isSome_iff_exists.1 (hbound.1.link.1 hl)
        obtain ⟨n, hn⟩ := hbound.1.held fd hfd
        refine ⟨fd, _, hn, nofun, ?_⟩
        rw [hr, if_neg (by decide)]
        cases hlive : x.live[x.next]? with
        | none => rfl
        | some a => exact absurd (hx.older _ a hlive) (Nat.lt_irrefl _)

/-- An allocator with the default sizes connects: the broker counts its overhead once. -/
theorem one_tenant_each_connected : ∃ x : Process, x.live.size = 1 ∧ x.net.Settled ∧
    (∃ (fd : Fd) (n : ConnId), x.net.socks[fd]? = some { owner := 0, conn := some n }) ∧
    (∃ t : Tenant, x.net.broker.tenants[4]? = some t ∧ t.hello = true ∧ t.device = 10 + t.recorded id .device + t.reserved id .device) ∧
    (∃ k : ℕ, k ≤ 1 ∧ x.net.counted = k * 10 + x.net.chunkBytes) ∧ x.net.broker.g.device = 10 := by
  obtain ⟨a, hr⟩ := @TenancyAux.construct_runs_of_open _ _ _ {} { daemon := some [47] } _ _ _ rfl
    (TenancyAux.open_runs { cfg := { ctxOverhead := 10 }, reads := Broker.KeepsMovingSize }
      fun _ _ hm _ _ _ hresync => nomatch hm.symm.trans hresync) (by decide)
  have hstart : Process.Reached { cfg := { ctxOverhead := 10 }, reads := Broker.KeepsMovingSize } [] Deed.Tidy
    (Broker.start { ctxOverhead := 10 }) (.start _) := .start
  have hreached := hstart.step (.construct hr) fun _ => by decide
  rw [if_pos (by decide)] at hreached
  have hone := one_tenant_each _ _ _ _ hreached
  exact ⟨_, rfl, TenancyAux.settled_of_open rfl rfl, (hone.connected 0 _ rfl).2 rfl,
    ⟨_, rfl, rfl, (hone.counts (fun _ _ h => h) .start).1 4 _ rfl⟩,
    hone.overhead (TenancyAux.settled_of_open rfl rfl) (fun _ _ h => h) .start, rfl⟩

/-- With `small_max` at 4 MiB the constructor connects and throws: no allocator is live, and the broker counts an overhead. -/
theorem one_tenant_each_false : ∃ x : Process,
    x.Reached { cfg := { ctxOverhead := 10 } } [] (fun _ => True) (Broker.start { ctxOverhead := 10 }) ∧
    x.live.size = 0 ∧ (∃ (fd : Fd) (n : ConnId), x.net.socks[fd]? = some { owner := 0, conn := some n }) ∧ x.net.Settled ∧
    x.net.broker.g.device = 10 ∧ x.net.counted = 10 := by
  obtain ⟨a, hr⟩ := @TenancyAux.construct_runs_of_open _ _ _ { smallMax := 4 <<< 20 } { daemon := some [47] } _ _ _ rfl
    (TenancyAux.open_runs { cfg := { ctxOverhead := 10 } } fun _ _ _ => trivial) (by decide)
  have hstart : Process.Reached { cfg := { ctxOverhead := 10 } } [] (fun _ => True) (Broker.start { ctxOverhead := 10 }) (.start _) := .start
  have hreached := hstart.step (.construct hr) trivial
  rw [if_neg (by decide)] at hreached
  exact ⟨_, hreached, rfl, ⟨3, 4, rfl⟩, TenancyAux.settled_of_open rfl rfl, rfl, by decide⟩

end Vmem
